import FormalLogic.Failure
import FormalLogic.FreshNames
import FormalLogic.Table
import FormalLogic.Text.CharClass
import FormalLogic.Text.Listing
import FormalLogic.Text.Quoted
import FormalLogic.Propositional.Draft
import FormalLogic.Propositional.Buffer
import FormalLogic.Propositional.Substitution
import FormalLogic.Propositional.TruthTable
import FormalLogic.Propositional.Synthesis
import FormalLogic.Propositional.Conversion
import FormalLogic.Propositional.Axioms
import FormalLogic.Propositional.Inlining
import FormalLogic.Propositional.Merging
import FormalLogic.Propositional.Traversal
import FormalLogic.Propositional.Derivations
import FormalLogic.Propositional.Tautology
import FormalLogic.Predicate.Construction
import FormalLogic.Predicate.Reading
import FormalLogic.Predicate.Substitution
import FormalLogic.Predicate.Skeleton
import FormalLogic.Predicate.EqualityElimination
import FormalLogic.Predicate.Proof
import FormalLogic.Predicate.Axioms
import FormalLogic.Predicate.Prover
import FormalLogic.Predicate.Theorems
import FormalLogic.Predicate.Deduction
import FormalLogic.Predicate.Prenex
import FormalLogic.Predicate.Completeness
import FormalLogic.Sealed
import FormalLogic.Tour.Item
import FormalLogic.Tour.PropositionalSyntax
import FormalLogic.Tour.PropositionalSemantics
import FormalLogic.Tour.PropositionalProofs
import FormalLogic.Tour.PredicateSyntax
import FormalLogic.Tour.PredicateSemantics
import FormalLogic.Tour.PredicateProofs
import FormalLogic.Predicate.Assembly
import FormalLogic.Proofs.Outcome
import FormalLogic.Proofs.Propositional.Reading
import FormalLogic.Proofs.Propositional.Buffer
import FormalLogic.Proofs.Propositional.Languages
import FormalLogic.Proofs.Table
import FormalLogic.Proofs.Propositional.Semantics
import FormalLogic.Proofs.Propositional.Decision
import FormalLogic.Proofs.Propositional.Synthesis
import FormalLogic.Proofs.Propositional.Matching
import FormalLogic.Proofs.Propositional.Checking
import FormalLogic.Proofs.Propositional.Soundness
import FormalLogic.Proofs.Propositional.Derivation
import FormalLogic.Proofs.Propositional.Deduction
import FormalLogic.Proofs.Propositional.Detachment
import FormalLogic.Proofs.Propositional.IndirectProof
import FormalLogic.Proofs.Propositional.Specialization
import FormalLogic.Proofs.Propositional.ExactMatching
import FormalLogic.Proofs.Propositional.Merging
import FormalLogic.Proofs.Propositional.Inlining
import FormalLogic.Proofs.Propositional.OrderedInlining
import FormalLogic.Proofs.Propositional.Conversion
import FormalLogic.Proofs.Propositional.Substitution
import FormalLogic.Proofs.Propositional.OperatorSubstitution
import FormalLogic.Proofs.Propositional.TextLookup
import FormalLogic.Proofs.Propositional.Traversal
import FormalLogic.Proofs.Propositional.Tautology
import FormalLogic.Proofs.Propositional.Consistency
import FormalLogic.Proofs.Predicate.Syntax
import FormalLogic.Proofs.Predicate.Reading
import FormalLogic.Proofs.Predicate.FormulaReading
import FormalLogic.Proofs.Predicate.UniqueReading
import FormalLogic.Proofs.Predicate.NameScanning
import FormalLogic.Proofs.Predicate.Semantics
import FormalLogic.Proofs.Predicate.Satisfaction
import FormalLogic.Proofs.Predicate.Evaluation
import FormalLogic.Proofs.Predicate.QuantifierBlocks
import FormalLogic.Proofs.Predicate.Substitution
import FormalLogic.Proofs.Predicate.Refusals
import FormalLogic.Proofs.Predicate.Capture
import FormalLogic.Proofs.Predicate.ForbiddenVariables
import FormalLogic.Proofs.Predicate.Instantiation
import FormalLogic.Proofs.Predicate.Axioms
import FormalLogic.Proofs.Predicate.Skeleton
import FormalLogic.Proofs.Predicate.FaithfulSkeletons
import FormalLogic.Proofs.Predicate.Proving
import FormalLogic.Proofs.Predicate.Abstraction
import FormalLogic.Proofs.Predicate.Prenex.Conversion
import FormalLogic.Proofs.Predicate.Prenex.Equivalence
import FormalLogic.Proofs.Predicate.Prenex.Renaming
import FormalLogic.Proofs.Predicate.Prenex.Pulling
import FormalLogic.Proofs.Predicate.Prenex.NormalForm
import FormalLogic.Proofs.Predicate.Completeness.ClosedSets
import FormalLogic.Proofs.Predicate.Completeness.DescribedModel
import FormalLogic.Proofs.Predicate.Completeness.Verdict
import FormalLogic.Proofs.Predicate.DerivedSteps
import FormalLogic.Proofs.Predicate.FreeInstances
import FormalLogic.Proofs.Predicate.Deduction
import FormalLogic.Proofs.Predicate.FunctionElimination.Graphs
import FormalLogic.Proofs.Predicate.FunctionElimination.Compilation
import FormalLogic.Proofs.Predicate.FunctionElimination.CompiledTerms
import FormalLogic.Proofs.Predicate.FunctionElimination.Formulas
import FormalLogic.Proofs.Predicate.FunctionElimination.GraphAxioms
import FormalLogic.Proofs.Predicate.FunctionElimination.FormulaSets
import FormalLogic.Proofs.Predicate.FunctionElimination.ModelRoundTrip
import FormalLogic.Proofs.Predicate.FunctionElimination.GraphRecognition
import FormalLogic.Proofs.Predicate.EqualityElimination.Sameness
import FormalLogic.Proofs.Predicate.EqualityElimination.SameAxioms
import FormalLogic.Proofs.Predicate.EqualityElimination.Classes
import FormalLogic.Proofs.Predicate.EqualityElimination.VisitOrder
import FormalLogic.Proofs.Predicate.EqualityElimination.Quotient
import FormalLogic.Proofs.Predicate.EqualityElimination.Diagonal
