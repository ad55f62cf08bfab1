import FormalLogic.Predicate.Term
import FormalLogic.Propositional.Formula

/-!
# Predicate formulas

Atomic formulas are equalities of terms and relations applied to terms. Formulas are built from them by
negation, three connectives and two quantifiers.

Where a formula is expected, a term may have been given, or nothing. Such a place holds a `bare` term,
and a missing one if nothing was given. A bare term that is not missing can be the second operand of a
connective or what a quantifier binds, but neither a first operand nor what a negation negates. Names
can be collected from a formula if no argument of its atomic parts and no bare term is missing; free
variables and relations can be collected if there is no bare term at all.
-/

namespace FormalLogic.Predicate

/-- The binary connectives of predicate logic. -/
inductive Connective
  | and
  | or
  | implies
  deriving DecidableEq, Repr

namespace Connective

/-- How a connective is written. -/
def symbol : Connective → String
  | and => "&"
  | or => "|"
  | implies => "->"

/-- The connective that a text denotes. -/
def ofSymbol? (s : String) : Option Connective :=
  if s == "&" then some and else if s == "|" then some or
  else if s == "->" then some implies else none

/-- The truth function of a connective. -/
def eval : Connective → Bool → Bool → Bool
  | and, a, b => a && b
  | or, a, b => a || b
  | implies, a, b => !a || b

/-- The propositional connective of the same meaning. -/
def toPropositional : Connective → Propositional.Connective
  | and => .and
  | or => .or
  | implies => .implies

/-- The connective with the meaning of a propositional one, if there is one. -/
def ofPropositional? : Propositional.Connective → Option Connective
  | .and => some and
  | .or => some or
  | .implies => some implies
  | _ => none

end Connective

/-- The quantifiers. -/
inductive Quantifier
  | universal
  | existential
  deriving DecidableEq, Repr

namespace Quantifier

/-- How a quantifier is written. -/
def symbol : Quantifier → String
  | .universal => "A"
  | .existential => "E"

/-- The quantifier that a text denotes. -/
def ofSymbol? (s : String) : Option Quantifier :=
  if s == "A" then some .universal else if s == "E" then some .existential else none

/-- The other quantifier. -/
def dual : Quantifier → Quantifier
  | .universal => .existential
  | .existential => .universal

end Quantifier

/-- A predicate formula, or a term that stands in the place of one. -/
inductive Formula
  | equal (left right : Term)
  | rel (name : String) (args : List Term)
  | neg (operand : Formula)
  | bin (op : Connective) (left right : Formula)
  | quant (q : Quantifier) (name : String) (body : Formula)
  | bare (t : Term)
  deriving DecidableEq, Repr

namespace Formula

/-- The place of a formula that was not given. -/
@[match_pattern]
abbrev missing : Formula := bare .missing

/-! ## Short forms -/

/-- An implication. -/
abbrev imp (l r : Formula) : Formula := bin .implies l r

/-- A conjunction. -/
abbrev conj (l r : Formula) : Formula := bin .and l r

/-- A disjunction. -/
abbrev disj (l r : Formula) : Formula := bin .or l r

/-- A universal quantification. -/
abbrev forAll (x : String) (f : Formula) : Formula := quant .universal x f

/-- An existential quantification. -/
abbrev exist (x : String) (f : Formula) : Formula := quant .existential x f

/-! ## Text -/

/-- The symbol at the root of a formula. -/
def root : Formula → String
  | equal _ _ => "="
  | rel name _ => name
  | neg _ => "~"
  | bin op _ _ => op.symbol
  | quant q _ _ => q.symbol
  | bare t => t.root

/-- The text of a formula. -/
def text : Formula → String
  | equal l r => l.text ++ "=" ++ r.text
  | rel name ts => name ++ "(" ++ ",".intercalate (Term.texts ts) ++ ")"
  | neg f => "~" ++ f.text
  | bin op l r => "(" ++ l.text ++ op.symbol ++ r.text ++ ")"
  | quant q x f => q.symbol ++ x ++ "[" ++ f.text ++ "]"
  | bare t => t.text

/-! ## Names in a formula -/

/-- The terms of the atomic formulas and the bare terms, from left to right. -/
def terms : Formula → List Term
  | equal l r => [l, r]
  | rel _ ts => ts
  | neg f => f.terms
  | bin _ l r => l.terms ++ r.terms
  | quant _ _ f => f.terms
  | bare t => [t]

/-- The set of constants of a formula. -/
def constants (f : Formula) : List String :=
  sortedSet (Term.constantLeavesOf f.terms)

/-- The variables of a formula, quantified ones included, with repetitions. -/
def variableNames : Formula → List String
  | equal l r => l.variableLeaves ++ r.variableLeaves
  | rel _ ts => Term.variableLeavesOf ts
  | neg f => f.variableNames
  | bin _ l r => l.variableNames ++ r.variableNames
  | quant _ x f => f.variableNames ++ [x]
  | bare t => t.variableLeaves

/-- The set of variables of a formula, quantified ones included. -/
def vars (f : Formula) : List String :=
  sortedSet f.variableNames

/-- The free occurrences of variables, from left to right. -/
def freeNames : Formula → List String
  | equal l r => l.variableLeaves ++ r.variableLeaves
  | rel _ ts => Term.variableLeavesOf ts
  | neg f => f.freeNames
  | bin _ l r => l.freeNames ++ r.freeNames
  | quant _ x f => f.freeNames.filter fun y => decide (y ≠ x)
  | bare _ => []

/-- The set of free variables of a formula. -/
def freeVariables (f : Formula) : List String :=
  sortedSet f.freeNames

/-- The set of functions of a formula with their numbers of arguments. -/
def functions (f : Formula) : List (String × Nat) :=
  sortedSignature (Term.functionNodesOf f.terms)

/-- The relations of a formula with their numbers of arguments, with repetitions. -/
def relationNodes : Formula → List (String × Nat)
  | equal _ _ => []
  | rel name ts => [(name, ts.length)]
  | neg f => f.relationNodes
  | bin _ l r => l.relationNodes ++ r.relationNodes
  | quant _ _ f => f.relationNodes
  | bare _ => []

/-- The set of relations of a formula with their numbers of arguments. -/
def relations (f : Formula) : List (String × Nat) :=
  sortedSignature f.relationNodes

/-! ## Bare terms and missing parts -/

/-- Whether a term stands in the place of a formula. -/
def isBare : Formula → Bool
  | bare _ => true
  | _ => false

/-- Whether a term stands in the place of some part of a formula. -/
def hasBare : Formula → Bool
  | neg f => f.hasBare
  | bin _ l r => l.hasBare || r.hasBare
  | quant _ _ f => f.hasBare
  | f => f.isBare

/-- Whether no formula was given. -/
def isMissing : Formula → Bool
  | missing => true
  | _ => false

/-- A formula that is looked into, and must have been given. -/
def given (f : Formula) : Outcome Formula :=
  if f.isMissing then .error .absent else .ok f

/-- A formula that becomes part of another, and must have been given. -/
def present (f : Formula) : Outcome Formula :=
  if f.isMissing then .error (.unmet .operandPresent) else .ok f

/-- A formula whose names are collected. All arguments of its atomic parts and all bare terms must have
been given. -/
def named (f : Formula) : Outcome Formula :=
  if f.terms.any Term.isMissing then .error .absent else .ok f

/-- A formula whose free variables are collected. It must have no bare term, and all arguments of its
atomic parts must have been given. -/
def proper (f : Formula) : Outcome Formula :=
  if f.hasBare then .error .absent else f.named

end Formula

end FormalLogic.Predicate
