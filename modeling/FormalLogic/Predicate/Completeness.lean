import FormalLogic.Predicate.Model
import FormalLogic.Predicate.Prenex

/-!
# Completeness

A set of prenex sentences is closed if it decides every primitive sentence over its constants, contains
every instance of its universal sentences, and contains a witness for each of its existential ones. A
closed set has a model, whose elements are the constants, or else it is contradictory.
-/

namespace FormalLogic.Predicate

namespace Sentences

/-- Requires that formulas are sentences in prenex normal form. -/
def check (sentences : List Formula) : Outcome Unit :=
  sentences.forM fun s => do
    require (← s.given).isPrenex .normalForm
    require (← s.proper).freeVariables.isEmpty .normalForm

/-- The constants of formulas, in ascending order. -/
def constants (fs : List Formula) : List String :=
  sortedSet (fs.flatMap Formula.constants)

/-- The constants of formulas whose atoms are complete. -/
def namedConstants (fs : List Formula) : Outcome (List String) := do
  return constants (← fs.mapM Formula.named)

/-- All rows of a length over a list. -/
def rows (elements : List String) : Nat → List (List String)
  | 0 => [[]]
  | n + 1 => elements.flatMap fun e => (rows elements n).map (e :: ·)

/-- The primitive sentences over the relations and constants of formulas. -/
def primitives (fs : List Formula) : List Formula :=
  (fs.flatMap Formula.relations).eraseDups.flatMap fun r =>
    (rows (constants fs) r.2).map fun row => .rel r.1 (row.map Term.const)

/-- Whether the instance of a formula with a constant for a variable is in a set. -/
def containsInstance (sentences : List Formula) (x : String) (f : Formula) (c : String) :
    Outcome Bool := do
  return sentences.contains (← f.substitute [(x, .const c)] [])

/-- Whether each primitive sentence or its negation is in a set. -/
def decidesPrimitives (sentences : List Formula) : Bool :=
  (primitives sentences).all fun p => sentences.contains p || sentences.contains (.neg p)

/-- Whether all instances of universal sentences are in a set. -/
def containsInstances (sentences : List Formula) : Outcome Bool :=
  sentences.allM fun
    | .quant .universal x f => (constants sentences).allM (containsInstance sentences x f)
    | _ => .ok true

/-- Whether a witness for each existential sentence is in a set. -/
def containsWitnesses (sentences : List Formula) : Outcome Bool :=
  sentences.allM fun
    | .quant .existential x f => (constants sentences).anyM (containsInstance sentences x f)
    | _ => .ok true

/-- Whether a set is primitively closed. -/
def isPrimitivelyClosed (sentences : List Formula) : Outcome Bool := do
  check sentences
  return decidesPrimitives sentences

/-- Whether a set is universally closed. -/
def isUniversallyClosed (sentences : List Formula) : Outcome Bool := do
  check sentences
  containsInstances sentences

/-- Whether a set is existentially closed. -/
def isExistentiallyClosed (sentences : List Formula) : Outcome Bool := do
  check sentences
  containsWitnesses sentences

/-- Whether a set is closed. -/
def isClosed (sentences : List Formula) : Outcome Bool := do
  check sentences
  if decidesPrimitives sentences then
    if ← containsInstances sentences then containsWitnesses sentences else return false
  else return false

/-! ## Unsatisfied sentences -/

/-- How many quantifiers stand in front of a formula. -/
def leadingQuantifiers : Formula → Nat
  | .quant _ _ f => leadingQuantifiers f + 1
  | _ => 0

/-- Requires that a sentence of a set does not hold in a model whose elements, which are listed, are
constants. -/
def checkUnsatisfied (sentences : List Formula) (m : Model) (elements : List String) (f : Formula) :
    Outcome Unit := do
  elements.forM (requireName isConstant)
  require (← f.given).isPrenex .normalForm
  require (← f.proper).freeVariables.isEmpty .closed
  require (sentences.contains f) .assumption
  require (!(← m.evaluate f [])) .falsity

/-- The first instance that does not hold and, for an existential sentence, is in the set. -/
def firstUnsatisfied (sentences : List Formula) (m : Model) (k : Quantifier) (x : String)
    (f : Formula) : List String → Outcome (Option Formula)
  | [] => .ok none
  | c :: rest => do
    let g ← f.substitute [(x, ← Term.make c none)] []
    if ← m.evaluate g [] then firstUnsatisfied sentences m k x f rest
    else if k = .universal || sentences.contains g then return some g
    else firstUnsatisfied sentences m k x f rest

/-- Descends from a sentence to one without quantifiers. The number bounds the quantifiers in front. -/
def descend (sentences : List Formula) (m : Model) (elements : List String) :
    Nat → Formula → Outcome (Option Formula)
  | 0, f => do
    checkUnsatisfied sentences m elements f
    return some f
  | n + 1, f => do
    checkUnsatisfied sentences m elements f
    match f with
    | .quant k x g =>
      match ← firstUnsatisfied sentences m k x g elements with
      | some h => descend sentences m elements n h
      | none => return none
    | f => return some f

/-- A sentence without quantifiers that does not hold in a model, found from one that does not hold. The
elements of the model are tried in the order in which they are listed. -/
def unsatisfied (sentences : List Formula) (m : Model) (elements : List String) (f : Formula) :
    Outcome (Option Formula) :=
  descend sentences m elements (leadingQuantifiers f) f

/-! ## Model or contradiction -/

/-- The relation formulas in a formula without quantifiers. -/
def primitivesOf : Formula → List Formula
  | .rel n ts => [.rel n ts]
  | .neg f => primitivesOf f
  | .bin _ l r => primitivesOf l ++ primitivesOf r
  | _ => []

/-- Formulas in ascending order of their texts. -/
@[reducible] def ascendingTexts : SetOrder Formula :=
  .sorting fun f g => decide (f.text ≤ g.text)

/-- The set of relation formulas in a formula without quantifiers. -/
def primitiveParts [SetOrder Formula] (f : Formula) : Outcome (List Formula) := do
  require (← f.given).isQuantifierFree .normalForm
  return SetOrder.list (primitivesOf f)

/-- The model that a set of sentences describes: each constant stands for itself, and a relation holds
where the set says so. -/
def describedModel (sentences : List Formula) : Outcome Model :=
  let domain := constants sentences
  let relations := sentences.foldl (fun t s =>
    match s with
    | .rel n ts => Table.put t n ((Table.find? t n).getD [] ++ [ts.map Term.text])
    | _ => t) []
  Model.make domain (domain.map fun c => (c, c)) relations []

/-- The first formula that does not hold in a model. -/
def firstFalse (m : Model) : List Formula → Outcome (Option Formula)
  | [] => .ok none
  | f :: rest => do
    if ← m.evaluate f [] then firstFalse m rest else return some f

/-- What a closed set of sentences has. -/
inductive Verdict
  | model (m : Model)
  | contradiction (pf : Proof)

/-- Derives a contradiction from a sentence without quantifiers and the primitive sentences that decide
it. -/
def contradiction [SetOrder Int] [SetOrder Formula] (sentences : List Formula) (f : Formula) :
    Fallible Proof := do
  let parts ← primitiveParts f
  Prover.prove ((sentences ++ [f]).map Schema.ofFormula) do
    let affirmed ← Proving.assumption f
    let lines ← parts.mapM fun p =>
      Proving.assumption (if sentences.contains p then p else Formula.neg p)
    let denied ← Proving.tautologicalConsequence (Formula.neg f) lines
    Proving.tautologicalConsequence (Formula.conj (.neg f) f) [affirmed, denied]

/-- A model of a closed set of sentences, or a contradiction from it. -/
def modelOrContradiction [SetOrder Int] [SetOrder String] [SetOrder Formula] (sentences : List Formula) :
    Fallible Verdict := do
  require (← isClosed sentences) .closed
  let m ← describedModel sentences
  match ← firstFalse m sentences with
  | none => return .model m
  | some f =>
    match ← (if f.isQuantifierFree then .ok (some f)
      else unsatisfied sentences m (SetOrder.list m.domain) f : Outcome _) with
    | some g => return .contradiction (← contradiction sentences g)
    | none => throw .wrongSort

end Sentences

/-! ## Eliminating assumptions -/

namespace Proof

/-- The assumptions of a proof that are not among others. -/
def ownAssumptions (pf : Proof) (others : List Schema) : List Schema :=
  pf.assumptions.filter fun s => !others.contains s

/-- Requires that all assumptions are sentences. -/
def checkSentences (assumptions : List Schema) : Outcome Unit :=
  assumptions.forM fun s => do require (← s.formula.proper).freeVariables.isEmpty .closed

/-- Requires that two proofs rest on a sentence and on its negation, and otherwise on the same
assumptions. -/
def checkContradictions (affirmation negation : Proof) : Outcome Unit := do
  require affirmation.concludes .validProof
  require negation.concludes .validProof
  match affirmation.ownAssumptions negation.assumptions,
    negation.ownAssumptions affirmation.assumptions with
  | [a], [n] =>
    require a.templates.isEmpty .template
    require n.templates.isEmpty .template
    require (decide (n.formula = .neg a.formula)) .shape
    require (subset Axioms.basic affirmation.assumptions) .assumption
    require (subset Axioms.basic negation.assumptions) .assumption
    checkSentences (n :: affirmation.assumptions)
  | _, _ => .error (.unmet .assumption)

/-- Requires that a proof rests on a quantified sentence and on its instance at a constant. -/
def checkInstance (k : Quantifier) (pf : Proof) (c : String) (one quantified : Formula) :
    Outcome Unit := do
  require pf.concludes .validProof
  requireName isConstant c
  require (pf.assumptions.contains (.ofFormula one)) .assumption
  require (pf.assumptions.contains (.ofFormula quantified)) .assumption
  match quantified with
  | .quant k' x f =>
    require (decide (k' = k)) .shape
    require (decide (one = (← f.substitute [(x, .const c)] []))) .shape
  | .missing => .error .absent
  | _ => .error (.unmet .shape)
  checkSentences pf.assumptions

/-- Requires that a proof rests on an instance of a universal sentence of its assumptions. -/
def checkUniversalInstance (pf : Proof) (c : String) (one universal' : Formula) : Outcome Unit :=
  pf.checkInstance .universal c one universal'

/-- Requires that a proof rests on a witness of an existential sentence of its assumptions, whose
constant occurs in no other assumption. -/
def checkWitness (pf : Proof) (c : String) (one existential : Formula) : Outcome Unit := do
  pf.checkInstance .existential c one existential
  (pf.ownAssumptions [.ofFormula one]).forM fun s =>
    require (!s.formula.constants.contains c) .distinctNames

/-- Requires that a constant of a proof can be replaced by a variable that does not occur in it. -/
def checkReplacement (pf : Proof) (c x : String) : Outcome Unit := do
  require pf.concludes .validProof
  requireName isConstant c
  requireName isVariable x
  pf.assumptions.forM fun s => do
    require (!s.templates.contains c) .template
    require (!(← s.formula.named).vars.contains x) .distinctNames
  pf.lines.forM fun l => do require (!(← l.formula.named).vars.contains x) .distinctNames

end Proof

end FormalLogic.Predicate
