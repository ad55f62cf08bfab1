import FormalLogic.Propositional.Deduction

/-!
# Every tautology is provable

Formulas in implication and negation are proved from a valuation, which is put into assumptions that
say of every variable whether it is true. The assumptions of a tautology's proofs are then eliminated
one by one, by proving the formula from either value of the last variable.
-/

namespace FormalLogic.Propositional

open Formula Axioms

/-- The operators that the prover knows. -/
def provableOperators : List String := ["->", "~"]

/-- Requires a formula to use implication and negation only. -/
def Formula.requireProvable (f : Formula) : Outcome Unit := do
  let f ← f.given
  require (subset f.operators provableOperators) .connective

/-- The operators, and constants, of a larger language for proofs from a valuation. -/
def extendedOperators : List String := ["T", "F", "->", "~", "&", "|"]

/-- The variables of a valuation in ascending order, negated where false. -/
def Valuation.formulas (m : Valuation) : List Formula :=
  (sortedSet (Table.keys m)).map fun x => if m.value x then var x else neg (var x)

/-- A proof from a valuation that has a single line. -/
def Proof.ofValuation (m : Valuation) (f : Formula) : Proof :=
  .make (.rule m.formulas f) basic [.assumed f]

/-- A proof of a formula or of its negation, made into a proof of the negation or of the double
negation. -/
def Proof.denied (pf : Proof) (f : Formula) (m : Valuation) : Outcome Proof := do
  if ← f.evaluate m then pf.corollary (neg (neg f)) NN else return pf

/-- Proves a formula in implication and negation from a valuation in which it holds, and its negation
from one in which it does not. -/
def Formula.proveIn (m : Valuation) : Formula → Outcome Proof
  | var x => do
    if ← (var x).evaluate m then return .ofValuation m (var x)
    else return .ofValuation m (neg (var x))
  | const _ => .error (.unmet .connective)
  | neg f => do (← f.proveIn m).denied f m
  | bin op l r => do
    if ← (bin op l r).evaluate m then
      if ← l.evaluate m then (← r.proveIn m).corollary (bin op l r) I1
      else (← (← l.proveIn m).denied l m).corollary (bin op l r) I2
    else
      let affirmed ← l.proveIn m
      let denied ← (← r.proveIn m).denied r m
      affirmed.combine denied (neg (bin op l r)) NI
  | missing => .error .absent

/-- Proves a formula, or its negation, from entries that must be a valuation. -/
def Formula.proveInModel (f : Formula) (entries : List (String × Mark)) : Outcome Proof := do
  f.requireProvable
  f.proveIn (← Mark.toValuation entries)

/-- From proofs of the same formula, one with `a` as its last assumption and one with the negation of
`a`, a proof without that assumption. -/
def Proof.reduceAssumption (affirmation negation : Proof) : Outcome Proof := do
  affirmation.requireValid
  negation.requireValid
  require (decide (affirmation.statement.conclusion = negation.statement.conclusion)) .agreement
  let (rest, a) ← affirmation.lastAssumption
  let (rest', a') ← negation.lastAssumption
  require (decide (rest = rest')) .agreement
  Proof.requirePresent [a]
  require (decide (neg a = a')) .agreement
  require (sameSet affirmation.rules negation.rules) .agreement
  let pf ← affirmation.removeAssumption
  let pf' ← negation.removeAssumption
  let combined ← pf.combine pf' affirmation.statement.conclusion R
  return .make combined.statement (addRules affirmation.rules [MP, I0, I1, D, R]) combined.lines

/-- Proves a tautology from a valuation by cases on the variables that it leaves open. -/
def Formula.proveByCases (f : Formula) (m : Valuation) : List String → Outcome Proof
  | [] => f.proveIn m
  | x :: xs => do
    let affirmation ← f.proveByCases (m ++ [(x, true)]) xs
    let negation ← f.proveByCases (m ++ [(x, false)]) xs
    affirmation.reduceAssumption negation

/-- Proves a tautology from a valuation of its first variables. -/
def Formula.proveTautologyFrom (f : Formula) (entries : List (String × Mark)) : Outcome Proof := do
  let f ← f.given
  require f.isTautology .tautology
  f.requireProvable
  let m ← Mark.toValuation entries
  require (decide (f.vars.take m.length = sortedSet (Table.keys m))) .covered
  f.proveByCases m (f.vars.drop m.length)

/-- Proves a tautology. -/
def Formula.proveTautology (f : Formula) : Outcome Proof :=
  f.proveTautologyFrom []

/-- What is found out about a claim: a proof of it, or a valuation that refutes it. -/
inductive Verdict
  | proved (pf : Proof)
  | valuation (m : Valuation)

/-- A proof of a formula, or the first valuation in which it fails. -/
def Formula.proofOrCounterexample (f : Formula) : Outcome (Option Verdict) := do
  f.requireProvable
  if f.isTautology then return some (.proved (← f.proveTautology))
  else return ((Valuation.all f.vars).find? fun m => !f.eval m.value).map .valuation

/-- A rule as a formula: its assumptions imply its conclusion one after the other. -/
def InferenceRule.encode (r : InferenceRule) : Formula :=
  r.assumptions.foldr imp r.conclusion

/-- A rule as a formula, which is put together of formulas that must have been given. -/
def InferenceRule.toFormula (r : InferenceRule) : Outcome Formula := do
  let r ← r.given
  if !r.assumptions.isEmpty then r.requireComplete
  return r.encode

/-- The lines that take assumptions off the front of an implication, which stands on the line before
the given number of lines. -/
def detachLines : Nat → List Formula → Formula → List Line
  | _, [], _ => []
  | n, a :: as, conclusion =>
    .assumed a :: .inferred (as.foldr imp conclusion) MP [(n : Int), (n : Int) - 1] ::
      detachLines (n + 2) as conclusion

/-- Proves a sound rule. -/
def InferenceRule.proveSound (r : InferenceRule) : Outcome Proof := do
  let r ← r.complete
  require r.isSound .sound
  r.formulas.forM Formula.requireProvable
  let pf ← r.encode.proveTautology
  return .make r basic (pf.lines ++ detachLines pf.lines.length r.assumptions r.conclusion)

/-- A valuation in which all formulas of a list hold, or a proof of a contradiction from them. The variables
of the formulas are a set. -/
def modelOrInconsistency [SetOrder String] (fs : List Formula) : Outcome Verdict := do
  fs.forM Formula.requireProvable
  let names := SetOrder.list (fs.flatMap Formula.leafVariables)
  let model := if fs.isEmpty then none
    else (Valuation.all names).find? fun m => fs.all fun f => f.eval m.value
  match model with
  | some m => return .valuation m
  | none => return .proved (← InferenceRule.proveSound (.rule fs Proof.absurdity))

/-- Checks the arguments of a proof from a valuation in the larger language. -/
def Formula.checkProvableIn (f : Formula) (entries : List (String × Mark)) : Outcome Unit := do
  let f ← f.given
  require (subset f.operators extendedOperators) .connective
  let _ ← Mark.toValuation entries

end FormalLogic.Propositional
