import FormalLogic.Propositional.Derivations
import FormalLogic.Propositional.Inlining
import FormalLogic.Propositional.Merging
import FormalLogic.Propositional.Tautology
import FormalLogic.Tour.PropositionalSyntax

/-!
# Tours of propositional proofs
-/

namespace FormalLogic.Tour

open Propositional

instance : Listed InferenceRule := ⟨fun r => if r.isMissing then .nothing else .text r.text⟩

/-- Whether a proof is valid, and how many lines it has. -/
def validLength (pf : Proof) : Outcome Item := do
  return item (← pf.isValid, pf.lines.length)

/-! ## Rules and proofs -/

/-- A rule, read from the texts of its assumptions and its conclusion. -/
def ruleOf (assumptions : List String) (conclusion : String) : Outcome InferenceRule := do
  return .rule (← assumptions.mapM formula) (← formula conclusion)

/-- A special case of modus ponens. -/
def specialCase : Outcome InferenceRule := do
  Axioms.MP.specialize (← images [("p", "(r&s)"), ("q", "t")])

/-- A conjunction follows from itself by exchanging its parts twice. -/
def exchangedTwice : Outcome Proof := do
  let f ← formula "(p&q)"
  let g ← formula "(q&p)"
  let exchange := Derivations.andCommutes.statement
  return .make (.rule [f] f) [exchange]
    [.assumed f, .inferred g exchange [0], .inferred f exchange [1]]

/-- Handles rules and proofs. -/
def proofs : Session := fun n => do
  let round : Outcome (List Item) := do
    let exchange := Derivations.andCommutes
    let chained ← Derivations.hypotheticalSyllogism
    let special ← ruleOf ["(x&y)"] "(y&x)"
    let twice ← (← exchangedTwice).inline exchange
    let case ← specialCase
    let f ← formula "(p&q)"
    let g ← formula "(r&s)"
    let map ← images [("p", "q")]
    let other ← images [("r", "s")]
    let clash ← images [("p", "r")]
    return [item [item (← exchange.isValid), item (cut 20 exchange.text)],
      item (← exchange.lineValid 1), ← validLength chained,
      item (← (← exchange.specialize special).isValid), ← validLength twice,
      item Axioms.MP.vars, item case.text,
      tableOf? (← mergeChecked (some map) (some other)),
      tableOf? (← mergeChecked (some map) (some clash)),
      tableOf? (← mergeChecked none (some map)),
      tableOf? (formulaImages? f g), tableOf? (formulaImages? f (.var "p")),
      item (← case.isSpecializationOf Axioms.MP)]
  let items ← rounds n (liftM round)
  return .row (items ++ List.replicate 11 .nothing)

/-- What both ways of matching have to say about rules. -/
def matching (matchRule : InferenceRule → InferenceRule → Outcome (Option Specialization))
    (matchFormula : Formula → Formula → Option Specialization)
    (isValid : Proof → Outcome Bool) : Outcome (List Item) := do
  let case ← specialCase
  let f ← formula "(p&q)"
  let g ← formula "(r&s)"
  let map ← images [("p", "q")]
  let clash ← images [("p", "r")]
  let rule := Axioms.MP
  let exchange := Derivations.andCommutes
  return [item [item rule.text, .digest, item (decide (rule = rule)), item (!decide (rule ≠ rule)),
      item rule.vars],
    item case.text, tableOf? (← mergeChecked (some map) (some map)),
    tableOf? (← mergeChecked (some map) (some clash)), tableOf? (← mergeChecked none (some map)),
    tableOf? (← matchRule rule case), tableOf? (← matchRule case rule), tableOf? (matchFormula f g),
    tableOf? (matchFormula f (.var "p")), item (← matchRule rule case).isSome,
    item [item (cut 20 exchange.text), item (← isValid exchange)],
    item (← exchange.ruleForLine 0)]

/-- Proofs that are not valid: another conclusion, an assumption that is not one, and an inference from
a later line. -/
def invalidProofs : Outcome (List Proof) := do
  let f ← formula "(p&q)"
  let p := Formula.var "p"
  let first := Derivations.firstPartRule
  return [.make (.rule [f] p) [first] [.assumed f], .make (.rule [f] p) [first] [.assumed p],
    .make (.rule [f] p) [first] [.inferred p first [1], .assumed f, .inferred p first [1]]]

/-- A conjunction follows from its parts. -/
def reassembled : Outcome Proof := do
  let f ← formula "(p&q)"
  let p := Formula.var "p"
  let q := Formula.var "q"
  let first := Derivations.firstPartRule
  let second := Derivations.secondPartRule
  let both := Derivations.conjunctionRule
  return .make (.rule [f] f) [both, second, first]
    [.assumed f, .inferred q second [0], .inferred p first [0], .inferred f both [2, 1]]

/-- The rule for the second part of a conjunction follows from itself. -/
def secondPart : Outcome Proof := do
  let second := Derivations.secondPartRule
  return .make second [second]
    [.assumed (← formula "(x&y)"), .inferred (.var "y") second [0]]

/-- Handles rules and proofs with both ways of matching. -/
def proofsWithMatching : Session := fun n => do
  let plain : Outcome (List Item) := do
    let items ← matching InferenceRule.images? formulaImages? Proof.isValid
    return items ++ [.nothing, .nothing, .nothing] ++
      (← (← invalidProofs).mapM fun pf => do return item (← pf.isValid))
  let merging : Outcome (List Item) := do
    let items ← matching Merging.images? Merging.matchFormula? Merging.isValid
    let special ← ruleOf ["(x&y)"] "(y&x)"
    let exchange ← Merging.specialize Derivations.andCommutes special
    let inlined ← Merging.inlineOnce (← reassembled) 1 (← secondPart)
    return items ++ [item (← Merging.isValid exchange), .proof inlined, item inlined.lines.length] ++
      (← (← invalidProofs).mapM fun pf => do return item (← Merging.isValid pf))
  let items ← rounds n (liftM (do return (← plain) ++ (← merging) : Outcome _))
  return .row (items ++ [item (← Derivations.andCommutes.isValid)] ++ List.replicate 13 .nothing)

/-! ## Deduction -/

/-- A proof that only cites its assumption. -/
def cited (assumptions : List Formula) (f : Formula) : Proof :=
  .make (.rule assumptions f) Axioms.basic [.assumed f]

/-- Combines proofs and discharges assumptions. -/
def deduction : Session := fun n => do
  let round : Outcome (List Item) := do
    let p := Formula.var "p"
    let q := Formula.var "q"
    let corollary ← (cited [p] p).corollary (.neg (.neg p)) Axioms.NN
    let both ← (cited [p, q] p).combine (cited [p, q] q) (.bin .and p q) Axioms.A
    let context := [p, Formula.neg p]
    let anything ← (cited context p).ofInconsistency (cited context (.neg p)) q
    let discharged ← (cited [p] p).removeAssumption
    return [item (← corollary.isValid, corollary.statement.text), ← validLength both,
      item (← anything.isValid, anything.statement.conclusion), item (← discharged.isValid)]
  return .row (← rounds n (liftM round))

/-! ## Tautologies -/

/-- The tautology of a size. -/
def tautologyOf (n : Int) : String :=
  if n = 1 then "(p1->p1)"
  else if n = 3 then "((p1->p2)->((p2->p3)->(p1->p3)))"
  else "((p1->p2)->(~p2->~p1))"

/-- A verdict: a proof is shown by its validity and length, a valuation in full. -/
def verdictItem : Verdict → Outcome Item
  | .proved pf => validLength pf
  | .valuation m => .ok (tableOf m)

/-- Proves tautologies and sound rules, and finds counterexamples. -/
def tautologies [SetOrder String] : Session := fun n => do
  let items : Outcome (List Item) := do
    let f ← formula (tautologyOf n)
    let proved ← f.proveTautology
    let open' ← formula "(p1->p2)"
    let m : Valuation := [("p1", true), ("p2", false)]
    let marks := m.map fun e => (e.1, Mark.truth e.2)
    let inModel ← open'.proveInModel marks
    let rule ← ruleOf ["p1", "(p1->p2)"] "p2"
    let model ← modelOrInconsistency [.var "p1", open']
    open'.checkProvableIn marks
    let refuted ← modelOrInconsistency [.var "p1", .neg (.var "p1")]
    let length := match refuted with
      | .proved pf => item pf.lines.length
      | .valuation _ => .nothing
    let counterexample ← match ← open'.proofOrCounterexample with
      | some v => verdictItem v
      | none => pure .nothing
    return [← validLength proved, counterexample, item (← inModel.isValid), item rule.encode,
      ← validLength (← rule.proveSound), ← verdictItem model, item m.formulas, .nothing, length]
  return .row (← items)

end FormalLogic.Tour
