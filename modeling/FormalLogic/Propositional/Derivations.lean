import FormalLogic.Propositional.Deduction

/-!
# Some derivations

Proofs of a few rules: conjunction commutes, a formula implies itself, and implications can be
chained.
-/

namespace FormalLogic.Propositional.Derivations

open Formula Axioms

/-- Two formulas lead to their conjunction. -/
def conjunctionRule : InferenceRule := .rule [var "x", var "y"] (conj (var "x") (var "y"))

/-- A conjunction leads to its second part. -/
def secondPartRule : InferenceRule := .rule [conj (var "x") (var "y")] (var "y")

/-- A conjunction leads to its first part. -/
def firstPartRule : InferenceRule := .rule [conj (var "x") (var "y")] (var "x")

/-- The parts of a conjunction can be exchanged. -/
def andCommutes : Proof :=
  .make (.rule [conj p q] (conj q p)) [conjunctionRule, secondPartRule, firstPartRule]
    [.assumed (conj p q), .inferred q secondPartRule [0], .inferred p firstPartRule [0],
      .inferred (conj q p) conjunctionRule [1, 2]]

/-- Every formula implies itself. -/
def selfImplication : Proof :=
  let pp := imp p p
  .make I0 [MP, I1, D]
    [.inferred (imp (imp p (imp pp p)) (imp (imp p pp) pp)) D [],
      .inferred (imp p (imp pp p)) I1 [],
      .inferred (imp (imp p pp) pp) MP [1, 0],
      .inferred (imp p pp) I1 [],
      .inferred pp MP [3, 2]]

/-- Implications can be chained. -/
def hypotheticalSyllogism : Outcome Proof :=
  Proof.removeAssumption <| .make (.rule [imp p q, imp q r, p] r) [MP, I0, I1, D]
    [.assumed p, .assumed (imp p q), .inferred q MP [0, 1], .assumed (imp q r),
      .inferred r MP [2, 3]]

end FormalLogic.Propositional.Derivations
