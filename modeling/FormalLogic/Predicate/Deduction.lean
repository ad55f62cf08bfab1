import FormalLogic.Predicate.Prover

/-!
# Deduction theorem

Discharges an assumption: each line of a proof becomes the consequent of a conditional with the
assumption for antecedent. If the last line is a contradiction, the assumption is refuted.
-/

namespace FormalLogic.Predicate

namespace Proof

/-- The variable that a quantified formula binds. -/
def boundVariable : Formula → Outcome String
  | .quant _ x _ => .ok x
  | _ => .error .absent

/-- Requires that an assumption can be discharged: the proof ends in its conclusion, the assumption is
one of its assumptions, and no line generalizes a variable that is free in it. -/
def checkDischarge (pf : Proof) (given : Formula) : Outcome Unit := do
  require pf.concludes .validProof
  require (pf.assumptions.contains (.ofFormula given)) .assumption
  require (subset Axioms.basic pf.assumptions) .assumption
  pf.lines.forM fun
    | .ug f _ => do
      let x ← boundVariable f
      require (!(← given.proper).freeVariables.contains x) .shape
    | _ => .ok ()

open Proving

variable [SetOrder Int]

/-- Adds the conditional for a line. Positions of lines that were dealt with are looked up in the
positions of their conditionals. -/
def dischargeLine (given : Formula) (places : List Int) (l : Line) : Proving Int := do
  let given ← given.present
  let f ← l.formula.present
  let goal := Formula.imp given f
  let place (i : Int) : Outcome Int :=
    Failure.unknownKey.orElse (if 0 ≤ i then places[i.toNat]? else none)
  match l with
  | .tautology _ => tautology goal
  | .assumption _ s m =>
    if f = given then tautology (Formula.imp f f)
    else
      let line ← instanceOf f s m
      require (!f.isBare) .operandPresent
      let weakening ← tautology (Formula.imp f goal)
      modusPonens goal line weakening
  | .mp _ i j => tautologicalConsequence goal [← place i, ← place j]
  | .ug _ i =>
    let premise ← place i
    match f with
    | .quant _ x body =>
      let general := Formula.forAll x (← formulaAt premise)
      let line ← generalization general premise
      let axiomLine ← instanceOf (Formula.imp general goal) Axioms.universalSimplification
        [("Q", given), ("R", ← abstracted x body), ("x", x)]
      modusPonens goal line axiomLine
    | _ => throw .absent

/-- Adds the conditionals for lines. -/
def dischargeLines (given : Formula) (places : List Int) : List Line → Proving Int
  | [] => return (← get).lines.length - 1
  | l :: rest => do
    dischargeLines given (places ++ [← dischargeLine given places l]) rest

/-- The assumptions that remain. -/
def remaining (pf : Proof) (given : Formula) : List Schema :=
  pf.assumptions.filter fun s => decide (s.formula ≠ given)

/-- Discharges an assumption. -/
def discharge (pf : Proof) (given : Formula) : Fallible Proof := do
  pf.checkDischarge given
  Prover.prove (pf.remaining given) (dischargeLines given [] pf.lines)

/-- Refutes an assumption that leads to a contradiction. -/
def refute (pf : Proof) (given : Formula) : Fallible Proof := do
  pf.checkDischarge given
  Prover.prove (pf.remaining given) do
    let last ← dischargeLines given [] pf.lines
    tautologicalConsequence (Formula.neg given) [last]

end Proof

end FormalLogic.Predicate
