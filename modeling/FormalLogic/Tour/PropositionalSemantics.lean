import FormalLogic.Propositional.Axioms
import FormalLogic.Propositional.Synthesis
import FormalLogic.Tour.PropositionalSyntax

/-!
# Tours of propositional semantics
-/

namespace FormalLogic.Tour

open Propositional

/-- The variables `p1, p2, …`. -/
def numberedVariables (n : Int) : List String :=
  (List.range n.toNat).map fun (i : Nat) => "p" ++ Text.decimal (i + 1)

/-- Truth values in turn. -/
def alternating (names : List String) : Valuation :=
  names.mapIdx fun i x => (x, decide (i % 2 = 1))

/-- A formula for truth values that depend on the number of the row. -/
def tabulated (names : List String) (f : Nat → Bool) : Outcome (Option Formula) :=
  synthesize names ((List.range (Nat.pow 2 names.length)).map fun i => .truth (f i))

/-- The kinds of formulas that the semantic tours tell apart. -/
def judged : Outcome (List Item) := do
  let valid ← formula "((p1->p2)->(~p2->~p1))"
  let open' ← formula "(p1->p2)"
  let void ← formula "(p1&~p1)"
  return [item valid.isTautology, item open'.isTautology, item void.isContradiction,
    item open'.isContradiction, item open'.isSatisfiable, item void.isSatisfiable]

/-- The truth values of a tautology in the first valuations. -/
def firstValues (names : List String) : Outcome Item := do
  let f ← formula "((p1->p2)->(~p2->~p1))"
  return item (← ((Valuation.all names).take 3).mapM f.evaluate)

/-- Evaluates, synthesizes and judges formulas over some variables. -/
def semantics : Session := fun n => do
  let names := numberedVariables n
  let count := Nat.pow 2 names.length
  let values ← firstValues names
  let marks := (alternating names).map fun e => (e.1, Mark.truth e.2)
  let rule : InferenceRule := Axioms.MP
  let m : Valuation := [("p", true), ("q", true)]
  let mixed ← tabulated (names.take 4) fun i => decide (i % 3 ≠ 0)
  return .row ([item count, item (← Mark.areValuation marks),
    item (← Mark.areValuation (("~", .truth true) :: marks)), item names,
    item (Valuation.all names).length,
    item (mixed.map fun f => cut 40 f.text), item (← tabulated names fun _ => false),
    item (← clauseOfMarks marks), values] ++ (← judged) ++
    [item (← rule.evaluate m), item rule.isSound])

/-- Evaluates, synthesizes and judges in one dialect. -/
def semanticsIn (names : List String) : Outcome (List Item) := do
  let values ← firstValues names
  let marks := (alternating names).map fun e => (e.1, Mark.truth e.2)
  let few := names.take 3
  return [item (Nat.pow 2 names.length), item (← Mark.areValuation (("~", .truth true) :: marks)),
    item names, item (Valuation.all names).length, values, item (← clauseOfMarks marks),
    item (← tabulated few fun i => decide (i % 2 = 0)), item (← tabulated few fun _ => false),
    .operation .evaluateRule, .operation .checkRule]

/-- Evaluates, synthesizes and judges in two dialects. -/
def semanticsInDialects : Session := fun n => do
  let items ← semanticsIn (numberedVariables n)
  return .row (items ++ items ++ (← judged))

end FormalLogic.Tour
