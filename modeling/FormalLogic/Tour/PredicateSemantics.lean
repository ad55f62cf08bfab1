import FormalLogic.Predicate.EqualityElimination
import FormalLogic.Tour.PredicateSyntax

/-!
# Tours of predicate semantics
-/

namespace FormalLogic.Tour

open Predicate

/-- A cycle of elements: a relation of neighbours, and a function to the next element. -/
def cycleModel (n : Int) : Outcome Model := do
  let u := (List.range n.toNat).map fun (i : Nat) => Text.decimal i
  let next := u.drop 1 ++ u.take 1
  Model.make u [("a", ← fetch u 0), ("b", ← fetch u (-1))]
    [("R", [[← fetch u 0]]), ("Q", (u.zip (u.drop 1)).map fun e => [e.1, e.2])]
    [("f", (u.zip next).map fun e => ([e.1], e.2))]

/-- A model without functions in which the first two elements are the same. -/
def sameModel (n : Int) : Outcome Model := do
  let u := (List.range n.toNat).map fun (i : Nat) => Text.decimal i
  let first ← fetch u 0
  let second ← fetch u 1
  Model.make u [("a", first)]
    [("SAME", u.map (fun e => [e, e]) ++ [[first, second], [second, first]])] []

/-- Evaluates in a model, and takes functions and equality out of models and formulas. -/
def predicateSemantics : Session := fun n => do
  let evaluated : Outcome (List Item) := do
    let m ← cycleModel n
    let holds ← ["R(a)", "a=a", "Ax[Ey[f(x)=y]]", "Ex[R(x)]", "Ax[x=x]", "(R(a)->Ex[R(x)])",
      "~Ax[~R(x)]"].mapM fun s => do return item (← m.evaluate (← Formula.parse s) [])
    let plain ← m.functionsToRelations
    let back ← plain.relationsToFunctions ["f"]
    let none' ← m.relationsToFunctions ["q"]
    let equal ← m.addSame
    let merged ← (← sameModel n).sameToEquality
    let formulas ← Formula.allEqualitiesToSame [← Formula.parse "Ax[(R(x)->x=a)]"]
    return [item (cut 20 m.text)] ++ holds ++
      [item (← m.evaluateTerm (← Term.parse "f(a)") []),
        item (← m.isModelOf [← Formula.parse "R(a)"]),
        item (← m.isModelOf [← Formula.parse "~R(a)"]),
        item (sortedSet (Table.keys plain.relations)),
        item (back.map fun b => sortedSet (Table.keys b.functions)),
        item (none'.map fun b => sortedSet (Table.keys b.functions)),
        item (← equal.evaluate (← Formula.parse "SAME(a,a)") []),
        item merged.domain.length, item (sortedSet (formulas.map Formula.text))]
  let evaluated ← evaluated
  let f ← (← Formula.parse "(R(f(a,b))&~g(x)=c)").functionsToRelations
  let set ← Formula.allFunctionsToRelations [← Formula.parse "R(f(a,g(b)))"]
  let steps ← (← Term.parse "f(g(a),h(b,c))").compile
  let g ← (← Formula.parse "Ax[f(x)=g(x)]").functionsToRelations
  return .row (evaluated ++ [item f, item (sortedSet (set.map Formula.text)),
    item (steps.map fun s => s.equality.text), item g])

end FormalLogic.Tour
