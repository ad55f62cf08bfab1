import FormalLogic.Predicate.Construction
import FormalLogic.Predicate.Reading
import FormalLogic.Predicate.Skeleton
import FormalLogic.Predicate.Substitution
import FormalLogic.Tour.Item

/-!
# Tours of predicate syntax
-/

namespace FormalLogic.Tour

open Predicate

/-- Formulas of all kinds. -/
def predicateTexts : List String :=
  ["Ax[(Man(x)->Mortal(x))]", "(R(f(a,b),c)&~Q(x))", "Ey[Ax[(Loves(x,y)->Loves(y,x))]]",
    "plus(x,0)=x", "~Ex[(Homework(x)&Fun(x))]", "(Ax[R(x)]->Ex[~R(x)])",
    "Ax[Ay[(SAME(x,y)->SAME(y,x))]]"]

/-- Terms of all kinds. -/
def termTexts : List String :=
  ["plus(x,minus(y))", "f(g(a,b),h(c,d),x)", "times(0,s(s(0)))", "c12", "x", "_"]

/-- The parts of a formula. -/
def formulaParts (s : String) : Outcome Item := do
  let f ← Formula.parse s
  let g ← Formula.parse f.text
  return item [item f, item f.constants, item f.vars, item f.freeVariables, item f.functions,
    item f.relations, item (decide (f = g)), item (!decide (f ≠ g)), .digest]

/-- The parts of a term. -/
def termParts (s : String) : Outcome Item := do
  let t ← Term.parse s
  let u ← Term.parse t.text
  return item [item t.text, item t.constants, item t.vars, item t.functions,
    item (decide (t = u)), item (!decide (t ≠ u)), .digest]

/-- The parts of formulas and terms. -/
def parts (n : Int) : Outcome (List Item) := do
  return (← (cycle predicateTexts n).mapM formulaParts) ++ (← termTexts.mapM termParts)

/-- The images of names, read from texts. -/
def termImages (m : List (String × String)) : Outcome Term.Images :=
  m.mapM fun e => do return (e.1, ← Term.parse e.2)

/-- The variable that a substitution is refused for. -/
def forbidden {α : Type} : Outcome α → Item
  | .error (.forbiddenVariable x) => item x
  | .error e => .refused e
  | .ok _ => .nothing

/-- Reads formulas and terms, and substitutes in them. -/
def predicateSyntax : Session := fun n => do
  let read ← parts n
  let substituted : Outcome (List Item) := do
    let t ← Term.parse "f(x,y)"
    let f ← Formula.parse "Ay[x=c]"
    let g ← Formula.parse "(R(x)&~Q(y))"
    let inserted ← termImages [("c", "plus(d,x)"), ("x", "c"), ("y", "plus(d,x)")]
    let y ← termImages [("c", "y"), ("x", "y")]
    let a ← termImages [("x", "a")]
    return [item (← t.substitute inserted []).text, forbidden (t.substitute y ["y"]),
      item (← f.substitute inserted []), forbidden (f.substitute y []),
      item (← g.substitute a [])]
  let f ← Formula.parse "(R(x)->(Q(y)&R(x)))"
  let (skeleton, m) ← f.skeleton
  let numbers : List (String × Nat) := [("x", 1), ("y", 2)]
  return .row (read ++ (← substituted) ++
    [item (skeleton, m.map Prod.fst),
      item (← Formula.ofSkeleton m skeleton),
      tableOf (Table.erase numbers "x"), tableOf (Table.erase [("x", 1)] "y")])

/-- Reads formulas and terms twice, with checked and with plain substitution. -/
def predicateSyntaxTwice : Session := fun n => do
  let items : Outcome (List Item) := do
    let read ← parts n
    let t ← Term.parse "f(a,x)"
    let f ← Formula.parse "Ay[x=c]"
    let c ← termImages [("x", "c")]
    let d ← termImages [("c", "d")]
    let y ← termImages [("x", "y")]
    Term.checkSubstitution c []
    let none' := item "None"
    return read ++ [.nothing, .nothing, .nothing, none', none', none', none'] ++ read ++
      [item (← t.substitute c []).text, .nothing, forbidden (t.substitute y ["y"]),
        item (do t.checkAllowed ["y"] : Outcome Unit).toOption.isSome, .nothing,
        tableOf (Table.erase [("x", 1)] "x"), tableOf (Table.erase [("x", 1)] "y"),
        item (← f.substitute d []), refusal (Term.make "f" none),
        refusal (Formula.make "R" (.formula f) .missing),
        item (← Formula.parse "Ax[R(x)]")]
  return .row (← items)

end FormalLogic.Tour
