import FormalLogic.FreshNames
import FormalLogic.Predicate.Formula
import FormalLogic.Propositional.Semantics

/-!
# Propositional skeletons

The skeleton of a predicate formula is the propositional formula that has a variable for every
outermost atomic or quantified part, the same one for equal parts. The variables are fresh names. It is found
in two ways: all parts met are handed on, or those that are new are passed back.
-/

namespace FormalLogic.Predicate.Formula

/-- The parts that have a variable, with their variables. -/
abbrev Parts := List (String × Formula)

/-- The variable of a part. -/
def partName? (known : Parts) (f : Formula) : Option String :=
  (known.find? fun e => decide (e.2 = f)).map Prod.fst

/-- The skeleton of a formula, given the parts met before it, and all parts met. -/
def skeletonFrom (known : Parts) : Formula → Naming (Propositional.Formula × Parts)
  | neg f => do
    let (s, known) ← f.skeletonFrom known
    return (.neg s, known)
  | bin op l r => do
    let (s, known) ← l.skeletonFrom known
    let (t, known) ← r.skeletonFrom known
    return (.bin op.toPropositional s t, known)
  | f =>
    match partName? known f with
    | some x => return (.var x, known)
    | none => do
      let x ← freshVariable
      return (.var x, known ++ [(x, f)])

/-- The skeleton of a formula, and the parts that its variables stand for. -/
def skeleton (f : Formula) : Naming (Propositional.Formula × Parts) :=
  f.skeletonFrom []

/-- The variable of a part, given those of the parts met before it, and what is new. -/
def newPart (names : List (Formula × String)) (f : Formula) : Naming (Propositional.Formula × Parts) :=
  match Table.find? names f with
  | some x => return (.var x, [])
  | none => do
    let x ← freshVariable
    return (.var x, [(x, f)])

/-- The skeleton of a formula, given the variables of the parts met before it, and the new parts alone. What
is new on the left is turned around and entered among the parts met before the right. -/
def skeletonWith (names : List (Formula × String)) : Formula → Naming (Propositional.Formula × Parts)
  | neg f => do
    let (s, new) ← f.skeletonWith names
    return (.neg s, new)
  | bin op l r => do
    let (s, new) ← l.skeletonWith names
    let (t, new') ← r.skeletonWith ((new.map Prod.swap).foldl (fun t e => Table.put t e.1 e.2) names)
    return (.bin op.toPropositional s t, new'.foldl (fun t e => Table.put t e.1 e.2) new)
  | f => newPart names f

/-- Puts formulas in place of the variables of a propositional formula. The result is missing where a
variable has no formula, and where an operator is none of predicate logic. -/
def ofSkeletonPart (m : Parts) : Propositional.Formula → Outcome Formula
  | .var x => .ok ((Table.find? m x).getD missing)
  | .const _ => .ok missing
  | .neg s => do
    let f ← ofSkeletonPart m s
    return neg (← f.present)
  | .bin op s t =>
    match Connective.ofPropositional? op with
    | none => .ok missing
    | some op => do
      let l ← ofSkeletonPart m s
      let r ← ofSkeletonPart m t
      return bin op (← l.present) (← r.present)
  | .missing => .error .absent

/-- Requires the keys of a table to be propositional variables. -/
def checkParts {α : Type} (m : List (String × α)) : Outcome Unit :=
  m.forM fun e => do require (← Propositional.checkVariable e.1) .substitutable

/-- The formula with a given skeleton and given parts. -/
def ofSkeleton (m : Parts) (s : Propositional.Formula) : Outcome Formula := do
  checkParts m
  ofSkeletonPart m s

/-- Whether the skeleton of a formula is a tautology. -/
def hasTautologicalSkeleton (f : Formula) : Naming Bool := do
  return (← f.skeleton).1.isTautology

end FormalLogic.Predicate.Formula
