import FormalLogic.Predicate.Formula

/-!
# Substitution in predicate formulas

Constants and free variables are replaced by terms, simultaneously. A quantifier protects its own
variable from being replaced below it, and refuses terms that contain it. Below nested quantifiers only
the innermost one refuses its variable.
-/

namespace FormalLogic.Predicate.Formula

/-- The names that no inserted term may contain: the forbidden ones, and the variable of the quantifier
around, if there is one. -/
def refusedNames (forbidden : List String) (bound : Option String) : List String :=
  forbidden ++ bound.toList

/-- Replaces names in an argument of a relation or equality. The argument itself must not be a
forbidden variable. -/
def replaceArgument (m : Term.Images) (forbidden : List String) (bound : Option String) (t : Term) :
    Outcome Term := do
  let t ← t.given
  if forbidden.contains t.root then .error (.forbiddenVariable t.root)
  else t.substitute m (refusedNames forbidden bound)

/-- Replaces constants and free variables below a quantifier of the given variable, if there is one.
Negations can be left out of the language. A bare term must not stand below a quantifier. -/
def substituteBelow (negations : Bool) (forbidden : List String) (m : Term.Images)
    (bound : Option String) : Formula → Outcome Formula
  | equal l r => do
    Term.checkSubstitution m forbidden
    let l' ← replaceArgument m forbidden bound l
    return equal l' (← replaceArgument m forbidden bound r)
  | rel name ts => do
    Term.checkSubstitution m forbidden
    return rel name (← ts.mapM (replaceArgument m forbidden bound))
  | neg f => do
    Term.checkSubstitution m forbidden
    require negations .shape
    return neg (← f.substituteBelow negations forbidden m bound)
  | bin op l r => do
    Term.checkSubstitution m forbidden
    let l' ← l.substituteBelow negations forbidden m bound
    return bin op l' (← r.substituteBelow negations forbidden m bound)
  | quant q x f => do
    Term.checkSubstitution m forbidden
    return quant q x (← f.substituteBelow negations forbidden (Table.erase m x) (some x))
  | bare t => do
    let t ← t.given
    if bound.isSome then .error .wrongSort else return bare (← t.substitute m forbidden)

/-- Replaces constants and free variables by terms. No term that is inserted may contain a forbidden
variable. -/
def substitute (m : Term.Images) (forbidden : List String) (f : Formula) : Outcome Formula :=
  f.substituteBelow true forbidden m none

end FormalLogic.Predicate.Formula
