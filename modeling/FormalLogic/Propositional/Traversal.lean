import FormalLogic.Propositional.Rule

/-!
# Matching by one traversal

A second way of matching rules. A rule is joined to one formula, in which the conjunction of its assumptions implies its
conclusion, and the formulas of two rules are gone through side by side, each root before its operands. The images of
variables are entered in one table on the way.
-/

namespace FormalLogic.Propositional

/-- Enters an image of a variable, which must not have an image other than the formula that was met. -/
def enterImage (m : Specialization) (x : String) (met image : Formula) : Option Specialization :=
  if (Table.find? m x).all fun g => decide (g = met) then some (Table.put m x image) else none

/-- Compares the roots of two formulas. Where they differ, the general one must be a variable. -/
def compareRoots (m : Specialization) (general special : Formula) : Option Specialization :=
  if general.root ≠ special.root then
    if isVariable general.root then enterImage m general.root special special else none
  else if isVariable general.root then enterImage m general.root special (.var special.root)
  else some m

/-- Goes through two formulas side by side, as far as both have operands. -/
def traverse (m : Specialization) : Formula → Formula → Option Specialization
  | .missing, _ => some m
  | _, .missing => some m
  | .neg f, special => do
    let m ← compareRoots m (.neg f) special
    special.first?.elim (some m) (traverse m f)
  | .bin op l r, special => do
    let m ← compareRoots m (.bin op l r) special
    let m ← special.first?.elim (some m) (traverse m l)
    special.second?.elim (some m) (traverse m r)
  | general, special => compareRoots m general special

namespace InferenceRule

/-- The formula of a rule. -/
def joined (r : InferenceRule) : Outcome Formula :=
  match r.assumptions with
  | [] => .ok r.conclusion
  | a :: as => do
    let all ← as.foldlM (fun f g => Formula.make Connective.all "&" [f, g]) a
    Formula.make Connective.all "->" [all, r.conclusion]

/-- The images by which a general rule becomes the special one, found by going through their formulas. -/
def traversalImages? (general special : InferenceRule) : Outcome (Option Specialization) := do
  let general ← general.given
  let special ← special.given
  if general.assumptions.length ≠ special.assumptions.length then return none
  else return traverse [] (← general.joined) (← special.joined)

end InferenceRule

end FormalLogic.Propositional
