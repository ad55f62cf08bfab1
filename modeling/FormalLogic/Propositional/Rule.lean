import FormalLogic.Propositional.Semantics
import FormalLogic.Propositional.Substitution
import FormalLogic.Text.Quoted

/-!
# Inference rules

An inference rule leads from assumptions to a conclusion. Specializing it replaces its variables by
formulas throughout. Whether a rule is a specialization of another is decided by matching the two
against each other, place by place, while collecting the images of the variables.

A rule may lack formulas. A rule that consists of a conclusion only then fits every such rule, and every
such rule fits it; rules with assumptions are compared only if nothing is missing from them. Where a
rule is expected, none may have been given: such a place holds the rule `missing`.
-/

namespace FormalLogic.Propositional

/-- An inference rule, or the place of one that was not given. -/
inductive InferenceRule
  | rule (assumptions : List Formula) (conclusion : Formula)
  | missing
  deriving DecidableEq, Repr

/-- Images of variables under a specialization. -/
abbrev Specialization := Substitution

namespace InferenceRule

/-- The assumptions of a rule. -/
def assumptions : InferenceRule → List Formula
  | rule assumptions _ => assumptions
  | missing => []

/-- The conclusion of a rule. -/
def conclusion : InferenceRule → Formula
  | rule _ conclusion => conclusion
  | missing => .missing

/-- The assumptions, then the conclusion. -/
def formulas : InferenceRule → List Formula
  | rule assumptions conclusion => assumptions ++ [conclusion]
  | missing => []

/-- The text of a rule. -/
def text : InferenceRule → String
  | rule assumptions conclusion =>
    Text.bracketed (assumptions.map fun f => Text.quoted f.text) ++ " ==> " ++
      Text.quoted conclusion.text
  | missing => "None"

/-- The set of variables of a rule. -/
def vars (r : InferenceRule) : List String :=
  sortedSet (r.formulas.flatMap Formula.leafVariables)

/-- Replaces variables throughout a rule. -/
def subst (σ : String → Formula) : InferenceRule → InferenceRule
  | rule assumptions conclusion => rule (assumptions.map (Formula.subst σ)) (conclusion.subst σ)
  | missing => missing

/-- Whether no rule was given. -/
def isMissing : InferenceRule → Bool
  | rule _ _ => false
  | missing => true

/-- A rule that is looked into, and must have been given. -/
def given (r : InferenceRule) : Outcome InferenceRule :=
  if r.isMissing then .error .absent else .ok r

/-- Whether a rule was given and none of its formulas is missing. -/
def isComplete (r : InferenceRule) : Bool :=
  !r.isMissing && r.formulas.all fun f => !f.isMissing

/-- A rule whose formulas are looked into, and must all have been given. -/
def complete (r : InferenceRule) : Outcome InferenceRule :=
  if r.isComplete then .ok r else .error .absent

/-- Specializes a rule by a table of images, whose keys must be variables. -/
def specialize (m : Specialization) (r : InferenceRule) : Outcome InferenceRule := do
  let r ← r.given
  Formula.checkKeys false m
  let assumptions ← r.assumptions.mapM (Formula.substPartial m)
  return rule assumptions (← r.conclusion.substPartial m)

end InferenceRule

/-! ## Matching -/

/-- Merges two tables, which must agree on the keys that they share. -/
def mergeTables? {α : Type} [DecidableEq α] (s t : List (String × α)) : Option (List (String × α)) :=
  if s.all fun e => match Table.find? t e.1 with
      | some a => decide (e.2 = a)
      | none => true
  then some (s ++ t.filter fun e => !Table.hasKey s e.1)
  else none

/-- Merges two tables, each of which may be absent; the keys of those present must be variables. -/
def mergeChecked {α : Type} [DecidableEq α] (s t : Option (List (String × α))) :
    Outcome (Option (List (String × α))) := do
  (s.getD []).forM fun e => do require (← checkVariable e.1) .substitutable
  (t.getD []).forM fun e => do require (← checkVariable e.1) .substitutable
  return s.bind fun s => t.bind fun t => mergeTables? s t

/-- Matches a general formula against a special one, extending the images found so far. A missing
formula matches itself only. -/
def matchFormula (m : Specialization) : Formula → Formula → Option Specialization
  | .var x, g =>
    match Table.find? m x with
    | some h => if h = g then some m else none
    | none => some (m ++ [(x, g)])
  | .const a, .const b => if a = b then some m else none
  | .neg f, .neg g => matchFormula m f g
  | .bin op l r, .bin op' l' r' =>
    if op = op' then
      match matchFormula m l l' with
      | some m' => matchFormula m' r r'
      | none => none
    else none
  | .missing, .missing => some m
  | _, _ => none

/-- The images by which a general formula becomes a special one. If one of them is missing, there is
nothing to compare. -/
def formulaImages? (general special : Formula) : Option Specialization :=
  if general.isMissing || special.isMissing then some [] else matchFormula [] general special

/-- Matches lists of formulas of the same length, one by one. -/
def matchFormulas (m : Specialization) : List Formula → List Formula → Option Specialization
  | [], [] => some m
  | f :: fs, g :: gs =>
    match matchFormula m f g with
    | some m' => matchFormulas m' fs gs
    | none => none
  | _, _ => none

namespace InferenceRule

/-- The images of the variables by which a general rule becomes the special one. -/
def matchRule? (general special : InferenceRule) : Option Specialization :=
  matchFormulas [] general.formulas special.formulas

/-- Requires that no formula of a rule is missing. -/
def requireComplete (r : InferenceRule) : Outcome Unit :=
  require r.isComplete .wellFormed

/-- The images by which a general rule becomes the special one, where formulas may be missing. -/
def images? (general special : InferenceRule) : Outcome (Option Specialization) := do
  let general ← general.given
  let special ← special.given
  if general.assumptions.length ≠ special.assumptions.length then return none
  else if general.assumptions.isEmpty then
    return formulaImages? general.conclusion special.conclusion
  else
    general.requireComplete
    special.requireComplete
    return matchRule? general special

/-- Whether a rule is a specialization of a general one. -/
def isSpecializationOf (special general : InferenceRule) : Outcome Bool := do
  return (← images? general special).isSome

/-! ## Soundness -/

/-- A rule holds in a valuation if one of its assumptions fails there or its conclusion holds. The
valuation must cover the conclusion and the assumptions up to the first that fails. -/
def evaluate (m : Valuation) (r : InferenceRule) : Outcome Bool := do
  let r ← r.given
  let conclusion ← r.conclusion.evaluate m
  go conclusion r.assumptions
where
  /-- Goes through the assumptions until one fails. -/
  go (conclusion : Bool) : List Formula → Outcome Bool
    | [] => .ok conclusion
    | f :: fs => do
      if ← f.evaluate m then go conclusion fs else return true

/-- A rule holds under an assignment of truth values. -/
def holds (v : String → Bool) (r : InferenceRule) : Bool :=
  !(r.assumptions.all fun f => f.eval v) || r.conclusion.eval v

/-- A rule is sound if it holds in all valuations of its variables. -/
def isSound (r : InferenceRule) : Bool :=
  (Valuation.all r.vars).all fun m => r.holds m.value

end InferenceRule

end FormalLogic.Propositional
