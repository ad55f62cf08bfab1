import FormalLogic.Predicate.Formula

/-!
# Making formulas from their parts

A formula is made of the symbol at its root, what stands behind it, and a further formula. The symbol
decides what the parts must be.
-/

namespace FormalLogic.Predicate.Formula

/-- What stands behind the root of a formula: terms, a formula, or the name of a variable. -/
inductive Operand
  | terms (ts : List Term)
  | formula (f : Formula)
  | name (x : String)

/-- Makes a formula of its root and its parts. A relation or equality and a negation take no further
formula, a connective and a quantifier take one. -/
def make (root : String) (operand : Operand) (further : Formula) : Outcome Formula := do
  if isEquality root then
    match operand, further with
    | .terms [l, r], .missing => return equal l r
    | _, _ => .error (.unmet .wellFormed)
  else if ← checkName isRelation root then
    match operand, further with
    | .terms ts, .missing => return rel root ts
    | _, _ => .error (.unmet .wellFormed)
  else if isUnary root then
    match operand, further with
    | .formula f, .missing => return neg (← f.present)
    | _, _ => .error (.unmet .wellFormed)
  else
    match Connective.ofSymbol? root, Quantifier.ofSymbol? root with
    | some op, _ =>
      match operand with
      | .formula l => return bin op (← l.present) (← further.present)
      | _ => .error (.unmet .wellFormed)
    | none, some q =>
      match operand with
      | .name x => do
        require (← checkName isVariable x) .wellFormed
        return quant q x (← further.present)
      | _ => .error (.unmet .wellFormed)
    | none, none => .error (.unmet .wellFormed)

end FormalLogic.Predicate.Formula
