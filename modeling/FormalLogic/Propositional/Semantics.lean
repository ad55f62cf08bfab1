import FormalLogic.Propositional.Formula

/-!
# Truth values of propositional formulas

A valuation gives truth values to finitely many variables. A formula has a value in every valuation
that covers its variables. Whether a formula is a tautology, satisfiable or a contradiction is decided
by going through all valuations of its variables.
-/

namespace FormalLogic.Propositional

/-! ## Valuations -/

/-- Truth values for finitely many variables. -/
abbrev Valuation := List (String × Bool)

namespace Valuation

/-- The value of a variable, false where none is given. -/
def value (m : Valuation) (name : String) : Bool :=
  (Table.find? m name).getD false

/-- All rows of `n` truth values in lexicographic order, false before true. -/
def rows : Nat → List (List Bool)
  | 0 => [[]]
  | n + 1 => (rows n).map (false :: ·) ++ (rows n).map (true :: ·)

/-- All valuations of a list of variables, in lexicographic order. -/
def all (names : List String) : List Valuation :=
  (rows names.length).map fun row => Table.ofPairs (names.zip row)

end Valuation

/-- What is entered for a variable: a truth value, or something else that merely counts as true or
false. -/
inductive Mark
  | truth (value : Bool)
  | other (counts : Bool)
  deriving DecidableEq, Repr

namespace Mark

/-- Whether a mark counts as true. -/
def counts : Mark → Bool
  | truth value => value
  | other counts => counts

/-- The truth value of a mark that is one. -/
def truth? : Mark → Option Bool
  | truth value => some value
  | other _ => none

/-- Decides whether entries are a valuation: every key is a variable and every entry a truth value.
A key without characters is no name at all. -/
def areValuation : List (String × Mark) → Outcome Bool
  | [] => .ok true
  | (name, mark) :: rest => do
    if (← checkVariable name) && mark.truth?.isSome then areValuation rest else return false

/-- The valuation that entries must be. -/
def toValuation (entries : List (String × Mark)) : Outcome Valuation := do
  require (← areValuation entries) .valuation
  return entries.map fun e => (e.1, e.2.counts)

end Mark

/-! ## Values of formulas -/

namespace Formula

/-- The truth value of a formula, given those of all variables. A missing formula counts as false. -/
def eval (v : String → Bool) : Formula → Bool
  | var name => v name
  | const value => value
  | neg f => !f.eval v
  | bin op l r => op.eval (l.eval v) (r.eval v)
  | missing => false

/-- The truth value of a formula in a valuation that must cover its variables. -/
def evaluate (m : Valuation) (f : Formula) : Outcome Bool := do
  let f ← f.given
  require (subset f.vars (Table.keys m)) .covered
  return f.eval m.value

/-- Every connective of the formula is in the language. -/
def inDialect (d : Dialect) : Formula → Bool
  | var _ => true
  | const _ => true
  | neg f => f.inDialect d
  | bin op l r => d.contains op && l.inDialect d && r.inDialect d
  | missing => true

/-- The truth value of a formula whose connectives must be in the language. -/
def evaluateIn (d : Dialect) (m : Valuation) (f : Formula) : Outcome Bool := do
  let value ← f.evaluate m
  require (f.inDialect d) .connective
  return value

/-- The truth values of a formula in all valuations of its variables. -/
def values (f : Formula) : List Bool :=
  (Valuation.all f.vars).map fun m => f.eval m.value

/-- Truth in every valuation. -/
def isTautology (f : Formula) : Bool :=
  f.values.all id

/-- Truth in some valuation. -/
def isSatisfiable (f : Formula) : Bool :=
  f.values.any id

/-- Falsity in every valuation. -/
def isContradiction (f : Formula) : Bool :=
  !f.isSatisfiable

/-- The value of a formula depends on the variables that occur in it only. -/
theorem eval_congr {v w : String → Bool} (f : Formula)
    (h : ∀ x ∈ f.leafVariables, v x = w x) : f.eval v = f.eval w := by
  induction f with
  | var name => exact h name (by simp [leafVariables])
  | const value => rfl
  | neg f ih => simp only [eval, ih h]
  | bin op l r ihl ihr =>
    simp only [leafVariables, List.mem_append] at h
    simp only [eval, ihl fun x hx => h x (.inl hx), ihr fun x hx => h x (.inr hx)]
  | missing => rfl

end Formula

end FormalLogic.Propositional
