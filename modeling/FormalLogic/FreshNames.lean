import FormalLogic.Failure

/-!
# Fresh names

Two endless supplies of names that no formula of the user's should contain: variables `z1, z2, …` and
constants `c1, c2, …`. The state of the supplies is threaded through every operation that draws from
them, also through one that fails.
-/

namespace FormalLogic

/-- How many names have been drawn from each supply. -/
structure FreshNames where
  variablesDrawn : Nat := 0
  constantsDrawn : Nat := 0
  deriving DecidableEq, Repr

/-- Operations that draw fresh names. -/
abbrev Naming := StateM FreshNames

/-- Operations that draw fresh names and can fail; the names drawn before a failure stay drawn. -/
abbrev Fallible := ExceptT Failure Naming

/-- The `n`-th name of the supply with the given letter, counted from one. -/
def FreshNames.name (letter : String) (n : Nat) : String :=
  letter ++ String.ofList (Nat.toDigits 10 n)

/-- Draws the next fresh variable. -/
def freshVariable : Naming String := do
  modify fun s => { s with variablesDrawn := s.variablesDrawn + 1 }
  return FreshNames.name "z" (← get).variablesDrawn

/-- Draws the next fresh constant. -/
def freshConstant : Naming String := do
  modify fun s => { s with constantsDrawn := s.constantsDrawn + 1 }
  return FreshNames.name "c" (← get).constantsDrawn

/-- Starts the supply of variables anew. -/
def resetVariables : Naming Unit :=
  modify fun s => { s with variablesDrawn := 0 }

/-- Starts the supply of constants anew. -/
def resetConstants : Naming Unit :=
  modify fun s => { s with constantsDrawn := 0 }

/-- An operation that draws no names. -/
def Fallible.ofOutcome {α : Type} (x : Outcome α) : Fallible α :=
  match x with
  | .ok a => pure a
  | .error e => throw e

instance : MonadLift Outcome Fallible := ⟨Fallible.ofOutcome⟩

end FormalLogic
