import FormalLogic.Predicate.Schema

/-!
# Predicate proofs

A line of a proof is an instance of an assumption, follows from two lines by modus ponens, generalizes
a line, or is a tautology. Lines are cited by position.
-/

namespace FormalLogic.Predicate

/-- A line of a proof. -/
inductive Line
  /-- An instance of an assumption. -/
  | assumption (formula : Formula) (schema : Schema) (instances : Instances)
  /-- Modus ponens from an antecedent and a conditional. -/
  | mp (formula : Formula) (antecedent conditional : Int)
  /-- Universal generalization. -/
  | ug (formula : Formula) (premise : Int)
  /-- A tautology. -/
  | tautology (formula : Formula)
  deriving DecidableEq, Repr

namespace Line

/-- The formula of a line. -/
def formula : Line → Formula
  | assumption f _ _ => f
  | mp f _ _ => f
  | ug f _ => f
  | tautology f => f

/-- The text of a line. -/
def text : Line → String
  | assumption f s m =>
    f.text ++ "    (Assumption " ++ s.text ++ " instantiated with " ++
      Text.table (m.map fun e => (Text.quoted e.1, e.2.shown)) ++ ")"
  | mp f i j => f.text ++ "    (MP from line " ++ Text.decimal i ++ " and " ++ Text.decimal j ++ ")"
  | ug f i => f.text ++ "    (UG of line " ++ Text.decimal i ++ ")"
  | tautology f => f.text ++ "    (Tautology)"

/-- Moves the cited positions of a line. -/
def shift (distance : Int) : Line → Line
  | mp f i j => mp f (i + distance) (j + distance)
  | ug f i => ug f (i + distance)
  | l => l

/-- Makes a line that is an instance of an assumption. -/
def ofAssumption (f : Formula) (s : Schema) (m : Instances) : Outcome Line := do
  checkInstances m
  return assumption f s m

end Line

/-- A proof of a conclusion from assumptions. -/
structure Proof where
  assumptions : List Schema
  conclusion : Formula
  lines : List Line
  deriving DecidableEq, Repr

namespace Proof

/-- Makes a proof, taking its assumptions for a set. -/
def make (assumptions : List Schema) (conclusion : Formula) (lines : List Line) : Proof :=
  ⟨assumptions.eraseDups, conclusion, lines⟩

/-- Whether the last line of a proof is its conclusion. The justifications of the lines are not looked
at. -/
def concludes (pf : Proof) : Bool :=
  match pf.lines.getLast? with
  | some l => decide (l.formula = pf.conclusion)
  | none => false

/-- The text of a proof, with its assumptions in ascending order. -/
def text (pf : Proof) : String :=
  "Proof of " ++ pf.conclusion.text ++ " from assumptions/axioms:\n" ++
    String.join ((sortedSet (pf.assumptions.map Schema.text)).map fun s => "  " ++ s ++ "\n") ++
    "Lines:\n" ++
    String.join (pf.lines.mapIdx fun i l => Text.numbered i ++ ") " ++ l.text ++ "\n") ++ "QED\n"

end Proof

/-- Requires that a position in the first lines of a list is that of a given line. -/
def checkLinePlace (lines : List Line) (i : Int) (cut : Option Int) (pos : Int) :
    Outcome Unit := do
  let _ ← fetch lines i
  let count : Nat := match cut with
    | none => lines.length
    | some c => if 0 ≤ c then min c.toNat lines.length else (c + lines.length).toNat
  require (decide (pos < count)) .lineRange
  let first := lines.take count
  let _ ← fetch first pos
  require (decide (place? count pos = place? lines.length i)) .lineValid

end FormalLogic.Predicate
