import FormalLogic.Propositional.Rule

/-!
# Proofs by inference rules

A proof derives the conclusion of its statement from the assumptions, line by line. A line is either
an assumption of the statement, or it follows from the lines that it cites by a specialization of a
rule. Lines are cited by position, counted from zero; a negative position counts from the end of the
whole proof.
-/

namespace FormalLogic.Propositional

/-- The justification of a line that is not an assumption: a rule, and the positions of the lines
that are its assumptions. -/
structure Inference where
  rule : InferenceRule
  premises : List Int
  deriving DecidableEq, Repr

/-- A line of a proof. A line without an inference is an assumption. -/
structure Line where
  formula : Formula
  inference : Option Inference
  deriving DecidableEq, Repr

/-- A proof of a statement by the given rules. -/
structure Proof where
  statement : InferenceRule
  rules : List InferenceRule
  lines : List Line
  deriving DecidableEq, Repr

namespace Line

/-- A line that is an assumption. -/
def assumed (f : Formula) : Line := ⟨f, none⟩

/-- A line that follows by a rule. -/
def inferred (f : Formula) (rule : InferenceRule) (premises : List Int) : Line :=
  ⟨f, some ⟨rule, premises⟩⟩

/-- Makes a line; a rule and positions are given both or not at all. -/
def make (f : Formula) (rule : InferenceRule) (premises : Option (List Int)) : Outcome Line :=
  match premises with
  | none => if rule.isMissing then .ok (assumed f) else .error (.unmet .justification)
  | some premises =>
    if rule.isMissing then .error (.unmet .justification) else .ok (inferred f rule premises)

/-- Whether a line is an assumption. -/
def isAssumption (l : Line) : Bool :=
  l.inference.isNone

/-- The rule of a line, which is missing for an assumption. -/
def rule (l : Line) : InferenceRule :=
  (l.inference.map Inference.rule).getD .missing

/-- The text of a line. -/
def text (l : Line) : String :=
  match l.inference with
  | none => l.formula.text
  | some ⟨rule, premises⟩ =>
    l.formula.text ++ " Inference Rule " ++ rule.text ++
      if premises.isEmpty then "" else " on " ++ Text.tuple (premises.map Text.decimal)

/-- Changes the cited positions of a line. -/
def mapPremises (g : Int → Int) (l : Line) : Line :=
  { l with inference := l.inference.map fun i => { i with premises := i.premises.map g } }

/-- Moves the cited positions of a line by a distance. -/
def shift (distance : Int) (l : Line) : Line :=
  l.mapPremises (· + distance)

/-- Moves the cited positions from a given position on by a distance. -/
def shiftFrom (start distance : Int) (l : Line) : Line :=
  l.mapPremises fun i => if i < start then i else i + distance

end Line

/-- Moves numbers by a distance: all of them, or those from a given number on. -/
def shiftNumbers (numbers : List Int) (distance start : Int) (fromStart : Bool) : List Int :=
  numbers.map fun i => if fromStart && decide (i < start) then i else i + distance

/-- Adds rules to a set of rules. -/
def addRules (rules more : List InferenceRule) : List InferenceRule :=
  rules ++ more.filter fun r => !rules.contains r

namespace Proof

/-- Makes a proof, taking its rules for a set. -/
def make (statement : InferenceRule) (rules : List InferenceRule) (lines : List Line) : Proof :=
  ⟨statement, rules.eraseDups, lines⟩

/-- The line at a position, which must lie before the end. -/
def line (pf : Proof) (i : Int) : Outcome Line := do
  require (decide (i < pf.lines.length)) .lineRange
  fetch pf.lines i

/-- The rule that leads from the lines cited by a line to its formula. It is missing for an
assumption. -/
def ruleForLine (pf : Proof) (i : Int) : Outcome InferenceRule := do
  let l ← pf.line i
  match l.inference with
  | none => return .missing
  | some inf => do
    let premises ← inf.premises.mapM fun j => fetch pf.lines j
    return .rule (premises.map Line.formula) l.formula

/-- Whether a line is justified: an assumption is one of the statement's, and any other line
follows from earlier ones by a rule of the proof. -/
def lineValid (pf : Proof) (i : Int) : Outcome Bool := do
  let l ← pf.line i
  match l.inference with
  | none => return (← pf.statement.given).assumptions.contains l.formula
  | some inf =>
    if pf.rules.contains inf.rule && inf.premises.all fun j => decide (j < i) then
      (← pf.ruleForLine i).isSpecializationOf inf.rule
    else return false

/-- Goes through the positions of a proof as long as the lines are justified. -/
def allLinesValid (check : Int → Outcome Bool) : List Nat → Outcome Bool
  | [] => .ok true
  | i :: is => do if ← check i then allLinesValid check is else return false

/-- Whether a proof is valid: all its lines are justified, and the last one is the conclusion of the
statement. A proof without lines has no last line. -/
def isValid (pf : Proof) : Outcome Bool := do
  if ← allLinesValid pf.lineValid (List.range pf.lines.length) then
    let statement ← pf.statement.given
    let last ← fetch pf.lines (-1)
    return decide (last.formula = statement.conclusion)
  else return false

/-- Requires a proof to be valid. -/
def requireValid (pf : Proof) : Outcome Unit := do
  require (← pf.isValid) .validProof

/-- The text of a proof, with its rules in ascending order. -/
def text (pf : Proof) : String :=
  "Proof for " ++ pf.statement.text ++ " via inference rules:\n" ++
    String.join ((sortedSet (pf.rules.map InferenceRule.text)).map fun r => "  " ++ r ++ "\n") ++
    "Lines:\n" ++
    String.join (pf.lines.mapIdx fun i l => Text.numbered i ++ ") " ++ l.text ++ "\n")

/-- A proof whose formulas are looked into, and must all have been given. -/
def complete (pf : Proof) : Outcome Proof :=
  if pf.statement.isComplete && pf.lines.all fun l => !l.formula.isMissing then .ok pf
  else .error .absent

/-- The images by which the statement of a valid proof becomes a special rule. -/
def specialization (pf : Proof) (special : InferenceRule) : Outcome Specialization := do
  pf.requireValid
  match ← InferenceRule.images? pf.statement special with
  | none => .error (.unmet .specialization)
  | some m => return m

/-- A valid proof of a rule, made into a proof of a specialization of that rule. -/
def specialize (pf : Proof) (special : InferenceRule) : Outcome Proof := do
  let σ := Formula.imageIn (← pf.specialization special)
  let pf ← pf.complete
  return { pf with
    statement := pf.statement.subst σ
    lines := pf.lines.map fun l => { l with formula := l.formula.subst σ } }

end Proof

end FormalLogic.Propositional
