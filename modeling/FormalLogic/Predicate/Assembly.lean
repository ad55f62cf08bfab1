import FormalLogic.Predicate.Schema

/-!
# Texts of instances of any sort

The templates of a schema may be given instances of the wrong sort: a formula for a constant, a term or
a text for a relation. Such an instance stands where the template stood, and only some places ask
for its sort: a variable must become a variable, and a negated formula and the first operand of a
connective must be formulas. The second operand of a connective and what a quantifier binds may be
anything that is not missing. The result is a text, and a formula's text if all instances are of the
right sort.
-/

namespace FormalLogic.Predicate

/-- Part of a text that is assembled: a formula's text, or that of something else, or nothing. -/
inductive Piece
  | formula (text : String)
  | other (text : String)
  | missing
  deriving DecidableEq, Repr

namespace Piece

/-- The text of a piece. -/
def text : Piece → String
  | formula s => s
  | other s => s
  | missing => "None"

/-- The text of a piece that must be a formula's. -/
def formulaText : Piece → Outcome String
  | formula s => .ok s
  | _ => .error (.unmet .wellFormed)

/-- The text of a piece that must not be missing. -/
def presentText : Piece → Outcome String
  | missing => .error (.unmet .operandPresent)
  | p => .ok p.text

end Piece

namespace Instance

/-- An instance as part of a text. -/
def toPiece : Instance → Piece
  | text s => .other s
  | term t => .other t.text
  | formula f => .formula f.text
  | missing => .missing

/-- What stands for an instance in an argument: a formula is taken for a name. -/
def asTerm? : Instance → Option Term
  | text _ => none
  | term t => some t
  | formula f => some (.const f.text)
  | missing => some .missing

end Instance

namespace Assembly

/-- Requires variables to become variables. -/
def checkVariables (images : Instances) : Outcome Unit :=
  images.forM fun e =>
    if isVariable e.1 then
      match e.2 with
      | .term t => require (isVariable t.root) .template
      | .missing => .error .absent
      | _ => .error (.unmet .template)
    else .ok ()

/-- The terms that stand for constants and variables. -/
def terms (images : Instances) : Term.Images :=
  (images.filter fun e => isReplaceable e.1).filterMap fun e => e.2.asTerm?.map (e.1, ·)

/-- An argument with instances in it; a text cannot stand in an argument. -/
def argument (images : Instances) (t : Term) : Outcome Term :=
  if images.any fun e => e.2.asTerm?.isNone && t.constants.contains e.1 then .error .absent
  else t.substitute (terms images) []

/-- A relation without arguments or with one argument, with an instance in its place. -/
def replaced (images : Instances) (name : String) (i : Instance) (ts : List Term) :
    Outcome Piece := do
  match ts with
  | [] => return i.toPiece
  | t :: _ =>
    let t' ← argument images t
    match i with
    | .formula f =>
      return .formula (← Formula.reportIn name (f.substitute [(hole, t')] [])).text
    | .term u => return .other (← u.substitute [(hole, t')] []).text
    | _ => .error .absent

/-- A formula with instances in it. -/
def assemble (images : Instances) : Formula → Outcome Piece
  | .equal l r => do
    let l' ← argument images l
    return .formula (Formula.equal l' (← argument images r)).text
  | .rel name ts => do
    match images.find? fun e => e.1 == name with
    | some (_, i) => replaced images name i ts
    | none => return .formula (Formula.rel name (← ts.mapM (argument images))).text
  | .neg f => do
    let p ← assemble images f
    return .formula ("~" ++ (← p.formulaText))
  | .bin op l r => do
    let p ← assemble images l
    let p' ← assemble images r
    return .formula ("(" ++ (← p.formulaText) ++ op.symbol ++ (← p'.presentText) ++ ")")
  | .quant q x f => do
    let p ← assemble images f
    let x' := ((Table.find? (terms images) x).map Term.text).getD x
    return .formula (q.symbol ++ x' ++ "[" ++ (← p.presentText) ++ "]")
  | .bare _ => .error .absent

/-- A text that would capture a variable is missing. -/
def missingIfCaptured : Outcome Piece → Outcome Piece
  | .error (.forbiddenVariable _) => .ok .missing
  | .error (.boundVariable _ _) => .ok .missing
  | x => x

end Assembly

/-- The instance of a schema as a text. It is missing if a key is no template, or if a variable would
be captured. -/
def Schema.instancePiece (s : Schema) (m : Instances) : Outcome Piece := do
  match ← s.readVariables m with
  | none => return .missing
  | some images =>
    if images.all fun e => e.2.fits e.1 then
      return (Instance.ofFormula (← s.instanceBy images)).toPiece
    else
      Assembly.checkVariables images
      Assembly.missingIfCaptured (Assembly.assemble images s.formula)

end FormalLogic.Predicate
