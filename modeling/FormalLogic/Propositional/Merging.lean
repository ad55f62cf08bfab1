import FormalLogic.Propositional.Proof

/-!
# A second checker, which merges images

This checker matches the parts of a formula separately and merges the images found. It reads the lines
cited by a line before it asks anything else about it. Its matching of rules differs from
`InferenceRule.images?` in two respects: assumptions without any variable among them, up to some point
before the conclusion, count as no match, and a formula may be missing only where the general rule has
a variable.
-/

namespace FormalLogic.Propositional.Merging

/-- Merges the images found in two parts. -/
def merge? (s t : Option Specialization) : Option Specialization :=
  match s, t with
  | some s, some t => mergeTables? s t
  | _, _ => none

/-- The images by which a general formula becomes a special one. -/
def matchFormula? : Formula → Formula → Option Specialization
  | .const a, .const b => if a = b then some [] else none
  | .var x, g => some [(x, g)]
  | .neg f, .neg g => matchFormula? f g
  | .bin op l r, .bin op' l' r' =>
    if op = op' then merge? (matchFormula? l l') (matchFormula? r r') else none
  | _, _ => none

/-- The images by which a general formula becomes a special one, where the special one may be missing
in place of a variable. -/
def formulaImages? (general special : Formula) : Outcome (Option Specialization) := do
  match ← general.given with
  | .var x => return some [(x, special)]
  | f => return matchFormula? f (← special.given)

/-- Matches assumptions one by one; after each of them some image must have been found. -/
def assumptionImages? (m : Specialization) :
    List Formula → List Formula → Outcome (Option Specialization)
  | f :: fs, g :: gs => do
    match merge? (some m) (← formulaImages? f g) with
    | some [] => return none
    | some m' => assumptionImages? m' fs gs
    | none => return none
  | _, _ => .ok (some m)

/-- The images by which a general rule becomes a special one. -/
def images? (general special : InferenceRule) : Outcome (Option Specialization) := do
  let general ← general.given
  let special ← special.given
  if general.assumptions.length = special.assumptions.length then
    match ← assumptionImages? [] general.assumptions special.assumptions with
    | some m => return merge? (some m) (← formulaImages? general.conclusion special.conclusion)
    | none => return none
  else return none

/-- Whether a rule is a specialization of a general one. -/
def isSpecializationOf (special general : InferenceRule) : Outcome Bool := do
  return (← images? general special).isSome

/-- Whether a line of a proof is justified. -/
def lineValid (pf : Proof) (i : Int) : Outcome Bool := do
  let l ← pf.line i
  let r ← pf.ruleForLine i
  match l.inference with
  | some inf =>
    if inf.premises.all fun j => decide (j < i) then
      return (← isSpecializationOf r inf.rule) && pf.rules.contains inf.rule
    else return false
  | none => return (← pf.statement.given).assumptions.contains l.formula

/-- Whether a proof is valid. -/
def isValid (pf : Proof) : Outcome Bool := do
  if ← Proof.allLinesValid (lineValid pf) (List.range pf.lines.length) then
    let last ← fetch pf.lines (-1)
    return decide (last.formula = (← pf.statement.given).conclusion)
  else return false

/-- A valid proof of a rule, made into a proof of a specialization of that rule. -/
def specialize (pf : Proof) (special : InferenceRule) : Outcome Proof := do
  require (← isValid pf) .validProof
  match ← images? pf.statement special with
  | none => .error (.unmet .specialization)
  | some m =>
    let lines ← pf.lines.mapM fun l => do return { l with formula := ← l.formula.substPartial m }
    return { pf with statement := special, lines := lines }

/-! ## Inlining -/

/-- The first of the cited lines with the given formula, and the cited lines from there on. -/
def findCited (main : Proof) (f : Formula) : List Int → Outcome (Line × List Int)
  | [] => .error .outOfRange
  | j :: js => do
    let l ← fetch main.lines j
    if l.formula = f then return (l, j :: js) else findCited main f js

/-- The lines of a specialized lemma, moved to their place in the main proof. The assumptions of the
lemma are looked up among the cited lines by a search that never goes back. -/
def inlinedLines (main : Proof) (pos : Int) : List Int → List Line → Outcome (List Line)
  | _, [] => .ok []
  | cited, l :: ls => do
    if l.isAssumption then
      let (m, cited') ← findCited main l.formula cited
      return m :: (← inlinedLines main pos cited' ls)
    else return l.shift pos :: (← inlinedLines main pos cited ls)

/-- The integers from a lower bound up to an upper one, which is left out. -/
def integers (lower upper : Int) : List Int :=
  (List.range (upper - lower).toNat).map fun (k : Nat) => lower + (k : Int)

/-- Replaces the line at a position, which must follow by the lemma's statement, by the lines of
the lemma's proof. -/
def inlineOnce (main : Proof) (pos : Int) (lemmaProof : Proof) : Outcome Proof := do
  let replaced ← fetch main.lines pos
  require (decide (replaced.rule = lemmaProof.statement)) .specialization
  require (← isValid lemmaProof) .validProof
  let special ← specialize lemmaProof (← main.ruleForLine pos)
  let cited := (replaced.inference.map Inference.premises).getD []
  let middle ← inlinedLines main pos cited special.lines
  let after ← (integers (pos + 1) main.lines.length).mapM fun i => fetch main.lines i
  let added : Int := lemmaProof.lines.length - 1
  return Proof.make main.statement (main.rules ++ lemmaProof.rules)
    (main.lines.take pos.toNat ++ middle ++ after.map (Line.shiftFrom pos added))

/-- Replaces all lines that follow by the lemma's statement, and takes the statement off the
rules. -/
def inline (main lemmaProof : Proof) : Outcome Proof := do
  let pf ← go main 0 main.lines
  return { pf with rules := pf.rules.filter fun r => decide (r ≠ lemmaProof.statement) }
where
  /-- Goes through the main proof's lines, which begin at the given position of the result. -/
  go (pf : Proof) (position : Nat) : List Line → Outcome Proof
    | [] => .ok pf
    | l :: ls => do
      if l.rule = lemmaProof.statement then
        let pf' ← inlineOnce pf position lemmaProof
        go pf' (position + lemmaProof.lines.length) ls
      else go pf (position + 1) ls

end FormalLogic.Propositional.Merging
