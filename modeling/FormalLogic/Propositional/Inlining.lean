import FormalLogic.Propositional.Proof

/-!
# Inlining a lemma

A line that follows by a lemma is replaced by the lines of the lemma's proof, specialized to that
line. The lines that the specialized proof takes as assumptions are lines that the replaced line
cites, and are repeated in its place. Positions behind the replaced line move by the number of lines
that were added.
-/

namespace FormalLogic.Propositional.Proof

/-- The main proof's line that a line of the specialized lemma stands for: the first cited line with
the same formula, for an assumption, and otherwise the lemma's line moved to its new place. -/
def inlinedLine (main : Proof) (cited : List Int) (pos : Int) (l : Line) : Outcome (List Line) :=
  if l.isAssumption then do
    let lines ← cited.mapM fun j => fetch main.lines j
    match lines.find? fun m => decide (m.formula = l.formula) with
    | some m => return [m.shiftFrom pos pos]
    | none => return []
  else return [l.shift pos]

/-- Requires that the line at a position follows by the lemma's statement, and that the lemma's proof
is valid. -/
def checkInlining (main : Proof) (pos : Int) (lemmaProof : Proof) : Outcome Unit := do
  let replaced ← fetch main.lines pos
  require (decide (replaced.rule = lemmaProof.statement)) .specialization
  lemmaProof.requireValid

/-- Replaces the line at a position, which must follow by the lemma's statement, by the lines of
the lemma's proof. If asked, the statement is taken off the rules once. -/
def inlineOnce (main : Proof) (pos : Int) (lemmaProof : Proof) (dropStatement : Bool) :
    Outcome Proof := do
  main.checkInlining pos lemmaProof
  let replaced ← fetch main.lines pos
  let special ← lemmaProof.specialize (← main.ruleForLine pos)
  let rules := main.rules ++ lemmaProof.rules
  let rules := if dropStatement then rules.erase lemmaProof.statement else rules
  let cited := (replaced.inference.map Inference.premises).getD []
  let middle ← special.lines.mapM (inlinedLine main cited pos)
  let added : Int := lemmaProof.lines.length - 1
  let blocks := main.lines.mapIdx fun i l =>
    if (i : Int) < pos then [l]
    else if (i : Int) = pos then middle.flatten
    else [l.shiftFrom pos added]
  return make main.statement rules blocks.flatten

/-- Replaces all lines that follow by the lemma's statement. -/
def inline (main lemmaProof : Proof) : Outcome Proof :=
  go main 0 main.lines
where
  /-- Goes through the main proof's lines, which begin at the given position of the result. -/
  go (pf : Proof) (position : Nat) : List Line → Outcome Proof
    | [] => .ok pf
    | l :: ls => do
      if l.rule = lemmaProof.statement then
        let pf' ← pf.inlineOnce position lemmaProof true
        go pf' (position + lemmaProof.lines.length) ls
      else go pf (position + 1) ls

end FormalLogic.Propositional.Proof
