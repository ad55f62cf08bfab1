import FormalLogic.Propositional.Axioms
import FormalLogic.Propositional.Proof

/-!
# Proofs from proofs

Ways to make a proof out of given ones: a consequence by modus ponens, the deduction theorem, which
discharges the last assumption, and indirect proof. The formulas that are put together here must have
been given; others may be missing from the proofs.
-/

namespace FormalLogic.Propositional

open Formula Axioms

namespace Proof

/-- Requires that two proofs have the same assumptions and the same rules. -/
def requireSameContext (pf pf' : Proof) : Outcome Unit := do
  require (decide (pf.statement.assumptions = pf'.statement.assumptions)) .agreement
  require (sameSet pf.rules pf'.rules) .agreement

/-- Requires that none of some formulas that are to be put together is missing. -/
def requirePresent (fs : List Formula) : Outcome Unit :=
  require (fs.all fun f => !f.isMissing) .operandPresent

/-- For a valid proof of `a`, the implication from `a` to `b`. -/
def implication (pf : Proof) (consequent : Formula) : Outcome Formula := do
  pf.requireValid
  requirePresent [pf.statement.conclusion, consequent]
  return imp pf.statement.conclusion consequent

/-- From a proof of `a`, a proof of `b`, where `a` implies `b` by the given rule. -/
def corollary (pf : Proof) (consequent : Formula) (conditional : InferenceRule) : Outcome Proof := do
  let implication ← pf.implication consequent
  require (← (schema implication).isSpecializationOf conditional) .specialization
  let n : Int := pf.lines.length
  return make (.rule pf.statement.assumptions consequent) (pf.rules ++ [conditional])
    (pf.lines ++ [.inferred implication conditional [], .inferred consequent MP [n - 1, n]])

/-- For valid proofs of `a` and `b` from the same assumptions, the implication from `a` to the
implication from `b` to `c`. -/
def jointImplication (pf pf' : Proof) (consequent : Formula) : Outcome Formula := do
  pf.requireValid
  pf'.requireValid
  requireSameContext pf pf'
  requirePresent [pf.statement.conclusion, pf'.statement.conclusion, consequent]
  return imp pf.statement.conclusion (imp pf'.statement.conclusion consequent)

/-- From proofs of `a` and `b`, a proof of `c`, where `a` and then `b` imply `c` by the given
rule. -/
def combine (pf pf' : Proof) (consequent : Formula) (conditional : InferenceRule) :
    Outcome Proof := do
  let first ← jointImplication pf pf' consequent
  require (← (schema first).isSpecializationOf conditional) .specialization
  let second := imp pf'.statement.conclusion consequent
  let n : Int := pf.lines.length
  let m : Int := n + pf'.lines.length
  return make (.rule pf.statement.assumptions consequent) (pf.rules ++ [conditional])
    (pf.lines ++ pf'.lines.map (Line.shift n) ++
      [.inferred first conditional [], .inferred second MP [n - 1, m],
        .inferred consequent MP [m - 1, m + 1]])

/-! ## The deduction theorem -/

/-- Requires every rule of a proof to be modus ponens or an axiom. -/
def requireAxioms (pf : Proof) : Outcome Unit :=
  pf.rules.forM fun r => do
    if r = MP then return () else require (← r.given).assumptions.isEmpty .axiomRules

/-- The lines written so far when an assumption is being discharged, and for every line of the given
proof the position of the line that has it behind the implication. -/
structure Discharge where
  lines : List Line := []
  places : List Int := []

/-- Appends lines, the last of which is the implication for the next line of the given proof. -/
def Discharge.append (d : Discharge) (more : List Line) : Discharge where
  lines := d.lines ++ more
  places := d.places ++ [(d.lines.length : Int) + more.length - 1]

/-- Puts the assumption in front of one line. -/
def dischargeLine (a : Formula) (d : Discharge) (l : Line) : Outcome Discharge := do
  let n : Int := d.lines.length
  let goal := imp a l.formula
  if l.formula = a then
    return d.append [.inferred (imp a a) I0 []]
  else
    match l.inference with
    | some ⟨rule, premises⟩ =>
      if rule = MP then
        let major ← fetch d.places (← fetch premises 1)
        let implication ← fetch d.lines major
        let minor ← fetch d.places (← fetch premises 0)
        let antecedent ← fetch d.lines minor
        let step := imp antecedent.formula goal
        return d.append
          [.inferred (imp implication.formula step) D [], .inferred step MP [major, n],
            .inferred goal MP [minor, n + 1]]
      else return d.append (weakened a l n)
    | none => return d.append (weakened a l n)
where
  /-- A line that does not depend on the assumption, and the implication that follows from it. -/
  weakened (a : Formula) (l : Line) (n : Int) : List Line :=
    [l, .inferred (imp l.formula (imp a l.formula)) I1 [],
      .inferred (imp a l.formula) MP [n, n + 1]]

/-- The last assumption and the assumptions before it. -/
def lastAssumption (pf : Proof) : Outcome (List Formula × Formula) :=
  match pf.statement.assumptions.getLast? with
  | some a => .ok (pf.statement.assumptions.dropLast, a)
  | none => .error (.unmet .assumption)

/-- From a proof of `b` that uses `a` as its last assumption, a proof of the implication from `a` to
`b` without it. -/
def removeAssumption (pf : Proof) : Outcome Proof := do
  pf.requireValid
  let (rest, a) ← pf.lastAssumption
  pf.requireAxioms
  requirePresent (a :: pf.statement.conclusion :: pf.lines.map Line.formula)
  let d ← pf.lines.foldlM (dischargeLine a) {}
  return make (.rule rest (imp a pf.statement.conclusion)) (addRules pf.rules [I0, I1, D, MP]) d.lines

/-! ## Indirect proof -/

/-- From proofs of `a` and of its negation, a proof of anything. -/
def ofInconsistency (affirmation negation : Proof) (conclusion : Formula) : Outcome Proof := do
  affirmation.requireValid
  negation.requireValid
  require (decide (affirmation.statement.assumptions = negation.statement.assumptions)) .agreement
  requirePresent [affirmation.statement.conclusion, conclusion]
  require (decide (neg affirmation.statement.conclusion = negation.statement.conclusion)) .agreement
  require (sameSet affirmation.rules negation.rules) .agreement
  let n : Int := affirmation.lines.length
  let m : Int := n + negation.lines.length
  let step := imp affirmation.statement.conclusion conclusion
  return make (.rule affirmation.statement.assumptions conclusion) (affirmation.rules ++ [I2, MP])
    (affirmation.lines ++ negation.lines.map (Line.shift n) ++
      [.inferred (imp negation.statement.conclusion step) I2 [], .inferred step MP [m - 1, m],
        .inferred conclusion MP [n - 1, m + 1]])

/-- The contradiction that indirect proofs arrive at. -/
def absurdity : Formula := neg (imp p p)

/-- From a proof of a contradiction whose last assumption is a negation, a proof of what is negated
there. -/
def byContradiction (pf : Proof) : Outcome Proof := do
  pf.requireValid
  require (decide (pf.statement.conclusion = absurdity)) .shape
  let (rest, last) ← pf.lastAssumption
  match last with
  | .neg goal =>
    pf.requireAxioms
    let rules := (pf.rules.filter fun r => decide (r ≠ MP)) ++ [I0, I1, D, N, MP]
    let discharged ← pf.removeAssumption
    let n : Int := discharged.lines.length
    let step := imp (imp p p) goal
    return make (.rule rest goal) rules
      (discharged.lines ++
        [.inferred (imp (imp last pf.statement.conclusion) step) N [], .inferred step MP [n - 1, n],
          .inferred (imp p p) I0 [], .inferred goal MP [n + 2, n + 1]])
  | .missing => .error .absent
  | _ => .error (.unmet .shape)

end Proof

end FormalLogic.Propositional
