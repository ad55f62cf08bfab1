import FormalLogic.Predicate.Completeness
import FormalLogic.Predicate.Deduction
import FormalLogic.Predicate.Theorems
import FormalLogic.Tour.PredicateSyntax

/-!
# Tours of predicate proofs
-/

namespace FormalLogic.Tour

open Predicate

variable [SetOrder Int] [SetOrder String] [SetOrder Formula]

/-- A formula, read from its text. -/
def sentence (s : String) : Outcome Formula := Formula.parse s

/-! ## Schemas and lines -/

/-- The variable and the relation for which an instance is refused. -/
def captured {α : Type} : Outcome α → Item
  | .error (.boundVariable x r) => item [x, r]
  | .error e => .refused e
  | .ok _ => .nothing

/-- Instantiates schemas, and shows lines and a proof. -/
def schemas : Session := fun n => do
  let round : Outcome (List Item) := do
    let s := Axioms.universalInstantiation
    let man ← sentence "Man(_)"
    let f ← sentence "Ax[(Q(c)->R(x))]"
    let w ← termImages [("x", "w")]
    let q := [("Q", ← sentence "y=_")]
    let a := Term.const "a"
    let fact ← sentence "R(a)"
    let selfEvident ← sentence "(R(a)->R(a))"
    let lines : List Line := [
      ← Line.ofAssumption fact s [("R", .formula (← sentence "R(_)")), ("c", .term a), ("x", .text "x")],
      .mp fact 0 1, .ug (← sentence "Ax[R(x)]") 0, .tautology selfEvident]
    let pf := Proof.make [] selfEvident [.tautology selfEvident]
    checkAxiomMaps [("p", Propositional.Formula.var "q")] [("q", fact)]
    return [item [item s.text, .digest, item (decide (s = s)), item (!decide (s ≠ s))],
      item (← s.instantiate [("R", .formula man), ("c", .term a), ("x", .text "y")]),
      item (← s.instantiate [("Q", .formula man)]), item (← f.instantiateWith w q []),
      captured (f.instantiateWith [] q ["x", "y", "z"]),
      item (cut 20 pf.text, pf.concludes), item (lines.map Line.text), .nothing]
  return .row (← rounds n (liftM round))

/-! ## Derivations -/

/-- How many lines a derivation makes. -/
def lengthOf (d : Derivation) : Fallible Item := do
  let (pf, _) ← d.run false
  let pf ← pf
  return item pf.lines.length

/-- Runs the derivations. -/
def derivations : Session := fun n => do
  let items ← rounds n do
    let lengths ← [Derivation.syllogism, .syllogismByInstance, .allAll, .allAllByConsequence,
      .allSome, .allSomeByConsequence, .lovers, .homework, .russell, .rightNeutral none,
      .uniqueZero, .zeroPlus].mapM lengthOf
    return lengths ++ [.nothing, .nothing, .nothing]
  return .row (items ++ [← lengthOf .multiplyZero])

/-- The length and the conclusion of a proof. -/
def summary (pf : Proof) : Item := item (pf.lines.length, pf.conclusion)

/-- Discharges an assumption and refutes another. -/
def predicateDeduction : Session := fun n => do
  let items ← rounds n do
    let (syllogism, _) ← Derivation.allAll.run false
    let syllogism ← syllogism
    let discharged ← syllogism.discharge (← sentence "Ax[(Greek(x)->Human(x))]")
    let p ← sentence "P(a)"
    let contradiction ← Prover.prove [.ofFormula p, .ofFormula (.neg p)] do
      let affirmed ← Proving.assumption p
      let denied ← Proving.assumption (Formula.neg p)
      Proving.tautologicalConsequence (Formula.conj p (.neg p)) [affirmed, denied]
    return [summary discharged, summary (← contradiction.refute p)]
  return .row items

/-! ## Prenex normal form -/

/-- Formulas with quantifiers in several places. -/
def nested (depth : Int) : List String :=
  if depth = 1 then ["~Ax[R(x)]", "(R(a)&Q(b))", "Ax[R(x)]"]
  else if depth = 3 then
    ["(~(Ax[Ey[R(x,y)]]->Ew[P(1,w)])|S(v))", "(Ax[Ey[R(x,y)]]&Ev[Aw[Q(v,w)]])",
      "Ax[(Ey[R(x,y)]->Aw[Q(w)])]"]
  else
    ["~Ax[Ey[R(x,y)]]", "(Ax[R(x)]&Ey[Q(y)])", "(Ax[Ey[R(x,y)]]->Ew[P(1,w)])",
      "(R(a)|Ax[Q(x)])"]

/-- Converts formulas to prenex normal form. -/
def prenex : Session := fun depth => do
  let converted (c : Converted) : Item := item (c.formula, c.proof.lines.length)
  let fs ← ((nested depth).mapM sentence : Outcome _)
  let judged := fs.flatMap fun f =>
    [item f.isQuantifierFree, item f.isPrenex, item f.hasUniqueNames, item (f.equivalence f)]
  let forms ← fs.mapM fun f => do
    resetVariables
    return converted (← Prenex.normalForm f)
  let pulled ← Prenex.acrossNegation (← sentence "~Ax[Ey[R(x,y)]]")
  let pulled' ← Prenex.acrossRight (← sentence "(R(a)|Ax[Ey[Q(x,y)]])")
  return .row (judged ++ forms ++ [converted pulled, converted pulled'])

/-! ## Completeness -/

/-- Facts about the constants `c0, c1, …`: all have the first property, and every other one has the
second. -/
def facts (n : Int) : Outcome (List Formula) := do
  let about (i : Nat) : List Formula :=
    let c := Term.const ("c" ++ Text.decimal i)
    let q := Formula.rel "Q" [c]
    [.rel "R" [c], if i % 2 = 0 then q else .neg q]
  return [← sentence "Ax[R(x)]", ← sentence "Ex[Q(x)]"] ++ (List.range n.toNat).flatMap about

/-- What a closed set of sentences has, in a word. -/
def word : Sentences.Verdict → Item
  | .model _ => .text "Model"
  | .contradiction _ => .text "Proof"

/-- Checks whether sets of sentences are closed, and finds models, contradictions and sentences that do
not hold. -/
def completeness : Session := fun n => do
  let fs ← facts n
  let denial ← sentence "~R(c1)"
  let closed := [← Sentences.isPrimitivelyClosed fs, ← Sentences.isUniversallyClosed fs,
    ← Sentences.isExistentiallyClosed fs, ← Sentences.isClosed fs]
  let primitives ← Sentences.primitiveParts (← sentence "(R(c0)&Q(c1))")
  let first ← Sentences.modelOrContradiction fs
  let second ← Sentences.modelOrContradiction (fs ++ [denial])
  Sentences.check fs
  let u := Sentences.constants fs
  let m ← Model.make u (u.map fun c => (c, c))
    [("R", (u.filter (· ≠ "c1")).map fun c => [c]), ("Q", [])] []
  let unsatisfied ← Sentences.unsatisfied fs m (SetOrder.list m.domain) (← sentence "Ax[R(x)]")
  let one ← sentence "Ex[R(x)]"
  return .row (closed.map item ++ [item u, item primitives, word first, word second, .nothing, .nothing,
    item unsatisfied, item (← Sentences.isPrimitivelyClosed [one]),
    item (← Sentences.isUniversallyClosed [one]), item (← Sentences.isExistentiallyClosed [one]),
    .nothing, .nothing, .nothing, .nothing])

end FormalLogic.Tour
