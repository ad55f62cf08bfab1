import FormalLogic.Predicate.Prover

/-!
# Prenex normal form

A formula is in prenex normal form if all its quantifiers stand in front. Every formula is equivalent to
one in that form: first the bound variables are renamed apart, then the quantifiers are pulled out. Each
conversion comes with a proof that its result is equivalent to what it was given.
-/

namespace FormalLogic.Predicate

namespace Formula

/-- Whether a formula has no quantifiers. -/
def isQuantifierFree : Formula → Bool
  | equal _ _ => true
  | rel _ _ => true
  | neg f => f.isQuantifierFree
  | bin _ l r => l.isQuantifierFree && r.isQuantifierFree
  | quant _ _ _ => false
  | bare _ => true

/-- Whether all quantifiers of a formula stand in front. -/
def isPrenex : Formula → Bool
  | quant _ _ f => f.isPrenex
  | f => f.isQuantifierFree

/-- Collects bound variables, in the order in which they are bound, as long as each is new; none if one
is not. -/
def collectBound (seen : List String) : Formula → Option (List String)
  | equal _ _ => some seen
  | rel _ _ => some seen
  | neg f => f.collectBound seen
  | bin _ l r => (l.collectBound seen).bind fun s => r.collectBound s
  | quant _ x f => if seen.contains x then none else f.collectBound (x :: seen)
  | bare _ => some seen

/-- Whether no variable is bound twice, and none is both bound and free. -/
def hasUniqueNames (f : Formula) : Bool :=
  (f.collectBound f.freeVariables).isSome

end Formula

/-- A formula and a proof that it is equivalent to a given one. -/
structure Converted where
  formula : Formula
  proof : Proof

namespace Prenex

open Proving

variable [SetOrder Int]

/-- Requires that variables are named apart. -/
def checkUniqueNames (f : Formula) : Outcome Unit := do
  let f ← f.named
  require f.hasUniqueNames .distinctNames

/-- Runs a conversion: its steps end with the equivalence, and answer with the new formula. -/
def convert (steps : Proving Formula) : Fallible Converted :=
  ExceptT.mk do
    let (result, _) ← Proving.runOn (.ofAssumptions Axioms.quantification false) do
      let f ← steps
      return Converted.mk f (← qed)
    return result

/-- A formula as it is: it is equivalent to itself. -/
def unchanged (f : Formula) : Fallible Converted :=
  convert do
    let _ ← tautology (Formula.equivalence f f)
    return f

/-- Adds the lines of the proof of a conversion. -/
def cite (c : Converted) : Proving Int :=
  appendProof c.proof.conclusion c.proof

/-- Puts a quantifier in front of both sides of an equivalence. -/
def quantifyBoth (k : Quantifier) (x : String) (line : Int) (given : Formula) :
    Proving (Int × Formula) := do
  let (f, g) ← given.sides
  let m : Instances := [("R", ← abstracted x f), ("Q", ← abstracted x g), ("x", x), ("y", x)]
  match ← (Axioms.congruence k).instantiate m with
  | .bin op l r => do
    let axiomLine ← instanceOf (Formula.bin op l r) (Axioms.congruence k) m
    return (← modusPonens r line axiomLine, r)
  | _ => throw .absent

/-! ## Renaming -/

/-- Renames the bound variables to fresh ones. -/
def rename : Formula → Fallible Converted
  | .equal l r => unchanged (.equal l r)
  | .rel n ts => unchanged (.rel n ts)
  | .neg f => do
    if f.isQuantifierFree then unchanged (.neg f)
    else
      let c ← rename f
      convert do
        let line ← cite c
        let _ ← tautologicalConsequence (Formula.equivalence (.neg f) (.neg c.formula)) [line]
        return .neg c.formula
  | .bin op l r => do
    if l.isQuantifierFree && r.isQuantifierFree then unchanged (.bin op l r)
    else
      let cl ← rename l
      let cr ← rename r
      convert do
        let left ← cite cl
        let right ← cite cr
        let g := Formula.bin op cl.formula cr.formula
        let _ ← tautologicalConsequence (Formula.equivalence (.bin op l r) g) [left, right]
        return g
  | .quant k x f => do
    let c ← rename f
    convert do
      let line ← cite c
      let z ← freshVariable
      let m : Instances := [("R", ← abstracted x f), ("x", x), ("y", z),
        ("Q", ← abstracted x c.formula)]
      match ← (Axioms.congruence k).instantiate m with
      | .bin op l r => do
        let axiomLine ← instanceOf (Formula.bin op l r) (Axioms.congruence k) m
        let _ ← modusPonens r line axiomLine
        return .quant k z (← c.formula.substitute [(x, .var z)] [])
      | _ => throw .absent
  | .bare _ => throw .absent

/-! ## Pulling out quantifiers -/

/-- Pulls one quantifier over an axiom, after the quantifiers below it: the axiom moves it, and the
conversion below it is put under it. -/
def pullOver (f : Formula) (moving : Schema) (m : Instances) (k : Quantifier) (x : String)
    (below : Converted) : Fallible Converted :=
  convert do
    let line ← cite below
    let moved ← moving.instantiate m
    let g := Formula.quant k x below.formula
    let (source, target) ← below.proof.conclusion.sides
    let m' : Instances :=
      [("R", ← abstracted x source), ("Q", ← abstracted x target), ("x", x), ("y", x)]
    let lifted ← (Axioms.congruence k).instantiate m'
    match lifted with
    | .bin op l r => do
      let moved ← moved.present
      let movedLine ← instanceOf moved moving m
      let liftedLine ← instanceOf (Formula.bin op l r) (Axioms.congruence k) m'
      let equivalent ← modusPonens r line liftedLine
      let _ ← tautologicalConsequence (Formula.equivalence f g) [movedLine, equivalent]
      return g
    | _ => throw .absent

/-- Pulls quantifiers out of the negation of a formula. -/
def pullNegation : Formula → Fallible Converted
  | .quant k x f => do
    let below ← pullNegation f
    pullOver (.neg (.quant k x f)) (Axioms.acrossNegation k) [("R", ← abstracted x f), ("x", x)]
      k.dual x below
  | f => unchanged (.neg f)

/-- Pulls quantifiers out of a left operand. At each of them variables are required to be named apart. -/
def pullLeft (op : Connective) (r : Formula) : Formula → Fallible Converted
  | .quant k x l => do
    checkUniqueNames (.bin op (.quant k x l) r)
    let below ← pullLeft op r l
    pullOver (.bin op (.quant k x l) r) (Axioms.fromLeft op k)
      [("R", ← abstracted x l), ("x", x), ("Q", r)] (Axioms.leftQuantifier op k) x below
  | l => do
    checkUniqueNames (.bin op l r)
    unchanged (.bin op l r)

/-- Pulls quantifiers out of a right operand. At each of them variables are required to be named apart. -/
def pullRight (op : Connective) (l : Formula) : Formula → Fallible Converted
  | .quant k x r => do
    checkUniqueNames (.bin op l (.quant k x r))
    let below ← pullRight op l r
    pullOver (.bin op l (.quant k x r)) (Axioms.fromRight op k)
      [("R", ← abstracted x r), ("x", x), ("Q", l)] k x below
  | r => do
    checkUniqueNames (.bin op l r)
    unchanged (.bin op l r)

/-- The quantifiers in front of a formula, from the outermost one, and what they stand in front of. -/
def stripQuantifiers : Formula → List (Quantifier × String) × Formula
  | .quant k x f => ((k, x) :: (stripQuantifiers f).1, (stripQuantifiers f).2)
  | f => ([], f)

/-- Puts quantifiers in front of both sides of an equivalence, the first one of the list innermost. -/
def quantifyAll (line : Int) (given : Formula) : List (Quantifier × String) →
    Proving (Int × Formula)
  | [] => pure (line, given)
  | (k, x) :: rest => do
    let (line, given) ← quantifyBoth k x line given
    quantifyAll line given rest

/-- Pulls quantifiers out of both operands, those of the left one first. -/
def pullBoth (op : Connective) (l r : Formula) : Fallible Converted := do
  checkUniqueNames (.bin op l r)
  let left ← pullLeft op r l
  match stripQuantifiers left.formula with
  | ([], _) => do
    let right ← pullRight op l r
    convert do
      let _ ← cite left
      let _ ← cite right
      return right.formula
  | (ks, .bin op l' r') => do
    let right ← pullRight op l' r'
    convert do
      let first ← cite left
      let second ← cite right
      let (last, lifted) ← quantifyAll second right.proof.conclusion ks.reverse
      let (_, g) ← lifted.sides
      let _ ← tautologicalConsequence (Formula.equivalence (.bin op l r) g) [first, last]
      return g
  | _ => throw .absent

/-- Pulls quantifiers out of a negation. -/
def acrossNegation : Formula → Fallible Converted
  | .neg f => pullNegation f
  | .missing => throw .absent
  | _ => throw (.unmet .shape)

/-- Applies a conversion to the operands of a connective. Of other formulas too it is first required that
variables are named apart. -/
def acrossConnective (convertOperands : Connective → Formula → Formula → Fallible Converted) :
    Formula → Fallible Converted
  | .bin op l r => convertOperands op l r
  | f => do
    checkUniqueNames f
    throw (.unmet .shape)

/-- Pulls quantifiers out of the left operand of a connective. -/
def acrossLeft : Formula → Fallible Converted :=
  acrossConnective fun op l r => pullLeft op r l

/-- Pulls quantifiers out of the right operand of a connective. -/
def acrossRight : Formula → Fallible Converted :=
  acrossConnective pullRight

/-- Pulls quantifiers out of both operands of a connective. -/
def acrossBoth : Formula → Fallible Converted :=
  acrossConnective pullBoth

/-! ## Normal form -/

/-- Converts a formula whose variables are named apart. -/
def ofUniqueNames (f : Formula) : Fallible Converted := do
  checkUniqueNames f
  match f with
  | .neg g => do
    let inner ← ofUniqueNames g
    let (_, target) ← inner.proof.conclusion.sides
    let pulled ← pullNegation target
    convert do
      let line ← cite inner
      let negated := Formula.equivalence f (.neg target)
      let step ← tautology (Formula.imp inner.proof.conclusion negated)
      let first ← modusPonens negated line step
      let second ← cite pulled
      let _ ← tautologicalConsequence (Formula.equivalence f pulled.formula) [first, second]
      return pulled.formula
  | .bin op l r => do
    let left ← ofUniqueNames l
    let right ← ofUniqueNames r
    let joined := Formula.bin op left.formula right.formula
    let pulled ← acrossBoth joined
    convert do
      let first ← cite left
      let second ← cite right
      let third ← tautologicalConsequence (Formula.equivalence f joined) [first, second]
      let fourth ← cite pulled
      let _ ← tautologicalConsequence (Formula.equivalence f pulled.formula) [third, fourth]
      return pulled.formula
  | .quant k x g => do
    let inner ← ofUniqueNames g
    convert do
      let line ← cite inner
      let (_, lifted) ← quantifyBoth k x line inner.proof.conclusion
      return (← lifted.sides).2
  | f => unchanged f

/-- Converts a formula to prenex normal form. -/
def normalForm (f : Formula) : Fallible Converted := do
  let renamed ← rename f
  let pulled ← ofUniqueNames renamed.formula
  convert do
    let first ← cite renamed
    let second ← cite pulled
    let _ ← tautologicalConsequence (Formula.equivalence f pulled.formula) [first, second]
    return pulled.formula

end Prenex

end FormalLogic.Predicate
