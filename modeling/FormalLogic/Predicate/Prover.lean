import FormalLogic.Predicate.Axioms

/-!
# Provers

A prover holds assumptions and the lines that were derived from them so far, and adds lines one by one.
Beside the four kinds of lines there are derived steps, which add several lines and answer with the
position of the last one. A step that fails keeps the lines that it had added.

Steps take their formulas and terms as such or as texts. Positions count from the front, or, if they are
negative, from the end of the lines at the time of use. A set of positions or of variables is gone through
in any order that is given.
-/

namespace FormalLogic.Predicate

instance : Coe Formula Instance := ⟨.ofFormula⟩

instance : Coe Term Instance := ⟨.ofTerm⟩

/-- The assumptions of a prover, the lines derived so far, and what it has reported. -/
structure Prover where
  assumptions : List Schema
  lines : List Line := []
  talkative : Bool := false
  report : String := ""

/-- Steps of a prover. They draw fresh names and can fail. -/
abbrev Proving := ExceptT Failure (StateT Prover Naming)

/-- A step that only looks. -/
def Proving.ofOutcome {α : Type} : Outcome α → Proving α
  | .ok a => pure a
  | .error e => throw e

instance : MonadLift Outcome Proving := ⟨Proving.ofOutcome⟩

namespace Prover

/-- The assumptions of a prover: the axioms and those that are given, each once. -/
def withAxioms (assumptions : List Schema) : List Schema :=
  (Axioms.basic ++ assumptions).eraseDups

/-- The texts of assumptions other than the axioms, in ascending order. -/
def furtherTexts (assumptions : List Schema) : List String :=
  sortedSet ((assumptions.filter fun s => !Axioms.basic.contains s).map Schema.text)

/-- A prover from the axioms and further assumptions. A talkative one reports what it does. -/
def ofAssumptions (assumptions : List Schema) (talkative : Bool) : Prover where
  assumptions := withAxioms assumptions
  talkative := talkative
  report :=
    if talkative then
      "Proving from assumptions/axioms:\n  AXIOMS\n" ++
        String.join ((furtherTexts (withAxioms assumptions)).map fun s => "  " ++ s ++ "\n") ++
        "Lines:\n"
    else ""

/-- Adds to the report of a talkative prover. -/
def tell (p : Prover) (s : String) : Prover :=
  if p.talkative then { p with report := p.report ++ s } else p

/-- Adds a line. -/
def push (p : Prover) (l : Line) : Prover :=
  { p with lines := p.lines ++ [l] }.tell
    (Text.numbered p.lines.length ++ ") " ++ l.formula.text ++ "\n")

end Prover

namespace Proving

/-! ## Lines -/

/-- Adds a line and answers with its position. -/
def addLine (l : Line) : Proving Int := do
  let p ← get
  set (p.push l)
  return p.lines.length

/-- The formula of a line. -/
def formulaAt (i : Int) : Proving Formula := do
  return (← fetch (← get).lines i).formula

/-- The formula of a line that must not lie behind the last one. -/
def formulaBefore (i : Int) : Proving Formula := do
  require (decide (i < (← get).lines.length)) .lineRange
  formulaAt i

/-- Ends a proof with its last line. -/
def qed : Proving Proof := do
  let p ← get
  let f ← formulaAt (-1)
  set (p.tell ("Conclusion: " ++ f.text ++ ". QED\n\n"))
  return .make p.assumptions f p.lines

/-- Adds an instance of an assumption. -/
def instanceOf (f : Instance) (s : Schema) (m : Instances) : Proving Int := do
  let f ← f.toFormula
  addLine (← Line.ofAssumption f s (← readInstances m))

/-- Adds an assumption without templates. -/
def assumption (f : Instance) : Proving Int := do
  let f ← f.toFormula
  instanceOf f (.ofFormula f) []

/-- Adds a tautology. -/
def tautology (f : Instance) : Proving Int := do
  addLine (.tautology (← f.toFormula))

/-- Adds the consequent of a conditional whose antecedent was derived. -/
def modusPonens (f : Instance) (antecedent conditional : Int) : Proving Int := do
  addLine (.mp (← f.toFormula) antecedent conditional)

/-- Adds the generalization of a line. -/
def generalization (f : Instance) (i : Int) : Proving Int := do
  addLine (.ug (← f.toFormula) i)

/-- Adds all lines of a proof with the given conclusion from some of the assumptions. -/
def appendProof (f : Instance) (pf : Proof) : Proving Int := do
  let f ← f.toFormula
  require (decide (pf.conclusion = f)) .agreement
  let p ← get
  require (subset pf.assumptions p.assumptions) .assumption
  pf.lines.forM fun l => do let _ ← addLine (l.shift p.lines.length)
  let last : Int := (← get).lines.length - 1
  require (decide ((← formulaAt last) = f)) .validProof
  return last

/-! ## Derived steps -/

/-- A formula with the underscore for a variable. -/
def abstracted (x : String) (f : Formula) : Outcome Formula :=
  f.substitute [(x, .const hole)] []

/-- Adds an instance of a universal line: the axiom, then modus ponens. -/
def universalInstance (f : Instance) (i : Int) (t : Instance) : Proving Int := do
  let f ← f.toFormula
  match ← formulaBefore i with
  | .quant .universal x body => do
    let t ← t.toTerm
    require (decide (f = (← body.substitute [(x, t)] []))) .shape
    let axiomLine ← instanceOf (Formula.imp (.forAll x body) f) Axioms.universalInstantiation
      [("x", x), ("R", ← abstracted x body), ("c", t.text)]
    modusPonens f i axiomLine
  | .missing => throw .absent
  | _ => throw (.unmet .shape)

/-- That formulas imply a conclusion, one after the other. -/
def chain (f : Formula) (assumptions : List Formula) : Formula :=
  assumptions.foldr Formula.imp f

/-- Adds the consequents of a chain of conditionals one by one. -/
def unchain (f : Formula) (step : Int) : List (Int × Formula) → Proving Int
  | [] => pure step
  | (i, _) :: rest => do
    unchain f (← modusPonens (chain f (rest.map Prod.snd)) i step) rest

/-- Adds what a set of lines implies by propositional logic alone: a tautology, then modus ponens for each
line. -/
def tautologicalConsequence [SetOrder Int] (f : Instance) (is : List Int) : Proving Int := do
  let f ← f.toFormula
  let is := SetOrder.list is
  is.forM fun i => do require (decide (i < (← get).lines.length)) .lineRange
  let cited ← is.mapM fun i => do return (i, ← formulaAt i)
  if !cited.isEmpty then
    require (!f.isMissing && cited.all fun c => !c.2.isBare) .operandPresent
  let step ← tautology (chain f (cited.map Prod.snd))
  unchain f step cited

/-- Adds what follows from each instance of an existential line, if the variable is not free in it. -/
def existentialConsequence [SetOrder Int] (f : Instance) (i j : Int) : Proving Int := do
  let f ← f.toFormula
  match ← formulaBefore i with
  | .quant .existential x body => do
    let f ← f.proper
    require (!f.freeVariables.contains x) .shape
    let conditional ← formulaBefore j
    require (decide (conditional = .imp body f)) .shape
    let step ← generalization (Formula.forAll x conditional) j
    let axiomLine ← instanceOf
      (Formula.imp (.conj (← formulaAt step) (← formulaAt i)) f)
      Axioms.existentialSimplification
      [("x", x), ("R", ← abstracted x body), ("Q", f)]
    tautologicalConsequence f [i, step, axiomLine]
  | .missing => throw .absent
  | _ => throw (.unmet .shape)

/-! ## Equalities -/

/-- The sides of an equality. -/
def equalitySides : Formula → Outcome (Term × Term)
  | .equal l r => .ok (l, r)
  | .missing => .error .absent
  | _ => .error (.unmet .shape)

/-- Adds a line with its sides exchanged. -/
def flippedEquality [SetOrder Int] (f : Instance) (i : Int) : Proving Int := do
  let f ← f.toFormula
  let (right, left) ← equalitySides f
  let given ← formulaBefore i
  require (decide (given = .equal left right)) .shape
  let same ← instanceOf (Formula.equal left left) Axioms.reflexivity [("c", left)]
  left.checkAllowed []
  let put ← instanceOf (Formula.imp given (.imp (.equal left left) f)) Axioms.meaningOfEquality
    [("c", left), ("d", right), ("R", Formula.equal (.const hole) left)]
  tautologicalConsequence f [i, same, put]

/-- Renames a free variable of a line to a fresh one, and generalizes it before and after. -/
def freshlyBound (i : Int) (f : Formula) (x : String) : Proving (Int × Formula) := do
  let z ← freshVariable
  let renamed ← f.substitute [(x, .var z)] []
  let bound ← generalization (Formula.forAll x f) i
  let free ← universalInstance renamed bound (Term.var z)
  let step ← generalization (Formula.forAll z renamed) free
  return (step, .forAll z renamed)

/-- Renames free variables of a line to fresh ones, one by one. -/
def freshlyBoundAll (i : Int) (f : Formula) : List String → Proving Int
  | [] => pure i
  | x :: rest => do
    let (i, f) ← freshlyBound i f x
    freshlyBoundAll i f rest

/-- Takes instances of a line that begins with universal quantifiers, one by one. -/
def universalInstances (i : Int) : List Term → Proving Int
  | [] => pure i
  | t :: rest => do
    match ← formulaAt i with
    | .quant _ x body => do
      let f ← body.substitute [(x, t)] []
      universalInstances (← universalInstance f i t) rest
    | _ => throw .absent

/-- Adds a line with terms for free variables. The variables are first renamed to fresh ones, so that
the terms can be put in one after the other. -/
def freeInstance [SetOrder String] (f : Instance) (i : Int) (m : Instances) : Proving Int := do
  let f ← f.toFormula
  require (decide (i < (← get).lines.length)) .lineRange
  let images ← m.mapM fun e => do
    requireName isVariable e.1
    return (e.1, ← e.2.toTerm)
  let given ← formulaAt i
  require (decide (f = (← given.substitute images []))) .shape
  let given ← given.proper
  let replaced := (SetOrder.list given.freeVariables).filterMap fun x => (Table.find? images x).map (x, ·)
  let step ← freshlyBoundAll i given (replaced.map Prod.fst)
  universalInstances step (replaced.map Prod.snd).reverse

/-- Adds an equality of two terms that differ at the places of the underscore, where they have the two
sides of a line. -/
def substitutedEquality [SetOrder Int] (f : Instance) (i : Int) (t : Instance) : Proving Int := do
  let f ← f.toFormula
  let (left, right) ← equalitySides f
  let given ← formulaBefore i
  let (c, d) ← equalitySides given
  let t ← t.toTerm
  let expected := Formula.equal (← t.substitute [(hole, c)] []) (← t.substitute [(hole, d)] [])
  require (decide (f = expected)) .shape
  let put ← instanceOf (Formula.imp given (.imp (.equal left left) (.equal right left)))
    Axioms.meaningOfEquality [("c", c), ("d", d), ("R", Formula.equal t left)]
  let same ← instanceOf (Formula.equal left left) Axioms.reflexivity [("c", left)]
  let flipped ← tautologicalConsequence (Formula.equal right left) [i, put, same]
  flippedEquality f flipped

/-- Adds the equality that follows from two lines, the second of which begins where the first ends. -/
def chainTwo [SetOrder Int] (i j : Int) : Proving Int := do
  let (a, b) ← equalitySides (← formulaBefore i)
  let second ← formulaBefore j
  let (b', c) ← equalitySides second
  require (decide (b = b')) .shape
  let flipped ← flippedEquality (Formula.equal b a) i
  c.checkAllowed []
  let put ← instanceOf (Formula.imp (.equal b a) (.imp second (.equal a c))) Axioms.meaningOfEquality
    [("c", b), ("d", a), ("R", Formula.equal (.const hole) c)]
  tautologicalConsequence (Formula.equal a c) [flipped, j, put]

/-- Requires that lines are equalities, each beginning where the one before ends, and answers with the
end of the last one. -/
def followEqualities (start : Term) : List Int → Proving Term
  | [] => pure start
  | i :: rest => do
    let (l, r) ← equalitySides (← formulaBefore i)
    require (decide (l = start)) .shape
    followEqualities r rest

/-- Adds the equality that follows from a chain of two lines or more. -/
def chainedEquality [SetOrder Int] (f : Instance) (is : List Int) : Proving Int := do
  let f ← f.toFormula
  let (left, right) ← equalitySides f
  require (decide (2 ≤ is.length)) .nonempty
  let last ← followEqualities left is
  require (decide (right = last)) .shape
  match is with
  | [] => throw .outOfRange
  | first :: rest => rest.foldlM chainTwo first

end Proving

/-- Runs steps on a prover. -/
def Proving.runOn {α : Type} (p : Prover) (steps : Proving α) :
    Naming (Except Failure α × Prover) :=
  steps.run.run p

/-- The proof that steps from assumptions make. -/
def Prover.prove (assumptions : List Schema) (steps : Proving Int) : Fallible Proof :=
  ExceptT.mk do
    let (pf, _) ← Proving.runOn (.ofAssumptions assumptions false) do
      let _ ← steps
      Proving.qed
    return pf

end FormalLogic.Predicate
