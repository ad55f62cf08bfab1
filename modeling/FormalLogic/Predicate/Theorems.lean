import FormalLogic.Predicate.Prover

/-!
# Derivations of theorems

Derivations in the prover: syllogisms, exercises on quantifiers, theorems on groups, fields and numbers,
and the paradox of the set of all sets that are not elements of themselves.
-/

namespace FormalLogic.Predicate

open Proving

/-- A derivation: the texts of its assumptions, further assumptions with templates, and its steps. -/
structure Derivation where
  assumptions : List String
  schemas : List Schema := []
  steps : Proving Int

/-- Runs a derivation, and answers with the proof and with what the prover reported. -/
def Derivation.run (d : Derivation) (talkative : Bool) : Naming (Outcome Proof × String) := do
  match d.assumptions.mapM fun s => Schema.ofFormula <$> Formula.parse s with
  | .error e => return (.error e, "")
  | .ok assumptions =>
    let (pf, p) ← Proving.runOn (.ofAssumptions (assumptions ++ d.schemas) talkative) do
      let _ ← d.steps
      qed
    return (pf, p.report)

namespace Derivation

variable [SetOrder Int] [SetOrder String]

/-! ## Syllogisms -/

/-- A mortal by the axiom of universal instantiation. -/
def syllogism : Derivation where
  assumptions := ["Ax[(Man(x)->Mortal(x))]", "Man(aristotle)"]
  steps := do
    let all ← assumption "Ax[(Man(x)->Mortal(x))]"
    let axiomLine ← instanceOf "(Ax[(Man(x)->Mortal(x))]->(Man(aristotle)->Mortal(aristotle)))"
      Axioms.universalInstantiation [("R", "(Man(_)->Mortal(_))"), ("c", "aristotle")]
    let one ← modusPonens "(Man(aristotle)->Mortal(aristotle))" all axiomLine
    let man ← assumption "Man(aristotle)"
    modusPonens "Mortal(aristotle)" man one

/-- A mortal by the step of universal instantiation. -/
def syllogismByInstance : Derivation where
  assumptions := ["Ax[(Man(x)->Mortal(x))]", "Man(aristotle)"]
  steps := do
    let all ← assumption "Ax[(Man(x)->Mortal(x))]"
    let one ← universalInstance "(Man(aristotle)->Mortal(aristotle))" all "aristotle"
    let man ← assumption "Man(aristotle)"
    modusPonens "Mortal(aristotle)" man one

/-- Two universal premises, with modus ponens. -/
def allAll : Derivation where
  assumptions := ["Ax[(Greek(x)->Human(x))]", "Ax[(Human(x)->Mortal(x))]"]
  steps := do
    let greeks ← assumption "Ax[(Greek(x)->Human(x))]"
    let greek ← universalInstance "(Greek(x)->Human(x))" greeks "x"
    let humans ← assumption "Ax[(Human(x)->Mortal(x))]"
    let human ← universalInstance "(Human(x)->Mortal(x))" humans "x"
    let chained ← tautology
      "((Greek(x)->Human(x))->((Human(x)->Mortal(x))->(Greek(x)->Mortal(x))))"
    let rest ← modusPonens "((Human(x)->Mortal(x))->(Greek(x)->Mortal(x)))" greek chained
    let mortal ← modusPonens "(Greek(x)->Mortal(x))" human rest
    generalization "Ax[(Greek(x)->Mortal(x))]" mortal

/-- Two universal premises, with tautological consequence. -/
def allAllByConsequence : Derivation where
  assumptions := ["Ax[(Greek(x)->Human(x))]", "Ax[(Human(x)->Mortal(x))]"]
  steps := do
    let greeks ← assumption "Ax[(Greek(x)->Human(x))]"
    let greek ← universalInstance "(Greek(x)->Human(x))" greeks "x"
    let humans ← assumption "Ax[(Human(x)->Mortal(x))]"
    let human ← universalInstance "(Human(x)->Mortal(x))" humans "x"
    let mortal ← tautologicalConsequence "(Greek(x)->Mortal(x))" [greek, human]
    generalization "Ax[(Greek(x)->Mortal(x))]" mortal

/-- A universal and an existential premise, with the axiom of existential simplification. -/
def allSome : Derivation where
  assumptions := ["Ax[(Man(x)->Mortal(x))]", "Ex[Man(x)]"]
  steps := do
    let all ← assumption "Ax[(Man(x)->Mortal(x))]"
    let some ← assumption "Ex[Man(x)]"
    let one ← universalInstance "(Man(x)->Mortal(x))" all "x"
    let mortal ← instanceOf "(Mortal(x)->Ex[Mortal(x)])" Axioms.existentialIntroduction
      [("R", "Mortal(_)"), ("c", "x")]
    let step ← tautologicalConsequence "(Man(x)->Ex[Mortal(x)])" [one, mortal]
    let general ← generalization "Ax[(Man(x)->Ex[Mortal(x)])]" step
    let axiomLine ← instanceOf "((Ax[(Man(x)->Ex[Mortal(x)])]&Ex[Man(x)])->Ex[Mortal(x)])"
      Axioms.existentialSimplification [("R", "Man(_)"), ("Q", "Ex[Mortal(x)]")]
    tautologicalConsequence "Ex[Mortal(x)]" [some, general, axiomLine]

/-- A universal and an existential premise, with existential consequence. -/
def allSomeByConsequence : Derivation where
  assumptions := ["Ax[(Man(x)->Mortal(x))]", "Ex[Man(x)]"]
  steps := do
    let all ← assumption "Ax[(Man(x)->Mortal(x))]"
    let some ← assumption "Ex[Man(x)]"
    let one ← universalInstance "(Man(x)->Mortal(x))" all "x"
    let mortal ← instanceOf "(Mortal(x)->Ex[Mortal(x)])" Axioms.existentialIntroduction
      [("R", "Mortal(_)"), ("c", "x")]
    let step ← tautologicalConsequence "(Man(x)->Ex[Mortal(x)])" [one, mortal]
    existentialConsequence "Ex[Mortal(x)]" some step

/-! ## Quantifiers -/

/-- If everybody loves somebody, and everybody loves a lover, then everybody loves everybody. -/
def lovers : Derivation where
  assumptions := ["Ax[Ey[Loves(x,y)]]", "Ax[Az[Ay[(Loves(x,y)->Loves(z,x))]]]"]
  steps := do
    let loving ← assumption "Ax[Ey[Loves(x,y)]]"
    let loved ← assumption "Ax[Az[Ay[(Loves(x,y)->Loves(z,x))]]]"
    let axiomLine ← instanceOf "(Ax[Ey[Loves(x,y)]]->Ey[Loves(x,y)])"
      Axioms.universalInstantiation [("x", "x"), ("R", "Ey[Loves(_,y)]"), ("c", "x")]
    let some ← modusPonens "Ey[Loves(x,y)]" loving axiomLine
    let step ← universalInstance "Az[Ay[(Loves(x,y)->Loves(z,x))]]" loved "x"
    let step ← universalInstance "Ay[(Loves(x,y)->Loves(z,x))]" step "z"
    let step ← universalInstance "(Loves(x,y)->Loves(z,x))" step "y"
    let step ← existentialConsequence "Loves(z,x)" some step
    let step ← generalization "Az[Loves(z,x)]" step
    generalization "Ax[Az[Loves(z,x)]]" step

/-- If no homework is fun, and some homework is reading, then some reading is no fun. -/
def homework : Derivation where
  assumptions := ["~Ex[(Homework(x)&Fun(x))]", "Ex[(Homework(x)&Reading(x))]"]
  steps := do
    let none ← assumption "~Ex[(Homework(x)&Fun(x))]"
    let fun' ← instanceOf "((Homework(x)&Fun(x))->Ex[(Homework(x)&Fun(x))])"
      Axioms.existentialIntroduction [("R", "(Homework(_)&Fun(_))"), ("c", "x")]
    let reading ← instanceOf "((Reading(x)&~Fun(x))->Ex[(Reading(x)&~Fun(x))])"
      Axioms.existentialIntroduction [("R", "(Reading(_)&~Fun(_))"), ("c", "x")]
    let step ← tautologicalConsequence "((Homework(x)&Reading(x))->Ex[(Reading(x)&~Fun(x))])"
      [none, fun', reading]
    let some ← assumption "Ex[(Homework(x)&Reading(x))]"
    existentialConsequence "Ex[(Reading(x)&~Fun(x))]" some step

/-! ## Groups and fields -/

/-- The axioms of groups. -/
def groupAxioms : List String :=
  ["plus(0,x)=x", "plus(minus(x),x)=0", "plus(plus(x,y),z)=plus(x,plus(y,z))"]

/-- The axioms of fields. -/
def fieldAxioms : List String :=
  groupAxioms ++
    ["plus(x,y)=plus(y,x)", "times(x,1)=x", "times(x,y)=times(y,x)",
      "times(times(x,y),z)=times(x,times(y,z))", "(~x=0->Ey[times(y,x)=1])",
      "times(x,plus(y,z))=plus(times(x,y),times(x,z))"]

/-- Before which kind of step the derivation of the right neutral element is broken off. -/
inductive Break
  | flippedEquality
  | freeInstance
  | substitutedEquality
  | chainedEquality
  deriving DecidableEq

/-- The first break that is asked for, given a mark for each kind in order. -/
def Break.first (marks : List Bool) : Option Break :=
  ((marks.zip [flippedEquality, freeInstance, substitutedEquality, chainedEquality]).find?
    Prod.fst).map Prod.snd

/-- The neutral element of a group is neutral on the right. -/
def rightNeutralSteps (stop : Option Break) : Proving Int := do
  let zero ← assumption "plus(0,x)=x"
  let negation ← assumption "plus(minus(x),x)=0"
  let associativity ← assumption "plus(plus(x,y),z)=plus(x,plus(y,z))"
  if stop = some .flippedEquality then return associativity
  let flippedZero ← flippedEquality "x=plus(0,x)" zero
  let flippedNegation ← flippedEquality "0=plus(minus(x),x)" negation
  let flippedAssociativity ← flippedEquality "plus(x,plus(y,z))=plus(plus(x,y),z)" associativity
  if stop = some .freeInstance then return flippedAssociativity
  let step7 ← freeInstance "0=plus(minus(minus(x)),minus(x))" flippedNegation
    [("x", "minus(x)")]
  let step8 ← flippedEquality "plus(minus(minus(x)),minus(x))=0" step7
  let step9 ← freeInstance
    "plus(plus(minus(minus(x)),minus(x)),x)=plus(minus(minus(x)),plus(minus(x),x))"
    associativity [("x", "minus(minus(x))"), ("y", "minus(x)"), ("z", "x")]
  let step10 ← freeInstance "plus(0,0)=0" zero [("x", "0")]
  let step11 ← freeInstance "plus(x,0)=plus(0,plus(x,0))" flippedZero [("x", "plus(x,0)")]
  let step12 ← freeInstance "plus(0,plus(x,0))=plus(plus(0,x),0)" flippedAssociativity
    [("x", "0"), ("y", "x"), ("z", "0")]
  if stop = some .substitutedEquality then return step12
  let step13 ← substitutedEquality
    "plus(plus(0,x),0)=plus(plus(plus(minus(minus(x)),minus(x)),x),0)"
    step7 "plus(plus(_,x),0)"
  let step14 ← substitutedEquality
    ("plus(plus(plus(minus(minus(x)),minus(x)),x),0)=" ++
      "plus(plus(minus(minus(x)),plus(minus(x),x)),0)")
    step9 "plus(_,0)"
  let step15 ← substitutedEquality
    ("plus(plus(minus(minus(x)),plus(minus(x),x)),0)=" ++
      "plus(plus(minus(minus(x)),0),0)")
    negation "plus(plus(minus(minus(x)),_),0)"
  let step16 ← freeInstance "plus(plus(minus(minus(x)),0),0)=plus(minus(minus(x)),plus(0,0))"
    associativity [("x", "minus(minus(x))"), ("y", "0"), ("z", "0")]
  let step17 ← substitutedEquality "plus(minus(minus(x)),plus(0,0))=plus(minus(minus(x)),0)"
    step10 "plus(minus(minus(x)),_)"
  let step18 ← substitutedEquality
    "plus(minus(minus(x)),0)=plus(minus(minus(x)),plus(minus(x),x))"
    flippedNegation "plus(minus(minus(x)),_)"
  let step19 ← freeInstance
    "plus(minus(minus(x)),plus(minus(x),x))=plus(plus(minus(minus(x)),minus(x)),x)"
    flippedAssociativity [("x", "minus(minus(x))"), ("y", "minus(x)"), ("z", "x")]
  let step20 ← substitutedEquality "plus(plus(minus(minus(x)),minus(x)),x)=plus(0,x)" step8
    "plus(_,x)"
  if stop = some .chainedEquality then return step20
  chainedEquality "plus(x,0)=x"
    [step11, step12, step13, step14, step15, step16, step17, step18, step19, step20, zero]

/-- The neutral element of a group is neutral on the right, possibly broken off early. -/
def rightNeutral (stop : Option Break) : Derivation where
  assumptions := groupAxioms
  steps := rightNeutralSteps stop

/-- An element that is neutral for one element of a group is the neutral element. -/
def uniqueZero : Derivation where
  assumptions := groupAxioms ++ ["plus(a,c)=a"]
  steps := do
    let zero ← assumption "plus(0,x)=x"
    let negation ← assumption "plus(minus(x),x)=0"
    let associativity ← assumption "plus(plus(x,y),z)=plus(x,plus(y,z))"
    let flippedAssociativity ← flippedEquality "plus(x,plus(y,z))=plus(plus(x,y),z)" associativity
    let inverse ← freeInstance "plus(minus(a),a)=0" negation [("x", "a")]
    let flippedInverse ← flippedEquality "0=plus(minus(a),a)" inverse
    let given ← assumption "plus(a,c)=a"
    let step1 ← substitutedEquality "plus(minus(a),plus(a,c))=plus(minus(a),a)" given
      "plus(minus(a),_)"
    let step2 ← flippedEquality "plus(minus(a),a)=plus(minus(a),plus(a,c))" step1
    let step3 ← freeInstance "plus(minus(a),plus(a,c))=plus(plus(minus(a),a),c)"
      flippedAssociativity [("x", "minus(a)"), ("y", "a"), ("z", "c")]
    let step4 ← substitutedEquality "plus(plus(minus(a),a),c)=plus(0,c)" inverse "plus(_,c)"
    let step5 ← freeInstance "plus(0,c)=c" zero [("x", "c")]
    let step6 ← chainedEquality "0=c" [flippedInverse, step2, step3, step4, step5]
    flippedEquality "c=0" step6

/-- Zero times anything is zero in a field. -/
def multiplyZero : Derivation where
  assumptions := fieldAxioms
  steps := do
    let zero ← assumption "plus(0,x)=x"
    let negation ← assumption "plus(minus(x),x)=0"
    let associativity ← assumption "plus(plus(x,y),z)=plus(x,plus(y,z))"
    let distributivity ← assumption "times(x,plus(y,z))=plus(times(x,y),times(x,z))"
    let flippedZero ← flippedEquality "x=plus(0,x)" zero
    let commutativity ← assumption "times(x,y)=times(y,x)"
    let flippedAssociativity ← flippedEquality "plus(x,plus(y,z))=plus(plus(x,y),z)" associativity
    let inverse ← freeInstance "plus(minus(times(0,x)),times(0,x))=0" negation
      [("x", "times(0,x)")]
    let flippedInverse ← flippedEquality "0=plus(minus(times(0,x)),times(0,x))" inverse
    let step1 ← freeInstance "times(0,x)=times(x,0)" commutativity [("x", "0"), ("y", "x")]
    let step2 ← freeInstance "0=plus(0,0)" flippedZero [("x", "0")]
    let step3 ← substitutedEquality "times(x,0)=times(x,plus(0,0))" step2 "times(x,_)"
    let step4 ← freeInstance "times(x,plus(0,0))=plus(times(x,0),times(x,0))" distributivity
      [("y", "0"), ("z", "0")]
    let step5 ← freeInstance "times(x,0)=times(0,x)" commutativity [("x", "x"), ("y", "0")]
    let step6 ← substitutedEquality "plus(times(x,0),times(x,0))=plus(times(0,x),times(0,x))"
      step5 "plus(_,_)"
    let double ← chainedEquality "times(0,x)=plus(times(0,x),times(0,x))"
      [step1, step3, step4, step6]
    let flippedDouble ← flippedEquality "plus(times(0,x),times(0,x))=times(0,x)" double
    let step7 ← substitutedEquality
      ("plus(minus(times(0,x)),plus(times(0,x),times(0,x)))=" ++
        "plus(minus(times(0,x)),times(0,x))")
      flippedDouble "plus(minus(times(0,x)),_)"
    let step8 ← flippedEquality
      ("plus(minus(times(0,x)),times(0,x))=" ++
        "plus(minus(times(0,x)),plus(times(0,x),times(0,x)))")
      step7
    let step9 ← freeInstance
      ("plus(minus(times(0,x)),plus(times(0,x),times(0,x)))=" ++
        "plus(plus(minus(times(0,x)),times(0,x)),times(0,x))")
      flippedAssociativity
      [("x", "minus(times(0,x))"), ("y", "times(0,x)"), ("z", "times(0,x)")]
    let step10 ← substitutedEquality
      "plus(plus(minus(times(0,x)),times(0,x)),times(0,x))=plus(0,times(0,x))" inverse
      "plus(_,times(0,x))"
    let step11 ← freeInstance "plus(0,times(0,x))=times(0,x)" zero [("x", "times(0,x)")]
    let step12 ← chainedEquality "0=times(0,x)" [flippedInverse, step8, step9, step10, step11]
    flippedEquality "times(0,x)=0" step12

/-! ## Numbers and sets -/

/-- The axiom of induction. -/
def induction : Schema :=
  ⟨.imp (.conj (.rel "R" [.const "0"])
      (.forAll "x" (.imp (.rel "R" [.var "x"]) (.rel "R" [.app "s" [.var "x"]]))))
    (.forAll "x" (.rel "R" [.var "x"])), ["R"]⟩

/-- The axioms of numbers other than induction. -/
def numberAxioms : List String :=
  ["(s(x)=s(y)->x=y)", "(~x=0->Ey[s(y)=x])", "~s(x)=0", "plus(x,0)=x", "plus(x,s(y))=s(plus(x,y))",
    "times(x,0)=0", "times(x,s(y))=plus(times(x,y),x)"]

/-- Zero is neutral on the left for numbers, by induction. -/
def zeroPlus : Derivation where
  assumptions := numberAxioms
  schemas := [induction]
  steps := do
    let zero ← assumption "plus(x,0)=x"
    let successor ← assumption "plus(x,s(y))=s(plus(x,y))"
    let step1 ← freeInstance "plus(0,0)=0" zero [("x", "0")]
    let step2 ← instanceOf "(plus(0,x)=x->(plus(0,s(x))=s(plus(0,x))->plus(0,s(x))=s(x)))"
      Axioms.meaningOfEquality [("c", "plus(0,x)"), ("d", "x"), ("R", "plus(0,s(x))=s(_)")]
    let step3 ← freeInstance "plus(0,s(x))=s(plus(0,x))" successor [("x", "0"), ("y", "x")]
    let step4 ← tautologicalConsequence "(plus(0,x)=x->plus(0,s(x))=s(x))" [step3, step2]
    let step5 ← generalization "Ax[(plus(0,x)=x->plus(0,s(x))=s(x))]" step4
    let step6 ← tautologicalConsequence
      "(plus(0,0)=0&Ax[(plus(0,x)=x->plus(0,s(x))=s(x))])" [step1, step5]
    let step7 ← instanceOf
      "((plus(0,0)=0&Ax[(plus(0,x)=x->plus(0,s(x))=s(x))])->Ax[plus(0,x)=x])"
      induction [("R", "plus(0,_)=_")]
    let step8 ← tautologicalConsequence "Ax[plus(0,x)=x]" [step6, step7]
    universalInstance "plus(0,x)=x" step8 "x"

/-- The axiom of unrestricted comprehension. -/
def comprehension : Schema :=
  ⟨.exist "y" (.forAll "x" (.equivalence (.rel "In" [.var "x", .var "y"]) (.rel "R" [.var "x"]))),
    ["R"]⟩

/-- Unrestricted comprehension is contradictory. -/
def russell : Derivation where
  assumptions := []
  schemas := [comprehension]
  steps := do
    let step1 ← instanceOf "Ey[Ax[((In(x,y)->~In(x,x))&(~In(x,x)->In(x,y)))]]" comprehension
      [("R", "~In(_,_)")]
    let step2 ← instanceOf
      ("(Ax[((In(x,y)->~In(x,x))&(~In(x,x)->In(x,y)))]->" ++
        "((In(y,y)->~In(y,y))&(~In(y,y)->In(y,y))))")
      Axioms.universalInstantiation
      [("R", "((In(_,y)->~In(_,_))&(~In(_,_)->In(_,y)))"), ("x", "x"), ("c", "y")]
    let step3 ← tautology "(((In(y,y)->~In(y,y))&(~In(y,y)->In(y,y)))->(z=z&~z=z))"
    let step4 ← tautologicalConsequence
      "(Ax[((In(x,y)->~In(x,x))&(~In(x,x)->In(x,y)))]->(z=z&~z=z))" [step2, step3]
    existentialConsequence "(z=z&~z=z)" step1 step4

end Derivation

end FormalLogic.Predicate
