import FormalLogic.Predicate.Proof

/-!
# Axioms

The axioms on which every proof may rest, the schemas of the propositional axioms, and the equivalences
that move quantifiers.
-/

namespace FormalLogic.Predicate

/-- That two formulas imply each other. -/
def Formula.equivalence (f g : Formula) : Formula :=
  .conj (.imp f g) (.imp g f)

/-- The sides of an equivalence, read off its first half. -/
def Formula.sides : Formula → Outcome (Formula × Formula)
  | .bin _ (.bin _ f g) _ => .ok (f, g)
  | _ => .error .absent

namespace Axioms

/-- The schematic relation `R` of one argument. -/
def r (t : Term) : Formula := .rel "R" [t]

/-- The schematic proposition `Q`. -/
def q : Formula := .rel "Q" []

/-- The schematic variable `x`. -/
def x : Term := .var "x"

/-- The schematic constant `c`. -/
def c : Term := .const "c"

/-- The schematic constant `d`. -/
def d : Term := .const "d"

/-- What holds of all holds of each. -/
def universalInstantiation : Schema :=
  ⟨.imp (.forAll "x" (r x)) (r c), ["R", "c", "x"]⟩

/-- What holds of one holds of some. -/
def existentialIntroduction : Schema :=
  ⟨.imp (r c) (.exist "x" (r x)), ["R", "c", "x"]⟩

/-- A proposition that implies each instance implies all of them. -/
def universalSimplification : Schema :=
  ⟨.imp (.forAll "x" (.imp q (r x))) (.imp q (.forAll "x" (r x))), ["Q", "R", "x"]⟩

/-- A proposition that each instance implies follows from some instance. -/
def existentialSimplification : Schema :=
  ⟨.imp (.conj (.forAll "x" (.imp (r x) q)) (.exist "x" (r x))) q, ["Q", "R", "x"]⟩

/-- Everything equals itself. -/
def reflexivity : Schema :=
  ⟨.equal c c, ["c"]⟩

/-- Equals can be put for equals. -/
def meaningOfEquality : Schema :=
  ⟨.imp (.equal c d) (.imp (r c) (r d)), ["R", "c", "d"]⟩

/-- The axioms on which every proof may rest. -/
def basic : List Schema :=
  [universalInstantiation, existentialIntroduction, universalSimplification,
    existentialSimplification, reflexivity, meaningOfEquality]

/-! ## Propositional axioms -/

/-- The formula that stands for a propositional formula, with a proposition for each variable. -/
def ofPropositional : Propositional.Formula → Option Formula
  | .var n => some (.rel n.capitalize [])
  | .neg f => do return .neg (← ofPropositional f)
  | .bin .implies f g => do return .imp (← ofPropositional f) (← ofPropositional g)
  | _ => none

/-- The schema of an axiom of the propositional system. -/
def schemaOf? (rule : Propositional.InferenceRule) : Option Schema :=
  if rule.assumptions.isEmpty && Propositional.Axioms.basic.contains rule then do
    let f ← ofPropositional rule.conclusion
    return ⟨f, f.relations.map Prod.fst⟩
  else none

/-! ## Moving quantifiers -/

/-- The quantifier that stands in front after a quantifier of the left operand was moved out: to the
left of an implication it turns over. -/
def leftQuantifier (op : Connective) (k : Quantifier) : Quantifier :=
  if op = .implies then k.dual else k

/-- Moves a quantifier out of a negation. -/
def acrossNegation (k : Quantifier) : Schema :=
  ⟨.equivalence (.neg (.quant k "x" (r x))) (.quant k.dual "x" (.neg (r x))), ["R", "x"]⟩

/-- Moves a quantifier out of the left operand of a connective. -/
def fromLeft (op : Connective) (k : Quantifier) : Schema :=
  ⟨.equivalence (.bin op (.quant k "x" (r x)) q)
    (.quant (leftQuantifier op k) "x" (.bin op (r x) q)), ["Q", "R", "x"]⟩

/-- Moves a quantifier out of the right operand of a connective. -/
def fromRight (op : Connective) (k : Quantifier) : Schema :=
  ⟨.equivalence (.bin op q (.quant k "x" (r x))) (.quant k "x" (.bin op q (r x))),
    ["Q", "R", "x"]⟩

/-- Puts a quantifier in front of both sides of an equivalence. -/
def congruence (k : Quantifier) : Schema :=
  ⟨.imp (.equivalence (r x) (.rel "Q" [x]))
    (.equivalence (.quant k "x" (r x)) (.quant k "y" (.rel "Q" [.var "y"]))),
    ["Q", "R", "x", "y"]⟩

/-- The equivalences that move quantifiers. -/
def quantification : List Schema :=
  let both (f : Quantifier → Schema) := [f .universal, f .existential]
  both acrossNegation ++
    [Connective.and, .or, .implies].flatMap (fun op => both (fromLeft op) ++ both (fromRight op)) ++
    both congruence

end Axioms

end FormalLogic.Predicate
