import FormalLogic.Propositional.Substitution

/-!
# Conversion to fewer operators

Every formula has an equivalent one over each of five small sets of operators. A conversion replaces
the operators outside its target by formulas with the same truth function in the operand places. The
two constants, which have no operand, become formulas in the variable `p`.
-/

namespace FormalLogic.Propositional

namespace Formula

/-! ## Short forms -/

/-- An implication. -/
abbrev imp (l r : Formula) : Formula := bin .implies l r

/-- A conjunction. -/
abbrev conj (l r : Formula) : Formula := bin .and l r

/-- A disjunction. -/
abbrev disj (l r : Formula) : Formula := bin .or l r

/-- A negated conjunction. -/
abbrev nand (l r : Formula) : Formula := bin .nand l r

/-- The variable `p`, which is also the place of the first operand. -/
abbrev p : Formula := var "p"

/-- The variable `q`, which is also the place of the second operand. -/
abbrev q : Formula := var "q"

/-- The variable `r`. -/
abbrev r : Formula := var "r"

/-! ## Images of operators -/

/-- The constants by negation, conjunction and disjunction. -/
def constantImages : List (String × Formula) :=
  [("T", disj (neg p) p), ("F", conj (neg p) p)]

/-- Exclusive disjunction by negation, conjunction and disjunction. -/
def xorImage : Formula :=
  conj (neg (conj p q)) (disj p q)

/-- The other connectives by negation, conjunction and disjunction. -/
def notAndOrImages : List (String × Formula) :=
  [("-&", neg (conj p q)), ("-|", neg (disj p q)), ("+", xorImage), ("<->", neg xorImage),
    ("->", disj (neg p) q)]

/-- Disjunction by negation and conjunction. -/
def orImages : List (String × Formula) :=
  [("|", neg (conj (neg p) (neg q)))]

/-- Conjunction, disjunction and negation by negated conjunction. -/
def nandImages : List (String × Formula) :=
  [("&", nand (nand p q) (nand p q)), ("|", nand (nand p p) (nand q q)), ("~", nand p p)]

/-- Negated conjunction by implication and negation. -/
def impliesNotImages : List (String × Formula) :=
  [("-&", imp q (neg p))]

/-- Negated conjunction and negation by implication and falsity. -/
def impliesFalseImages : List (String × Formula) :=
  [("-&", imp q (imp p (const false))), ("~", imp p (const false))]

/-! ## The conversions -/

/-- An equivalent formula over negation, conjunction and disjunction. -/
def toNotAndOr (f : Formula) : Formula :=
  (f.substOperators constantImages).substOperators notAndOrImages

/-- An equivalent formula over negation and conjunction. -/
def toNotAnd (f : Formula) : Formula :=
  f.toNotAndOr.substOperators orImages

/-- An equivalent formula over negated conjunction. -/
def toNand (f : Formula) : Formula :=
  f.toNotAndOr.substOperators nandImages

/-- An equivalent formula over implication and negation. -/
def toImpliesNot (f : Formula) : Formula :=
  f.toNand.substOperators impliesNotImages

/-- An equivalent formula over implication and falsity. -/
def toImpliesFalse (f : Formula) : Formula :=
  f.toNand.substOperators impliesFalseImages

end Formula

end FormalLogic.Propositional
