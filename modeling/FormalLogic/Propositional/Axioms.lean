import FormalLogic.Propositional.Conversion
import FormalLogic.Propositional.Rule

/-!
# Axioms

Modus ponens and the axioms of implication and negation, which together prove every tautology in
these two operators, and further axioms for conjunction, disjunction and the truth constants.
-/

namespace FormalLogic.Propositional

namespace Axioms

open Formula

/-- A rule without assumptions. -/
def schema (f : Formula) : InferenceRule := .rule [] f

/-- Modus ponens. -/
def MP : InferenceRule := .rule [p, imp p q] q

/-- Self implication. -/
def I0 : InferenceRule := schema (imp p p)

/-- A true formula is implied. -/
def I1 : InferenceRule := schema (imp q (imp p q))

/-- Self distribution of implication. -/
def D : InferenceRule := schema (imp (imp p (imp q r)) (imp (imp p q) (imp p r)))

/-- A false formula implies. -/
def I2 : InferenceRule := schema (imp (neg p) (imp p q))

/-- Contraposition. -/
def N : InferenceRule := schema (imp (imp (neg q) (neg p)) (imp p q))

/-- A true formula does not imply a false one. -/
def NI : InferenceRule := schema (imp p (imp (neg q) (neg (imp p q))))

/-- Double negation. -/
def NN : InferenceRule := schema (imp p (neg (neg p)))

/-- Resolution of a case distinction. -/
def R : InferenceRule := schema (imp (imp q p) (imp (imp (neg q) p) p))

/-- Introduction of conjunction. -/
def A : InferenceRule := schema (imp p (imp q (conj p q)))

/-- A conjunction fails with its first part. -/
def NA1 : InferenceRule := schema (imp (neg p) (neg (conj p q)))

/-- A conjunction fails with its second part. -/
def NA2 : InferenceRule := schema (imp (neg q) (neg (conj p q)))

/-- Introduction of disjunction from its first part. -/
def O1 : InferenceRule := schema (imp p (disj p q))

/-- Introduction of disjunction from its second part. -/
def O2 : InferenceRule := schema (imp q (disj p q))

/-- A disjunction fails with both its parts. -/
def NO : InferenceRule := schema (imp (neg p) (imp (neg q) (neg (disj p q))))

/-- Truth. -/
def T : InferenceRule := schema (const true)

/-- Falsity fails. -/
def NF : InferenceRule := schema (neg (const false))

/-- Proof by contradiction. -/
def NAlternative : InferenceRule :=
  schema (imp (imp (neg q) (neg p)) (imp (imp (neg q) p) q))

/-- A conjunction implies its second part. -/
def AE1 : InferenceRule := schema (imp (conj p q) q)

/-- A conjunction implies its first part. -/
def AE2 : InferenceRule := schema (imp (conj p q) p)

/-- Elimination of disjunction. -/
def OE : InferenceRule := schema (imp (imp p r) (imp (imp q r) (imp (disj p q) r)))

/-- The rules that prove every tautology in implication and negation. -/
def basic : List InferenceRule :=
  [MP, I0, I1, D, I2, N, NI, NN, R]

/-- The rules for conjunction, disjunction and the constants as well. -/
def extended : List InferenceRule :=
  basic ++ [A, NA1, NA2, O1, O2, NO, T, NF]

/-- The names of the rules. -/
def named : List (String × InferenceRule) :=
  [("MP", MP), ("I0", I0), ("I1", I1), ("D", D), ("I2", I2), ("N", N), ("NI", NI), ("NN", NN),
    ("R", R), ("A", A), ("NA1", NA1), ("NA2", NA2), ("O1", O1), ("O2", O2), ("NO", NO), ("T", T),
    ("NF", NF), ("N_ALTERNATIVE", NAlternative), ("AE1", AE1), ("AE2", AE2), ("OE", OE)]

end Axioms

end FormalLogic.Propositional
