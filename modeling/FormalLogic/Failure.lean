/-!
# Why an operation fails

Every operation of the library that can refuse its arguments answers in `Outcome`. A `Failure` says
what went wrong in terms of the arguments: a condition they do not meet, a part they lack, a
position or key that does not exist, or a substitution that would capture a variable.
-/

namespace FormalLogic

/-- The conditions that operations put on their arguments. -/
inductive Condition
  /-- A root and its operands do not make up a term or a formula. -/
  | wellFormed
  /-- A text is not the text of a formula. -/
  | formulaText
  /-- A key of a substitution is no name that may be substituted. -/
  | substitutable
  /-- A formula that was not given is to become part of another. -/
  | operandPresent
  /-- An operator's image uses other variables than the two operand places. -/
  | operandPlaces
  /-- Pairs of names and values are not a valuation of variables. -/
  | valuation
  /-- A formula has a variable without a value. -/
  | covered
  /-- A list that must not be empty is empty. -/
  | nonempty
  /-- A connective is outside the language at hand. -/
  | connective
  /-- A formula is not a tautology. -/
  | tautology
  /-- An inference rule is not sound. -/
  | sound
  /-- A proof is not valid. -/
  | validProof
  /-- A line gives a rule without premises, or premises without a rule. -/
  | justification
  /-- A position lies beyond the last line. -/
  | lineRange
  /-- A rule is not an instance of another. -/
  | specialization
  /-- Two proofs that are to be joined do not fit together. -/
  | agreement
  /-- A proof uses a rule with premises other than modus ponens. -/
  | axiomRules
  /-- A proof has no assumption to discharge. -/
  | assumption
  /-- A formula does not have the shape that the step works on. -/
  | shape
  /-- A name is malformed or of the wrong category. -/
  | name
  /-- A table gives tuples of different lengths, or values outside the domain. -/
  | interpretation
  /-- A name has no meaning in the model. -/
  | meaning
  /-- Names that must differ coincide. -/
  | distinctNames
  /-- A template does not occur in its schema, or is no name. -/
  | template
  /-- A formula is not an instance of the schema. -/
  | schemaInstance
  /-- A line of a predicate proof is not justified. -/
  | lineValid
  /-- A formula is not in prenex normal form, or not quantifier free. -/
  | normalForm
  /-- A set of sentences is not closed. -/
  | closed
  /-- A sentence is not false in the model. -/
  | falsity
  deriving DecidableEq, Repr

/-- What went wrong. -/
inductive Failure
  /-- The arguments do not meet a condition. -/
  | unmet (condition : Condition)
  /-- A text or list has no element at the position asked for. -/
  | outOfRange
  /-- A name has no entry in a table. -/
  | unknownKey
  /-- An argument is of the wrong sort: a term where a text is wanted, too many operands. -/
  | wrongSort
  /-- An argument that must be present is absent. -/
  | absent
  /-- A text begins with a parenthesis that no atom can begin with. -/
  | unreadableAtom
  /-- A relation without tuples was asked for a tuple. -/
  | noTuple
  /-- A replacement leads back to itself without end. -/
  | endless
  /-- A substitution would insert the named variable where it is forbidden. -/
  | forbiddenVariable (name : String)
  /-- An instantiation would insert the named variable into the named relation's argument, where
  it is bound. -/
  | boundVariable (name relation : String)
  /-- A sealed value refuses a change, for the stated reason. -/
  | sealed (reason : String)
  deriving DecidableEq, Repr

/-- A result, or the reason why there is none. -/
abbrev Outcome := Except Failure

/-- Goes on only if a condition is met. -/
def require (met : Bool) (condition : Condition) : Outcome Unit :=
  if met then .ok () else .error (.unmet condition)

@[simp] theorem require_true (c : Condition) : require true c = .ok () := rfl

@[simp] theorem require_false (c : Condition) : require false c = .error (.unmet c) := rfl

/-- The value of an option, or a failure. -/
def Failure.orElse {α : Type} (failure : Failure) : Option α → Outcome α
  | some a => .ok a
  | none => .error failure

end FormalLogic
