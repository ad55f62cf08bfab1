import FormalLogic.Failure
import FormalLogic.Text.CharClass

/-!
# Names in predicate logic

The first character of a name says what it names: a digit or a letter from `a` to `d` begins a
constant, a letter from `u` to `z` a variable, one from `f` to `t` a function and one from `F` to `T`
a relation. The other characters are letters, digits and numerals. The underscore is a constant too.
-/

namespace FormalLogic.Predicate

/-- A nonempty text of letters, digits and numerals whose first character meets a condition. -/
def isNameWith (first : Char → Bool) (s : String) : Bool :=
  match s.toList with
  | [] => false
  | c :: cs => first c && (c :: cs).all Text.isAlphanumeric

/-- The first characters of constants other than the underscore. -/
def startsConstant (c : Char) : Bool :=
  (decide ('0' ≤ c) && decide (c ≤ '9')) || (decide ('a' ≤ c) && decide (c ≤ 'd'))

/-- The first characters of variables. -/
def startsVariable (c : Char) : Bool :=
  decide ('u' ≤ c) && decide (c ≤ 'z')

/-- The first characters of functions. -/
def startsFunction (c : Char) : Bool :=
  decide ('f' ≤ c) && decide (c ≤ 't')

/-- The first characters of relations. -/
def startsRelation (c : Char) : Bool :=
  decide ('F' ≤ c) && decide (c ≤ 'T')

/-- The constant that marks the place of an argument. -/
def hole : String := "_"

/-- Names of constants. -/
def isConstant (s : String) : Bool :=
  isNameWith startsConstant s || s == hole

/-- Names of variables. -/
def isVariable (s : String) : Bool :=
  isNameWith startsVariable s

/-- Names of functions. -/
def isFunction (s : String) : Bool :=
  isNameWith startsFunction s

/-- Names of relations. -/
def isRelation (s : String) : Bool :=
  isNameWith startsRelation s

/-- The sign of equality. -/
def isEquality (s : String) : Bool :=
  s == "="

/-- The sign of negation. -/
def isUnary (s : String) : Bool :=
  s == "~"

/-- The connectives. -/
def isBinary (s : String) : Bool :=
  s == "&" || s == "|" || s == "->"

/-- The quantifiers. -/
def isQuantifier (s : String) : Bool :=
  s == "A" || s == "E"

/-- Texts of letters and digits. -/
def isNameText (s : String) : Bool :=
  s.toList.all Text.isNameChar

/-- Decides a condition on names, looking at the first character, which must exist. -/
def checkName (condition : String → Bool) (s : String) : Outcome Bool :=
  if s.isEmpty then .error .outOfRange else .ok (condition s)

/-- Requires a text to be a name of a kind. -/
def requireName (condition : String → Bool) (s : String) : Outcome Unit := do
  require (← checkName condition s) .name

/-- A name that can be replaced by a term. -/
def isReplaceable (s : String) : Bool :=
  isConstant s || isVariable s

end FormalLogic.Predicate
