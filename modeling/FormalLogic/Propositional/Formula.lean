import FormalLogic.Table
import FormalLogic.Text.CharClass

/-!
# Propositional formulas

Formulas are built from variables and the two truth constants by negation and seven binary
connectives. A variable is a letter from `p` to `z` followed by digits. The text of a formula has
parentheses around every binary application and nowhere else, so it determines the formula.

Where a formula is expected, none may have been given. Such a place holds the formula `missing`, which
has a text of its own and is an operand of no other formula. Rules and proofs can be written down and
compared with formulas missing from them; looking into a missing formula fails.
-/

namespace FormalLogic.Propositional

/-! ## Connectives -/

/-- The binary connectives. -/
inductive Connective
  | and
  | or
  | implies
  | xor
  | iff
  | nand
  | nor
  deriving DecidableEq, Repr

namespace Connective

/-- How a connective is written. -/
def symbol : Connective → String
  | and => "&"
  | or => "|"
  | implies => "->"
  | xor => "+"
  | iff => "<->"
  | nand => "-&"
  | nor => "-|"

/-- The truth function of a connective. -/
def eval : Connective → Bool → Bool → Bool
  | and, a, b => a && b
  | or, a, b => a || b
  | implies, a, b => !a || b
  | xor, a, b => a != b
  | iff, a, b => a == b
  | nand, a, b => !(a && b)
  | nor, a, b => !(a || b)

/-- All connectives. -/
def all : List Connective :=
  [and, or, implies, xor, iff, nand, nor]

/-- Conjunction, disjunction and implication. -/
def basic : List Connective :=
  [and, or, implies]

/-- The connective that a text denotes, among the given ones. -/
def ofSymbol? (among : List Connective) (s : String) : Option Connective :=
  among.find? fun op => op.symbol == s

end Connective

/-- A propositional language: the binary connectives that its formulas may use. -/
abbrev Dialect := List Connective

/-! ## Names -/

/-- Variables are a letter from `p` to `z` followed by digits. -/
def isVariable (s : String) : Bool :=
  match s.toList with
  | [] => false
  | c :: ds => decide ('p' ≤ c) && decide (c ≤ 'z') && ds.all Text.isDigit

/-- The truth constants are `T` and `F`. -/
def isConstant (s : String) : Bool :=
  s == "T" || s == "F"

/-- The sign of negation. -/
def isUnary (s : String) : Bool :=
  s == "~"

/-- The text is a connective of the language. -/
def isBinary (d : Dialect) (s : String) : Bool :=
  (Connective.ofSymbol? d s).isSome

/-- Decides whether a text is a variable by looking at its first character, which must exist. -/
def checkVariable (s : String) : Outcome Bool :=
  if s.isEmpty then .error .outOfRange else .ok (isVariable s)

/-- Decides whether a nonempty text is a variable or a truth constant. -/
def checkLeaf (s : String) : Outcome Bool := do
  return (← checkVariable s) || isConstant s

/-! ## Formulas -/

/-- A propositional formula, or the place of one that was not given. -/
inductive Formula
  | var (name : String)
  | const (value : Bool)
  | neg (operand : Formula)
  | bin (op : Connective) (left right : Formula)
  | missing
  deriving DecidableEq, Repr

namespace Formula

/-- How a truth constant is written. -/
def constText (value : Bool) : String :=
  if value then "T" else "F"

/-- The symbol at the root of a formula. -/
def root : Formula → String
  | var name => name
  | const value => constText value
  | neg _ => "~"
  | bin op _ _ => op.symbol
  | missing => ""

/-- The text of a formula. -/
def text : Formula → String
  | var name => name
  | const value => constText value
  | neg f => "~" ++ f.text
  | bin op l r => "(" ++ l.text ++ op.symbol ++ r.text ++ ")"
  | missing => "None"

/-- The operands of the root, from left to right. -/
def operands : Formula → List Formula
  | var _ => []
  | const _ => []
  | neg f => [f]
  | bin _ l r => [l, r]
  | missing => []

/-- The first operand of the root. -/
def first? (f : Formula) : Option Formula :=
  f.operands[0]?

/-- The second operand of the root. -/
def second? (f : Formula) : Option Formula :=
  f.operands[1]?

/-- The number of nodes of a formula. -/
def size : Formula → Nat
  | var _ => 1
  | const _ => 1
  | neg f => f.size + 1
  | bin _ l r => l.size + r.size + 1
  | missing => 1

/-- The variables at the leaves, from left to right, with repetitions. -/
def leafVariables : Formula → List String
  | var name => [name]
  | const _ => []
  | neg f => f.leafVariables
  | bin _ l r => l.leafVariables ++ r.leafVariables
  | missing => []

/-- The set of variables of a formula. -/
def vars (f : Formula) : List String :=
  sortedSet f.leafVariables

/-- The symbols of operators and constants in a formula, with repetitions. -/
def operatorSymbols : Formula → List String
  | var _ => []
  | const value => [constText value]
  | neg f => "~" :: f.operatorSymbols
  | bin op l r => l.operatorSymbols ++ op.symbol :: r.operatorSymbols
  | missing => []

/-- The set of operators of a formula, constants included. -/
def operators (f : Formula) : List String :=
  sortedSet f.operatorSymbols

theorem mem_vars {f : Formula} {x : String} : x ∈ f.vars ↔ x ∈ f.leafVariables :=
  mem_sortedSet

theorem mem_operators {f : Formula} {x : String} : x ∈ f.operators ↔ x ∈ f.operatorSymbols :=
  mem_sortedSet

/-- Nothing is missing, every variable of the formula is a variable name and every connective is in the
language. -/
def WellFormed (d : Dialect) : Formula → Prop
  | var name => isVariable name = true
  | const _ => True
  | neg f => f.WellFormed d
  | bin op l r => op ∈ d ∧ l.WellFormed d ∧ r.WellFormed d
  | missing => False

/-! ## Missing formulas -/

/-- Whether no formula was given. -/
def isMissing : Formula → Bool
  | missing => true
  | _ => false

/-- A formula that is looked into, and must have been given. -/
def given (f : Formula) : Outcome Formula :=
  if f.isMissing then .error .absent else .ok f

/-- A formula that becomes an operand of another, and must have been given. -/
def present (f : Formula) : Outcome Formula :=
  if f.isMissing then .error (.unmet .wellFormed) else .ok f

/-! ## Construction -/

/-- Makes a formula of a root and the operands given for it. A variable or constant takes none,
negation takes one and a connective two; a missing operand counts as none, and there are never more
than two. -/
def make (d : Dialect) (root : String) (operands : List Formula) : Outcome Formula := do
  match operands with
  | _ :: _ :: _ :: _ => .error .wrongSort
  | _ =>
    let first := operands.getD 0 missing
    let second := operands.getD 1 missing
    if ← checkVariable root then
      require (first.isMissing && second.isMissing) .wellFormed
      return var root
    else if isConstant root then
      require (first.isMissing && second.isMissing) .wellFormed
      return const (root == "T")
    else if isUnary root then
      require (!first.isMissing && second.isMissing) .wellFormed
      return neg first
    else
      match Connective.ofSymbol? d root with
      | some op =>
        require (!first.isMissing && !second.isMissing) .wellFormed
        return bin op first second
      | none => .error (.unmet .wellFormed)

end Formula

end FormalLogic.Propositional
