import FormalLogic.Propositional.Formula
import FormalLogic.Text.ReadOff

/-!
# Reading propositional formulas

`read` takes the longest formula off the front of a text and answers it with the rest, or says why
there is none. The rest is shorter than the text, which is why reading ends.

Which error a text gives: an operand that cannot be read makes the whole parenthesised application
fail with `badOperand`, whatever is wrong with the operand; behind a negation the operand's own error
is kept.
-/

namespace FormalLogic.Propositional

/-- Why no formula stands at the front of a text. -/
inductive ReadError
  /-- The text is empty. -/
  | empty
  /-- A negation with nothing behind it. -/
  | danglingNegation
  /-- No closing parenthesis behind the second operand. -/
  | unclosed
  /-- An operand of a binary application cannot be read. -/
  | badOperand
  /-- No connective between the operands. -/
  | badConnective
  /-- A connective of one or two characters at the front. -/
  | leadingConnective
  /-- The first character starts no formula. -/
  | badAtom
  /-- A closing parenthesis at the front; the text behind it is kept. -/
  | strayClose (rest : List Char)
  deriving DecidableEq, Repr

/-- The text that stands for the rest when reading fails: a message, or what follows a stray
closing parenthesis. -/
def ReadError.message : ReadError → String
  | empty => "The given string in empty"
  | danglingNegation => "unary must be followed by validpropositional formulae "
  | unclosed =>
    "You have problems with the '(' and ')' check that you put it in the intended way"
  | badOperand => "(X Binary operator Y) X and Y must be valid propositional formulae "
  | badConnective =>
    "(X operator Y) operator must be a binary operator meaning & or | or ->"
  | leadingConnective =>
    "You cant use binary operation in such way, the only allowed way is " ++
      "(X Binary_Operator Y) where X and Yvalid propositional formulae"
  | badAtom => "Illegal variable"
  | strayClose rest => String.ofList rest

/-! ## Reading off the front -/

/-- What follows a text within another that begins with it. -/
def after? : List Char → List Char → Option (List Char)
  | [], s => some s
  | _ :: _, [] => none
  | c :: cs, d :: ds => if c = d then after? cs ds else none

theorem length_of_after? {w s rest : List Char} (h : after? w s = some rest) :
    s.length = w.length + rest.length := by
  induction w generalizing s with
  | nil => simp_all [after?]
  | cons c cs ih =>
    cases s with
    | nil => simp [after?] at h
    | cons d ds =>
      by_cases hc : c = d
      · simp only [after?, hc, if_true] at h
        have := ih h
        simp only [List.length_cons]
        omega
      · simp [after?, hc] at h

theorem Connective.symbol_length_pos (op : Connective) : 0 < op.symbol.toList.length := by
  cases op <;> decide

/-- Reads a connective of the language off the front of a text. -/
def readConnective (d : Dialect) (s : List Char) : Option (ReadOff Connective s) :=
  match d with
  | [] => none
  | op :: ops =>
    match h : after? op.symbol.toList s with
    | some rest => some ⟨op, rest, by
        have := length_of_after? h
        have := op.symbol_length_pos
        omega⟩
    | none => readConnective ops s

/-- Takes a closing parenthesis off the front of a text. -/
def readClose (s : List Char) : Option (ReadOff Unit s) :=
  match s with
  | ')' :: rest => some ⟨(), rest, length_lt_length_cons ')' rest⟩
  | _ => none

/-- Whether a connective of one or two characters stands at the front of a text. -/
def startsWithShortConnective (d : Dialect) (s : List Char) : Bool :=
  d.any fun op => decide (op.symbol.length ≤ 2) && (after? op.symbol.toList s).isSome

/-- Reads a variable, a truth constant or an error off a text that begins with the given
character, which opens neither a negation nor a parenthesis. -/
def readAtom (d : Dialect) (c : Char) (t : List Char) : Except ReadError (ReadOff Formula (c :: t)) :=
  if startsWithShortConnective d (c :: t) then .error .leadingConnective
  else if 'p' ≤ c ∧ c ≤ 'z' then
    .ok ⟨.var (String.ofList (c :: t.takeWhile Text.isDigit)), t.dropWhile Text.isDigit, by
      have := (List.dropWhile_sublist Text.isDigit (l := t)).length_le
      simp only [List.length_cons]
      omega⟩
  else if c = 'T' then .ok ⟨.const true, t, length_lt_length_cons c t⟩
  else if c = 'F' then .ok ⟨.const false, t, length_lt_length_cons c t⟩
  else if c = ')' then .error (.strayClose t)
  else .error .badAtom

/-- Reads the longest formula off the front of a text. -/
def read (d : Dialect) (s : List Char) : Except ReadError (ReadOff Formula s) :=
  match s with
  | [] => .error .empty
  | '~' :: [] => .error .danglingNegation
  | '~' :: c :: t =>
    match read d (c :: t) with
    | .error e => .error e
    | .ok ⟨f, rest, h⟩ => .ok ⟨.neg f, rest, by simp only [List.length_cons] at h ⊢; omega⟩
  | '(' :: t =>
    match read d t with
    | .error _ => .error .badOperand
    | .ok ⟨l, t₁, h₁⟩ =>
      match readConnective d t₁ with
      | none => .error .badConnective
      | some ⟨op, t₂, h₂⟩ =>
        match read d t₂ with
        | .error _ => .error .badOperand
        | .ok ⟨r, t₃, h₃⟩ =>
          match readClose t₃ with
          | none => .error .unclosed
          | some ⟨_, rest, h₄⟩ => .ok ⟨.bin op l r, rest, by simp only [List.length_cons]; omega⟩
  | c :: t => readAtom d c t
termination_by s.length
decreasing_by all_goals (simp only [List.length_cons] at *; omega)

/-! ## Whole texts -/

/-- The longest formula at the front of a text with the rest, or no formula with a message. -/
def readText (d : Dialect) (s : String) : Option Formula × String :=
  match read d s.toList with
  | .ok r => (some r.value, String.ofList r.rest)
  | .error e => (none, e.message)

namespace Formula

/-- The formula whose text this is. -/
def parse? (d : Dialect) (s : String) : Option Formula :=
  match read d s.toList with
  | .ok r => if r.rest.isEmpty then some r.value else none
  | .error _ => none

/-- The formula whose text this must be. -/
def parse (d : Dialect) (s : String) : Outcome Formula :=
  (Failure.unmet .formulaText).orElse (parse? d s)

/-- Whether a text is the text of a formula. -/
def isText (d : Dialect) (s : String) : Bool :=
  (parse? d s).isSome

end Formula

end FormalLogic.Propositional
