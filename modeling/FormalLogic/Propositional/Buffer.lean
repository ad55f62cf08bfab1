import FormalLogic.Propositional.Reading

/-!
# Reading with one buffer

A second way of reading. The text stands in one buffer; every call takes what it reads off the front of the buffer and
leaves the rest there for the next call. A call that fails leaves its message in the buffer and nothing stops: behind a
first operand that cannot be read, the connective and the second operand are read off the message. An operand that
was read is then read again, off its own text.

Each call makes nested calls in turn. The functions below are given the nested call as an argument, and `nested` bounds
how deep calls may be nested: a call that would go deeper has no answer.
-/

namespace FormalLogic.Propositional.Buffer

/-- What a call answers: a formula, or none, and the buffer that it leaves. -/
abbrev Answer := Option Formula × List Char

/-- A call that fails leaves a message. -/
def failed (e : ReadError) : Answer :=
  (none, e.message.toList)

/-- The answer with what was read off a text, or why nothing was. -/
def answer {s : List Char} : Except ReadError (ReadOff Formula s) → Answer
  | .ok r => (some r.value, r.rest)
  | .error e => failed e

/-- Takes a connective off the buffer; without one the buffer stays as it is. -/
def takeConnective (d : Dialect) (buffer : List Char) : Option Connective × List Char :=
  match readConnective d buffer with
  | some r => (some r.value, r.rest)
  | none => (none, buffer)

section Calls

variable (d : Dialect) (again : List Char → Option Answer)

/-- Whether a formula can be read off the front of a text. -/
def isReadable (s : List Char) : Option Bool := do
  return (← again s).1.isSome

/-- Takes the operand of a negation off the buffer, behind its sign. -/
def takeNegation (buffer : List Char) : Option Answer :=
  if buffer.isEmpty then some (failed .danglingNegation)
  else do
    let (f, buffer) ← again buffer
    return (f.map .neg, buffer)

/-- Closes a binary application, if its parts could be read. The operands are read once more. -/
def close (l : Option Formula) (op : Option Connective) (r : Option Formula) (buffer : List Char) : Option Answer :=
  match l with
  | none => some (failed .badOperand)
  | some l => do
    if ← isReadable again l.text.toList then
      match op, r with
      | none, _ => return failed .badConnective
      | some _, none => return failed .badOperand
      | some op, some r =>
        if ← isReadable again r.text.toList then
          match readClose buffer with
          | some c => return (some (.bin op l r), c.rest)
          | none => return failed .unclosed
        else return failed .badOperand
    else return failed .badOperand

/-- Takes the two operands of a binary application and the connective between them off the buffer, behind the opening
parenthesis. All three calls are made, whether or not the first ones fail. -/
def takeApplication (buffer : List Char) : Option Answer := do
  let (l, buffer) ← again buffer
  let (op, buffer) := takeConnective d buffer
  let (r, buffer) ← again buffer
  close again l op r buffer

/-- Takes a formula off the buffer. -/
def take (buffer : List Char) : Option Answer :=
  match buffer with
  | [] => some (failed .empty)
  | c :: t =>
    if c = '~' then takeNegation again t
    else if c = '(' then takeApplication d again t
    else some (answer (readAtom d c t))

end Calls

/-- Takes a formula off the buffer by calls that are nested no deeper than given. -/
def nested (d : Dialect) : Nat → List Char → Option Answer
  | 0, _ => none
  | depth + 1, buffer => take d (nested d depth) buffer

end FormalLogic.Propositional.Buffer
