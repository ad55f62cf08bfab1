import FormalLogic.Propositional.Reading

/-!
# A reader that takes connectives for pieces

A simpler reader for the language of conjunction, disjunction and implication: it reads formulas and
connectives alike as pieces, and looks for the pattern piece, connective, piece between parentheses.
It judges an application only after reading all three places. A negation in front of anything but a
formula is refused at once, also in a place that will not be used.
-/

namespace FormalLogic.Propositional.Draft

/-- A formula, or a connective standing alone. -/
inductive Piece
  | formula (f : Formula)
  | connective (op : Connective)
  deriving DecidableEq, Repr

/-- The text of a piece. -/
def Piece.text : Piece → String
  | formula f => f.text
  | connective op => op.symbol

/-- What became of reading one piece off the front of a text. -/
inductive Reading (s : List Char)
  /-- A piece, and the text behind it. -/
  | piece (p : Piece) (rest : List Char) (shorter : rest.length < s.length)
  /-- A closing parenthesis in place of a piece, and the text behind it. -/
  | stray (rest : List Char) (shorter : rest.length < s.length)
  /-- No piece can be read. -/
  | failed (e : ReadError)
  /-- A formula would have to be built from something that is none. -/
  | refused

/-- The messages of this reader. -/
def message : ReadError → String
  | .danglingNegation => "unary must be followed by valid propositional formulae "
  | .unclosed => "You need to close each '(' by ')'"
  | .badConnective => "(X operator Y) operator must be a binary operator  meaning & or | or ->"
  | e => e.message

/-- Reads an atom: a variable, a truth constant or a connective. -/
def readAtom (c : Char) (t : List Char) : Reading (c :: t) :=
  match readConnective Connective.basic (c :: t) with
  | some ⟨op, rest, h⟩ => .piece (.connective op) rest h
  | none =>
    match Propositional.readAtom Connective.basic c t with
    | .ok ⟨f, rest, h⟩ => .piece (.formula f) rest h
    | .error (.strayClose _) => .stray t (length_lt_length_cons c t)
    | .error e => .failed e

/-- The places of an application were read, but it fails with an error; a refusal in the last
place comes first. -/
def failUnlessRefused {s t : List Char} (e : ReadError) : Reading t → Reading s
  | .refused => .refused
  | _ => .failed e

/-- Reads one piece off the front of a text. -/
def readPiece (s : List Char) : Reading s :=
  match s with
  | [] => .failed .empty
  | '~' :: [] => .failed .danglingNegation
  | '~' :: c :: t =>
    match readPiece (c :: t) with
    | .piece (.formula f) rest h =>
      .piece (.formula (.neg f)) rest (by simp only [List.length_cons] at h ⊢; omega)
    | _ => .refused
  | '(' :: t =>
    match readPiece t with
    | .refused => .refused
    | .failed _ => .failed .badOperand
    | .stray t₁ h₁ =>
      match readPiece t₁ with
      | .refused => .refused
      | .failed _ => .failed .badOperand
      | .stray t₂ h₂ => failUnlessRefused .badOperand (readPiece t₂)
      | .piece _ t₂ h₂ => failUnlessRefused .badOperand (readPiece t₂)
    | .piece a t₁ h₁ =>
      match readPiece t₁ with
      | .refused => .refused
      | .failed _ => .failed .badConnective
      | .stray t₂ h₂ => failUnlessRefused .badConnective (readPiece t₂)
      | .piece (.formula _) t₂ h₂ => failUnlessRefused .badConnective (readPiece t₂)
      | .piece (.connective op) t₂ h₂ =>
        match readPiece t₂ with
        | .refused => .refused
        | .failed _ => .failed .badOperand
        | .stray _ _ => .failed .badOperand
        | .piece b t₃ h₃ =>
          match readClose t₃ with
          | none => .failed .unclosed
          | some ⟨_, rest, h₄⟩ =>
            match a, b with
            | .formula l, .formula r =>
              .piece (.formula (.bin op l r)) rest (by simp only [List.length_cons]; omega)
            | _, _ => .refused
  | c :: t => readAtom c t
termination_by s.length
decreasing_by all_goals (simp only [List.length_cons] at *; omega)

/-- The first piece of a text with the rest, or no piece with a message. -/
def readText (s : String) : Outcome (Option Piece × String) :=
  match readPiece s.toList with
  | .piece p rest _ => .ok (some p, String.ofList rest)
  | .stray rest _ => .ok (none, String.ofList rest)
  | .failed e => .ok (none, message e)
  | .refused => .error (.unmet .wellFormed)

/-- This reader never says whether a whole text is a formula: reading it gives no pair to look
at. -/
def parse (s : String) : Outcome Formula := do
  let _ ← readText s
  .error .wrongSort

/-- Looks at the negations in front of a text and at the character behind them. Nothing is ever
built: a parenthesis there cannot begin an atom, and negating what any other character begins is
refused. -/
def probe : List Char → Outcome Unit
  | [] => .error .outOfRange
  | '~' :: t =>
    match probe t with
    | .ok _ => .error (.unmet .wellFormed)
    | .error e => .error e
  | c :: _ => if c = '(' ∨ c = ')' then .error .unreadableAtom else .ok ()

end FormalLogic.Propositional.Draft
