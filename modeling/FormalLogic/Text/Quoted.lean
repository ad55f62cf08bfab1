import FormalLogic.Text.CharClass
import FormalLogic.Text.Hidden

/-!
# Values as text

Names in quotes, and tuples, lists, tables and sets of them, as they appear in the text of proofs and
models. A tuple of one element keeps a comma before its closing parenthesis.

A name that consists of letters and digits is quoted as it stands. Elements of a model's domain may be
any texts, so a quote, a backslash or a character without a visible form is written with a backslash.
-/

namespace FormalLogic.Text

/-- An integer in decimal notation. -/
def decimal (i : Int) : String :=
  if i < 0 then "-" ++ String.ofList (Nat.toDigits 10 i.natAbs)
  else String.ofList (Nat.toDigits 10 i.natAbs)

/-- A number, set to the right in a column of three characters. -/
def numbered (n : Nat) : String :=
  let digits := Nat.toDigits 10 n
  String.ofList (List.replicate (3 - digits.length) ' ' ++ digits)

/-! ## Quotes -/

/-- Whether a character has no visible form. The space counts as visible. -/
def isHidden (c : Char) : Bool :=
  decide (c.toNat < 32) || (decide (127 ≤ c.toNat) && inRanges hiddenRanges c.toNat)

/-- A code point as a given number of hexadecimal digits. -/
def hexadecimal (width code : Nat) : String :=
  let digits := Nat.toDigits 16 code
  String.ofList (List.replicate (width - digits.length) '0' ++ digits)

/-- A character between quotes: the quote itself, a backslash and a character without a visible form
are written with a backslash. -/
def escaped (quote c : Char) : String :=
  if c = quote || c = '\\' then "\\" ++ c.toString
  else if c = '\n' then "\\n"
  else if c = '\r' then "\\r"
  else if c = '\t' then "\\t"
  else if isHidden c then
    if c.toNat < 0x100 then "\\x" ++ hexadecimal 2 c.toNat
    else if c.toNat < 0x10000 then "\\u" ++ hexadecimal 4 c.toNat
    else "\\U" ++ hexadecimal 8 c.toNat
  else c.toString

/-- A text between single quotes, or between double quotes if it has single quotes only. -/
def quoted (s : String) : String :=
  let quote := if s.toList.contains '\x27' && !s.toList.contains '\x22' then '\x22' else '\x27'
  quote.toString ++ String.join (s.toList.map (escaped quote)) ++ quote.toString

/-! ## Collections -/

/-- Items between an opening and a closing text, separated by commas. -/
def enclosed (opening closing : String) (items : List String) : String :=
  opening ++ ", ".intercalate items ++ closing

/-- A tuple: `()`, `(a,)`, `(a, b)`. -/
def tuple : List String → String
  | [a] => "(" ++ a ++ ",)"
  | items => enclosed "(" ")" items

/-- A list: `[a, b]`. -/
def bracketed (items : List String) : String :=
  enclosed "[" "]" items

/-- A table of keys and values between braces. -/
def table (entries : List (String × String)) : String :=
  enclosed "\x7b" "\x7d" (entries.map fun e => e.1 ++ ": " ++ e.2)

/-- A set, whose text begins with the word for a set that cannot change. -/
def constantSet (items : List String) : String :=
  if items.isEmpty then "frozenset()" else "frozenset(" ++ enclosed "\x7b" "\x7d" items ++ ")"

end FormalLogic.Text
