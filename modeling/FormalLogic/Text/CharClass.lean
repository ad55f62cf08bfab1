import FormalLogic.Text.Digit
import FormalLogic.Text.Letter
import FormalLogic.Text.Numeral

/-!
# Classes of characters

Names consist of letters and digits of any script. Below code point 128 the classes are the familiar
ones; above it they are given by tables.
-/

namespace FormalLogic.Text

/-- Membership of a code point in a list of ranges. -/
def inRanges (ranges : List (Nat × Nat)) (code : Nat) : Bool :=
  ranges.any fun r => decide (r.1 ≤ code) && decide (code ≤ r.2)

/-- Digits of every script, superscript and circled ones included. -/
def isDigit (c : Char) : Bool :=
  if c.toNat < 128 then c.isDigit else inRanges digitRanges c.toNat

/-- Letters of every script. -/
def isLetter (c : Char) : Bool :=
  if c.toNat < 128 then c.isAlpha else inRanges letterRanges c.toNat

/-- Letters and digits: the characters that the scanner takes for part of a name. -/
def isNameChar (c : Char) : Bool :=
  isLetter c || isDigit c

/-- Letters, digits and other numerals such as fractions. -/
def isAlphanumeric (c : Char) : Bool :=
  isLetter c || isDigit c || (decide (128 ≤ c.toNat) && inRanges numeralRanges c.toNat)

theorem isDigit_of_isDigit {c : Char} (h : c.isDigit = true) : isDigit c = true := by
  have hlt : c.toNat < 128 := by
    simp only [Char.isDigit, Bool.and_eq_true, decide_eq_true_eq] at h
    have h2 : c.val ≤ 57 := h.2
    have := UInt32.le_iff_toNat_le.1 h2
    simp only [Char.toNat]
    have h3 : (57 : UInt32).toNat = 57 := rfl
    omega
  simp [isDigit, hlt, h]

end FormalLogic.Text
