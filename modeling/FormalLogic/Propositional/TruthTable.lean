import FormalLogic.Propositional.Semantics

/-!
# Printed truth tables

A truth table has a column for every variable and one for the formula, a row for every valuation, and
a ruled line below the headers. A column is two places wider than its header, where a fullwidth digit
takes two places and any other character of a formula takes one. The ruled line is drawn with the same
bars as the columns, and bars also stand for plus signs in a header.
-/

namespace FormalLogic.Propositional

/-- The number of places that a character takes in a row. Of the characters in formulas only the
fullwidth digits take two. -/
def charWidth (c : Char) : Nat :=
  if 0xFF10 ≤ c.toNat ∧ c.toNat ≤ 0xFF19 then 2 else 1

/-- The number of places that a text takes in a row. -/
def textWidth (s : String) : Nat :=
  s.toList.foldl (fun n c => n + charWidth c) 0

/-- Fills a text with blanks up to a width. -/
def padded (width : Nat) (s : String) : String :=
  s ++ String.ofList (List.replicate (width - textWidth s) ' ')

/-- A row of cells between bars, in columns of the given widths. -/
def tableRow (widths : List Nat) (cells : List String) : String :=
  "|" ++ String.join ((widths.zip cells).map fun c => " " ++ padded c.1 c.2 ++ " |")

/-- The line below the headers. -/
def tableRule (widths : List Nat) : String :=
  "|" ++ "|".intercalate (widths.map fun w => String.ofList (List.replicate (w + 2) '-')) ++ "|"

/-- The truth table of a formula. -/
def Formula.truthTable (f : Formula) : String :=
  let names := f.vars
  let headers := names ++ [f.text]
  let widths := headers.map fun h => textWidth h + 2
  let body := (Valuation.all names).map fun m =>
    tableRow widths ((names.map fun x => constText (m.value x)) ++ [constText (f.eval m.value)])
  let rows := tableRow widths headers :: tableRule widths :: body
  "\n".intercalate rows |>.map (fun c => if c = '+' then '|' else c)

end FormalLogic.Propositional
