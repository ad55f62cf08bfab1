/-!
# Reading off the front of a text

A reader takes something off the front of a text and leaves the rest. That the rest is shorter is part
of its answer, so that readers which call each other can be seen to end.
-/

namespace FormalLogic

/-- Something read off the front of a text, and the rest of the text. -/
structure ReadOff (α : Type) (s : List Char) where
  /-- What was read. -/
  value : α
  /-- The text behind it. -/
  rest : List Char
  /-- Something was taken off. -/
  shorter : rest.length < s.length

/-- What follows the first character of a text is shorter than the text. -/
theorem length_lt_length_cons (c : Char) (t : List Char) : t.length < (c :: t).length :=
  Nat.lt_succ_self t.length

end FormalLogic
