import FormalLogic.FreshNames
import FormalLogic.Predicate.Formula
import FormalLogic.Propositional.Proof
import FormalLogic.Sealed

/-!
# Tours

A tour is a scripted session: it takes a size, calls operations of the library one after the other, and
lists what they answer. Tours show each part of the library at work on small inputs.
-/

namespace FormalLogic.Tour

/-- Operations that a tour names without calling them. -/
inductive Operation
  | evaluateRule
  | checkRule
  deriving DecidableEq, Repr

/-- What a tour lists. -/
inductive Item
  | nothing
  | truth (b : Bool)
  | number (n : Int)
  | text (s : String)
  /-- A hash value, of which only the presence is shown. -/
  | digest
  | row (items : List Item)
  | table (entries : List (String × Item))
  | proof (pf : Propositional.Proof)
  | operation (o : Operation)
  /-- A failure that the tour expected. -/
  | refused (e : Failure)

/-- A tour of a given size. -/
abbrev Session := Int → Fallible Item

/-- Values that can be listed. -/
class Listed (α : Type) where
  item : α → Item

export Listed (item)

instance : Listed Item := ⟨id⟩

instance : Listed Unit := ⟨fun _ => .nothing⟩

instance : Listed Bool := ⟨.truth⟩

instance : Listed Nat := ⟨fun n => .number n⟩

instance : Listed String := ⟨.text⟩

instance : Listed Propositional.Formula := ⟨fun f => if f.isMissing then .nothing else .text f.text⟩

instance : Listed Predicate.Formula := ⟨fun f => if f.isMissing then .nothing else .text f.text⟩

instance {α : Type} [Listed α] : Listed (Option α) := ⟨fun x => (x.map item).getD .nothing⟩

instance {α : Type} [Listed α] : Listed (List α) := ⟨fun l => .row (l.map item)⟩

instance {α β : Type} [Listed α] [Listed β] : Listed (α × β) := ⟨fun p => .row [item p.1, item p.2]⟩

/-- A table of formulas. -/
def tableOf {α : Type} [Listed α] (m : List (String × α)) : Item :=
  .table (m.map fun e => (e.1, item e.2))

/-- A table of formulas that may be absent. -/
def tableOf? {α : Type} [Listed α] (m : Option (List (String × α))) : Item :=
  item (m.map tableOf)

/-- The first characters of a text. -/
def cut (n : Nat) (s : String) : String :=
  String.ofList (s.toList.take n)

/-- The first elements of the endless repetition of a list. -/
def cycle {α : Type} (base : List α) (n : Int) : List α :=
  (List.range n.toNat).filterMap fun i => base[i % base.length]?

/-- The items of a round, as often as the size says. -/
def rounds (n : Int) (round : Fallible (List Item)) : Fallible (List Item) := do
  return (← (List.range n.toNat).mapM fun _ => round).flatten

/-- How many of some attempts are refused. -/
def refusals {α : Type} (attempts : List (Outcome α)) : Nat :=
  (attempts.filter fun
    | .error _ => true
    | .ok _ => false).length

/-- What an attempt that must be refused is refused with. -/
def refusal {α : Type} : Outcome α → Item
  | .ok _ => .nothing
  | .error e => .refused e

/-! ## Sealed values -/

/-- Makes sealed records and adds up their fields and the refused changes. -/
def sealedValues : Session := fun n => do
  let sums ← ((List.range n.toNat).mapM fun i => do
    let r : SealedRecord Nat := ⟨"Box", [("a", i), ("b", i + 2)]⟩
    return (← r.get "a") + (← r.get "b") : Outcome (List Nat))
  let r : SealedRecord Nat := ⟨"Box", [("a", 0), ("b", 1)]⟩
  let t : SealedTable Nat := ⟨[("k", 0)]⟩
  return item (sums.foldl (· + ·) 0 + refusals [r.assign "a", r.remove "a", t.change, t.change])

end FormalLogic.Tour
