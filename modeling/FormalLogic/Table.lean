import FormalLogic.Failure

/-!
# Tables, sets and positions

Tables are lists of pairs in the order in which their keys were first entered: entering a key again
changes its value and keeps its place. Sets of names are sorted lists without repetition. Where a set is
gone through element by element, nothing is laid down about the order, which is an argument of all that
depends on it (`SetOrder`). Positions in a list may be counted from its end by negative numbers.
-/

namespace FormalLogic

/-! ## Tables -/

namespace Table

variable {κ α : Type} [DecidableEq κ]

/-- The value of a key. -/
def find? (t : List (κ × α)) (k : κ) : Option α :=
  match t with
  | [] => none
  | (k', a) :: rest => if k' = k then some a else find? rest k

/-- Enters a value; a key that is present keeps its place. -/
def put (t : List (κ × α)) (k : κ) (a : α) : List (κ × α) :=
  match t with
  | [] => [(k, a)]
  | (k', a') :: rest => if k' = k then (k, a) :: rest else (k', a') :: put rest k a

/-- The table that results from entering pairs one after the other. -/
def ofPairs (pairs : List (κ × α)) : List (κ × α) :=
  pairs.foldl (fun t p => put t p.1 p.2) []

/-- The table without a key. -/
def erase (t : List (κ × α)) (k : κ) : List (κ × α) :=
  t.filter fun p => decide (p.1 ≠ k)

/-- Presence of a key. -/
def hasKey (t : List (κ × α)) (k : κ) : Bool :=
  (find? t k).isSome

/-- The keys, in their order. -/
def keys (t : List (κ × α)) : List κ :=
  t.map Prod.fst

@[simp] theorem find?_nil (k : κ) : find? ([] : List (κ × α)) k = none := rfl

@[simp] theorem find?_cons (k' k : κ) (a : α) (t : List (κ × α)) :
    find? ((k', a) :: t) k = if k' = k then some a else find? t k := rfl

/-- After entering a value, that key has it and every other key is as before. -/
theorem find?_put (t : List (κ × α)) (k j : κ) (a : α) :
    find? (put t k a) j = if k = j then some a else find? t j := by
  induction t with
  | nil => simp [put]
  | cons p t ih =>
    obtain ⟨k', a'⟩ := p
    by_cases h : k' = k
    · subst h
      by_cases hj : k' = j <;> simp [put, hj]
    · by_cases hj : k' = j
      · subst hj
        simp [put, h, Ne.symm h]
      · simp only [put, h, hj, if_false, find?_cons, ih]

end Table

/-! ## Sorted sets -/

/-- The names of a list, without repetitions, in ascending order. -/
def sortedSet (names : List String) : List String :=
  names.eraseDups.mergeSort fun x y => decide (x ≤ y)

theorem mem_sortedSet {names : List String} {x : String} : x ∈ sortedSet names ↔ x ∈ names := by
  simp [sortedSet, List.mem_mergeSort, List.mem_eraseDups]

/-! ## Orders of sets -/

/-- An order in which the elements of sets are gone through. It lists the elements of every list, each of
them once. -/
class SetOrder (α : Type) where
  list : List α → List α
  mem_list {l : List α} {a : α} : a ∈ list l ↔ a ∈ l
  nodup_list (l : List α) : (list l).Nodup

theorem nodup_eraseDups {α : Type} [BEq α] [LawfulBEq α] (l : List α) : l.eraseDups.Nodup := by
  -- by induction on the length: the tail is filtered before its own repetitions are erased
  induction hn : l.length using Nat.strongRecOn generalizing l with
  | _ n ih =>
      cases l with
      | nil => simp
      | cons a l =>
          rw [List.eraseDups_cons, List.nodup_cons]
          constructor
          · intro ha
            have := List.mem_eraseDups.1 ha
            simp at this
          · refine ih _ ?_ _ rfl
            rw [← hn, List.length_cons]
            exact Nat.lt_succ_of_le (List.length_filter_le _ _)

/-- The order of sorted sets. -/
@[reducible] def SetOrder.sorting {α : Type} [BEq α] [LawfulBEq α] (le : α → α → Bool) : SetOrder α where
  list l := l.eraseDups.mergeSort le
  mem_list := by simp [List.mem_mergeSort, List.mem_eraseDups]
  nodup_list l := (List.mergeSort_perm l.eraseDups le).nodup_iff.2 (nodup_eraseDups l)

/-- Names in ascending order. -/
@[reducible] def SetOrder.ascendingNames : SetOrder String :=
  .sorting fun x y => decide (x ≤ y)

/-- Positions in ascending order. -/
@[reducible] def SetOrder.ascendingPositions : SetOrder Int :=
  .sorting fun i j => decide (i ≤ j)

/-! ## Inclusion -/

/-- Every element of the first list is in the second. -/
def subset {α : Type} [BEq α] (l l' : List α) : Bool :=
  l.all l'.contains

/-- The two lists have the same elements. -/
def sameSet {α : Type} [BEq α] (l l' : List α) : Bool :=
  subset l l' && subset l' l

/-- The lists of a set of lists, ordered by their first elements, then their second ones, and so
on; a shorter list precedes its extensions. -/
def rowLe : List String → List String → Bool
  | [], _ => true
  | _ :: _, [] => false
  | a :: as, b :: bs => if a = b then rowLe as bs else decide (a ≤ b)

/-- A set of rows, in ascending order. -/
def sortedRows (rows : List (List String)) : List (List String) :=
  rows.eraseDups.mergeSort rowLe

/-! ## Positions -/

/-- The position that a number denotes in a list of length `n`; negative numbers count from the
end. -/
def place? (n : Nat) (i : Int) : Option Nat :=
  if 0 ≤ i then
    if i < n then some i.toNat else none
  else if 0 ≤ i + n then some (i + n).toNat
  else none

/-- The element at a position. -/
def fetch {α : Type} (l : List α) (i : Int) : Outcome α :=
  match place? l.length i with
  | some k => Failure.outOfRange.orElse l[k]?
  | none => .error .outOfRange

end FormalLogic
