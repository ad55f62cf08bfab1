import FormalLogic.Table
import Mathlib.Data.String.Basic
import Mathlib.Logic.Function.Basic

/-!
# Sorted sets and look-up in tables

A sorted set of names is determined by its elements: it is the one strictly ascending list of them.
Entering pairs into a table leaves every key with the last value entered for it.
-/

namespace FormalLogic

/-! ## Sorted sets -/

theorem eraseDups_eq_self {α : Type} [BEq α] [LawfulBEq α] {l : List α} (h : l.Nodup) :
    l.eraseDups = l := by
  induction l with
  | nil => rfl
  | cons a l ih =>
      obtain ⟨ha, hl⟩ := List.nodup_cons.1 h
      have hfilter : (l.filter fun b => !b == a) = l := by
        refine List.filter_eq_self.2 fun b hb => ?_
        simp [ne_of_mem_of_not_mem hb ha]
      rw [List.eraseDups_cons, hfilter, ih hl]

/-- Further elements that are there already are erased. -/
theorem eraseDups_append_of_subset {α : Type} [BEq α] [LawfulBEq α] {l more : List α}
    (h : more ⊆ l) : (l ++ more).eraseDups = l.eraseDups := by
  have hnone : more.removeAll l = [] := by
    rw [List.removeAll, List.filter_eq_nil_iff]
    intro a ha
    simp [h ha]
  rw [List.eraseDups_append, hnone, List.eraseDups_nil, List.append_nil]

theorem nodup_sortedSet (names : List String) : (sortedSet names).Nodup :=
  (List.mergeSort_perm names.eraseDups _).nodup_iff.2 (nodup_eraseDups names)

/-- The names of a sorted set ascend. -/
theorem pairwise_sortedSet (names : List String) : (sortedSet names).Pairwise (· < ·) := by
  have hle : (sortedSet names).Pairwise (· ≤ ·) := by
    have h : (sortedSet names).Pairwise fun a b => decide (a ≤ b) = true := by
      refine List.pairwise_mergeSort ?_ ?_ names.eraseDups
      · intro a b c hab hbc
        simp only [decide_eq_true_eq] at hab hbc ⊢
        exact le_trans hab hbc
      · intro a b
        simp only [Bool.or_eq_true, decide_eq_true_eq]
        exact le_total a b
    exact h.imp fun hab => of_decide_eq_true hab
  exact hle.imp₂ (fun _ _ hab hne => lt_of_le_of_ne hab hne) (nodup_sortedSet names)

/-- Ascending lists with the same elements are equal. -/
theorem eq_of_ascending {l l' : List String} (hl : l.Pairwise (· < ·)) (hl' : l'.Pairwise (· < ·))
    (h : ∀ x, x ∈ l ↔ x ∈ l') : l = l' := by
  have hperm : l.Perm l' :=
    (List.perm_ext_iff_of_nodup (hl.imp ne_of_lt) (hl'.imp ne_of_lt)).2 h
  exact hperm.eq_of_pairwise (fun a b _ _ hab hba => absurd hab (lt_asymm hba)) hl hl'

/-- A sorted set is the one ascending list of its elements. -/
theorem sortedSet_eq {names l : List String} (hl : l.Pairwise (· < ·))
    (h : ∀ x, x ∈ names ↔ x ∈ l) : sortedSet names = l :=
  eq_of_ascending (pairwise_sortedSet names) hl fun x => mem_sortedSet.trans (h x)

theorem sortedSet_sortedSet (names : List String) : sortedSet (sortedSet names) = sortedSet names :=
  sortedSet_eq (pairwise_sortedSet names) fun _ => Iff.rfl

/-! ## Sorted rows -/

theorem mem_sortedRows {rows : List (List String)} {row : List String} :
    row ∈ sortedRows rows ↔ row ∈ rows := by
  simp [sortedRows, List.mem_mergeSort, List.mem_eraseDups]

theorem rowLe_trans (r s t : List String) (hrs : rowLe r s = true) (hst : rowLe s t = true) :
    rowLe r t = true := by
  induction r generalizing s t with
  | nil => rfl
  | cons a r ih =>
      cases s with
      | nil => simp [rowLe] at hrs
      | cons b s =>
          cases t with
          | nil => simp [rowLe] at hst
          | cons c t =>
              rw [rowLe] at hrs hst ⊢
              split at hrs <;> split at hst <;> split
              all_goals grind

theorem rowLe_total (r s : List String) : (rowLe r s || rowLe s r) = true := by
  induction r generalizing s with
  | nil => rfl
  | cons a r ih =>
      cases s with
      | nil => rfl
      | cons b s =>
          rw [rowLe, rowLe]
          by_cases hab : a = b
          · simpa [hab] using ih s
          · simpa [hab, Ne.symm hab] using le_total a b

theorem pairwise_sortedRows (rows : List (List String)) :
    (sortedRows rows).Pairwise fun r s => rowLe r s = true :=
  List.pairwise_mergeSort rowLe_trans rowLe_total _

theorem nodup_sortedRows (rows : List (List String)) : (sortedRows rows).Nodup :=
  (List.mergeSort_perm rows.eraseDups _).nodup_iff.2 (nodup_eraseDups rows)

/-- Sorting different rows keeps all of them. -/
theorem perm_sortedRows {rows : List (List String)} (h : rows.Nodup) : (sortedRows rows).Perm rows := by
  rw [sortedRows, eraseDups_eq_self h]
  exact List.mergeSort_perm rows rowLe

/-- Sorting rows that are sorted changes nothing. -/
theorem sortedRows_sortedRows (rows : List (List String)) :
    sortedRows (sortedRows rows) = sortedRows rows := by
  rw [sortedRows, eraseDups_eq_self (nodup_sortedRows rows)]
  exact List.mergeSort_of_pairwise (pairwise_sortedRows rows)

/-! ## Inclusion -/

section Inclusion

variable {α : Type} [BEq α] [LawfulBEq α] {l l' : List α}

theorem subset_eq_true : subset l l' = true ↔ l ⊆ l' := by
  simp [subset, List.subset_def]

theorem sameSet_eq_true : sameSet l l' = true ↔ l ⊆ l' ∧ l' ⊆ l := by
  rw [sameSet, Bool.and_eq_true, subset_eq_true, subset_eq_true]

end Inclusion

/-! ## Look-up -/

namespace Table

variable {κ α : Type} [DecidableEq κ]

theorem find?_isSome {t : List (κ × α)} {k : κ} : (find? t k).isSome = true ↔ k ∈ keys t := by
  induction t with
  | nil => simp [keys]
  | cons e t ih =>
      obtain ⟨k', a⟩ := e
      rw [find?_cons]
      by_cases hk : k' = k
      · simp [keys, hk]
      · rw [if_neg hk, ih]
        simp [keys, Ne.symm hk]

theorem mem_of_find?_eq_some {t : List (κ × α)} {k : κ} {a : α} (h : find? t k = some a) :
    (k, a) ∈ t := by
  induction t with
  | nil => simp at h
  | cons e t ih =>
      obtain ⟨k', a'⟩ := e
      rw [find?_cons] at h
      by_cases hk : k' = k
      · rw [if_pos hk, Option.some.injEq] at h
        simp [hk, h]
      · rw [if_neg hk] at h
        exact List.mem_cons_of_mem _ (ih h)

/-- In a table that has every key once, an entry is found by its key. -/
theorem find?_eq_some_of_mem {t : List (κ × α)} (ht : (keys t).Nodup) {k : κ} {a : α}
    (h : (k, a) ∈ t) : find? t k = some a := by
  induction t with
  | nil => cases h
  | cons e t ih =>
      obtain ⟨k', a'⟩ := e
      obtain ⟨hk', ht⟩ := List.nodup_cons.1 ht
      rw [find?_cons]
      rcases List.mem_cons.1 h with h | h
      · rw [(Prod.mk.inj h).1, (Prod.mk.inj h).2, if_pos rfl]
      · rw [if_neg, ih ht h]
        rintro rfl
        exact hk' (List.mem_map.2 ⟨_, h, rfl⟩)

theorem mem_put {t : List (κ × α)} {k : κ} {a : α} {e : κ × α} (h : e ∈ put t k a) :
    e = (k, a) ∨ e ∈ t := by
  induction t with
  | nil => exact .inl (List.mem_singleton.1 h)
  | cons e' t ih =>
      rw [put] at h
      split at h
      · exact (List.mem_cons.1 h).imp_right (List.mem_cons_of_mem e')
      · rcases List.mem_cons.1 h with rfl | h
        · exact .inr List.mem_cons_self
        · exact (ih h).imp_right (List.mem_cons_of_mem e')

/-- A new key goes behind the others. -/
theorem put_of_notMem {t : List (κ × α)} {k : κ} (hk : k ∉ keys t) (a : α) :
    put t k a = t ++ [(k, a)] := by
  induction t with
  | nil => rfl
  | cons e t ih =>
      obtain ⟨k', a'⟩ := e
      obtain ⟨hne, hk⟩ : k' ≠ k ∧ k ∉ keys t := by simpa [keys, eq_comm] using hk
      rw [put, if_neg hne, ih hk]
      rfl

/-- Entering the value that a key has changes nothing. -/
theorem put_eq_self {t : List (κ × α)} {k : κ} {a : α} (h : find? t k = some a) : put t k a = t := by
  induction t with
  | nil => cases h
  | cons e t ih =>
      obtain ⟨k', a'⟩ := e
      rw [find?_cons] at h
      rw [put]
      split_ifs at h ⊢ with hk
      · rw [hk, Option.some.inj h]
      · rw [ih h]

/-- Pairs with new keys, all different, are entered behind the others as they stand. -/
theorem foldl_put_eq_append {t pairs : List (κ × α)} (h : (keys (t ++ pairs)).Nodup) :
    pairs.foldl (fun t p => put t p.1 p.2) t = t ++ pairs := by
  induction pairs generalizing t with
  | nil => simp
  | cons p pairs ih =>
      have hp : p.1 ∉ keys t := by
        rw [keys, List.map_append, List.map_cons] at h
        exact fun hmem => (List.nodup_append.1 h).2.2 p.1 hmem p.1 List.mem_cons_self rfl
      rw [List.foldl_cons, put_of_notMem hp, List.append_cons t p pairs]
      rw [List.append_cons t p pairs] at h
      exact ih h

theorem ofPairs_eq_self {pairs : List (κ × α)} (h : (keys pairs).Nodup) : ofPairs pairs = pairs :=
  foldl_put_eq_append h

theorem hasKey_put {t : List (κ × α)} {k j : κ} {a : α} :
    hasKey (put t k a) j = true ↔ k = j ∨ hasKey t j = true := by
  rw [hasKey, find?_put]
  by_cases hk : k = j
  · simp [hk]
  · simp [hk, hasKey]

/-- The table that results from entering all pairs of another one. -/
def putAll (t more : List (κ × α)) : List (κ × α) :=
  more.foldr (fun e t => put t e.1 e.2) t

theorem find?_putAll (t more : List (κ × α)) (k : κ) :
    find? (putAll t more) k = (find? more k).or (find? t k) := by
  induction more with
  | nil => rfl
  | cons e more ih =>
      obtain ⟨k', a⟩ := e
      rw [putAll, List.foldr_cons, find?_put, find?_cons, ← putAll, ih]
      by_cases hk : k' = k
      · simp [hk]
      · simp [hk]

theorem hasKey_putAll_of_hasKey {t : List (κ × α)} (more : List (κ × α)) {k : κ}
    (h : hasKey t k = true) : hasKey (putAll t more) k = true := by
  rw [hasKey, find?_putAll, Option.isSome_or, ← hasKey, ← hasKey, h, Bool.or_true]

theorem mem_putAll {t more : List (κ × α)} {e : κ × α} (h : e ∈ putAll t more) :
    e ∈ more ∨ e ∈ t := by
  induction more with
  | nil => exact .inr h
  | cons e' more ih =>
      rcases mem_put h with rfl | h
      · exact .inl List.mem_cons_self
      · exact (ih h).imp_left (List.mem_cons_of_mem e')

theorem find?_append (s t : List (κ × α)) (k : κ) :
    find? (s ++ t) k = (find? s k).or (find? t k) := by
  induction s with
  | nil => simp
  | cons e s ih =>
      obtain ⟨k', a⟩ := e
      by_cases hk : k' = k
      · simp [hk]
      · simp [hk, ih]

/-- Different keys have the values that are entered for them in front of a table. -/
theorem map_find?_zip_append {ks : List κ} {vs : List α} (hks : ks.Nodup) (hlength : vs.length = ks.length)
    (t : List (κ × α)) : ks.map (find? (ks.zip vs ++ t)) = vs.map some := by
  induction ks generalizing vs with
  | nil => rw [List.length_eq_zero_iff.1 hlength, List.map_nil, List.map_nil]
  | cons k ks ih =>
      obtain ⟨hk, hks⟩ := List.nodup_cons.1 hks
      cases vs with
      | nil => cases hlength
      | cons v vs =>
          have hothers : ks.map (find? ((k, v) :: (ks.zip vs ++ t))) = ks.map (find? (ks.zip vs ++ t)) :=
            List.map_congr_left fun j hj => by rw [find?_cons, if_neg (ne_of_mem_of_not_mem hj hk).symm]
          rw [List.zip_cons_cons, List.cons_append, List.map_cons, List.map_cons, hothers,
            ih hks (Nat.succ.inj hlength), find?_cons, if_pos rfl]

theorem find?_map {β : Type} (t : List (κ × α)) (g : α → β) (k : κ) :
    find? (t.map fun e => (e.1, g e.2)) k = (find? t k).map g := by
  induction t with
  | nil => rfl
  | cons e t ih =>
      obtain ⟨k', a⟩ := e
      rw [List.map_cons, find?_cons, find?_cons, ih]
      split <;> rfl

theorem find?_filter (t : List (κ × α)) (p : κ → Bool) (k : κ) :
    find? (t.filter fun e => p e.1) k = if p k then find? t k else none := by
  induction t with
  | nil => simp
  | cons e t ih =>
      obtain ⟨k', a⟩ := e
      by_cases hk : k' = k
      · subst hk
        cases hp : p k' <;> simp [hp, ih]
      · cases hp : p k' <;> simp [hp, hk, ih]

theorem find?_erase (t : List (κ × α)) (k : κ) :
    find? (erase t k) = Function.update (find? t) k none := by
  funext j
  rw [erase, find?_filter t fun j => decide (j ≠ k), Function.update_apply]
  by_cases hj : j = k <;> simp [hj]

/-- Entering pairs that agree with a function leaves every key with a value of that function. -/
theorem find?_foldl_put {v : κ → α} {pairs : List (κ × α)} (hv : ∀ p ∈ pairs, p.2 = v p.1)
    (t : List (κ × α)) (k : κ) :
    find? (pairs.foldl (fun t p => put t p.1 p.2) t) k =
      if k ∈ keys pairs then some (v k) else find? t k := by
  induction pairs generalizing t with
  | nil => simp [keys]
  | cons p pairs ih =>
      have hp : p.2 = v p.1 := hv p (by simp)
      rw [List.foldl_cons, ih fun q hq => hv q (List.mem_cons_of_mem p hq), find?_put, hp]
      have hmem : k ∈ keys (p :: pairs) ↔ p.1 = k ∨ k ∈ keys pairs := by
        simp [keys, eq_comm]
      by_cases hk : p.1 = k
      · rw [if_pos (hmem.2 (.inl hk)), if_pos hk, hk, ite_self]
      · rw [if_neg hk]
        exact if_congr (by simp [hmem, hk]) rfl rfl

/-- Entering pairs adds their keys. -/
theorem hasKey_foldl_put {pairs t : List (κ × α)} {k : κ} :
    hasKey (pairs.foldl (fun t p => put t p.1 p.2) t) k = true ↔ k ∈ keys pairs ∨ hasKey t k = true := by
  induction pairs generalizing t with
  | nil => simp [keys]
  | cons p pairs ih =>
      have hmem : k ∈ keys (p :: pairs) ↔ p.1 = k ∨ k ∈ keys pairs := by
        simp [keys, eq_comm]
      rw [List.foldl_cons, ih, hasKey_put, hmem, or_left_comm, or_assoc]

end Table

end FormalLogic
