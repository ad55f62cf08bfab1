import FormalLogic.Proofs.Predicate.EqualityElimination.Sameness

/-!
# One representative of each class

The pairs of elements that are the same are taken account of one after the other, in ascending order. The first
pair in which an element stands second has the least element of its class in front (`Model.leastSame`), so
this one becomes the representative, and no later pair changes it. In particular two classes never meet.

What a pair does is said by `Model.Classes.Tracks.join`, and what all of them do by
`Model.Classes.Tracks.joinAll`.
-/

namespace FormalLogic.Predicate.Model

/-! ## Ascending pairs -/

section Pairs

variable {a b c d : String} {done rest : List (List String)}

theorem rowLe_pair : rowLe [a, b] [c, d] = true ↔ a < c ∨ a = c ∧ b ≤ d := by
  by_cases hac : a = c
  · by_cases hbd : b = d
    · simp [rowLe, hac, hbd]
    · simp [rowLe, hac, hbd]
  · simp [rowLe, hac, le_iff_lt_or_eq]

/-- Among ascending pairs, a smaller one has been met before. -/
theorem mem_done_of_lt (hsorted : (done ++ [a, b] :: rest).Pairwise fun r s => rowLe r s = true)
    (hmem : [c, d] ∈ done ++ [a, b] :: rest) (hlt : c < a ∨ c = a ∧ d < b) : [c, d] ∈ done := by
  refine (List.mem_append.1 hmem).resolve_right fun hmem => ?_
  have hle : rowLe [a, b] [c, d] = true := by
    rcases List.mem_cons.1 hmem with heq | hmem
    · rw [heq, rowLe_pair]
      exact .inr ⟨rfl, le_rfl⟩
    · exact List.rel_of_pairwise_cons (List.pairwise_append.1 hsorted).2.1 hmem
  rcases rowLe_pair.1 hle with hac | ⟨rfl, hbd⟩
  · rcases hlt with hca | ⟨rfl, -⟩
    · exact lt_asymm hac hca
    · exact lt_irrefl _ hac
  · rcases hlt with hca | ⟨-, hdb⟩
    · exact lt_irrefl _ hca
    · exact absurd hbd (not_le_of_gt hdb)

end Pairs

namespace Classes

/-! ## What a pair does -/

/-- Pairs in ascending order, each of elements with the same representative, which is the least of them and
stands in a pair with either. -/
structure Ascending (rep : String → String) (rows : List (List String)) : Prop where
  sorted : rows.Pairwise fun r s => rowLe r s = true
  nodup : rows.Nodup
  pair : ∀ row ∈ rows, ∃ a b, row = [a, b]
  rep_eq : ∀ a b, [a, b] ∈ rows → rep a = rep b
  rep_le : ∀ a b, [a, b] ∈ rows → rep a ≤ a ∧ rep b ≤ b
  rep_mem : ∀ a b, [a, b] ∈ rows → [rep a, a] ∈ rows ∧ [rep b, b] ∈ rows

/-- The elements that have been met with their representatives are those for which one is chosen, and the
representatives that have been met stand for a class. -/
structure Tracks (rep : String → String) (done : List (List String)) (c : Classes) : Prop where
  chosen : ∀ e, Table.find? c.chosen e = if [rep e, e] ∈ done then some (rep e) else none
  classes : ∀ e, e ∈ c.classes ↔ rep e = e ∧ [e, e] ∈ done

theorem tracks_nil (rep : String → String) : Tracks rep [] {} :=
  ⟨fun e => by simp, fun e => by simp⟩

section Step

variable {rep : String → String} {done rest : List (List String)} {c : Classes} {a b : String}

theorem requireClass_eq_ok {u : Unit} : c.requireClass a = .ok u ↔ a ∈ c.classes := by
  rw [requireClass]
  split
  · rename_i h
    simpa using h
  · rename_i h
    simpa using h

/-- A pair that does not have the representative in front adds nothing. -/
theorem Tracks.skip (h : Tracks rep done c) (hab : rep b ≠ a) : Tracks rep (done ++ [[a, b]]) c where
  chosen := by
    intro e
    have hmem : [rep e, e] ∈ done ++ [[a, b]] ↔ [rep e, e] ∈ done := by
      rw [List.mem_append, List.mem_singleton]
      refine or_iff_left fun heq => hab ?_
      obtain ⟨hrep, rfl⟩ : rep e = a ∧ e = b := by simpa using heq
      exact hrep
    rw [h.chosen]
    simp only [hmem]
  classes := by
    intro e
    rw [h.classes, List.mem_append, List.mem_singleton]
    refine and_congr_right fun hrep => (or_iff_left fun heq => hab ?_).symm
    obtain ⟨rfl, rfl⟩ : e = a ∧ e = b := by simpa using heq
    exact hrep

/-- A pair with the representative in front chooses it, and a pair of this with itself is a new class. -/
theorem Tracks.enter (h : Tracks rep done c) (hab : rep b = a) :
    Tracks rep (done ++ [[a, b]])
      ⟨Table.put c.chosen b a, if a = b then c.classes ++ [a] else c.classes⟩ where
  chosen := by
    intro e
    rw [Table.find?_put]
    by_cases hbe : b = e
    · subst hbe
      rw [if_pos rfl, if_pos (by simp [hab]), hab]
    · have hmem : [rep e, e] ∈ done ++ [[a, b]] ↔ [rep e, e] ∈ done := by
        simp [Ne.symm hbe]
      rw [if_neg hbe, h.chosen]
      simp only [hmem]
  classes := by
    intro e
    by_cases heq : a = b
    · subst heq
      rw [if_pos rfl, List.mem_append, List.mem_append, h.classes, List.mem_singleton, List.mem_singleton]
      grind
    · rw [if_neg heq, h.classes, List.mem_append, List.mem_singleton]
      grind

/-- Taking account of the next pair goes well. -/
theorem Tracks.join (h : Tracks rep done c) (hrows : Ascending rep (done ++ [a, b] :: rest)) :
    ∃ c', c.join a b = .ok c' ∧ Tracks rep (done ++ [[a, b]]) c' := by
  have hpair : [a, b] ∈ done ++ [a, b] :: rest := List.mem_append_right _ List.mem_cons_self
  have hrep := hrows.rep_eq a b hpair
  obtain ⟨hale, hble⟩ := hrows.rep_le a b hpair
  obtain ⟨hamem, hbmem⟩ := hrows.rep_mem a b hpair
  by_cases hab : rep b = a
  · have hnew : [rep b, b] ∉ done := by
      rw [hab]
      exact fun hmem => (List.nodup_append.1 hrows.nodup).2.2 _ hmem _ List.mem_cons_self rfl
    have hfindb : Table.find? c.chosen b = none := by rw [h.chosen, if_neg hnew]
    have henter := h.enter hab
    by_cases heq : a = b
    · subst heq
      rw [if_pos rfl] at henter
      refine ⟨_, ?_, henter⟩
      rw [Classes.join, if_pos rfl, hfindb]
    · rw [if_neg heq] at henter
      -- the representative was met with itself, because that pair is smaller
      have hself : [a, a] ∈ done := by
        have hmem : [a, a] ∈ done ++ [a, b] :: rest := by rwa [hrep, hab] at hamem
        have hlt : a < b := lt_of_le_of_ne (hab ▸ hble) heq
        exact mem_done_of_lt hrows.sorted hmem (.inr ⟨rfl, hlt⟩)
      have hrepa : rep a = a := hrep.trans hab
      have hfinda : Table.find? c.chosen a = some a := by rw [h.chosen, hrepa, if_pos hself]
      have hclass : c.requireClass a = .ok () := requireClass_eq_ok.2 ((h.classes a).2 ⟨hrepa, hself⟩)
      refine ⟨_, ?_, henter⟩
      rw [Classes.join, if_neg heq, hfinda, hfindb]
      dsimp only
      rw [hclass]
      rfl
  · -- both elements were met with their representative, because those pairs are smaller
    have hlt : rep b < a := lt_of_le_of_ne (hrep ▸ hale) hab
    have hfinda : Table.find? c.chosen a = some (rep b) := by
      rw [h.chosen, if_pos (mem_done_of_lt hrows.sorted hamem (.inl (hrep ▸ hlt))), hrep]
    have hfindb : Table.find? c.chosen b = some (rep b) := by
      rw [h.chosen, if_pos (mem_done_of_lt hrows.sorted hbmem (.inl hlt))]
    refine ⟨c, ?_, h.skip hab⟩
    by_cases heq : a = b
    · rw [Classes.join, if_pos heq, hfinda]
    · rw [Classes.join, if_neg heq, hfinda, hfindb]
      exact if_pos rfl

end Step

/-! ## What all pairs do -/

/-- Taking account of all pairs goes well. -/
theorem Tracks.joinAll {rep : String → String} {done rest : List (List String)} {c : Classes}
    (h : Tracks rep done c) (hrows : Ascending rep (done ++ rest)) :
    ∃ c', c.joinAll rest = .ok c' ∧ Tracks rep (done ++ rest) c' := by
  induction rest generalizing done c with
  | nil => exact ⟨c, rfl, by rwa [List.append_nil]⟩
  | cons row rest ih =>
      obtain ⟨a, b, rfl⟩ := hrows.pair row (List.mem_append_right _ List.mem_cons_self)
      obtain ⟨c₁, hjoin, h₁⟩ := h.join hrows
      rw [List.append_cons] at hrows ⊢
      obtain ⟨c', hjoinAll, h'⟩ := ih h₁ hrows
      refine ⟨c', ?_, h'⟩
      rw [Classes.joinAll, hjoin, ok_bind, hjoinAll]

end Classes

/-! ## The least element of a class -/

/-- The least element that is the same as a given one. -/
def leastSame (m : Model) (e : String) : String :=
  (m.domain.find? fun d => decide (m.Same d e)).getD e

section Least

variable {m : Model} (hm : m.WellFormed) (hsame : m.SameEquivalence) {d e : String}
include hm hsame

/-- An element has a least one that is the same. -/
theorem leastSame_spec (he : e ∈ m.domain) :
    m.Same (m.leastSame e) e ∧ ∀ d, m.Same d e → m.leastSame e ≤ d := by
  have hsome : ∃ r, m.domain.find? (fun d => decide (m.Same d e)) = some r :=
    Option.isSome_iff_exists.1 (List.find?_isSome.2 ⟨e, he, decide_eq_true (hsame.refl e he)⟩)
  obtain ⟨r, hr⟩ := hsome
  have hleast : m.leastSame e = r := by rw [leastSame, hr, Option.getD_some]
  obtain ⟨hrSame, before, behind, hdomain, hbefore⟩ := List.find?_eq_some_iff_append.1 hr
  rw [hleast]
  refine ⟨of_decide_eq_true hrSame, fun d hd => ?_⟩
  have hascending : m.domain.Pairwise (· < ·) := hm.domain_eq ▸ pairwise_sortedSet m.domain
  have hdmem : d ∈ m.domain := (hm.same_mem hd).1
  rw [hdomain] at hascending hdmem
  -- the elements before the least one are not the same as it
  rcases List.mem_append.1 hdmem with hdmem | hdmem
  · have hne := hbefore d hdmem
    simp [hd] at hne
  · rcases List.mem_cons.1 hdmem with rfl | hdmem
    · exact le_rfl
    · exact le_of_lt (List.rel_of_pairwise_cons (List.pairwise_append.1 hascending).2.1 hdmem)

/-- Elements are the same exactly if the least elements of their classes are equal. -/
theorem same_iff_leastSame (hd : d ∈ m.domain) (he : e ∈ m.domain) :
    m.Same d e ↔ m.leastSame d = m.leastSame e := by
  obtain ⟨hdSame, hdLeast⟩ := leastSame_spec hm hsame hd
  obtain ⟨heSame, heLeast⟩ := leastSame_spec hm hsame he
  have hd' := (hm.same_mem hdSame).1
  have he' := (hm.same_mem heSame).1
  constructor
  · intro hde
    apply le_antisymm
    · exact hdLeast _ (hsame.trans _ he' e he d hd heSame (hsame.symm d hd e he hde))
    · exact heLeast _ (hsame.trans _ hd' d hd e he hdSame hde)
  · intro heq
    rw [← heq] at heSame
    exact hsame.trans d hd _ hd' e he (hsame.symm _ hd' d hd hdSame) heSame

/-- The pairs of a model are ascending, with the least elements for representatives. -/
theorem ascending_rows : Classes.Ascending m.leastSame (m.rows sameName) := by
  obtain ⟨hsorted, hlength, -⟩ := hm.rows_made sameName
  have hspec : ∀ a b, [a, b] ∈ m.rows sameName → (m.leastSame a ≤ a ∧ m.leastSame b ≤ b) ∧
      m.Same (m.leastSame a) a ∧ m.Same (m.leastSame b) b := by
    intro a b hab
    obtain ⟨ha, hb⟩ := hm.same_mem hab
    obtain ⟨haSame, haLeast⟩ := leastSame_spec hm hsame ha
    obtain ⟨hbSame, hbLeast⟩ := leastSame_spec hm hsame hb
    exact ⟨⟨haLeast a (hsame.refl a ha), hbLeast b (hsame.refl b hb)⟩, haSame, hbSame⟩
  refine ⟨hsorted ▸ pairwise_sortedRows _, hsorted ▸ nodup_sortedRows _, fun row hrow => ?_,
    fun a b hab => ?_, fun a b hab => (hspec a b hab).1, fun a b hab => (hspec a b hab).2⟩
  · exact List.length_eq_two.1 (hsame.binary _ (hlength row hrow).symm)
  · obtain ⟨ha, hb⟩ := hm.same_mem hab
    exact (same_iff_leastSame hm hsame ha hb).1 hab

end Least

end FormalLogic.Predicate.Model
