import FormalLogic.Proofs.Predicate.EqualityElimination.Classes
import Mathlib.Data.Setoid.Basic

/-!
# Pairs in any order

Pairs of elements that are the same may be met in any order. When two classes meet, the one of the second
element is given up, and this element alone gets another representative, which is the first element. So
the first one has to represent its class already, and the second one has to be alone in its own
(`Model.Classes.Absorbs`). Otherwise an element is left whose representative stands for no class
(`Model.Classes.Astray`), and no further pair repairs this.

If all is well whenever two classes meet, every class has one representative in the end, and only then
(`Model.Classes.settles_iff`).
-/

namespace FormalLogic.Predicate.Model.Classes

/-! ## What a pair does -/

/-- An element starts a class of its own. -/
def start (c : Classes) (a : String) : Classes :=
  ⟨Table.put c.chosen a a, c.classes ++ [a]⟩

/-- An element gets a representative. -/
def assign (c : Classes) (e r : String) : Classes :=
  { c with chosen := Table.put c.chosen e r }

/-- A class is given up, and one element gets another representative. -/
def giveUp (c : Classes) (t b a : String) : Classes :=
  ⟨Table.put c.chosen b a, c.classes.erase t⟩

/-- What a pair of elements does, by the representatives that they have. -/
inductive Joined (c : Classes) (a b : String) : Classes → Prop
  | known {r : String} (ha : Table.find? c.chosen a = some r) (hb : Table.find? c.chosen b = some r) :
      Joined c a b c
  | self (ha : Table.find? c.chosen a = none) (hab : a = b) : Joined c a b (c.start a)
  | neither (ha : Table.find? c.chosen a = none) (hb : Table.find? c.chosen b = none) (hab : a ≠ b) :
      Joined c a b ((c.start a).assign b a)
  | second {r : String} (ha : Table.find? c.chosen a = none) (hb : Table.find? c.chosen b = some r)
      (hr : r ∈ c.classes) : Joined c a b (c.assign a r)
  | first {r : String} (ha : Table.find? c.chosen a = some r) (hb : Table.find? c.chosen b = none)
      (hr : r ∈ c.classes) : Joined c a b (c.assign b r)
  | both {r t : String} (ha : Table.find? c.chosen a = some r) (hb : Table.find? c.chosen b = some t)
      (hne : r ≠ t) (hr : r ∈ c.classes) (ht : t ∈ c.classes) : Joined c a b (c.giveUp t b a)

variable {s : Setoid String} {domain : List String} {rows done rest : List (List String)}
  {c c' : Classes} {a b d e r t : String}

theorem Joined.of_join (h : c.join a b = .ok c') : Joined c a b c' := by
  rw [join] at h
  split at h
  · rename_i hab
    subst hab
    split at h
    · rename_i ha
      cases h
      exact .known ha ha
    · rename_i ha
      cases h
      exact .self ha rfl
  · rename_i hab
    split at h
    · rename_i ha hb
      cases h
      exact .neither ha hb hab
    · rename_i ha hb
      obtain ⟨_, hr, h⟩ := bind_eq_ok.1 h
      cases h
      exact .second ha hb (requireClass_eq_ok.1 hr)
    · rename_i ha hb
      obtain ⟨_, hr, h⟩ := bind_eq_ok.1 h
      cases h
      exact .first ha hb (requireClass_eq_ok.1 hr)
    · rename_i r t ha hb
      split at h
      · rename_i hrt
        subst hrt
        cases h
        exact .known ha hb
      · rename_i hrt
        obtain ⟨_, ht, h⟩ := bind_eq_ok.1 h
        obtain ⟨_, hr, h⟩ := bind_eq_ok.1 h
        cases h
        exact .both ha hb hrt (List.mem_of_mem_erase (requireClass_eq_ok.1 hr)) (requireClass_eq_ok.1 ht)

/-- As long as all representatives stand for a class, a pair of elements can be taken account of. -/
theorem exists_join (hclass : ∀ e r, Table.find? c.chosen e = some r → r ∈ c.classes) (a b : String) :
    ∃ c', c.join a b = .ok c' := by
  rw [join]
  split
  · split
    · exact ⟨_, rfl⟩
    · exact ⟨_, rfl⟩
  · split
    · exact ⟨_, rfl⟩
    · rename_i hb
      rw [(requireClass_eq_ok (u := ())).2 (hclass _ _ hb)]
      exact ⟨_, rfl⟩
    · rename_i ha _
      rw [(requireClass_eq_ok (u := ())).2 (hclass _ _ ha)]
      exact ⟨_, rfl⟩
    · rename_i r t ha hb
      split
      · exact ⟨_, rfl⟩
      · rename_i hrt
        have hr : r ∈ c.classes.erase t := (List.mem_erase_of_ne hrt).2 (hclass _ _ ha)
        rw [(requireClass_eq_ok (u := ())).2 (hclass _ _ hb), ok_bind]
        dsimp only
        rw [(requireClass_eq_ok (u := ())).2 hr]
        exact ⟨_, rfl⟩

/-! ## Classes that are as they should be -/

/-- The representatives stand for the classes, represent themselves, and are the same as what they
represent. -/
structure Sound (s : Setoid String) (domain : List String) (c : Classes) : Prop where
  chosen : ∀ e r, Table.find? c.chosen e = some r → e ∈ domain ∧ s r e ∧ r ∈ c.classes
  self : ∀ r ∈ c.classes, Table.find? c.chosen r = some r
  nodup : c.classes.Nodup

/-- Two elements have the same representative. -/
def Agree (c : Classes) (d e : String) : Prop :=
  ∃ r, Table.find? c.chosen d = some r ∧ Table.find? c.chosen e = some r

/-- If the classes of two elements meet, the first element represents its class, and the second one is
alone in its own. -/
def Absorbs (c : Classes) (a b : String) : Prop :=
  ∀ r t, Table.find? c.chosen a = some r → Table.find? c.chosen b = some t → r ≠ t →
    r = a ∧ ∀ e, Table.find? c.chosen e = some t → e = b

theorem Sound.start (h : Sound s domain c) (ha : a ∈ domain) (hnew : Table.find? c.chosen a = none) :
    Sound s domain (c.start a) where
  chosen := by
    intro e r he
    rw [Classes.start, Table.find?_put] at he
    split at he
    · rename_i hae
      cases he
      subst hae
      exact ⟨ha, s.refl a, by simp [Classes.start]⟩
    · obtain ⟨hmem, hsame, hr⟩ := h.chosen e r he
      exact ⟨hmem, hsame, List.mem_append_left _ hr⟩
  self := by
    intro r hr
    rw [Classes.start, Table.find?_put]
    split
    · rename_i har
      rw [har]
    · rename_i har
      rcases List.mem_append.1 hr with hr | hr
      · exact h.self r hr
      · exact absurd (List.mem_singleton.1 hr).symm har
  nodup := by
    refine List.nodup_append.2 ⟨h.nodup, List.pairwise_singleton _ a, fun r hr a' ha' heq => ?_⟩
    rw [List.mem_singleton.1 ha'] at heq
    rw [← heq, h.self r hr] at hnew
    cases hnew

theorem Sound.assign (h : Sound s domain c) (he : e ∈ domain) (hnew : Table.find? c.chosen e = none)
    (hr : r ∈ c.classes) (hsame : s r e) : Sound s domain (c.assign e r) where
  chosen := by
    intro d q hd
    rw [Classes.assign, Table.find?_put] at hd
    split at hd
    · rename_i hed
      cases hd
      subst hed
      exact ⟨he, hsame, hr⟩
    · exact h.chosen d q hd
  self := by
    intro q hq
    have hqself := h.self q hq
    have hne : e ≠ q := by
      rintro rfl
      rw [hqself] at hnew
      cases hnew
    rw [Classes.assign, Table.find?_put, if_neg hne, hqself]
  nodup := h.nodup

theorem Sound.giveUp (h : Sound s domain c) (hb : b ∈ domain) (hsame : s a b)
    (ha : Table.find? c.chosen a = some a) (hbt : Table.find? c.chosen b = some t) (hne : a ≠ t)
    (halone : ∀ e, Table.find? c.chosen e = some t → e = b) : Sound s domain (c.giveUp t b a) where
  chosen := by
    intro d q hd
    rw [Classes.giveUp, Table.find?_put] at hd
    split at hd
    · rename_i hbd
      cases hd
      subst hbd
      exact ⟨hb, hsame, (List.mem_erase_of_ne hne).2 (h.chosen _ _ ha).2.2⟩
    · rename_i hbd
      obtain ⟨hmem, hsame, hq⟩ := h.chosen d q hd
      have hqt : q ≠ t := by
        rintro rfl
        exact hbd (halone d hd).symm
      exact ⟨hmem, hsame, (List.mem_erase_of_ne hqt).2 hq⟩
  self := by
    intro q hq
    obtain ⟨hqt, hq⟩ := h.nodup.mem_erase_iff.1 hq
    have hbq : b ≠ q := by
      rintro rfl
      exact hqt (Option.some.inj ((h.self b hq).symm.trans hbt))
    rw [Classes.giveUp, Table.find?_put, if_neg hbq, h.self q hq]
  nodup := h.nodup.erase t

/-- Elements that agree still do so when a new element is entered. -/
theorem Agree.of_put (h : c.Agree d e) {k v : String} (hnew : Table.find? c.chosen k = none)
    (hput : c'.chosen = Table.put c.chosen k v) : c'.Agree d e := by
  have hkeep : ∀ {j r : String}, Table.find? c.chosen j = some r → Table.find? c'.chosen j = some r := by
    intro j r hj
    have hne : k ≠ j := by
      rintro rfl
      rw [hj] at hnew
      cases hnew
    rw [hput, Table.find?_put, if_neg hne, hj]
  obtain ⟨r, hd, he⟩ := h
  exact ⟨r, hkeep hd, hkeep he⟩

/-- Elements that agree still do so when one that is alone gets another representative. -/
theorem Agree.giveUp (h : c.Agree d e) (hb : Table.find? c.chosen b = some t)
    (halone : ∀ e, Table.find? c.chosen e = some t → e = b) : (c.giveUp t b a).Agree d e := by
  obtain ⟨r, hd, he⟩ := h
  by_cases hrt : r = t
  · subst hrt
    rw [halone d hd, halone e he]
    exact ⟨a, by simp [Classes.giveUp, Table.find?_put]⟩
  · have hkeep : ∀ {j : String}, Table.find? c.chosen j = some r →
        Table.find? (c.giveUp t b a).chosen j = some r := by
      intro j hj
      have hne : b ≠ j := by
        rintro rfl
        exact hrt (Option.some.inj (hj.symm.trans hb))
      rw [Classes.giveUp, Table.find?_put, if_neg hne, hj]
    exact ⟨r, hkeep hd, hkeep he⟩

/-- A pair is taken account of, and nothing goes wrong. -/
theorem Sound.join (h : Sound s domain c) (ha : a ∈ domain) (hb : b ∈ domain) (hab : s a b)
    (habsorbs : c.Absorbs a b) :
    ∃ c', c.join a b = .ok c' ∧ Sound s domain c' ∧ c'.Agree a b ∧ ∀ d e, c.Agree d e → c'.Agree d e := by
  obtain ⟨c', hjoin⟩ := exists_join (fun e r he => (h.chosen e r he).2.2) a b
  refine ⟨c', hjoin, ?_⟩
  cases Joined.of_join hjoin with
  | known hfa hfb => exact ⟨h, ⟨_, hfa, hfb⟩, fun _ _ => id⟩
  | self hfa heq =>
      subst heq
      refine ⟨h.start ha hfa, ⟨a, ?_⟩, fun _ _ hde => hde.of_put hfa rfl⟩
      simp [Classes.start, Table.find?_put]
  | neither hfa hfb hne =>
      have hfb' : Table.find? (c.start a).chosen b = none := by
        rw [Classes.start, Table.find?_put, if_neg hne, hfb]
      have hclass : a ∈ (c.start a).classes := List.mem_append_right _ List.mem_cons_self
      refine ⟨(h.start ha hfa).assign hb hfb' hclass hab, ⟨a, ?_⟩,
        fun _ _ hde => (hde.of_put hfa rfl).of_put (c := c.start a) hfb' rfl⟩
      simp [Classes.start, Classes.assign, Table.find?_put, hne.symm]
  | @second r hfa hfb hr =>
      have hsame : s r a := s.trans (h.chosen b r hfb).2.1 (s.symm hab)
      have hne : a ≠ b := by
        rintro rfl
        simp [hfa] at hfb
      refine ⟨h.assign ha hfa hr hsame, ⟨r, ?_⟩, fun _ _ hde => hde.of_put hfa rfl⟩
      simp [Classes.assign, Table.find?_put, hne, hfb]
  | @first r hfa hfb hr =>
      have hsame : s r b := s.trans (h.chosen a r hfa).2.1 hab
      have hne : b ≠ a := by
        rintro rfl
        simp [hfa] at hfb
      refine ⟨h.assign hb hfb hr hsame, ⟨r, ?_⟩, fun _ _ hde => hde.of_put hfb rfl⟩
      simp [Classes.assign, Table.find?_put, hne, hfa]
  | @both r t hfa hfb hne hr ht =>
      obtain ⟨rfl, halone⟩ := habsorbs r t hfa hfb hne
      have hba : b ≠ r := by
        rintro rfl
        exact hne (Option.some.inj (hfa.symm.trans hfb))
      refine ⟨h.giveUp hb hab hfa hfb hne halone, ⟨r, ?_⟩, fun _ _ hde => hde.giveUp hfb halone⟩
      simp [Classes.giveUp, Table.find?_put, hba, hfa]

/-! ## An element that is lost -/

/-- An element has a representative that stands for no class, although it was met itself. -/
def Astray (domain : List String) (c : Classes) : Prop :=
  ∃ e ∈ domain, ∃ r, Table.find? c.chosen e = some r ∧ r ∉ c.classes ∧ Table.find? c.chosen r ≠ none

/-- An element that was met remains so. -/
theorem find?_put_ne_none {chosen : List (String × String)} (h : Table.find? chosen d ≠ none) (e r : String) :
    Table.find? (Table.put chosen e r) d ≠ none := by
  rw [Table.find?_put]
  split
  · exact Option.some_ne_none r
  · exact h

/-- If two classes meet, the second one is given up. -/
theorem Joined.eq_giveUp (h : Joined c a b c') (ha : Table.find? c.chosen a = some r)
    (hb : Table.find? c.chosen b = some t) (hne : r ≠ t) : c' = c.giveUp t b a := by
  cases h with
  | both ha' hb' => rw [Option.some.inj (hb.symm.trans hb')]
  | known ha' hb' => exact absurd (Option.some.inj (ha.symm.trans (ha'.trans (hb'.symm.trans hb)))) hne
  | self ha' | neither ha' | second ha' => cases ha.symm.trans ha'
  | first _ hb' => cases hb.symm.trans hb'

/-- If two classes meet and the second one is not absorbed, an element is lost. -/
theorem Sound.astray_of_join (h : Sound s domain c) (hb : b ∈ domain) (hjoin : c.join a b = .ok c')
    (habsorbs : ¬ c.Absorbs a b) : Astray domain c' := by
  obtain ⟨r, t, hfa, hfb, hne, hnot⟩ : ∃ r t, Table.find? c.chosen a = some r ∧
      Table.find? c.chosen b = some t ∧ r ≠ t ∧
      (r = a → ∃ e, Table.find? c.chosen e = some t ∧ e ≠ b) := by
    simpa [Absorbs] using habsorbs
  rw [(Joined.of_join hjoin).eq_giveUp hfa hfb hne]
  by_cases hra : r = a
  · -- an element stays behind in the class that is given up
    obtain ⟨e, he, heb⟩ := hnot hra
    obtain ⟨hmem, -, ht⟩ := h.chosen e t he
    refine ⟨e, hmem, t, ?_, h.nodup.not_mem_erase, find?_put_ne_none ?_ b a⟩
    · rw [Classes.giveUp, Table.find?_put, if_neg heb.symm, he]
    · rw [h.self t ht]
      exact Option.some_ne_none t
  · -- the second element gets a representative that does not represent itself
    refine ⟨b, hb, a, by simp [Classes.giveUp, Table.find?_put], fun hmem => hra ?_, find?_put_ne_none ?_ b a⟩
    · exact Option.some.inj (hfa.symm.trans (h.self a (List.mem_of_mem_erase hmem)))
    · rw [hfa]
      exact Option.some_ne_none r

/-- An element that is lost remains so when an element is entered for the first time. -/
theorem Astray.of_put (h : Astray domain c) (hnew : Table.find? c.chosen e = none)
    (hput : c'.chosen = Table.put c.chosen e r) (hclasses : ∀ q ∈ c'.classes, q ∈ c.classes ∨ q = e) :
    Astray domain c' := by
  obtain ⟨d, hd, q, hq, hclass, hmet⟩ := h
  have hed : e ≠ d := by
    rintro rfl
    cases hnew.symm.trans hq
  refine ⟨d, hd, q, ?_, fun hmem => ?_, hput ▸ find?_put_ne_none hmet e r⟩
  · rw [hput, Table.find?_put, if_neg hed, hq]
  · rcases hclasses q hmem with hmem | rfl
    · exact hclass hmem
    · exact hmet hnew

/-- An element that is lost remains so, whatever pair follows. -/
theorem Astray.join (h : Astray domain c) (hjoin : c.join a b = .ok c') : Astray domain c' := by
  cases Joined.of_join hjoin with
  | known => exact h
  | self hfa heq => exact h.of_put hfa rfl (by simp [start])
  | neither hfa hfb hne =>
      have hfb' : Table.find? (c.start a).chosen b = none := by
        rw [start, Table.find?_put, if_neg hne, hfb]
      have hstart : Astray domain (c.start a) := h.of_put hfa rfl (by simp [start])
      exact hstart.of_put hfb' rfl fun q hq => .inl hq
  | second hfa hfb hr => exact h.of_put hfa rfl fun q hq => .inl hq
  | first hfa hfb hr => exact h.of_put hfb rfl fun q hq => .inl hq
  | @both r t hfa hfb hne hr ht =>
      obtain ⟨e, he, q, hq, hclass, hmet⟩ := h
      -- the class that is given up is one, and that of the element is none
      have hbe : b ≠ e := by
        rintro rfl
        exact hclass (Option.some.inj (hq.symm.trans hfb) ▸ ht)
      refine ⟨e, he, q, ?_, fun hmem => hclass (List.mem_of_mem_erase hmem), find?_put_ne_none hmet b a⟩
      rw [giveUp, Table.find?_put, if_neg hbe, hq]

/-! ## What all pairs do -/

/-- The pairs of elements of a domain that are the same, in some order. -/
structure Enumerates (s : Setoid String) (domain : List String) (rows : List (List String)) : Prop where
  pair : ∀ row ∈ rows, ∃ a ∈ domain, ∃ b ∈ domain, s a b ∧ row = [a, b]
  mem : ∀ a ∈ domain, ∀ b ∈ domain, s a b → [a, b] ∈ rows

/-- Every element of a domain has a representative, elements are the same exactly if theirs are equal,
and the classes are the representatives. -/
structure Settles (s : Setoid String) (domain : List String) (c : Classes) : Prop where
  chosen : ∀ e ∈ domain, ∃ r, Table.find? c.chosen e = some r
  same : ∀ d ∈ domain, ∀ e ∈ domain, (Table.find? c.chosen d = Table.find? c.chosen e ↔ s d e)
  classes : ∀ r, r ∈ c.classes ↔ ∃ e ∈ domain, Table.find? c.chosen e = some r
  nodup : c.classes.Nodup

theorem sound_empty (s : Setoid String) (domain : List String) : Sound s domain {} :=
  ⟨fun e r he => by simp at he, by simp, List.nodup_nil⟩

theorem joinAll_cons_eq_ok {row : List String} :
    c.joinAll (row :: rest) = .ok c' ↔
      ∃ a b c₁, row = [a, b] ∧ c.join a b = .ok c₁ ∧ c₁.joinAll rest = .ok c' := by
  constructor
  · intro h
    rcases row with _ | ⟨a, _ | ⟨b, _ | ⟨x, row⟩⟩⟩
    · cases h
    · cases h
    · obtain ⟨c₁, hjoin, h⟩ := bind_eq_ok.1 h
      exact ⟨a, b, c₁, rfl, hjoin, h⟩
    · cases h
  · rintro ⟨a, b, c₁, rfl, hjoin, h⟩
    rw [joinAll, hjoin, ok_bind, h]

theorem joinAll_append_eq_ok :
    c.joinAll (done ++ rest) = .ok c' ↔ ∃ c₁, c.joinAll done = .ok c₁ ∧ c₁.joinAll rest = .ok c' := by
  induction done generalizing c with
  | nil => simp [joinAll]
  | cons row done ih =>
      simp only [List.cons_append, joinAll_cons_eq_ok, ih]
      grind

theorem Astray.joinAll (h : Astray domain c) (hjoin : c.joinAll rows = .ok c') : Astray domain c' := by
  induction rows generalizing c with
  | nil =>
      cases hjoin
      exact h
  | cons row rows ih =>
      obtain ⟨a, b, c₁, -, hstep, hjoin⟩ := joinAll_cons_eq_ok.1 hjoin
      exact ih (h.join hstep) hjoin

/-- Not everything is right when an element is lost. -/
theorem Astray.not_settles (h : Astray domain c) : ¬ Settles s domain c := by
  obtain ⟨e, he, r, hr, hclass, -⟩ := h
  exact fun hsettles => hclass ((hsettles.classes r).2 ⟨e, he, hr⟩)

theorem Enumerates.of_mem (h : Enumerates s domain rows) (hab : [a, b] ∈ rows) :
    a ∈ domain ∧ b ∈ domain ∧ s a b := by
  obtain ⟨a', ha, b', hb, hsame, heq⟩ := h.pair [a, b] hab
  cases heq
  exact ⟨ha, hb, hsame⟩

/-- Everything is right as long as no element is lost. -/
theorem Sound.joinAll (h : Sound s domain c) (hrows : ∀ a b, [a, b] ∈ rows → a ∈ domain ∧ b ∈ domain ∧ s a b)
    (hjoin : c.joinAll rows = .ok c') : Sound s domain c' ∨ Astray domain c' := by
  induction rows generalizing c with
  | nil =>
      cases hjoin
      exact .inl h
  | cons row rows ih =>
      obtain ⟨a, b, c₁, rfl, hstep, hjoin⟩ := joinAll_cons_eq_ok.1 hjoin
      obtain ⟨ha, hb, hab⟩ := hrows a b List.mem_cons_self
      by_cases habsorbs : c.Absorbs a b
      · obtain ⟨c₂, hstep', h₁, -⟩ := h.join ha hb hab habsorbs
        obtain rfl : c₁ = c₂ := Except.ok.inj (hstep.symm.trans hstep')
        exact ih h₁ (fun a b hmem => hrows a b (List.mem_cons_of_mem _ hmem)) hjoin
      · exact .inr ((h.astray_of_join hb hstep habsorbs).joinAll hjoin)

/-- All pairs are taken account of, and those in them agree, if classes are absorbed whenever two of them
meet. -/
theorem Sound.exists_joinAll (hrows : Enumerates s domain rows)
    (habsorbs : ∀ done a b rest c, rows = done ++ [a, b] :: rest →
      ({} : Classes).joinAll done = .ok c → c.Absorbs a b)
    (hsplit : rows = done ++ rest) (hdone : ({} : Classes).joinAll done = .ok c) (h : Sound s domain c)
    (hagree : ∀ a b, [a, b] ∈ done → c.Agree a b) :
    ∃ c', c.joinAll rest = .ok c' ∧ Sound s domain c' ∧ ∀ a b, [a, b] ∈ rows → c'.Agree a b := by
  induction rest generalizing done c with
  | nil =>
      rw [List.append_nil] at hsplit
      exact ⟨c, rfl, h, hsplit ▸ hagree⟩
  | cons row rest ih =>
      obtain ⟨a, ha, b, hb, hab, rfl⟩ := hrows.pair row (by simp [hsplit])
      obtain ⟨c₁, hstep, h₁, hpair, hkeep⟩ := h.join ha hb hab (habsorbs done a b rest c hsplit hdone)
      have hdone₁ : ({} : Classes).joinAll (done ++ [[a, b]]) = .ok c₁ :=
        joinAll_append_eq_ok.2 ⟨c, hdone, joinAll_cons_eq_ok.2 ⟨a, b, c₁, rfl, hstep, rfl⟩⟩
      have hagree₁ : ∀ d e, [d, e] ∈ done ++ [[a, b]] → c₁.Agree d e := by
        intro d e hde
        rcases List.mem_append.1 hde with hde | hde
        · exact hkeep d e (hagree d e hde)
        · cases List.mem_singleton.1 hde
          exact hpair
      obtain ⟨c', hjoin, h', hagree'⟩ := ih (hsplit.trans (List.append_cons ..)) hdone₁ h₁ hagree₁
      exact ⟨c', joinAll_cons_eq_ok.2 ⟨a, b, c₁, rfl, hstep, hjoin⟩, h', hagree'⟩

/-- Everything is right when all pairs that are the same agree. -/
theorem Sound.settles (h : Sound s domain c) (hrows : Enumerates s domain rows)
    (hagree : ∀ a b, [a, b] ∈ rows → c.Agree a b) : Settles s domain c where
  chosen := by
    intro e he
    obtain ⟨r, hr, -⟩ := hagree e e (hrows.mem e he e he (s.refl e))
    exact ⟨r, hr⟩
  same := by
    intro d hd e he
    constructor
    · intro heq
      obtain ⟨r, hr, -⟩ := hagree d d (hrows.mem d hd d hd (s.refl d))
      exact s.trans (s.symm (h.chosen d r hr).2.1) (h.chosen e r (heq ▸ hr)).2.1
    · intro hsame
      obtain ⟨r, hdr, her⟩ := hagree d e (hrows.mem d hd e he hsame)
      rw [hdr, her]
  classes := by
    intro r
    constructor
    · intro hr
      have hself := h.self r hr
      exact ⟨r, (h.chosen r r hself).1, hself⟩
    · rintro ⟨e, -, he⟩
      exact (h.chosen e r he).2.2
  nodup := h.nodup

/-- Taking account of the pairs in some order gives every class one representative exactly if, whenever two
classes meet, the second one is absorbed. -/
theorem settles_iff (hrows : Enumerates s domain rows) :
    (∃ c, ({} : Classes).joinAll rows = .ok c ∧ Settles s domain c) ↔
      ∀ done a b rest c, rows = done ++ [a, b] :: rest → ({} : Classes).joinAll done = .ok c →
        c.Absorbs a b := by
  constructor
  · rintro ⟨c', hjoin, hsettles⟩ done a b rest c rfl hdone
    obtain ⟨c₁, hdone₁, hrest⟩ := joinAll_append_eq_ok.1 hjoin
    obtain rfl : c₁ = c := Except.ok.inj (hdone₁.symm.trans hdone)
    obtain ⟨a', b', c₂, heq, hstep, hbehind⟩ := joinAll_cons_eq_ok.1 hrest
    cases heq
    have hmem : ∀ {row : List String}, row ∈ done → row ∈ done ++ [a, b] :: rest := List.mem_append_left _
    -- an element that is lost at any time is lost in the end
    rcases (sound_empty s domain).joinAll (fun a b hab => hrows.of_mem (hmem hab)) hdone with h | h
    · by_contra habsorbs
      have hb : b ∈ domain := (hrows.of_mem (a := a) (b := b) (by simp)).2.1
      exact ((h.astray_of_join hb hstep habsorbs).joinAll hbehind).not_settles hsettles
    · exact absurd hsettles (h.joinAll hrest).not_settles
  · intro habsorbs
    obtain ⟨c, hjoin, h, hagree⟩ := (sound_empty s domain).exists_joinAll hrows habsorbs
      (List.nil_append rows).symm rfl (by simp)
    exact ⟨c, hjoin, h.settles hrows hagree⟩

/-- Two elements are the same, and a third one is not. The two have started classes of their own before
they meet, so that the first one represents its class, and the second one is alone. -/
theorem settles_iff_absorbed :
    let s : Setoid String := Setoid.ker fun e => decide (e = "c")
    let rows := [["b", "b"], ["a", "a"], ["a", "b"], ["c", "c"], ["b", "a"]]
    Enumerates s ["a", "b", "c"] rows ∧
      (∃ c, ({} : Classes).joinAll rows = .ok c ∧ Settles s ["a", "b", "c"] c) ∧
      Absorbs ⟨[("b", "b"), ("a", "a")], ["b", "a"]⟩ "a" "b" := by
  intro s rows
  have hrows : Enumerates s ["a", "b", "c"] rows := by
    constructor <;> simp only [s, Setoid.ker_def] <;> decide
  have hsettles : Settles s ["a", "b", "c"] ⟨[("b", "a"), ("a", "a"), ("c", "c")], ["a", "c"]⟩ := by
    refine ⟨by simp [Table.find?_cons], ?_, fun r => ?_, by decide⟩
    · simp only [s, Setoid.ker_def]
      decide
    · grind [Table.find?_cons]
  have hrun : ∃ c, ({} : Classes).joinAll rows = .ok c ∧ Settles s ["a", "b", "c"] c :=
    ⟨_, rfl, hsettles⟩
  exact ⟨hrows, hrun, (settles_iff hrows).1 hrun [["b", "b"], ["a", "a"]] "a" "b" _ _ rfl rfl⟩

/-- All elements are the same. Two classes of two elements meet, and an element is lost, so that the next
pair cannot be taken account of. -/
theorem settles_iff_lost :
    let rows := [["a", "c"], ["b", "d"], ["c", "d"], ["d", "b"], ["a", "a"], ["a", "b"], ["a", "d"],
      ["b", "a"], ["b", "b"], ["b", "c"], ["c", "a"], ["c", "b"], ["c", "c"], ["d", "a"], ["d", "c"],
      ["d", "d"]]
    Enumerates ⊤ ["a", "b", "c", "d"] rows ∧ rows.Nodup ∧
      ({} : Classes).joinAll rows = .error .unknownKey := by
  intro rows
  have hrows : Enumerates ⊤ ["a", "b", "c", "d"] rows := by
    constructor <;> simp only [Setoid.top_def] <;> decide
  exact ⟨hrows, by decide, by decide⟩

end FormalLogic.Predicate.Model.Classes
