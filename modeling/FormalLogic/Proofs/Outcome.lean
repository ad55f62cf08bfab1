import FormalLogic.Table
import Mathlib.Data.List.Forall2

/-!
# Runs that answer

What a successful run of an operation says about its steps. Every operation is a sequence of steps in
`Outcome`, so one inversion lemma per way of sequencing is enough to take any of them apart, and the
same lemma read from right to left puts a run together. Where it matters how a run fails, there is an
inversion lemma for that too.
-/

namespace FormalLogic

variable {α β : Type}

/-- A sequence of two steps answers exactly when the first answers and the second answers on that. -/
theorem bind_eq_ok {x : Outcome α} {f : α → Outcome β} {b : β} :
    (x >>= f) = .ok b ↔ ∃ a, x = .ok a ∧ f a = .ok b := by
  cases x with
  | error e => simp [bind, Except.bind]
  | ok a => simp [bind, Except.bind]

/-- A sequence of two steps fails exactly when the first fails, or the second fails on its answer. -/
theorem bind_eq_error {x : Outcome α} {f : α → Outcome β} {e : Failure} :
    (x >>= f) = .error e ↔ x = .error e ∨ ∃ a, x = .ok a ∧ f a = .error e := by
  cases x with
  | error e' => simp [bind, Except.bind]
  | ok a => simp [bind, Except.bind]

theorem map_eq_ok {x : Outcome α} {f : α → β} {b : β} :
    (f <$> x) = .ok b ↔ ∃ a, x = .ok a ∧ f a = b := by
  cases x with
  | error e => simp [Functor.map, Except.map]
  | ok a => simp [Functor.map, Except.map]

@[simp] theorem pure_eq_ok {a b : α} : (pure a : Outcome α) = .ok b ↔ a = b := by
  simp [pure, Except.pure]

@[simp] theorem ok_bind (a : α) (f : α → Outcome β) : ((.ok a : Outcome α) >>= f) = f a := rfl

/-- A condition lets a run go on exactly when it is met. -/
@[simp] theorem require_eq_ok {met : Bool} {c : Condition} {u : Unit} :
    require met c = .ok u ↔ met = true := by
  cases met with
  | false => simp
  | true => simp

/-- A branch whose alternative fails answers only on its condition. -/
theorem ite_error_eq_ok {P : Prop} [Decidable P] {x : Outcome α} {e : Failure} {a : α} :
    (if P then .error e else x) = .ok a ↔ ¬ P ∧ x = .ok a := by
  by_cases h : P
  · simp [h]
  · simp [h]

/-! ## Steps for every element of a list -/

/-- A step for every element answers exactly when every single one does, and the answers stand in the
same order. -/
theorem mapM_eq_ok {f : α → Outcome β} {l : List α} {bs : List β} :
    l.mapM f = .ok bs ↔ List.Forall₂ (fun a b => f a = .ok b) l bs := by
  induction l generalizing bs with
  | nil =>
      rw [List.mapM_nil, pure_eq_ok]
      exact ⟨fun h => h ▸ .nil, fun h => (List.forall₂_nil_left_iff.1 h).symm⟩
  | cons a l ih =>
      rw [List.mapM_cons, bind_eq_ok, List.forall₂_cons_left_iff]
      constructor
      · rintro ⟨b, hb, h⟩
        obtain ⟨bs', hbs', h⟩ := bind_eq_ok.1 h
        exact ⟨b, bs', hb, ih.1 hbs', (pure_eq_ok.1 h).symm⟩
      · rintro ⟨b, bs', hb, hbs', rfl⟩
        exact ⟨b, hb, bind_eq_ok.2 ⟨bs', ih.2 hbs', rfl⟩⟩

/-- Steps that answer with the value of a function answer together with all the values. -/
theorem mapM_eq_ok_map {f : α → Outcome β} {g : α → β} {l : List α} (h : ∀ a ∈ l, f a = .ok (g a)) :
    l.mapM f = .ok (l.map g) :=
  mapM_eq_ok.2 (List.forall₂_map_right_iff.2 (List.forall₂_same.2 h))

/-- Steps for all elements answer together exactly when every single one does. -/
theorem exists_mapM_eq_ok {f : α → Outcome β} {l : List α} :
    (∃ bs, l.mapM f = .ok bs) ↔ ∀ a ∈ l, ∃ b, f a = .ok b := by
  induction l with
  | nil => simp [pure, Except.pure]
  | cons a l ih =>
      rw [List.forall_mem_cons, ← ih]
      simp only [mapM_eq_ok, List.forall₂_cons_left_iff]
      constructor
      · rintro ⟨_, b, bs, hb, hbs, -⟩
        exact ⟨⟨b, hb⟩, bs, hbs⟩
      · rintro ⟨⟨b, hb⟩, bs, hbs⟩
        exact ⟨_, b, bs, hb, hbs, rfl⟩

/-- Steps for all elements fail together only as one of the single ones does. -/
theorem exists_eq_error_of_mapM {f : α → Outcome β} {l : List α} {e : Failure}
    (h : l.mapM f = .error e) : ∃ a ∈ l, f a = .error e := by
  induction l with
  | nil => cases h
  | cons a l ih =>
      rw [List.mapM_cons, bind_eq_error] at h
      rcases h with h | ⟨b, -, h⟩
      · exact ⟨a, List.mem_cons_self, h⟩
      · rcases bind_eq_error.1 h with h | ⟨bs, -, h⟩
        · obtain ⟨a', ha', he⟩ := ih h
          exact ⟨a', List.mem_cons_of_mem a ha', he⟩
        · cases h

/-- Steps that answer on a condition, with the value of a function, answer together exactly when all
elements meet the condition. -/
theorem mapM_eq_ok_iff_map {f : α → Outcome β} {P : α → Prop} {g : α → β} {l : List α} {bs : List β}
    (h : ∀ a ∈ l, ∀ b, f a = .ok b ↔ P a ∧ b = g a) :
    l.mapM f = .ok bs ↔ (∀ a ∈ l, P a) ∧ bs = l.map g := by
  induction l generalizing bs with
  | nil =>
      rw [List.mapM_nil, pure_eq_ok]
      simp [eq_comm]
  | cons a l ih =>
      have ih := fun bs => @ih bs fun a' ha' => h a' (List.mem_cons_of_mem a ha')
      simp only [List.mapM_cons, bind_eq_ok, pure_eq_ok, h a List.mem_cons_self, ih,
        List.forall_mem_cons, List.map_cons]
      constructor
      · rintro ⟨b, ⟨ha, rfl⟩, bs', ⟨hl, rfl⟩, rfl⟩
        exact ⟨⟨ha, hl⟩, rfl⟩
      · rintro ⟨⟨ha, hl⟩, rfl⟩
        exact ⟨g a, ⟨ha, rfl⟩, l.map g, ⟨hl, rfl⟩, rfl⟩

/-- Every element on the right has a partner on the left. -/
theorem exists_left_of_forall₂ {R : α → β → Prop} {l : List α} {bs : List β}
    (h : List.Forall₂ R l bs) : ∀ b ∈ bs, ∃ a ∈ l, R a b := by
  induction h with
  | nil => simp
  | cons hab _ ih =>
      intro b hb
      rcases List.mem_cons.1 hb with rfl | hb
      · exact ⟨_, List.mem_cons_self, hab⟩
      · obtain ⟨a, ha, hab⟩ := ih b hb
        exact ⟨a, List.mem_cons_of_mem _ ha, hab⟩

/-- Every element on the left has a partner on the right. -/
theorem exists_right_of_forall₂ {R : α → β → Prop} {l : List α} {bs : List β}
    (h : List.Forall₂ R l bs) : ∀ a ∈ l, ∃ b ∈ bs, R a b :=
  exists_left_of_forall₂ h.flip

/-- The answers of steps for all elements are the answers of the single ones. -/
theorem mem_of_mapM_eq_ok {f : α → Outcome β} {l : List α} {bs : List β} (h : l.mapM f = .ok bs)
    {b : β} : b ∈ bs ↔ ∃ a ∈ l, f a = .ok b := by
  refine ⟨exists_left_of_forall₂ (mapM_eq_ok.1 h) b, ?_⟩
  rintro ⟨a, ha, hb⟩
  obtain ⟨b', hb', hab'⟩ := exists_right_of_forall₂ (mapM_eq_ok.1 h) a ha
  rwa [Except.ok.inj (hb.symm.trans hab')]

/-- What partners share is true of all elements on the left exactly if it is on the right. -/
theorem forall_mem_iff_of_forall₂ {R : α → β → Prop} {l : List α} {bs : List β} {p : α → Prop}
    {q : β → Prop} (h : List.Forall₂ R l bs) (hpq : ∀ a b, R a b → (p a ↔ q b)) :
    (∀ a ∈ l, p a) ↔ ∀ b ∈ bs, q b := by
  constructor
  · intro hl b hb
    obtain ⟨a, ha, hab⟩ := exists_left_of_forall₂ h b hb
    exact (hpq a b hab).1 (hl a ha)
  · intro hbs a ha
    obtain ⟨b, hb, hab⟩ := exists_right_of_forall₂ h a ha
    exact (hpq a b hab).2 (hbs b hb)

/-- A test of all elements, up to the first that fails it, is passed exactly when every single one
passes. -/
theorem allM_eq_true {p : α → Outcome Bool} {l : List α} :
    l.allM p = .ok true ↔ ∀ a ∈ l, p a = .ok true := by
  induction l with
  | nil => simp [List.allM]
  | cons a l ih =>
      rw [List.allM, bind_eq_ok, List.forall_mem_cons, ← ih]
      constructor
      · rintro ⟨b, hb, h⟩
        cases b with
        | true => exact ⟨hb, h⟩
        | false => simp at h
      · rintro ⟨ha, hl⟩
        exact ⟨true, ha, hl⟩

/-- A search for an element that passes a test, where the test answers for all of them. -/
theorem anyM_eq_ok {p : α → Outcome Bool} {q : α → Bool} {l : List α}
    (h : ∀ a ∈ l, p a = .ok (q a)) : l.anyM p = .ok (l.any q) := by
  induction l with
  | nil => rfl
  | cons a l ih =>
      obtain ⟨ha, hl⟩ := List.forall_mem_cons.1 h
      rw [List.anyM, ha, ok_bind, List.any_cons, ih hl]
      cases q a <;> rfl

/-- A check of every element passes exactly when every single one does. -/
theorem forM_eq_ok {f : α → Outcome Unit} {l : List α} {u : Unit} :
    l.forM f = .ok u ↔ ∀ a ∈ l, f a = .ok () := by
  induction l with
  | nil => simp
  | cons a l ih =>
      rw [List.forM_eq_forM, List.forM_cons, bind_eq_ok]
      constructor
      · rintro ⟨_, ha, h⟩ b hb
        rcases List.mem_cons.1 hb with rfl | hb
        · exact ha
        · exact ih.1 h b hb
      · intro h
        exact ⟨(), h a (by simp), ih.2 fun b hb => h b (List.mem_cons_of_mem a hb)⟩

/-! ## Positions -/

/-- The number of a position is the position itself, or the position less the length of the list. -/
theorem place?_eq_some {n k : Nat} {i : Int} :
    place? n i = some k ↔ k < n ∧ (i = k ∨ i = (k : Int) - n) := by
  unfold place?
  split
  · split
    · rw [Option.some.injEq]
      omega
    · simp only [reduceCtorEq, false_iff]
      omega
  · split
    · rw [Option.some.injEq]
      omega
    · simp only [reduceCtorEq, false_iff]
      omega

/-- A position that is fetched lies in the list, and its element is answered. -/
theorem fetch_eq_ok {l : List α} {i : Int} {a : α} :
    fetch l i = .ok a ↔ ∃ k, place? l.length i = some k ∧ l[k]? = some a := by
  unfold fetch
  cases hk : place? l.length i with
  | none => simp
  | some k =>
      cases ha : l[k]? with
      | none => simp [Failure.orElse, ha]
      | some b => simp [Failure.orElse, ha]

theorem mem_of_fetch {l : List α} {i : Int} {a : α} (h : fetch l i = .ok a) : a ∈ l := by
  obtain ⟨k, -, ha⟩ := fetch_eq_ok.1 h
  exact List.mem_of_getElem? ha

/-- A position denotes the same place in a list and in the list of the images. -/
theorem fetch_map {f : α → β} {l : List α} {i : Int} {a : α} (h : fetch l i = .ok a) :
    fetch (l.map f) i = .ok (f a) := by
  obtain ⟨k, hk, ha⟩ := fetch_eq_ok.1 h
  refine fetch_eq_ok.2 ⟨k, by rwa [List.length_map], ?_⟩
  rw [List.getElem?_map, ha, Option.map_some]

/-- Positions counted from the front are fetched as they stand. -/
theorem fetch_natCast_eq_ok {l : List α} {k : Nat} {a : α} :
    fetch l k = .ok a ↔ l[k]? = some a := by
  rw [fetch_eq_ok]
  constructor
  · rintro ⟨j, hj, ha⟩
    have hjk : j = k := by
      have := place?_eq_some.1 hj
      omega
    rwa [hjk] at ha
  · intro ha
    have hk : k < l.length := (List.getElem?_eq_some_iff.1 ha).1
    exact ⟨k, place?_eq_some.2 ⟨hk, .inl rfl⟩, ha⟩

/-- The position `-1` is that of the last element. -/
theorem fetch_neg_one_eq_ok {l : List α} {a : α} :
    fetch l (-1) = .ok a ↔ l.getLast? = some a := by
  rw [fetch_eq_ok, List.getLast?_eq_getElem?]
  constructor
  · rintro ⟨j, hj, ha⟩
    have hjl : j = l.length - 1 := by
      have := place?_eq_some.1 hj
      omega
    rwa [hjl] at ha
  · intro ha
    have hl : l.length - 1 < l.length := (List.getElem?_eq_some_iff.1 ha).1
    exact ⟨l.length - 1, place?_eq_some.2 ⟨hl, by omega⟩, ha⟩

end FormalLogic
