import FormalLogic.Proofs.Predicate.Semantics

/-!
# Truth under all assignments

A formula holds in a model if it is true whatever elements its free variables denote (`Model.Holds`). To
decide this, evaluation goes through the assignments of the free variables, of which there are finitely many.
On well-formed formulas with meanings for their names it answers, and with yes exactly if the formula holds;
the same goes for a list of formulas (`Model.isModelOf_eq_ok`).
-/

namespace FormalLogic.Predicate.Model

/-- A formula is true in a model whatever elements its free variables denote. -/
def Holds (m : Model) (f : Formula) : Prop :=
  ∀ v : String → String, (∀ x ∈ f.freeNames, v x ∈ m.domain) → f.truth m.interpretation v = true

variable {domain : List String} {a : Assignment} {xs : List String}

/-- An assignment gives elements to the listed variables. -/
theorem keys_of_mem_assignments (h : a ∈ assignments domain xs) :
    Table.keys a = xs ∧ ∀ e ∈ a, e.2 ∈ domain := by
  induction xs generalizing a with
  | nil =>
      rw [List.mem_singleton.1 h]
      exact ⟨rfl, by simp⟩
  | cons x xs ih =>
      simp only [assignments, List.mem_flatMap, List.mem_map] at h
      obtain ⟨e, he, a', ha', rfl⟩ := h
      obtain ⟨hkeys, hmem⟩ := ih ha'
      exact ⟨congrArg (x :: ·) hkeys, List.forall_mem_cons.2 ⟨he, hmem⟩⟩

/-- The elements that variables denote make up an assignment. -/
theorem map_mem_assignments {v : String → String} (h : ∀ x ∈ xs, v x ∈ domain) :
    xs.map (fun x => (x, v x)) ∈ assignments domain xs := by
  induction xs with
  | nil => exact List.mem_singleton.2 rfl
  | cons x xs ih =>
      obtain ⟨hx, hxs⟩ := List.forall_mem_cons.1 h
      simp only [assignments, List.mem_flatMap, List.mem_map]
      exact ⟨v x, hx, xs.map fun x => (x, v x), ih hxs, rfl⟩

theorem find?_map_self {v : String → String} {x : String} (hx : x ∈ xs) :
    Table.find? (xs.map fun x => (x, v x)) x = some (v x) := by
  induction xs with
  | nil => cases hx
  | cons y xs ih =>
      rw [List.map_cons, Table.find?_cons]
      by_cases hyx : y = x
      · rw [if_pos hyx, hyx]
      · rw [if_neg hyx, ih ((List.mem_cons.1 hx).resolve_left (Ne.symm hyx))]

section Going

variable {m : Model}

theorem satisfies_go_eq_ok {f : Formula} {as : List Assignment} {q : Assignment → Bool}
    (h : ∀ a ∈ as, m.evaluate f a = .ok (q a)) : satisfies.go m f as = .ok (as.all q) := by
  induction as with
  | nil => rfl
  | cons a as ih =>
      obtain ⟨ha, has⟩ := List.forall_mem_cons.1 h
      rw [satisfies.go, ha, ok_bind, ih has, List.all_cons]
      cases q a <;> rfl

theorem isModelOf_go_eq_ok {fs : List Formula} {q : Formula → Bool}
    (h : ∀ f ∈ fs, m.satisfies f = .ok (q f)) : isModelOf.go m fs = .ok (fs.all q) := by
  induction fs with
  | nil => rfl
  | cons f fs ih =>
      obtain ⟨hf, hfs⟩ := List.forall_mem_cons.1 h
      rw [isModelOf.go, hf, ok_bind, ih hfs, List.all_cons]
      cases q f <;> rfl

end Going

variable {m : Model} (hm : m.WellFormed)
include hm

/-- Going through the assignments of the free variables tells whether a formula holds. -/
theorem satisfies_eq_ok {f : Formula} (hf : f.WellFormed) (hnames : m.Interprets f) :
    ∃ b, m.satisfies f = .ok b ∧ (b = true ↔ m.Holds f) := by
  have hvalue : ∀ a ∈ assignments m.domain f.freeVariables,
      m.evaluate f a = .ok (f.truth m.interpretation (m.valuation a)) := by
    intro a ha
    obtain ⟨hkeys, hmem⟩ := keys_of_mem_assignments ha
    refine evaluate_eq_ok hm hmem hf ((checkNames_eq_ok hf).2 hnames) fun x hx => ?_
    exact Table.find?_isSome.2 (hkeys ▸ hx)
  refine ⟨_, satisfies_go_eq_ok hvalue, ?_⟩
  rw [List.all_eq_true]
  constructor
  · intro h v hv
    have hfree : ∀ x ∈ f.freeVariables, v x ∈ m.domain := fun x hx => hv x (Formula.mem_freeVariables.1 hx)
    rw [← h _ (map_mem_assignments hfree)]
    refine Formula.truth_congr hf rfl (fun _ _ => rfl) (fun _ _ => rfl) (fun _ _ => rfl) fun x hx => ?_
    rw [valuation, find?_map_self (Formula.mem_freeVariables.2 hx)]
    rfl
  · intro h a ha
    obtain ⟨hkeys, hmem⟩ := keys_of_mem_assignments ha
    refine h _ fun x hx => valuation_mem_of_hasKey hmem ?_
    exact Table.find?_isSome.2 (hkeys ▸ Formula.mem_freeVariables.2 hx)

/-- Whether a model is one of a list of formulas is answered, if their names have meanings. -/
theorem isModelOf_eq_ok {fs : List Formula} (hfs : ∀ f ∈ fs, f.WellFormed ∧ m.Interprets f) :
    ∃ b, m.isModelOf fs = .ok b ∧ (b = true ↔ ∀ f ∈ fs, m.Holds f) := by
  have hsatisfies : ∀ f ∈ fs, ∃ b, m.satisfies f = .ok b ∧ (b = true ↔ m.Holds f) := fun f hf =>
    satisfies_eq_ok hm (hfs f hf).1 (hfs f hf).2
  choose! q hq using hsatisfies
  have hcheck : fs.forM m.checkNames = .ok () :=
    forM_eq_ok.2 fun f hf => (checkNames_eq_ok (hfs f hf).1).2 (hfs f hf).2
  refine ⟨fs.all q, ?_, ?_⟩
  · rw [isModelOf, hcheck, ok_bind]
    exact isModelOf_go_eq_ok fun f hf => (hq f hf).1
  · rw [List.all_eq_true]
    exact forall₂_congr fun f hf => (hq f hf).2

/-- A model is one of a list of formulas if their names have meanings and they hold. -/
theorem isModelOf_eq_true {fs : List Formula} (hfs : ∀ f ∈ fs, f.WellFormed) :
    m.isModelOf fs = .ok true ↔ ∀ f ∈ fs, m.Interprets f ∧ m.Holds f := by
  constructor
  · intro h
    obtain ⟨_, hcheck, -⟩ := bind_eq_ok.1 h
    have hnames : ∀ f ∈ fs, m.Interprets f := fun f hf =>
      (checkNames_eq_ok (hfs f hf)).1 (forM_eq_ok.1 hcheck f hf)
    obtain ⟨b, hb, hholds⟩ := isModelOf_eq_ok hm fun f hf => ⟨hfs f hf, hnames f hf⟩
    have htrue : b = true := Except.ok.inj (hb.symm.trans h)
    exact fun f hf => ⟨hnames f hf, hholds.1 htrue f hf⟩
  · intro h
    obtain ⟨b, hb, hholds⟩ := isModelOf_eq_ok hm fun f hf => ⟨hfs f hf, (h f hf).1⟩
    rw [hb, hholds.2 fun f hf => (h f hf).2]

omit hm

/-- Whether a sentence holds does not depend on what variables denote. -/
theorem holds_iff_of_sentence {f : Formula} (hf : f.WellFormed) (hsentence : f.freeNames = [])
    (v : String → String) : m.Holds f ↔ f.truth m.interpretation v = true := by
  constructor
  · exact fun h => h v (by simp [hsentence])
  · intro h w _
    rw [← h]
    exact Formula.truth_congr hf rfl (fun _ _ => rfl) (fun _ _ => rfl) (fun _ _ => rfl)
      (by simp [hsentence])

end FormalLogic.Predicate.Model
