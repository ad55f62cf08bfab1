import FormalLogic.Propositional.Rule
import FormalLogic.Proofs.Outcome
import FormalLogic.Proofs.Table
import Mathlib.Data.List.Nodup

/-!
# Truth under all assignments

Going through the valuations of finitely many variables settles truth under every assignment of truth
values, because each assignment agrees with one of them on those variables (`Valuation.exists_mem_all`).
Substitution is a change of assignment (`Formula.eval_subst`), hence specializations of a sound rule are
sound.
-/

namespace FormalLogic.Propositional

/-! ## All valuations -/

namespace Valuation

theorem mem_rows (row : List Bool) : row ∈ rows row.length := by
  induction row with
  | nil => simp [rows]
  | cons b row ih =>
      simp only [List.length_cons, rows, List.mem_append, List.mem_map]
      cases b with
      | false => exact .inl ⟨row, ih, rfl⟩
      | true => exact .inr ⟨row, ih, rfl⟩

theorem length_of_mem_rows {n : Nat} {row : List Bool} (h : row ∈ rows n) : row.length = n := by
  induction n generalizing row with
  | zero => simp_all [rows]
  | succ n ih =>
      rcases List.mem_append.1 h with h | h
      · obtain ⟨rest, hrest, rfl⟩ := List.mem_map.1 h
        rw [List.length_cons, ih hrest]
      · obtain ⟨rest, hrest, rfl⟩ := List.mem_map.1 h
        rw [List.length_cons, ih hrest]

/-- No row occurs twice. -/
theorem nodup_rows (n : Nat) : (rows n).Nodup := by
  induction n with
  | zero => simp [rows]
  | succ n ih =>
      refine List.nodup_append.2 ⟨ih.map List.cons_injective, ih.map List.cons_injective, ?_⟩
      intro row hrow row' hrow'
      obtain ⟨rest, -, rfl⟩ := List.mem_map.1 hrow
      obtain ⟨rest', -, rfl⟩ := List.mem_map.1 hrow'
      simp

/-- The valuations of different variables have a row each. -/
theorem all_eq_map_zip {names : List String} (h : names.Nodup) :
    all names = (rows names.length).map names.zip := by
  refine List.map_congr_left fun row hrow => Table.ofPairs_eq_self ?_
  rwa [Table.keys, List.map_fst_zip (length_of_mem_rows hrow).ge]

/-- A valuation of the listed variables gives values to them alone. -/
theorem mem_keys_of_mem_all {names : List String} {m : Valuation} (h : m ∈ all names) {x : String} :
    x ∈ Table.keys m ↔ x ∈ names := by
  obtain ⟨row, hrow, rfl⟩ := List.mem_map.1 h
  have hkeys : Table.keys (names.zip row) = names :=
    List.map_fst_zip (length_of_mem_rows hrow).ge
  rw [← Table.find?_isSome, ← Table.hasKey, Table.ofPairs, Table.hasKey_foldl_put, hkeys]
  simp [Table.hasKey]

/-- Some valuation of the listed variables agrees with any given assignment on them. -/
theorem exists_mem_all (names : List String) (v : String → Bool) :
    ∃ m ∈ all names, ∀ x ∈ names, m.value x = v x := by
  refine ⟨Table.ofPairs (names.zip (names.map v)), ?_, ?_⟩
  · refine List.mem_map.2 ⟨names.map v, ?_, rfl⟩
    have h := mem_rows (names.map v)
    rwa [List.length_map] at h
  · intro x hx
    have hzip : names.zip (names.map v) = names.map fun x => (x, v x) := by
      rw [List.zip_map_right, List.zip_eq_zipWith, List.zipWith_self, List.map_map]
      rfl
    have hv : ∀ e ∈ names.zip (names.map v), e.2 = v e.1 := by
      rw [hzip]
      intro e he
      obtain ⟨y, -, rfl⟩ := List.mem_map.1 he
      rfl
    have hkeys : Table.keys (names.zip (names.map v)) = names := by
      rw [hzip, Table.keys, List.map_map]
      exact List.map_id names
    rw [value, Table.ofPairs, Table.find?_foldl_put hv, hkeys, if_pos hx]
    rfl

end Valuation

/-! ## Values of formulas -/

namespace Formula

/-- A formula has a value in a valuation exactly when it was given and the valuation covers it. -/
theorem evaluate_eq_ok {m : Valuation} {f : Formula} {b : Bool} :
    f.evaluate m = .ok b ↔
      f.isMissing = false ∧ subset f.vars (Table.keys m) = true ∧ f.eval m.value = b := by
  unfold evaluate given
  by_cases hf : f.isMissing = true
  · rw [if_pos hf, hf]
    simp [bind, Except.bind]
  · rw [if_neg hf, ok_bind, bind_eq_ok]
    simp [hf]

theorem evaluate_of_subset {f : Formula} {m : Valuation} (hf : f.isMissing = false)
    (hm : f.leafVariables ⊆ Table.keys m) : f.evaluate m = .ok (f.eval m.value) :=
  evaluate_eq_ok.2 ⟨hf, subset_eq_true.2 fun _ hx => hm (mem_vars.1 hx), rfl⟩

/-- A formula passes the test of all valuations exactly when it holds under every assignment. -/
theorem isTautology_iff {f : Formula} : f.isTautology = true ↔ ∀ v, f.eval v = true := by
  rw [isTautology, values, List.all_map, List.all_eq_true]
  constructor
  · intro h v
    obtain ⟨m, hm, hv⟩ := Valuation.exists_mem_all f.vars v
    rw [← eval_congr f fun x hx => hv x (mem_vars.2 hx)]
    exact h m hm
  · intro h m _
    exact h m.value

/-- Some valuation makes a formula true exactly when some assignment does. -/
theorem isSatisfiable_iff {f : Formula} : f.isSatisfiable = true ↔ ∃ v, f.eval v = true := by
  rw [isSatisfiable, values, List.any_map, List.any_eq_true]
  constructor
  · rintro ⟨m, -, hm⟩
    exact ⟨m.value, hm⟩
  · rintro ⟨v, hv⟩
    obtain ⟨m, hm, hmv⟩ := Valuation.exists_mem_all f.vars v
    refine ⟨m, hm, ?_⟩
    rw [← eval_congr f fun x hx => hmv x (mem_vars.2 hx)] at hv
    exact hv

/-- Replacing variables is evaluating them differently. -/
theorem eval_subst (σ : String → Formula) (v : String → Bool) (f : Formula) :
    (f.subst σ).eval v = f.eval fun x => (σ x).eval v := by
  induction f with
  | var x => rfl
  | const b => rfl
  | neg f ih => simp only [subst, eval, ih]
  | bin op l r ihl ihr => simp only [subst, eval, ihl, ihr]
  | missing => rfl

end Formula

/-! ## Rules -/

namespace InferenceRule

theorem holds_iff {v : String → Bool} {r : InferenceRule} :
    r.holds v = true ↔ ((∀ f ∈ r.assumptions, f.eval v = true) → r.conclusion.eval v = true) := by
  rw [holds, Bool.or_eq_true, Bool.not_eq_true', ← Bool.not_eq_true, List.all_eq_true]
  exact ⟨fun h ha => h.resolve_left (not_not_intro ha), fun h => not_or_of_imp h⟩

theorem holds_congr {v w : String → Bool} {r : InferenceRule} (h : ∀ x ∈ r.vars, v x = w x) :
    r.holds v = r.holds w := by
  cases r with
  | missing => rfl
  | rule as c =>
      have hvars : ∀ f ∈ as ++ [c], f.eval v = f.eval w := by
        intro f hf
        refine f.eval_congr fun x hx => h x ?_
        exact mem_sortedSet.2 (List.mem_flatMap.2 ⟨f, hf, hx⟩)
      rw [Bool.eq_iff_iff, holds_iff, holds_iff]
      refine imp_congr (forall₂_congr fun f hf => ?_) ?_
      · rw [hvars f (List.mem_append_left [c] hf)]
      · rw [conclusion, hvars c (by simp)]

/-- A rule passes the test of all valuations exactly when it holds under every assignment. -/
theorem isSound_iff {r : InferenceRule} : r.isSound = true ↔ ∀ v, r.holds v = true := by
  rw [isSound, List.all_eq_true]
  constructor
  · intro h v
    obtain ⟨m, hm, hv⟩ := Valuation.exists_mem_all r.vars v
    rw [← holds_congr hv]
    exact h m hm
  · intro h m _
    exact h m.value

/-- Specializing a rule is evaluating its variables differently. -/
theorem holds_subst (σ : String → Formula) (v : String → Bool) (r : InferenceRule) :
    (r.subst σ).holds v = r.holds fun x => (σ x).eval v := by
  cases r with
  | missing => rfl
  | rule as c =>
      rw [Bool.eq_iff_iff, holds_iff, holds_iff]
      simp only [subst, assumptions, conclusion, List.forall_mem_map, Formula.eval_subst]

end InferenceRule

end FormalLogic.Propositional
