import FormalLogic.Predicate.Prover
import FormalLogic.Proofs.Predicate.Instantiation
import FormalLogic.Proofs.Predicate.Refusals

/-!
# Abstracting a variable and putting a variable back

Axioms are instantiated with formulas in which the underscore stands for a variable. Putting a variable in
place of the underscore renames the variable (`Formula.subst_abstraction`), and putting the same variable
back gives back the formula, without a capture (`Formula.notMem_of_mem_insertions_single`), however
often it is bound inside. So the instances of the axioms that move quantifiers can be computed.

A formula that has the underscore already is not given back (`instantiate_abstraction_iff`).
-/

namespace FormalLogic.Predicate

/-! ## Substitutions that are done one after the other -/

namespace Term

variable {σ τ ρ : String → Option Term} {t : Term}

@[simp] theorem subst_none (t : Term) : t.subst (fun _ => none) = t := by
  induction t with
  | const c => rfl
  | var x => rfl
  | app name ts ih =>
      have hargs : ts.map (subst fun _ => none) = ts.map id := List.map_congr_left ih
      rw [subst, substAll_eq_map, hargs, List.map_id]
  | missing => rfl

/-- Two substitutions are one, if they take every name to the same term. -/
theorem subst_subst (ht : t.WellFormed)
    (hconst : ∀ c ∈ t.constantLeaves, ((σ c).getD (const c)).subst τ = (ρ c).getD (const c))
    (hvar : ∀ x ∈ t.variableLeaves, ((σ x).getD (var x)).subst τ = (ρ x).getD (var x)) :
    (t.subst σ).subst τ = t.subst ρ := by
  induction t with
  | const c => exact hconst c (by simp [constantLeaves])
  | var x => exact hvar x (by simp [variableLeaves])
  | app name ts ih =>
      simp only [constantLeaves, constantLeavesOf_eq_flatMap ht.args, List.mem_flatMap] at hconst
      simp only [variableLeaves, variableLeavesOf_eq_flatMap ht.args, List.mem_flatMap] at hvar
      have hargs : (ts.map (subst σ)).map (subst τ) = ts.map (subst ρ) := by
        rw [List.map_map]
        exact List.map_congr_left fun t htmem => ih t htmem (ht.args t htmem)
          (fun c hc => hconst c ⟨t, htmem, hc⟩) fun x hx => hvar x ⟨t, htmem, hx⟩
      simp only [subst, substAll_eq_map, hargs]
  | missing => exact ht.elim

/-- Substitutions that take every name to the same term are the same. -/
theorem subst_congr (ht : t.WellFormed)
    (hconst : ∀ c ∈ t.constantLeaves, (σ c).getD (const c) = (ρ c).getD (const c))
    (hvar : ∀ x ∈ t.variableLeaves, (σ x).getD (var x) = (ρ x).getD (var x)) :
    t.subst σ = t.subst ρ := by
  have h : (t.subst σ).subst (fun _ => none) = t.subst ρ :=
    subst_subst ht (fun c hc => by rw [subst_none, hconst c hc]) fun x hx => by
      rw [subst_none, hvar x hx]
  rwa [subst_none] at h

/-- A variable that does not occur need not be replaced. -/
theorem subst_update_none {x : String} (ht : t.WellFormed) (hx : isVariable x = true)
    (hmem : x ∉ t.variableLeaves) : t.subst (Function.update τ x none) = t.subst τ := by
  refine subst_congr ht (fun c hc => ?_) fun y hy => ?_
  · rw [Function.update_of_ne (ne_of_isConstant (ht.isConstant c hc) hx)]
  · rw [Function.update_of_ne (ne_of_mem_of_not_mem hy hmem)]

/-- A term without the underscore stays as it is when the underscore is replaced. -/
theorem subst_hole_eq_self (ht : t.WellFormed) (hhole : hole ∉ t.constantLeaves) (u : Term) :
    t.subst (Table.find? [(hole, u)]) = t := by
  refine (subst_congr (ρ := fun _ => none) ht (fun c hc => ?_) fun x hx => ?_).trans (subst_none t)
  · rw [Formula.find?_single_eq_none (ne_of_mem_of_not_mem hc hhole).symm]
  · rw [Formula.find?_single_eq_none (ne_of_isConstant rfl (ht.isVariable x hx))]

/-- No underscore is left when it is replaced by a term without one. -/
theorem hole_notMem_subst {u : Term} (ht : t.WellFormed) (hu : u.WellFormed)
    (hhole : hole ∉ u.constantLeaves) : hole ∉ (t.subst (Table.find? [(hole, u)])).constantLeaves := by
  rw [mem_constantLeaves_subst ht fun _ _ => Formula.wellFormed_of_find?_single hu]
  rintro (⟨-, h⟩ | ⟨s, hs, h⟩)
  · simp at h
  · obtain ⟨name, -, hs⟩ := mem_inserted.1 hs
    obtain ⟨-, rfl⟩ := Prod.mk.inj (List.mem_singleton.1 (Table.mem_of_find?_eq_some hs))
    exact hhole h

/-- What a second substitution inserts, a single one inserts, if it does so at every name. -/
theorem mem_inserted_of_subst {s : Term} (ht : t.WellFormed)
    (hσ : ∀ name s, σ name = some s → s.WellFormed)
    (hconst : ∀ c ∈ t.constantLeaves, ∀ s ∈ ((σ c).getD (const c)).inserted τ, ρ c = some s)
    (hvar : ∀ x ∈ t.variableLeaves, ∀ s ∈ ((σ x).getD (var x)).inserted τ, ρ x = some s)
    (hs : s ∈ (t.subst σ).inserted τ) : s ∈ t.inserted ρ := by
  induction t with
  | const c =>
      have hc : c ∈ (const c).constantLeaves := by simp [constantLeaves]
      exact mem_inserted.2 ⟨c, .inl hc, hconst c hc s hs⟩
  | var x =>
      have hx : x ∈ (var x).variableLeaves := by simp [variableLeaves]
      exact mem_inserted.2 ⟨x, .inr hx, hvar x hx s hs⟩
  | app name ts ih =>
      simp only [constantLeaves, constantLeavesOf_eq_flatMap ht.args, List.mem_flatMap] at hconst
      simp only [variableLeaves, variableLeavesOf_eq_flatMap ht.args, List.mem_flatMap] at hvar
      have hwf := ht.subst hσ
      rw [subst, substAll_eq_map] at hs hwf
      obtain ⟨u, hu, hs⟩ := (mem_inserted_app hwf).1 hs
      obtain ⟨v, hv, rfl⟩ := List.mem_map.1 hu
      refine (mem_inserted_app ht).2 ⟨v, hv, ih v hv (ht.args v hv) (fun c hc => ?_) (fun x hx => ?_) hs⟩
      · exact hconst c ⟨v, hv, hc⟩
      · exact hvar x ⟨v, hv, hx⟩
  | missing => exact ht.elim

end Term

namespace Formula

variable {σ τ ρ : String → Option Term} {f : Formula}

@[simp] theorem subst_none (f : Formula) : f.subst (fun _ => none) = f := by
  induction f with
  | equal l r => rw [subst, Term.subst_none, Term.subst_none]
  | rel name ts =>
      have hargs : ts.map (Term.subst fun _ => none) = ts.map id :=
        List.map_congr_left fun t _ => Term.subst_none t
      rw [subst, hargs, List.map_id]
  | neg f ih => rw [subst, ih]
  | bin op l r ihl ihr => rw [subst, ihl, ihr]
  | quant k x f ih =>
      have hnone : Function.update (fun _ => none) x none = fun _ : String => (none : Option Term) :=
        Function.update_eq_self x _
      rw [subst, hnone, ih]
  | bare t => rw [subst, Term.subst_none]

/-- Two substitutions are one, if they take every name to the same term. A quantifier must not keep the
second one from a variable that the first one has put below it. -/
theorem subst_subst (hf : f.WellFormed)
    (hpass : ∀ y ∈ f.binders, τ y = none ∨
      ∀ name s, σ name = some s → s.WellFormed ∧ y ∉ s.variableLeaves)
    (hconst : ∀ c ∈ f.constantNames, ((σ c).getD (.const c)).subst τ = (ρ c).getD (.const c))
    (hfree : ∀ x ∈ f.freeNames, ((σ x).getD (.var x)).subst τ = (ρ x).getD (.var x)) :
    (f.subst σ).subst τ = f.subst ρ := by
  induction f generalizing σ τ ρ with
  | equal l r =>
      simp only [mem_constantNames_equal] at hconst
      simp only [mem_freeNames_equal] at hfree
      rw [subst, subst, subst,
        Term.subst_subst hf.1 (fun c hc => hconst c (.inl hc)) fun x hx => hfree x (.inl hx),
        Term.subst_subst hf.2 (fun c hc => hconst c (.inr hc)) fun x hx => hfree x (.inr hx)]
  | rel name ts =>
      simp only [mem_constantNames_rel] at hconst
      simp only [freeNames_rel hf, List.mem_flatMap] at hfree
      have hargs : (ts.map (Term.subst σ)).map (Term.subst τ) = ts.map (Term.subst ρ) := by
        rw [List.map_map]
        exact List.map_congr_left fun t ht => Term.subst_subst (hf.2 t ht)
          (fun c hc => hconst c ⟨t, ht, hc⟩) fun x hx => hfree x ⟨t, ht, hx⟩
      rw [subst, subst, subst, hargs]
  | neg f ih => rw [subst, subst, subst, ih hf hpass hconst hfree]
  | bin op l r ihl ihr =>
      simp only [binders, List.forall_mem_append] at hpass
      simp only [mem_constantNames_bin] at hconst
      simp only [freeNames_bin, List.mem_append] at hfree
      rw [subst, subst, subst,
        ihl hf.1 hpass.1 (fun c hc => hconst c (.inl hc)) fun x hx => hfree x (.inl hx),
        ihr hf.2 hpass.2 (fun c hc => hconst c (.inr hc)) fun x hx => hfree x (.inr hx)]
  | quant k x f ih =>
      obtain ⟨hx, hpass⟩ := List.forall_mem_cons.1 hpass
      -- what was put below the quantifier has nothing that it protects from the second substitution
      have hprotects : ∀ (name : String) (leaf : Term), leaf.WellFormed → x ∉ leaf.variableLeaves →
          ((σ name).getD leaf).subst (Function.update τ x none) = ((σ name).getD leaf).subst τ := by
        intro name leaf hleaf hxleaf
        rcases hx with hx | hx
        · rw [Function.update_eq_self_iff.2 hx.symm]
        · cases hs : σ name with
          | none => exact Term.subst_update_none hleaf hf.1 hxleaf
          | some s => exact Term.subst_update_none (hx name s hs).1 hf.1 (hx name s hs).2
      rw [subst, subst, subst, ih hf.2 (fun y hy => ?_) (fun c hc => ?_) fun y hy => ?_]
      · refine (hpass y hy).imp (fun hy => ?_) fun hy => forall_update_none hy x
        rw [Function.update_apply, hy, ite_self]
      · have hcconst := hf.2.isConstant c hc
        have hcx := ne_of_isConstant hcconst hf.1
        rw [Function.update_of_ne hcx, Function.update_of_ne hcx, hprotects c (.const c) hcconst List.not_mem_nil]
        exact hconst c hc
      · by_cases hyx : y = x
        · rw [hyx, Function.update_self, Function.update_self, Option.getD_none, Term.subst,
            Function.update_self, Option.getD_none]
        · have hyvar := hf.2.isVariable y (freeNames_subset_variableNames f hy)
          rw [Function.update_of_ne hyx, Function.update_of_ne hyx,
            hprotects y (.var y) hyvar (by simpa [Term.variableLeaves] using Ne.symm hyx)]
          exact hfree y (mem_freeNames_quant.2 ⟨hy, hyx⟩)
  | bare t => exact hf.elim

/-- Two substitutions by tables are one by both: the images of the first are replaced by the second. -/
theorem subst_find?_subst {m m' : Term.Images} (hf : f.WellFormed)
    (hpass : ∀ y ∈ f.binders, Table.find? m' y = none ∨
      ∀ e ∈ m, e.2.WellFormed ∧ y ∉ e.2.variableLeaves) :
    (f.subst (Table.find? m)).subst (Table.find? m') =
      f.subst (Table.find? (m.map (fun e => (e.1, e.2.subst (Table.find? m'))) ++ m')) := by
  refine subst_subst hf (fun y hy => (hpass y hy).imp_right fun h name s hs => ?_)
    (fun c _ => ?_) fun x _ => ?_
  · exact h _ (Table.mem_of_find?_eq_some hs)
  · rw [Table.find?_append, Table.find?_map]
    cases Table.find? m c <;> rfl
  · rw [Table.find?_append, Table.find?_map]
    cases Table.find? m x <;> rfl

/-- Substitutions that take every name to the same term are the same. -/
theorem subst_congr (hf : f.WellFormed)
    (hconst : ∀ c ∈ f.constantNames, (σ c).getD (.const c) = (ρ c).getD (.const c))
    (hfree : ∀ x ∈ f.freeNames, (σ x).getD (.var x) = (ρ x).getD (.var x)) : f.subst σ = f.subst ρ := by
  have h : (f.subst σ).subst (fun _ => none) = f.subst ρ :=
    subst_subst hf (fun _ _ => .inl rfl) (fun c hc => by rw [Term.subst_none, hconst c hc])
      fun x hx => by rw [Term.subst_none, hfree x hx]
  rwa [subst_none] at h

/-- Names that stand for themselves leave a formula as it is. -/
theorem subst_eq_self (hf : f.WellFormed)
    (hconst : ∀ c ∈ f.constantNames, (σ c).getD (.const c) = .const c)
    (hfree : ∀ x ∈ f.freeNames, (σ x).getD (.var x) = .var x) : f.subst σ = f :=
  (subst_congr (ρ := fun _ => none) hf hconst hfree).trans (subst_none f)

/-! ## Where terms are inserted -/

/-- Around a place only variables of the formula's own quantifiers are bound, beside those that are bound
around the formula. -/
theorem snd_subset_of_mem_insertions {i : Term × List String} {around : List String}
    (hi : i ∈ f.insertions σ around) : i.2 ⊆ f.binders ++ around := by
  induction f generalizing σ around with
  | equal l r => rw [snd_of_mem_insertions_atomic rfl hi]; exact List.Subset.refl around
  | rel name ts => rw [snd_of_mem_insertions_atomic rfl hi]; exact List.Subset.refl around
  | neg f ih => exact ih hi
  | bin op l r ihl ihr =>
      intro y hy
      rcases List.mem_append.1 hi with hi | hi
      · have := ihl hi hy
        simp only [binders, List.mem_append] at this ⊢
        tauto
      · have := ihr hi hy
        simp only [binders, List.mem_append] at this ⊢
        tauto
  | quant k x f ih =>
      intro y hy
      have := ih hi hy
      simp only [binders, List.cons_append, List.mem_cons, List.mem_append] at this ⊢
      tauto
  | bare t => exact absurd hi List.not_mem_nil

/-- What a second substitution inserts, a single one inserts at the same place, if it does so at every
name. -/
theorem mem_insertions_of_subst {i : Term × List String} {around : List String} (hf : f.WellFormed)
    (hσ : ∀ name s, σ name = some s → s.WellFormed)
    (hconst : ∀ c ∈ f.constantNames, ∀ s ∈ ((σ c).getD (.const c)).inserted τ, ρ c = some s)
    (hfree : ∀ x ∈ f.freeNames, ∀ s ∈ ((σ x).getD (.var x)).inserted τ, ρ x = some s)
    (hi : i ∈ (f.subst σ).insertions τ around) : i ∈ f.insertions ρ around := by
  induction f generalizing σ τ ρ around with
  | equal l r =>
      simp only [mem_constantNames_equal] at hconst
      simp only [mem_freeNames_equal] at hfree
      obtain ⟨s, hs, rfl⟩ := List.mem_map.1 hi
      refine List.mem_map_of_mem (List.mem_append.2 ((List.mem_append.1 hs).imp ?_ ?_))
      · exact Term.mem_inserted_of_subst hf.1 hσ (fun c hc => hconst c (.inl hc)) fun x hx =>
          hfree x (.inl hx)
      · exact Term.mem_inserted_of_subst hf.2 hσ (fun c hc => hconst c (.inr hc)) fun x hx =>
          hfree x (.inr hx)
  | rel name ts =>
      simp only [mem_constantNames_rel] at hconst
      simp only [freeNames_rel hf, List.mem_flatMap] at hfree
      obtain ⟨s, hs, rfl⟩ := List.mem_map.1 hi
      obtain ⟨u, hu, hs⟩ := List.mem_flatMap.1 hs
      obtain ⟨v, hv, rfl⟩ := List.mem_map.1 hu
      refine List.mem_map_of_mem (List.mem_flatMap.2 ⟨v, hv, ?_⟩)
      exact Term.mem_inserted_of_subst (hf.2 v hv) hσ (fun c hc => hconst c ⟨v, hv, hc⟩)
        (fun x hx => hfree x ⟨v, hv, hx⟩) hs
  | neg f ih => exact ih hf hσ hconst hfree hi
  | bin op l r ihl ihr =>
      simp only [mem_constantNames_bin] at hconst
      simp only [freeNames_bin, List.mem_append] at hfree
      refine List.mem_append.2 ((List.mem_append.1 hi).imp ?_ ?_)
      · exact ihl hf.1 hσ (fun c hc => hconst c (.inl hc)) fun x hx => hfree x (.inl hx)
      · exact ihr hf.2 hσ (fun c hc => hconst c (.inr hc)) fun x hx => hfree x (.inr hx)
  | quant k x f ih =>
      -- below the quantifier the second substitution inserts less
      have hless : ∀ {t s : Term}, s ∈ t.inserted (Function.update τ x none) → s ∈ t.inserted τ := by
        intro t s hs
        obtain ⟨name, hname, hs⟩ := Term.mem_inserted.1 hs
        exact Term.mem_inserted.2 ⟨name, hname, forall_update_none (fun _ _ h => h) x name s hs⟩
      refine ih hf.2 (forall_update_none hσ x) (fun c hc s hs => ?_) (fun y hy s hs => ?_) hi
      · have hcx := ne_of_isConstant (hf.2.isConstant c hc) hf.1
        rw [Function.update_of_ne hcx] at hs ⊢
        exact hconst c hc s (hless hs)
      · by_cases hyx : y = x
        · rw [hyx, Function.update_self, Option.getD_none] at hs
          simp [Term.mem_inserted, Term.constantLeaves, Term.variableLeaves] at hs
        · rw [Function.update_of_ne hyx] at hs ⊢
          exact hfree y (mem_freeNames_quant.2 ⟨hy, hyx⟩) s (hless hs)
  | bare t => exact hf.elim

/-! ## Abstraction -/

/-- Below a quantifier of the only variable with an image nothing has one. -/
theorem update_find?_single (x : String) (t : Term) :
    Function.update (Table.find? [(x, t)]) x none = fun _ => none := by
  funext name
  by_cases hname : name = x
  · rw [hname, Function.update_self]
  · rw [Function.update_of_ne hname, find?_single_eq_none (Ne.symm hname)]

/-- The formula with the underscore for a variable. -/
def abstraction (x : String) (f : Formula) : Formula :=
  f.subst (Table.find? [(x, .const hole)])

/-- The formula with a variable for another one. -/
def renamed (x y : String) (f : Formula) : Formula :=
  f.subst (Table.find? [(x, .var y)])

section Abstraction

variable {x : String} (hf : f.WellFormed) (hx : isVariable x = true)
include hf hx

/-- A term whose variables are not bound can be put in place of a variable. -/
theorem substitute_single_eq_ok {t : Term} (ht : t.WellFormed)
    (hbound : ∀ y ∈ t.variableLeaves, y ∉ f.binders) :
    f.substitute [(x, t)] [] = .ok (f.subst (Table.find? [(x, t)])) := by
  refine (substitute_variables_eq_ok hf (List.forall_mem_singleton.2 ⟨hx, ht⟩)).2
    ⟨fun i hi y hy hhead => ?_, rfl⟩
  rw [fst_of_mem_insertions_single hf hi] at hy
  have hmem := snd_subset_of_mem_insertions hi (List.mem_of_mem_head? hhead)
  rw [List.append_nil] at hmem
  exact hbound y hy hmem

theorem abstracted_eq_ok : Proving.abstracted x f = .ok (f.abstraction x) :=
  substitute_single_eq_ok hf hx rfl fun _ hy => nomatch hy

omit hx in
theorem abstraction_wellFormed : (f.abstraction x).WellFormed :=
  hf.subst fun _ _ h => wellFormed_of_find?_single (t := .const hole) rfl h

/-- To put a term in place of the underscore is to put it in place of the variable. -/
theorem subst_abstraction (hhole : hole ∉ f.constantNames) (t : Term) :
    (f.abstraction x).subst (Table.find? [(hole, t)]) = f.subst (Table.find? [(x, t)]) := by
  refine subst_subst hf (fun y hy => .inl ?_) (fun c hc => ?_) fun y hy => ?_
  · exact find?_single_eq_none (ne_of_isConstant rfl (hf.isVariable y (binders_subset_variableNames f hy)))
  · have hxc : x ≠ c := (ne_of_isConstant (hf.isConstant c hc) hx).symm
    have hholec : hole ≠ c := fun h => hhole (h ▸ hc)
    simp [hxc, Term.subst, hholec]
  · have hholey : hole ≠ y :=
      ne_of_isConstant rfl (hf.isVariable y (freeNames_subset_variableNames f hy))
    by_cases hxy : x = y
    · simp [hxy, Term.subst]
    · simp [hxy, Term.subst, hholey]

theorem renamed_self : f.renamed x x = f := by
  refine subst_eq_self hf (fun c hc => ?_) fun y hy => ?_
  · rw [find?_single_eq_none (ne_of_isConstant (hf.isConstant c hc) hx).symm]
    rfl
  · by_cases hxy : x = y
    · simp [hxy]
    · simp [hxy]

omit hx in
/-- A term that is put in place of the underscore is put where the variable stands. -/
theorem mem_insertions_of_abstraction (hhole : hole ∉ f.constantNames) {t : Term}
    {i : Term × List String} {around : List String}
    (hi : i ∈ (f.abstraction x).insertions (Table.find? [(hole, t)]) around) :
    i ∈ f.insertions (Table.find? [(x, t)]) around := by
  refine mem_insertions_of_subst hf
    (fun _ _ h => wellFormed_of_find?_single (t := .const hole) rfl h) (fun c hc s hs => ?_)
    (fun y hy s hs => ?_) hi
  · have hholec : hole ≠ c := (ne_of_mem_of_not_mem hc hhole).symm
    by_cases hxc : x = c
    · simpa [hxc, Term.mem_inserted, Term.constantLeaves, Term.variableLeaves] using hs
    · simp [hxc, hholec, Term.mem_inserted, Term.constantLeaves, Term.variableLeaves] at hs
  · have hholey : hole ≠ y :=
      ne_of_isConstant rfl (hf.isVariable y (freeNames_subset_variableNames f hy))
    by_cases hxy : x = y
    · simpa [hxy, Term.mem_inserted, Term.constantLeaves, Term.variableLeaves] using hs
    · simp [hxy, hholey, Term.mem_inserted, Term.constantLeaves, Term.variableLeaves] at hs

omit hx in
/-- The variable is not bound around the places where a term is put for it. -/
theorem notMem_of_mem_insertions_single {t : Term} {i : Term × List String} {around : List String}
    (haround : x ∉ around) (hi : i ∈ f.insertions (Table.find? [(x, t)]) around) : x ∉ i.2 := by
  induction f generalizing around with
  | equal l r => rwa [snd_of_mem_insertions_atomic rfl hi]
  | rel name ts => rwa [snd_of_mem_insertions_atomic rfl hi]
  | neg f ih => exact ih hf haround hi
  | bin op l r ihl ihr =>
      rcases List.mem_append.1 hi with hi | hi
      · exact ihl hf.1 haround hi
      · exact ihr hf.2 haround hi
  | quant k z f ih =>
      rw [insertions] at hi
      by_cases hzx : z = x
      · rw [hzx, update_find?_single] at hi
        obtain ⟨name, -, himage⟩ := exists_image_of_mem_insertions hf.2 hi
        cases himage
      · rw [Function.update_eq_self_iff.2 (find?_single_eq_none (Ne.symm hzx)).symm] at hi
        exact ih hf.2 (by simpa [Ne.symm hzx] using haround) hi
  | bare t => exact hf.elim

omit hx in
/-- To put a variable in place of the underscore captures nothing, if it is the one that was abstracted
or one that is not bound. -/
theorem head?_ne_of_mem_insertions_abstraction (hhole : hole ∉ f.constantNames) {y : String}
    (hy : y = x ∨ y ∉ f.binders) :
    ∀ i ∈ (f.abstraction x).insertions (Table.find? [(hole, .var y)]) [],
      ∀ z ∈ i.1.variableLeaves, i.2.head? ≠ some z := by
  intro i hi z hz hhead
  obtain ⟨name, -, himage⟩ := exists_image_of_mem_insertions (abstraction_wellFormed hf) hi
  rw [(Prod.mk.inj (List.mem_singleton.1 (Table.mem_of_find?_eq_some himage))).2] at hz
  obtain rfl := List.mem_singleton.1 hz
  have hmem : z ∈ i.2 := List.mem_of_mem_head? hhead
  rcases hy with rfl | hy
  · exact notMem_of_mem_insertions_single hf List.not_mem_nil
      (mem_insertions_of_abstraction hf hhole hi) hmem
  · have := snd_subset_of_mem_insertions hi hmem
    rw [List.append_nil, abstraction, binders_subst] at this
    exact hy this

end Abstraction

end Formula

/-! ## Instances of schemas without templates -/

/-- A formula is its own instance when nothing is replaced. -/
theorem Formula.inst_none {f : Formula} (hf : f.WellFormed) :
    f.inst (fun _ => none) (fun _ => none) = f := by
  induction f with
  | equal l r => rw [inst, Term.subst_none, Term.subst_none]
  | rel name ts =>
      have hargs : ts.map (Term.subst fun _ => none) = ts.map id :=
        List.map_congr_left fun t _ => Term.subst_none t
      rw [inst, hargs, List.map_id]
  | neg f ih => rw [inst, ih hf]
  | bin op l r ihl ihr => rw [inst, ihl hf.1, ihr hf.2]
  | quant k x f ih =>
      rw [inst, ih hf.2]
      rfl
  | bare t => exact hf.elim

theorem Formula.argumentInsertions_none (f : Formula) :
    f.argumentInsertions (fun _ => none) (fun _ => none) = [] := by
  induction f with
  | equal l r => rfl
  | rel name ts =>
      cases ts with
      | nil => rfl
      | cons t ts => cases ts <;> rfl
  | neg f ih => exact ih
  | bin op l r ihl ihr => rw [argumentInsertions, ihl, ihr, List.append_nil]
  | quant k x f ih => exact ih
  | bare t => rfl

theorem Schema.instantiate_ofFormula {f : Formula} (hf : f.WellFormed) :
    (ofFormula f).instantiate [] = .ok f := by
  have hpresent : f ≠ .missing := by
    rintro rfl
    exact hf.elim
  refine (instantiate_eq_ok (m := []) (by simp [Instances.Proper]) hf
    (by simp [Instances.relations]) hpresent).2 ⟨by simp, fun i hi => ?_, (Formula.inst_none hf).symm⟩
  have hnone : i ∈ f.argumentInsertions (fun _ => none) (fun _ => none) := hi
  rw [Formula.argumentInsertions_none] at hnone
  exact absurd hnone List.not_mem_nil

/-! ## Instances of the axioms that move quantifiers -/

theorem Instance.ofFormula_eq {f : Formula} (hf : f.WellFormed) : Instance.ofFormula f = .formula f := by
  cases f with
  | bare t => exact hf.elim
  | _ => rfl

namespace Axioms

theorem moving_wellFormed (op : Connective) (k : Quantifier) :
    (acrossNegation k).formula.WellFormed ∧ (fromLeft op k).formula.WellFormed ∧
      (fromRight op k).formula.WellFormed ∧ (congruence k).formula.WellFormed := by
  cases op <;> cases k <;> decide

theorem moving_relationNodes (op : Connective) (k : Quantifier) :
    (∀ e ∈ (acrossNegation k).formula.relationNodes, e.2 ≤ 1) ∧
      (∀ e ∈ (fromLeft op k).formula.relationNodes, e.2 ≤ 1) ∧
      (∀ e ∈ (fromRight op k).formula.relationNodes, e.2 ≤ 1) ∧
      ∀ e ∈ (congruence k).formula.relationNodes, e.2 ≤ 1 := by
  cases op <;> cases k <;> decide

section Instances

variable {k : Quantifier} {op : Connective} {x y : String} {f g : Formula} {m : Instances}
  (hm : Instances.Proper m) (hf : f.WellFormed) (hx : isVariable x = true)
  (hhole : hole ∉ f.constantNames)
include hm hf hx hhole

/-- The congruence axiom for two formulas, with the variable renamed in the second one. -/
theorem instantiate_congruence (hkeys : ∀ e ∈ m, e.1 ∈ ["Q", "R", "x", "y"])
    (hterms : Instances.terms m = [("x", .var x), ("y", .var y)])
    (hrelations : Instances.relations m = [("R", f.abstraction x), ("Q", g.abstraction x)])
    (hg : g.WellFormed) (hghole : hole ∉ g.constantNames) (hy : y = x ∨ y ∉ g.binders) :
    (congruence k).instantiate m = .ok (.imp (.equivalence f g)
      (.equivalence (.quant k x f) (.quant k y (g.renamed x y)))) := by
  have hf' : f.subst (Table.find? [(x, .var x)]) = f := Formula.renamed_self hf hx
  have hg' : g.subst (Table.find? [(x, .var x)]) = g := Formula.renamed_self hg hx
  have hfplaces := Formula.head?_ne_of_mem_insertions_abstraction hf hhole (.inl (Eq.refl x))
  have hgplaces := Formula.head?_ne_of_mem_insertions_abstraction hg hghole (.inl (Eq.refl x))
  have hyplaces := Formula.head?_ne_of_mem_insertions_abstraction hg hghole hy
  refine (Schema.instantiate_eq_ok hm (moving_wellFormed .and k).2.2.2
    (fun e he _ => (moving_relationNodes .and k).2.2.2 e he) (by simp)).2 ⟨hkeys, ?_, ?_⟩
  · simp only [hterms, hrelations, congruence, Formula.argumentInsertions, Formula.equivalence, r,
      Axioms.x, Term.subst, Table.find?_cons, String.reduceEq, if_true, if_false, Option.getD_some,
      List.forall_mem_append]
    exact ⟨⟨⟨hfplaces, hgplaces⟩, hgplaces, hfplaces⟩, ⟨hfplaces, hyplaces⟩, hyplaces, hfplaces⟩
  · simp [hterms, hrelations, congruence, Formula.inst, Formula.equivalence, r, Axioms.x, Term.subst,
      Term.text, Formula.boundName, Formula.subst_abstraction hf hx hhole,
      Formula.subst_abstraction hg hx hghole, Formula.renamed, hf', hg']

/-- The axiom that moves a quantifier out of a negation. -/
theorem instantiate_acrossNegation (hkeys : ∀ e ∈ m, e.1 ∈ ["R", "x"])
    (hterms : Instances.terms m = [("x", .var x)])
    (hrelations : Instances.relations m = [("R", f.abstraction x)]) :
    (acrossNegation k).instantiate m =
      .ok (.equivalence (.neg (.quant k x f)) (.quant k.dual x (.neg f))) := by
  have hf' : f.subst (Table.find? [(x, .var x)]) = f := Formula.renamed_self hf hx
  have hplaces := Formula.head?_ne_of_mem_insertions_abstraction hf hhole (.inl (Eq.refl x))
  refine (Schema.instantiate_eq_ok hm (moving_wellFormed .and k).1
    (fun e he _ => (moving_relationNodes .and k).1 e he) (by simp [Formula.equivalence])).2
    ⟨hkeys, ?_, ?_⟩
  · simp only [hterms, hrelations, acrossNegation, Formula.argumentInsertions, Formula.equivalence, r,
      Axioms.x, Term.subst, Table.find?_cons, if_true, Option.getD_some, List.forall_mem_append]
    exact ⟨⟨hplaces, hplaces⟩, hplaces, hplaces⟩
  · simp [hterms, hrelations, acrossNegation, Formula.inst, Formula.equivalence, r, Axioms.x,
      Term.subst, Term.text, Formula.boundName, Formula.subst_abstraction hf hx hhole, hf']

/-- The axiom that moves a quantifier out of a left operand. -/
theorem instantiate_fromLeft (hkeys : ∀ e ∈ m, e.1 ∈ ["Q", "R", "x"])
    (hterms : Instances.terms m = [("x", .var x)])
    (hrelations : Instances.relations m = [("R", f.abstraction x), ("Q", g)]) :
    (fromLeft op k).instantiate m = .ok (.equivalence (.bin op (.quant k x f) g)
      (.quant (leftQuantifier op k) x (.bin op f g))) := by
  have hf' : f.subst (Table.find? [(x, .var x)]) = f := Formula.renamed_self hf hx
  have hplaces := Formula.head?_ne_of_mem_insertions_abstraction hf hhole (.inl (Eq.refl x))
  refine (Schema.instantiate_eq_ok hm (moving_wellFormed op k).2.1
    (fun e he _ => (moving_relationNodes op k).2.1 e he) (by simp [Formula.equivalence])).2
    ⟨hkeys, ?_, ?_⟩
  · simp only [hterms, hrelations, fromLeft, Formula.argumentInsertions, Formula.equivalence, r, q,
      Axioms.x, Term.subst, Table.find?_cons, if_true, Option.getD_some, List.append_nil,
      List.forall_mem_append]
    exact ⟨⟨hplaces, hplaces⟩, hplaces, hplaces⟩
  · simp [hterms, hrelations, fromLeft, Formula.inst, Formula.equivalence, r, q, Axioms.x, Term.subst,
      Term.text, Formula.boundName, Formula.subst_abstraction hf hx hhole, hf']

/-- The axiom that moves a quantifier out of a right operand. -/
theorem instantiate_fromRight (hkeys : ∀ e ∈ m, e.1 ∈ ["Q", "R", "x"])
    (hterms : Instances.terms m = [("x", .var x)])
    (hrelations : Instances.relations m = [("R", f.abstraction x), ("Q", g)]) :
    (fromRight op k).instantiate m = .ok (.equivalence (.bin op g (.quant k x f))
      (.quant k x (.bin op g f))) := by
  have hf' : f.subst (Table.find? [(x, .var x)]) = f := Formula.renamed_self hf hx
  have hplaces := Formula.head?_ne_of_mem_insertions_abstraction hf hhole (.inl (Eq.refl x))
  refine (Schema.instantiate_eq_ok hm (moving_wellFormed op k).2.2.1
    (fun e he _ => (moving_relationNodes op k).2.2.1 e he) (by simp [Formula.equivalence])).2
    ⟨hkeys, ?_, ?_⟩
  · simp only [hterms, hrelations, fromRight, Formula.argumentInsertions, Formula.equivalence, r, q,
      Axioms.x, Term.subst, Table.find?_cons, if_true, Option.getD_some, List.nil_append,
      List.forall_mem_append]
    exact ⟨⟨hplaces, hplaces⟩, hplaces, hplaces⟩
  · simp [hterms, hrelations, fromRight, Formula.inst, Formula.equivalence, r, q, Axioms.x, Term.subst,
      Term.text, Formula.boundName, Formula.subst_abstraction hf hx hhole, hf']

end Instances

end Axioms

/-! ## Giving a formula back -/

/-- No underscore is left when it is replaced by a term without one. -/
theorem Formula.hole_notMem_constantNames_subst {f : Formula} {t : Term} (hf : f.WellFormed)
    (ht : t.WellFormed) (hhole : hole ∉ t.constantLeaves) :
    hole ∉ (f.subst (Table.find? [(hole, t)])).constantNames := by
  rw [mem_constantNames_subst hf (fun _ _ => wellFormed_of_find?_single ht) []]
  rintro (⟨-, h⟩ | ⟨i, hi, h⟩)
  · simp at h
  · rw [fst_of_mem_insertions_single hf hi] at h
    exact hhole h

namespace Schema

/-- The schema of which every formula is an instance: a relation of a variable, where both can be
replaced. -/
def anyOf : Schema :=
  ⟨.rel "R" [.var "x"], ["R", "x"]⟩

theorem make_anyOf : make (.rel "R" [.var "x"]) ["R", "x"] = .ok anyOf := by
  have hsorted : sortedSet ["R", "x"] = ["R", "x"] := sortedSet_eq (by decide) fun _ => Iff.rfl
  have hgiven : (Formula.rel "R" [.var "x"]).given = .ok (.rel "R" [.var "x"]) := rfl
  have hrelations : (Formula.rel "R" [.var "x"]).relations = [("R", 1)] := by
    rw [Formula.relations, Formula.relationNodes, sortedSignature,
      eraseDups_eq_self (List.pairwise_singleton _ _)]
    exact List.mergeSort_singleton _
  rw [make, hsorted, hgiven]
  refine bind_eq_ok.2 ⟨(), forM_eq_ok.2 fun t ht => ?_, rfl⟩
  rw [ok_bind, hrelations]
  rcases List.mem_pair.1 ht with rfl | rfl
  · decide
  · decide

/-- The instance by a formula and a variable is the formula with the variable in place of the
underscore. -/
theorem instantiate_anyOf {g : Formula} {x : String} (hg : g.WellFormed) (hx : isVariable x = true) :
    anyOf.instantiate [("R", .formula g), ("x", .text x)] =
      missingIfCaptured (Formula.reportIn "R" (g.substitute [(hole, .var x)] [])) := by
  have hrelation : isRelation "R" = true := by decide
  have hvariable : isVariable "x" = true := by decide
  have hm : Instances.Proper [("R", .formula g), ("x", .text x)] :=
    List.forall_mem_cons.2 ⟨⟨hrelation, hg⟩, List.forall_mem_singleton.2 ⟨hvariable, hx⟩⟩
  have hargument : (Term.var "x").substitute [("x", .var x)] [] = .ok (.var x) :=
    Term.substitute_nil_eq_ok (t := .var "x") hvariable (List.forall_mem_singleton.2 hx)
      (List.forall_mem_singleton.2 (Bool.or_eq_true_iff.2 (.inr hvariable)))
  rw [instantiate_eq hm, if_pos (by simp [anyOf]), instantiateWith_eq hm]
  refine congrArg missingIfCaptured (congrArg (Formula.reportIn "R") ?_)
  change (Term.var "x").substitute [("x", .var x)] [] >>= _ = _
  rw [hargument]
  rfl

end Schema

/-- A variable is abstracted and put back. The instance is the formula itself exactly if the underscore
does not occur in it. -/
theorem instantiate_abstraction_iff {f : Formula} {x : String} (hf : f.WellFormed)
    (hx : isVariable x = true) :
    ∃ g s r, f.substitute [(x, .const hole)] [] = .ok g ∧
      Schema.make (.rel "R" [.var "x"]) ["R", "x"] = .ok s ∧
      s.instantiate [("R", .formula g), ("x", .text x)] = .ok r ∧ (r = f ↔ hole ∉ f.constants) := by
  have hg : (f.abstraction x).WellFormed := Formula.abstraction_wellFormed hf
  have himage : ∀ e ∈ [(hole, Term.var x)], e.2.WellFormed := List.forall_mem_singleton.2 hx
  have hkeys : ∀ e ∈ [(hole, Term.var x)], isReplaceable e.1 = true :=
    List.forall_mem_singleton.2 (show isReplaceable hole = true by decide)
  have hinstance := Schema.instantiate_anyOf hg hx
  have habstracted : f.substitute [(x, .const hole)] [] = .ok (f.abstraction x) :=
    Formula.abstracted_eq_ok hf hx
  rw [Formula.mem_constants hf]
  cases hresult : (f.abstraction x).substitute [(hole, .var x)] [] with
  | ok r =>
      obtain ⟨-, rfl⟩ := (Formula.substitute_nil_eq_ok hg himage hkeys).1 hresult
      rw [hresult] at hinstance
      refine ⟨_, _, _, habstracted, Schema.make_anyOf, hinstance, fun h hhole => ?_, fun hhole => ?_⟩
      · -- the underscore of the formula is lost
        rw [← h] at hhole
        exact Formula.hole_notMem_constantNames_subst (t := .var x) hg hx List.not_mem_nil hhole
      · rw [Formula.subst_abstraction hf hx hhole]
        exact Formula.renamed_self hf hx
  | error e =>
      -- a variable is captured, which cannot happen without an underscore in the formula
      obtain ⟨y, rfl, -⟩ := Formula.exists_refused_of_substituteBelow hg himage
        (Term.checkSubstitution_eq_ok.2 ⟨hkeys, by simp⟩) [] (by simp) hresult
      rw [hresult] at hinstance
      refine ⟨_, _, _, habstracted, Schema.make_anyOf, hinstance, fun h => ?_, fun hhole => ?_⟩
      · rw [← h] at hf
        exact hf.elim
      · have hplaces := Formula.head?_ne_of_mem_insertions_abstraction hf hhole (.inl (Eq.refl x))
        rw [(Formula.substitute_nil_eq_ok hg himage hkeys).2 ⟨hplaces, rfl⟩] at hresult
        cases hresult

/-- The variable is free, bound inside, and below a quantifier of another variable. -/
theorem instantiate_abstraction_iff_shadowed :
    let f : Formula := .conj (.forAll "y" (.rel "R" [.app "f" [.var "x"], .var "y", .const "c"]))
      (.exist "x" (.equal (.var "x") (.const "d")))
    f.WellFormed ∧ hole ∉ f.constants ∧ ∃ g s, f.substitute [("x", .const hole)] [] = .ok g ∧
      Schema.make (.rel "R" [.var "x"]) ["R", "x"] = .ok s ∧
      s.instantiate [("R", .formula g), ("x", .text "x")] = .ok f := by
  intro f
  have hf : f.WellFormed := by decide
  have hhole : hole ∉ f.constants := by
    rw [Formula.mem_constants hf]
    decide
  obtain ⟨g, s, r, hg, hs, hr, hback⟩ := instantiate_abstraction_iff hf (x := "x") (by decide)
  rw [hback.2 hhole] at hr
  exact ⟨hf, hhole, g, s, hg, hs, hr⟩

/-- An underscore of the formula itself becomes the variable. -/
theorem instantiate_abstraction_underscore :
    let f : Formula := .rel "Q" [.const hole]
    f.WellFormed ∧ ∃ s, f.substitute [("x", .const hole)] [] = .ok f ∧
      Schema.make (.rel "R" [.var "x"]) ["R", "x"] = .ok s ∧
      s.instantiate [("R", .formula f), ("x", .text "x")] = .ok (.rel "Q" [.var "x"]) := by
  intro f
  have hf : f.WellFormed := by decide
  refine ⟨hf, Schema.anyOf, by decide, Schema.make_anyOf, ?_⟩
  rw [Schema.instantiate_anyOf hf (by decide)]
  decide

end FormalLogic.Predicate
