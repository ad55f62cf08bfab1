import FormalLogic.Proofs.Predicate.DerivedSteps
import FormalLogic.Proofs.Predicate.Prenex.Renaming
import FormalLogic.Proofs.Predicate.QuantifierBlocks
import Mathlib

/-!
# Terms for free variables

Terms are put in place of free variables at once, but a prover can put in only one after the other. So the
variables are first renamed to fresh ones, each of which is bound, and then the quantifiers are taken off
again from the outermost one, with the terms for their variables.

After some of these steps the line has fresh variables in place of those that wait, which are bound in front
of it, and terms in place of those that are done (`Replacement.pending`). One step makes a variable wait
(`Replacement.Suit.forAll_renamed_pending`), another one gets it done (`Replacement.Suit.substitute_pending`).
What the terms have in common with the replaced variables does not matter, because no term is put into another
one.
-/

namespace FormalLogic.Predicate

/-! ## Blocks of quantifiers -/

namespace Formula

variable {σ : String → Option Term} {f : Formula} {xs : List String}

theorem subst_forAllOf (hσ : ∀ x ∈ xs, σ x = none) :
    (forAllOf xs f).subst σ = forAllOf xs (f.subst σ) := by
  induction xs generalizing f with
  | nil => rfl
  | cons x xs ih =>
      obtain ⟨hx, hσ⟩ := List.forall_mem_cons.1 hσ
      have hstays : Function.update σ x none = σ := Function.update_eq_self_iff.2 hx.symm
      exact (ih hσ).trans (congrArg (fun τ => forAllOf xs (forAll x (f.subst τ))) hstays)

/-- Around the places behind the quantifiers their variables are bound, the outermost one last. -/
theorem insertions_forAllOf (hσ : ∀ x ∈ xs, σ x = none) (around : List String) :
    (forAllOf xs f).insertions σ around = f.insertions σ (xs ++ around) := by
  induction xs generalizing f with
  | nil => rfl
  | cons x xs ih =>
      obtain ⟨hx, hσ⟩ := List.forall_mem_cons.1 hσ
      have hstays : Function.update σ x none = σ := Function.update_eq_self_iff.2 hx.symm
      exact (ih hσ).trans (congrArg (fun τ => f.insertions τ (x :: (xs ++ around))) hstays)

/-- What is bound further out is bound around all places. -/
theorem insertions_append (σ : String → Option Term) (f : Formula) (inner outer : List String) :
    f.insertions σ (inner ++ outer) = (f.insertions σ inner).map fun i => (i.1, i.2 ++ outer) := by
  induction f generalizing σ inner with
  | equal l r => simp [insertions, Function.comp_def]
  | rel name ts => simp [insertions, Function.comp_def]
  | neg f ih => exact ih σ inner
  | bin op l r ihl ihr => simp only [insertions, ihl, ihr, List.map_append]
  | quant k x f ih => exact ih _ (x :: inner)
  | bare t => rfl

end Formula

/-! ## Plain terms -/

/-- A well-formed and legible term that has neither the underscore nor a variable of the supply. -/
structure Term.Plain (t : Term) : Prop where
  wellFormed : t.WellFormed
  legible : t.Legible
  hole_notMem : hole ∉ t.constants
  head?_ne : ∀ x ∈ t.vars, x.toList.head? ≠ some 'z'

theorem Term.Plain.ne_name {t : Term} (ht : t.Plain) {x : String} (hx : x ∈ t.variableLeaves) (n : Nat) :
    x ≠ FreshNames.name "z" n := by
  rintro rfl
  exact ht.head?_ne _ (mem_vars.2 hx) (head?_name n)

theorem Formula.Plain.ne_name {f : Formula} (hf : f.Plain) {x : String} (hx : x ∈ f.variableNames)
    (n : Nat) : x ≠ FreshNames.name "z" n := by
  rintro rfl
  exact hf.head?_ne _ hx (head?_name n)

/-- Variables of the supply can be read back. -/
theorem Term.legible_name (n : Nat) : (Term.var (FreshNames.name "z" n)).Legible := by
  refine List.forall_mem_singleton.2 (.inr (List.all_eq_true.2 fun c hc => ?_))
  rw [FreshNames.toList_name] at hc
  rcases List.mem_append.1 hc with hc | hc
  · rw [List.mem_singleton.1 hc]
    decide
  · rw [Text.isNameChar, Text.isDigit_of_isDigit (Nat.isDigit_of_mem_toDigits (by decide) (by decide) hc),
      Bool.or_true]

/-! ## Replacements -/

/-- A variable, the fresh variable that it is renamed to, and the term that is put in its place. -/
structure Replacement where
  name : String
  fresh : String
  term : Term

namespace Replacement

/-- What stands in place of variables: a fresh variable for one that waits, the term for one that is
done. -/
def images (waiting done : List Replacement) : Term.Images :=
  waiting.map (fun r => (r.name, .var r.fresh)) ++ done.map fun r => (r.name, r.term)

/-- The formula with what stands in place of variables, behind quantifiers of the fresh ones. -/
def pending (f : Formula) (waiting done : List Replacement) : Formula :=
  .forAllOf (waiting.map fresh) (f.subst (Table.find? (images waiting done)))

/-- Plain terms are put in place of different free variables of a formula, by way of variables that were
drawn for them. -/
structure Suit (s : FreshNames) (f : Formula) (rs : List Replacement) (s' : FreshNames) : Prop where
  nodup : (rs.map name).Nodup
  free : ∀ r ∈ rs, r.name ∈ f.freeNames
  plain : ∀ r ∈ rs, r.term.Plain
  drawn : s.Drawn s' (rs.map fresh)

section Suit

variable {f : Formula} {rs waiting done : List Replacement} {r : Replacement} {s s' : FreshNames}

theorem Suit.exists_name (h : Suit s f rs s') (hr : r ∈ rs) :
    ∃ n, r.fresh = FreshNames.name "z" n := by
  obtain ⟨n, -, -, hn⟩ := h.drawn.between _ (List.mem_map_of_mem hr)
  exact ⟨n, hn⟩

theorem Suit.isVariable_fresh (h : Suit s f rs s') (hr : r ∈ rs) : isVariable r.fresh = true := by
  obtain ⟨n, hn⟩ := h.exists_name hr
  rw [hn]
  exact isVariable_name n

/-- Fresh variables do not occur in the formula. -/
theorem Suit.fresh_ne (h : Suit s f rs s') (hf : f.Plain) (hr : r ∈ rs) {x : String}
    (hx : x ∈ f.variableNames) : r.fresh ≠ x := by
  obtain ⟨n, hn⟩ := h.exists_name hr
  rw [hn]
  exact (hf.ne_name hx n).symm

/-- What stands in place of variables is well-formed and has no underscore. -/
theorem Suit.image (h : Suit s f (waiting ++ done) s') (e : String × Term)
    (he : e ∈ images waiting done) : e.2.WellFormed ∧ hole ∉ e.2.constantLeaves := by
  rcases List.mem_append.1 he with he | he
  · obtain ⟨r, hr, rfl⟩ := List.mem_map.1 he
    exact ⟨h.isVariable_fresh (List.mem_append_left _ hr), List.not_mem_nil⟩
  · obtain ⟨r, hr, rfl⟩ := List.mem_map.1 he
    have hplain := h.plain r (List.mem_append_right _ hr)
    exact ⟨hplain.wellFormed, fun hmem => hplain.hole_notMem (Term.mem_constants.2 hmem)⟩

theorem Suit.wellFormed_of_find? (h : Suit s f (waiting ++ done) s') (name : String) (t : Term)
    (ht : Table.find? (images waiting done) name = some t) : t.WellFormed :=
  (h.image _ (Table.mem_of_find?_eq_some ht)).1

theorem Suit.wellFormed_pending (h : Suit s f (waiting ++ done) s') (hf : f.Plain) :
    (pending f waiting done).WellFormed := by
  refine Formula.forAllOf_wellFormed (List.forall_mem_map.2 fun r hr => ?_)
    (hf.wellFormed.subst h.wellFormed_of_find?)
  exact h.isVariable_fresh (List.mem_append_left _ hr)

theorem Suit.hole_notMem_pending (h : Suit s f (waiting ++ done) s') (hf : f.Plain) :
    hole ∉ (pending f waiting done).constantNames := by
  rw [pending, Formula.constantNames, Formula.terms_forAllOf, ← Formula.constantNames,
    Formula.mem_constantNames_subst hf.wellFormed h.wellFormed_of_find? []]
  rintro (⟨hmem, -⟩ | ⟨i, hi, hmem⟩)
  · exact hf.hole_notMem hmem
  · obtain ⟨name, -, himage⟩ := Formula.exists_image_of_mem_insertions hf.wellFormed hi
    exact (h.image _ (Table.mem_of_find?_eq_some himage)).2 hmem

end Suit

/-! ### A variable begins to wait -/

section Waiting

variable {f : Formula} {waiting : List Replacement} {r : Replacement} {s s' : FreshNames}
  (h : Suit s f (waiting ++ [r]) s') (hf : f.Plain)
include h hf

theorem Suit.fresh_notMem_binders : r.fresh ∉ (pending f waiting []).binders := by
  rw [pending, Formula.binders_forAllOf, Formula.binders_subst, List.mem_append, List.mem_reverse]
  rintro (hmem | hmem)
  · have hnodup := h.drawn.nodup
    rw [List.map_append, List.nodup_append] at hnodup
    exact hnodup.2.2 _ hmem _ (List.mem_singleton.2 rfl) rfl
  · exact h.fresh_ne hf (List.mem_append_right _ (List.mem_singleton.2 rfl))
      (Formula.binders_subset_variableNames f hmem) rfl

/-- A variable that is renamed to a fresh one, which is bound, waits with those before it. -/
theorem Suit.forAll_renamed_pending :
    .forAll r.fresh ((pending f waiting []).renamed r.name r.fresh) = pending f (waiting ++ [r]) [] := by
  have hfree := h.free r (List.mem_append_right _ (List.mem_singleton.2 rfl))
  have hne : ∀ r' ∈ waiting, r.name ≠ r'.fresh := fun r' hr' =>
    (h.fresh_ne hf (List.mem_append_left _ hr') (Formula.freeNames_subset_variableNames f hfree)).symm
  have himages : (images waiting []).map (fun e =>
      (e.1, e.2.subst (Table.find? [(r.name, .var r.fresh)]))) ++ [(r.name, .var r.fresh)] =
        images (waiting ++ [r]) [] := by
    simp only [images, List.map_nil, List.append_nil, List.map_map, List.map_append, List.map_singleton]
    refine congrArg (· ++ [(r.name, Term.var r.fresh)]) (List.map_congr_left fun r' hr' => ?_)
    simp [Term.subst, hne r' hr']
  rw [pending, pending, List.map_append, List.map_singleton, Formula.forAllOf_concat, Formula.renamed,
    Formula.subst_forAllOf, Formula.subst_find?_subst hf.wellFormed, himages]
  · -- no fresh variable is bound in the formula
    refine fun y hy => .inr fun e he => ?_
    rw [images, List.map_nil, List.append_nil] at he
    obtain ⟨r', hr', rfl⟩ := List.mem_map.1 he
    have hr' := List.mem_append_left [r] hr'
    refine ⟨h.isVariable_fresh hr', fun hmem => ?_⟩
    exact h.fresh_ne hf hr' (Formula.binders_subset_variableNames f hy) (List.mem_singleton.1 hmem).symm
  · exact List.forall_mem_map.2 fun r' hr' => Formula.find?_single_eq_none (hne r' hr')

end Waiting

/-! ### A variable that waits is done -/

section Done

variable {f : Formula} {waiting done : List Replacement} {r : Replacement} {s s' : FreshNames}

theorem pending_concat : pending f (waiting ++ [r]) done =
    .forAll r.fresh (.forAllOf (waiting.map fresh) (f.subst (Table.find? (images (waiting ++ [r]) done)))) := by
  rw [pending, List.map_append, List.map_singleton, Formula.forAllOf_concat]

variable (h : Suit s f (waiting ++ r :: done) s') (hf : f.Plain)
include h

theorem Suit.fresh_ne_of_mem {r' : Replacement} (hr' : r' ∈ waiting) : r.fresh ≠ r'.fresh := by
  have hnodup := h.drawn.nodup
  rw [List.map_append, List.nodup_append] at hnodup
  exact (hnodup.2.2 _ (List.mem_map_of_mem hr') _ List.mem_cons_self).symm

theorem Suit.fresh_notMem_term {r' : Replacement} (hr' : r' ∈ done) :
    r.fresh ∉ r'.term.variableLeaves := by
  obtain ⟨n, hn⟩ := h.exists_name (List.mem_append_right _ List.mem_cons_self)
  have hplain := h.plain r' (List.mem_append_right _ (List.mem_cons_of_mem _ hr'))
  exact fun hmem => hplain.ne_name hmem n hn

/-- The term is put in place of the fresh variable and nowhere else. -/
theorem Suit.map_images :
    (images (waiting ++ [r]) done).map (fun e => (e.1, e.2.subst (Table.find? [(r.fresh, r.term)]))) =
      images waiting (r :: done) := by
  have hfresh := h.isVariable_fresh (List.mem_append_right _ List.mem_cons_self)
  simp only [images, List.map_append, List.map_map, List.map_cons, List.map_nil, List.append_assoc,
    List.singleton_append]
  refine congrArg₂ _ (List.map_congr_left fun r' hr' => ?_) (congrArg₂ _ ?_ (List.map_congr_left
    fun r' hr' => ?_))
  · simp [Term.subst, h.fresh_ne_of_mem hr']
  · simp [Term.subst]
  · have hwf := (h.plain r' (List.mem_append_right _ (List.mem_cons_of_mem _ hr'))).wellFormed
    have hstays : r'.term.subst (Table.find? [(r.fresh, r.term)]) = r'.term := by
      refine (Term.subst_congr (ρ := fun _ => none) hwf (fun c hc => ?_) fun x hx => ?_).trans
        (Term.subst_none _)
      · rw [Formula.find?_single_eq_none (ne_of_isConstant (hwf.isConstant c hc) hfresh).symm]
      · rw [Formula.find?_single_eq_none (ne_of_mem_of_not_mem hx (h.fresh_notMem_term hr')).symm]
    exact congrArg (r'.name, ·) hstays

/-- Only the variable itself has its fresh variable in its place. -/
theorem Suit.name_of_fresh_mem {e : String × Term} (he : e ∈ images (waiting ++ [r]) done)
    (hmem : r.fresh ∈ e.2.constantLeaves ∨ r.fresh ∈ e.2.variableLeaves) : e.1 = r.name := by
  have hfresh := h.isVariable_fresh (List.mem_append_right _ List.mem_cons_self)
  rcases List.mem_append.1 he with he | he
  · obtain ⟨r', hr', rfl⟩ := List.mem_map.1 he
    rcases List.mem_append.1 hr' with hr' | hr'
    · rcases hmem with hmem | hmem
      · exact absurd hmem List.not_mem_nil
      · exact absurd (List.mem_singleton.1 hmem) (h.fresh_ne_of_mem hr')
    · rw [List.mem_singleton.1 hr']
  · obtain ⟨r', hr', rfl⟩ := List.mem_map.1 he
    have hwf := (h.plain r' (List.mem_append_right _ (List.mem_cons_of_mem _ hr'))).wellFormed
    rcases hmem with hmem | hmem
    · exact absurd rfl (ne_of_isConstant (hwf.isConstant _ hmem) hfresh)
    · exact absurd hmem (h.fresh_notMem_term hr')

/-- What is put in place of the fresh variable is what all terms at once put in place of the variable. -/
theorem Suit.image_of_inserted {m : Term.Images} (hm : Table.find? m r.name = some r.term)
    {name : String} {leaf : Term} (hconst : r.fresh ∉ leaf.constantLeaves)
    (hvar : r.fresh ∉ leaf.variableLeaves) :
    ∀ u ∈ ((Table.find? (images (waiting ++ [r]) done) name).getD leaf).inserted
      (Table.find? [(r.fresh, r.term)]), Table.find? m name = some u := by
  intro u hu
  obtain ⟨x, hx, hu⟩ := Term.mem_inserted.1 hu
  obtain ⟨rfl, rfl⟩ := Prod.mk.inj (List.mem_singleton.1 (Table.mem_of_find?_eq_some hu))
  cases himage : Table.find? (images (waiting ++ [r]) done) name with
  | none =>
      rw [himage] at hx
      exact absurd hx (not_or.2 ⟨hconst, hvar⟩)
  | some t =>
      rw [himage] at hx
      rw [← hm, ← h.name_of_fresh_mem (Table.mem_of_find?_eq_some himage) hx]

include hf

theorem Suit.subst_pending :
    (Formula.forAllOf (waiting.map fresh) (f.subst (Table.find? (images (waiting ++ [r]) done)))).subst
      (Table.find? [(r.fresh, r.term)]) = pending f waiting (r :: done) := by
  have hr : r ∈ waiting ++ r :: done := List.mem_append_right _ List.mem_cons_self
  rw [Formula.subst_forAllOf, Formula.subst_find?_subst hf.wellFormed, h.map_images, pending]
  · refine congrArg _ (Formula.subst_congr hf.wellFormed (fun c hc => ?_) fun x hx => ?_)
    · have hne := ne_of_isConstant (hf.wellFormed.isConstant c hc) (h.isVariable_fresh hr)
      rw [Table.find?_append, Formula.find?_single_eq_none hne.symm, Option.or_none]
    · have hne := h.fresh_ne hf hr (Formula.freeNames_subset_variableNames f hx)
      rw [Table.find?_append, Formula.find?_single_eq_none hne, Option.or_none]
  · exact fun y hy => .inl (Formula.find?_single_eq_none
      (h.fresh_ne hf hr (Formula.binders_subset_variableNames f hy)))
  · exact List.forall_mem_map.2 fun r' hr' => Formula.find?_single_eq_none (h.fresh_ne_of_mem hr')

variable {m : Term.Images} (hm : Table.find? m r.name = some r.term)
include hm

/-- The term is put where all terms at once would put it, below the quantifiers that are left. -/
theorem Suit.exists_insertion {i : Term × List String}
    (hi : i ∈ (Formula.forAllOf (waiting.map fresh)
      (f.subst (Table.find? (images (waiting ++ [r]) done)))).insertions
        (Table.find? [(r.fresh, r.term)]) []) :
    i.1 = r.term ∧ ∃ own, (r.term, own) ∈ f.insertions (Table.find? m) [] ∧
      i.2 = own ++ waiting.map fresh := by
  have hr : r ∈ waiting ++ r :: done := List.mem_append_right _ List.mem_cons_self
  have hsuit : Suit s f ((waiting ++ [r]) ++ done) s' := by
    rwa [List.append_assoc, List.singleton_append]
  rw [Formula.insertions_forAllOf fun x hx => ?_, List.append_nil] at hi
  · have hterm : i.1 = r.term := Formula.fst_of_mem_insertions_single
      (hf.wellFormed.subst hsuit.wellFormed_of_find?) hi
    have hplace : i ∈ f.insertions (Table.find? m) ([] ++ waiting.map fresh) := by
      refine Formula.mem_insertions_of_subst hf.wellFormed hsuit.wellFormed_of_find? (fun c hc => ?_)
        (fun x hx => ?_) hi
      · have hne := ne_of_isConstant (hf.wellFormed.isConstant c hc) (h.isVariable_fresh hr)
        exact h.image_of_inserted hm (by simpa [Term.constantLeaves] using hne.symm) List.not_mem_nil
      · have hne := h.fresh_ne hf hr (Formula.freeNames_subset_variableNames f hx)
        exact h.image_of_inserted hm List.not_mem_nil (by simpa [Term.variableLeaves] using hne)
    rw [Formula.insertions_append] at hplace
    obtain ⟨⟨t, own⟩, hown, rfl⟩ := List.mem_map.1 hplace
    obtain rfl : t = r.term := hterm
    exact ⟨rfl, own, hown, rfl⟩
  · obtain ⟨r', hr', rfl⟩ := List.mem_map.1 hx
    exact Formula.find?_single_eq_none (h.fresh_ne_of_mem hr')

/-- The quantifier of a fresh variable is taken off with the term for the variable, if all terms can be put
in at once. -/
theorem Suit.substitute_pending
    (hplaces : ∀ i ∈ f.insertions (Table.find? m) [], ∀ x ∈ i.1.variableLeaves, i.2.head? ≠ some x) :
    (Formula.forAllOf (waiting.map fresh) (f.subst (Table.find? (images (waiting ++ [r]) done)))).substitute
      [(r.fresh, r.term)] [] = .ok (pending f waiting (r :: done)) := by
  have hr : r ∈ waiting ++ r :: done := List.mem_append_right _ List.mem_cons_self
  have hsuit : Suit s f ((waiting ++ [r]) ++ done) s' := by
    rwa [List.append_assoc, List.singleton_append]
  have hwf := hsuit.wellFormed_pending hf
  rw [pending_concat] at hwf
  have himage : ∀ e ∈ [(r.fresh, r.term)], isVariable e.1 = true ∧ e.2.WellFormed :=
    List.forall_mem_singleton.2 ⟨h.isVariable_fresh hr, (h.plain r hr).wellFormed⟩
  rw [Formula.substitute_variables_eq_ok hwf.2 himage, h.subst_pending hf]
  refine ⟨fun i hi x hx => ?_, rfl⟩
  obtain ⟨hterm, own, hown, htail⟩ := h.exists_insertion hf hm hi
  rw [hterm] at hx
  rw [htail]
  cases own with
  | cons y own => exact hplaces _ hown x hx
  | nil =>
      -- the place is below no quantifier of the formula, and terms have no fresh variables
      intro hhead
      obtain ⟨r', hr', rfl⟩ := List.mem_map.1 (List.mem_of_mem_head? hhead)
      obtain ⟨n, hn⟩ := h.exists_name (List.mem_append_left _ hr')
      exact (h.plain r hr).ne_name hx n hn

end Done

end Replacement

/-! ## Runs -/

namespace Proving

open Replacement

variable {p : Prover} {s s₀ s₁ : FreshNames} {i : Int} {f g : Formula} {waiting done : List Replacement}

/-- A free variable of a line is renamed to the next fresh variable, which is bound. -/
theorem ensures_freshlyBound (hp : p.Based) (hg : g.WellFormed) (hhole : hole ∉ g.constantNames)
    {x z : String} (hx : isVariable x = true) (hz : z = FreshNames.name "z" (s.variablesDrawn + 1))
    (hbound : z ∉ g.binders) (hi : p.Shows i g) :
    Ensures True p s (freshlyBound i g x) fun r p' s' =>
      s' = { s with variablesDrawn := s.variablesDrawn + 1 } ∧ r.2 = .forAll z (g.renamed x z) ∧
        p'.Shows r.1 r.2 := by
  have hzvar : isVariable z = true := hz ▸ isVariable_name _
  have hrenamed : g.substitute [(x, .var z)] [] = .ok (g.renamed x z) :=
    Formula.substitute_single_eq_ok hg hx hzvar fun y hy => List.mem_singleton.1 hy ▸ hbound
  refine ensures_freshVariable_bind ?_
  rw [← hz]
  refine ensures_lift_bind hrenamed ?_
  refine (adds_generalization trivial hi).bind fun bound p₁ hd₁ hbound => ?_
  refine (adds_universalInstance (hd₁.based hp) hg hx hhole (u := .var z) hzvar
    (hz ▸ Term.legible_name _) (Instance.toFormula_ofFormula _) rfl hbound.shows hrenamed).bind
    fun free p₂ _ hfree => ?_
  exact (adds_generalization trivial hfree.shows).bind fun step p₃ _ hstep =>
    ensures_pure ⟨rfl, rfl, hstep.shows⟩

/-- The variables that are to be replaced all begin to wait. -/
theorem ensures_freshlyBoundAll (hf : f.Plain) {todo : List (String × Term)} (hp : p.Based)
    (hsuit : Suit s₀ f waiting s) (hnodup : (waiting.map name ++ todo.map Prod.fst).Nodup)
    (htodo : ∀ e ∈ todo, e.1 ∈ f.freeNames ∧ e.2.Plain) (hi : p.Shows i (pending f waiting [])) :
    Ensures True p s (freshlyBoundAll i (pending f waiting []) (todo.map Prod.fst)) fun j p' s' =>
      ∃ rs, rs.map (fun r => (r.name, r.term)) = todo ∧ Suit s₀ f (waiting ++ rs) s' ∧
        p'.Shows j (pending f (waiting ++ rs) []) := by
  induction todo generalizing p s i waiting with
  | nil => exact ensures_pure ⟨[], rfl, by rwa [List.append_nil], by rwa [List.append_nil]⟩
  | cons e todo ih =>
      obtain ⟨⟨hfree, hplain⟩, htodo⟩ := List.forall_mem_cons.1 htodo
      let r : Replacement := ⟨e.1, FreshNames.name "z" (s.variablesDrawn + 1), e.2⟩
      have hnodup' : ((waiting ++ [r]).map name ++ todo.map Prod.fst).Nodup := by
        simpa [r] using hnodup
      have hnext : Suit s₀ f (waiting ++ [r]) { s with variablesDrawn := s.variablesDrawn + 1 } := by
        refine ⟨(List.nodup_append.1 hnodup').1, ?_, ?_, ?_⟩
        · exact List.forall_mem_append.2 ⟨hsuit.free, List.forall_mem_singleton.2 hfree⟩
        · exact List.forall_mem_append.2 ⟨hsuit.plain, List.forall_mem_singleton.2 hplain⟩
        · rw [List.map_append]
          exact hsuit.drawn.append (FreshNames.Drawn.nil s).next
      rw [← List.append_nil waiting] at hsuit
      refine ensures_bind (ensures_freshlyBound hp (hsuit.wellFormed_pending hf)
        (hsuit.hole_notMem_pending hf)
        (hf.wellFormed.isVariable _ (Formula.freeNames_subset_variableNames f hfree)) rfl
        (hnext.fresh_notMem_binders hf) hi) ?_
      rintro ⟨j, g⟩ p' s' hderives ⟨rfl, hg, hj⟩
      obtain rfl : g = pending f (waiting ++ [r]) [] := hg.trans (hnext.forAll_renamed_pending hf)
      obtain ⟨k, p'', s'', hrun, hderives', rs, hrs, hsuit', hk⟩ :=
        ih (hderives.based hp) hnext hnodup' htodo hj
      rw [List.append_assoc, List.singleton_append] at hsuit' hk
      exact ⟨k, p'', s'', hrun, hderives', r :: rs, congrArg _ hrs, hsuit', hk⟩

/-- The variables that wait are all done, the last one first. -/
theorem ensures_universalInstances (hf : f.Plain) {m : Term.Images}
    (hplaces : ∀ i ∈ f.insertions (Table.find? m) [], ∀ x ∈ i.1.variableLeaves, i.2.head? ≠ some x)
    (hp : p.Based) (hsuit : Suit s₀ f (waiting ++ done) s₁)
    (hm : ∀ r ∈ waiting, Table.find? m r.name = some r.term)
    (hi : p.Shows i (pending f waiting done)) :
    Ensures True p s (universalInstances i (waiting.map term).reverse) fun j p' _ =>
      p'.Shows j (pending f [] (waiting ++ done)) := by
  induction waiting using List.reverseRecOn generalizing p i done with
  | nil => exact ensures_pure hi
  | append_singleton waiting r ih =>
      obtain ⟨hm, hr⟩ := List.forall_mem_append.1 hm
      have hwf := hsuit.wellFormed_pending hf
      have hhole := hsuit.hole_notMem_pending hf
      rw [pending_concat] at hi hwf hhole
      rw [List.append_assoc, List.singleton_append] at hsuit ⊢
      have hplain := hsuit.plain r (List.mem_append_right _ List.mem_cons_self)
      have hput := hsuit.substitute_pending hf (hr r (List.mem_singleton.2 rfl)) hplaces
      rw [List.map_append, List.map_singleton, List.reverse_concat]
      refine (looks_of_shows hi).bind (ensures_lift_bind hput ?_)
      refine (adds_universalInstance hp hwf.2 hwf.1 hhole hplain.wellFormed hplain.legible
        (Instance.toFormula_ofFormula _) ?_ hi hput).bind fun j p' hderives hj => ?_
      · rw [Instance.ofTerm_eq hplain.wellFormed]
        rfl
      · exact ih (hderives.based hp) hsuit hm hj.shows

section Replaced

variable [SetOrder String]

/-- The variables of a formula that have images, with them. -/
def replaced (f : Formula) (m : Term.Images) : List (String × Term) :=
  (SetOrder.list f.freeVariables).filterMap fun x => (Table.find? m x).map (x, ·)

theorem mem_replaced {m : Term.Images} {e : String × Term} :
    e ∈ replaced f m ↔ e.1 ∈ f.freeNames ∧ Table.find? m e.1 = some e.2 := by
  simp only [replaced, List.mem_filterMap, Option.map_eq_some_iff, SetOrder.mem_list,
    Formula.mem_freeVariables]
  constructor
  · rintro ⟨x, hx, t, ht, rfl⟩
    exact ⟨hx, ht⟩
  · exact fun h => ⟨e.1, h.1, e.2, h.2, rfl⟩

theorem nodup_replaced (f : Formula) (m : Term.Images) : ((replaced f m).map Prod.fst).Nodup := by
  rw [replaced, List.map_filterMap]
  refine (SetOrder.nodup_list _).filterMap fun x y b hx hy => ?_
  simp only [Option.map_map, Option.mem_def, Option.map_eq_some_iff, Function.comp_apply] at hx hy
  obtain ⟨-, -, rfl⟩ := hx
  obtain ⟨-, -, rfl⟩ := hy
  rfl

/-- Images of names that are not free are not put in. -/
theorem subst_replaced (hf : f.WellFormed) {m : Term.Images} (hm : ∀ e ∈ m, isVariable e.1 = true) :
    f.subst (Table.find? (replaced f m)) = f.subst (Table.find? m) := by
  have hfind : ∀ x t, Table.find? (replaced f m) x = some t ↔
      x ∈ f.freeNames ∧ Table.find? m x = some t := fun x t =>
    ⟨fun h => mem_replaced.1 (Table.mem_of_find?_eq_some h),
      fun h => Table.find?_eq_some_of_mem (nodup_replaced f m) (mem_replaced.2 h)⟩
  have hsame : ∀ x, x ∈ f.freeNames ∨ Table.find? m x = none →
      Table.find? (replaced f m) x = Table.find? m x := by
    refine fun x hx => Option.ext fun t => (hfind x t).trans (and_iff_right_of_imp fun ht => ?_)
    exact hx.resolve_right fun hnone => by simp [hnone] at ht
  have hnone : ∀ c ∈ f.constantNames, Table.find? m c = none := by
    refine fun c hc => Option.eq_none_iff_forall_ne_some.2 fun t ht => ?_
    exact ne_of_isConstant (hf.isConstant c hc) (hm _ (Table.mem_of_find?_eq_some ht)) rfl
  exact Formula.subst_congr hf (fun c hc => by rw [hsame c (.inr (hnone c hc))])
    fun x hx => by rw [hsame x (.inl hx)]

/-- All variables that have images begin to wait and are done. -/
theorem ensures_replaced (hf : f.Plain) (hp : p.Based) {m : Term.Images}
    (hkeys : ∀ e ∈ m, isVariable e.1 = true) (hplain : ∀ e ∈ m, e.2.Plain)
    (hplaces : ∀ i ∈ f.insertions (Table.find? m) [], ∀ x ∈ i.1.variableLeaves, i.2.head? ≠ some x)
    (hi : p.Shows i f) :
    Ensures True p s (do
      let step ← freshlyBoundAll i f ((replaced f m).map Prod.fst)
      universalInstances step ((replaced f m).map Prod.snd).reverse) fun j p' _ =>
        p'.Shows j (f.subst (Table.find? m)) := by
  have hnone : pending f [] [] = f := Formula.subst_none f
  have htodo : ∀ e ∈ replaced f m, e.1 ∈ f.freeNames ∧ e.2.Plain := fun e he =>
    ⟨(mem_replaced.1 he).1, hplain _ (Table.mem_of_find?_eq_some (mem_replaced.1 he).2)⟩
  have hwait := ensures_freshlyBoundAll hf hp (⟨List.nodup_nil, by simp, by simp, .nil s⟩ : Suit s f [] s)
    (nodup_replaced f m) htodo (hnone.symm ▸ hi)
  rw [hnone] at hwait
  refine ensures_bind hwait ?_
  rintro step p' s' hderives ⟨rs, hrs, hsuit, hstep⟩
  rw [List.nil_append] at hsuit hstep
  have hrest : pending f [] (rs ++ []) = f.subst (Table.find? m) := by
    rw [← subst_replaced hf.wellFormed hkeys, ← hrs, List.append_nil]
    rfl
  have himages : ∀ r ∈ rs, Table.find? m r.name = some r.term := fun r hr =>
    (mem_replaced.1 (hrs ▸ List.mem_map_of_mem hr : (r.name, r.term) ∈ replaced f m)).2
  rw [← hrest, ← hrs, List.map_map]
  rw [← List.append_nil rs] at hsuit
  exact ensures_universalInstances hf hplaces (hderives.based hp) hsuit himages hstep

/-- Terms are put in place of free variables of a line, all at once. The step answers with a line that has
the formula asked for, in whichever order the variables are taken, whatever names were drawn before and
whichever variables the terms have, the replaced ones included. The lines that were there stay, and the new
ones are justified. -/
theorem freeInstance_simultaneous {p : Prover} (hp : p.Based) {f : Instance} {i : Nat} {m : Instances}
    {given g : Formula} {images : Term.Images} (hasked : f.toFormula = .ok g) (hi : p.Shows i given)
    (hm : List.Forall₂ (fun e e' => isVariable e.1 = true ∧ e'.1 = e.1 ∧ e.2.toTerm = .ok e'.2) m images)
    (hg : given.substitute images [] = .ok g) (hgiven : given.WellFormed)
    (hhole : hole ∉ given.constants) (hz : ∀ x ∈ given.vars, x.toList.head? ≠ some 'z')
    (hplain : ∀ e ∈ images, e.2.Plain) (s : FreshNames) :
    ∃ (j : Nat) (p' : Prover) (s' : FreshNames),
      ((freeInstance f i m).run.run p).run s = ((.ok j, p'), s') ∧ p.Derives True p' ∧ p'.Shows j g := by
  have hf : given.Plain := .of_vars hgiven hhole hz
  have hkeys : ∀ e ∈ images, isVariable e.1 = true := by
    intro e' he'
    obtain ⟨e, -, hvariable, hkey, -⟩ := exists_left_of_forall₂ hm e' he'
    rwa [hkey]
  obtain ⟨hplaces, rfl⟩ :=
    (Formula.substitute_variables_eq_ok hgiven fun e he => ⟨hkeys e he, (hplain e he).wellFormed⟩).1 hg
  have hensures : Ensures True p s (freeInstance f i m) fun j p' _ =>
      p'.Shows j (given.subst (Table.find? images)) := by
    refine ensures_lift_bind hasked (ensures_get_bind ?_)
    refine ensures_lift_bind (a := ()) (require_eq_ok.2 (decide_eq_true hi.lt_length)) ?_
    refine Looks.bind (a := images) (looks_mapM (hm.imp ?_)) ((looks_of_shows hi).bind ?_)
    · rintro ⟨_, t⟩ ⟨key, u⟩ ⟨hkey, rfl, hterm⟩
      have hrequired : requireName isVariable key = .ok () := (requireName_eq_ok rfl).2 hkey
      exact (looks_lift hrequired).andThen ((looks_lift hterm).bind_pure _)
    refine ensures_lift_bind hg ?_
    refine ensures_lift_bind (a := ()) (require_eq_ok.2 (decide_eq_true rfl)) ?_
    refine ensures_lift_bind hgiven.proper_eq_ok ?_
    exact ensures_replaced hf hp hkeys hplain hplaces hi
  obtain ⟨_, p', s', hrun, hderives, a, l, rfl, hl⟩ := hensures
  exact ⟨a, p', s', hrun, hderives, a, l, rfl, hl⟩

end Replaced

/-- In `Aw[(R(x,w)->R(y,f(x)))]` the term `y` is put for `x` and `g(x,c)` for `y`: each has the other
variable. The terms are given as texts. -/
theorem freeInstance_simultaneous_exchange :
    let _ := SetOrder.ascendingNames
    let R (t u : Term) : Formula := .rel "R" [t, u]
    let given : Formula := .forAll "w" (.imp (R (.var "x") (.var "w")) (R (.var "y") (.app "f" [.var "x"])))
    let p : Prover := ⟨Prover.withAxioms [.ofFormula given], [.assumption given (.ofFormula given) []],
      false, ""⟩
    let u : Term := .app "g" [.var "x", .const "c"]
    let g : Formula := .forAll "w" (.imp (R (.var "y") (.var "w")) (R u (.app "f" [.var "y"])))
    given.substitute [("x", .var "y"), ("y", u)] [] = .ok g ∧
      ∃ (j : Nat) (p' : Prover) (s' : FreshNames),
        ((freeInstance (.formula g) 0 [("x", .text "y"), ("y", .text "g(x,c)")]).run.run p).run ⟨5, 0⟩ =
          ((.ok j, p'), s') ∧ p.Derives True p' ∧ p'.Shows j g := by
  intro _ R given p u g
  have hg : given.substitute [("x", .var "y"), ("y", u)] [] = .ok g := by decide
  have hread : ∀ (text : String) (t : Term), text = t.text → t.WellFormed → t.Legible →
      (Instance.text text).toTerm = .ok t := by
    rintro _ t rfl hwf hlegible
    exact Term.parse_text hwf hlegible
  have hterms : List.Forall₂ (fun e e' => isVariable e.1 = true ∧ e'.1 = e.1 ∧ e.2.toTerm = .ok e'.2)
      [("x", Instance.text "y"), ("y", .text "g(x,c)")] [("x", Term.var "y"), ("y", u)] :=
    .cons ⟨by decide, rfl, hread _ _ (by cbv) (by decide) (by decide)⟩
      (.cons ⟨by decide, rfl, hread _ _ (by cbv) (by decide) (by decide)⟩ .nil)
  have hgiven : given.WellFormed := by decide
  have hhole : hole ∉ given.constants := by
    rw [Formula.mem_constants hgiven]
    decide
  have hz : ∀ x ∈ given.vars, x.toList.head? ≠ some 'z' := by
    intro x hx
    rw [Formula.mem_vars] at hx
    revert x
    decide
  have hplain : ∀ e ∈ [("x", Term.var "y"), ("y", u)], e.2.Plain := by
    refine List.forall_mem_cons.2 ⟨?_, List.forall_mem_singleton.2 ?_⟩
    all_goals
      refine ⟨by decide, by decide, fun h => absurd (Term.mem_constants.1 h) (by decide), fun x hx => ?_⟩
      rw [Term.mem_vars] at hx
      revert x
      decide
  have hline : p.Shows (0 : Nat) given := ⟨0, _, rfl, rfl, rfl⟩
  have hbased : p.Based := Prover.based_ofAssumptions [.ofFormula given] false
  exact ⟨hg, freeInstance_simultaneous hbased rfl hline hterms hg hgiven hhole hz hplain ⟨5, 0⟩⟩

end Proving

end FormalLogic.Predicate
