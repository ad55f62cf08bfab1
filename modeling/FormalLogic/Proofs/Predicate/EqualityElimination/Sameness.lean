import FormalLogic.Predicate.EqualityElimination
import FormalLogic.Proofs.Predicate.Semantics

/-!
# Sameness in place of equality

A relation can stand for equality. Elements of a model that are in this relation are the same
(`Model.Same`), though they need not be equal. If sameness is an equivalence that the other relations respect,
one element can be put for all that are the same (`Interpretation.Collapses`), and a formula is then true
exactly if it is true before with the relation for equality (`Formula.truth_equalityToSame`).
-/

namespace FormalLogic.Predicate

/-! ## Sameness in a model -/

namespace Model

/-- Two elements are the same, in the relation that stands for equality. -/
def Same (m : Model) (d e : String) : Prop :=
  [d, e] ∈ m.rows sameName

instance (m : Model) (d e : String) : Decidable (m.Same d e) :=
  inferInstanceAs (Decidable ([d, e] ∈ m.rows sameName))

/-- The model has a relation between two elements that stands for equality, and it is an equivalence. -/
structure SameEquivalence (m : Model) : Prop where
  meaning : Table.hasKey m.relations sameName = true
  binary : ∀ n, m.relationArity? sameName = some n → n = 2
  refl : ∀ e ∈ m.domain, m.Same e e
  symm : ∀ d ∈ m.domain, ∀ e ∈ m.domain, m.Same d e → m.Same e d
  trans : ∀ c ∈ m.domain, ∀ d ∈ m.domain, ∀ e ∈ m.domain, m.Same c d → m.Same d e → m.Same c e

/-- A relation does not tell apart tuples of which all elements are the same. -/
def RespectsSame (m : Model) (name : String) : Prop :=
  ∀ ds ∈ m.rows name, ∀ es, List.Forall₂ m.Same ds es → es ∈ m.rows name

namespace WellFormed

variable {m : Model} (hm : m.WellFormed)
include hm

theorem same_mem {d e : String} (h : m.Same d e) : d ∈ m.domain ∧ e ∈ m.domain := by
  obtain ⟨-, -, hdomain⟩ := hm.rows_made sameName
  exact ⟨hdomain _ h (by simp), hdomain _ h (by simp)⟩

/-- A relation with a number of arguments respects sameness if it does so for the tuples of that length. -/
theorem respectsSame_iff {name : String} {n : Nat} (hn : ∀ k, m.relationArity? name = some k → k = n) :
    m.RespectsSame name ↔ ∀ ds ∈ tuples m.domain n, ∀ es ∈ tuples m.domain n,
      List.Forall₂ m.Same ds es → ds ∈ m.rows name → es ∈ m.rows name := by
  constructor
  · exact fun hall ds _ es _ hsame hds => hall ds hds es hsame
  · intro hall ds hds es hsame
    have hds' := hm.mem_tuples_of_mem_rows hn hds
    refine hall ds hds' es (mem_tuples.2 ⟨?_, fun e he => ?_⟩) hsame hds
    · rw [← hsame.length_eq, (mem_tuples.1 hds').1]
    · obtain ⟨d, -, hde⟩ := exists_left_of_forall₂ hsame e he
      exact (hm.same_mem hde).2

end WellFormed

end Model

/-! ## Replacing equality in a formula -/

namespace Formula

theorem terms_equalityToSame (f : Formula) : f.equalityToSame.terms = f.terms := by
  induction f with
  | equal l r => rfl
  | rel name ts => rfl
  | neg f ih => exact ih
  | bin op l r ihl ihr => rw [equalityToSame, terms, terms, ihl, ihr]
  | quant k x f ih => exact ih
  | bare t => rfl

theorem constantNames_equalityToSame (f : Formula) : f.equalityToSame.constantNames = f.constantNames := by
  rw [constantNames, constantNames, terms_equalityToSame]

theorem functionNodes_equalityToSame (f : Formula) : f.equalityToSame.functionNodes = f.functionNodes := by
  rw [functionNodes, functionNodes, terms_equalityToSame]

theorem isEqualityFree_equalityToSame (f : Formula) : f.equalityToSame.isEqualityFree = true := by
  induction f with
  | equal l r => rfl
  | rel name ts => rfl
  | neg f ih => exact ih
  | bin op l r ihl ihr => rw [equalityToSame, isEqualityFree, ihl, ihr, Bool.and_self]
  | quant k x f ih => exact ih
  | bare t => rfl

theorem WellFormed.equalityToSame {f : Formula} (hf : f.WellFormed) : f.equalityToSame.WellFormed := by
  induction f with
  | equal l r =>
      obtain ⟨hl, hr⟩ := hf
      exact ⟨rfl, List.forall_mem_cons.2 ⟨hl, List.forall_mem_singleton.2 hr⟩⟩
  | rel name ts => exact hf
  | neg f ih => exact ih hf
  | bin op l r ihl ihr => exact ⟨ihl hf.1, ihr hf.2⟩
  | quant k x f ih => exact ⟨hf.1, ih hf.2⟩
  | bare t => exact hf.elim

theorem mem_freeNames_equalityToSame {f : Formula} (hf : f.WellFormed) {x : String} :
    x ∈ f.equalityToSame.freeNames ↔ x ∈ f.freeNames := by
  induction f with
  | equal l r =>
      have hsame := hf.equalityToSame
      rw [equalityToSame, same] at hsame ⊢
      rw [freeNames_rel hsame]
      simp
  | rel name ts => exact Iff.rfl
  | neg f ih => exact ih hf
  | bin op l r ihl ihr =>
      rw [equalityToSame, freeNames_bin, freeNames_bin, List.mem_append, List.mem_append, ihl hf.1, ihr hf.2]
  | quant k y f ih => rw [equalityToSame, mem_freeNames_quant, mem_freeNames_quant, ih hf.2]
  | bare t => exact hf.elim

/-- The relations of a formula stay, and the one for equality is all that can come. -/
theorem relationNodes_equalityToSame (f : Formula) : f.relationNodes ⊆ f.equalityToSame.relationNodes ∧
    f.equalityToSame.relationNodes ⊆ (sameName, 2) :: f.relationNodes := by
  induction f with
  | equal l r => exact ⟨List.nil_subset _, List.Subset.refl _⟩
  | rel name ts => exact ⟨List.Subset.refl _, List.subset_cons_self _ _⟩
  | neg f ih => exact ih
  | bin op l r ihl ihr =>
      simp only [equalityToSame, relationNodes]
      grind
  | quant k x f ih => exact ih
  | bare t => exact ⟨List.Subset.refl _, List.subset_cons_self _ _⟩

end Formula

/-- Where sameness has a meaning, so has a formula with sameness in place of equality. -/
theorem Model.Interprets.equalityToSame {m : Model} {f : Formula} (h : m.Interprets f)
    (hsame : Table.hasKey m.relations sameName = true ∧ ∀ n, m.relationArity? sameName = some n → n = 2) :
    m.Interprets f.equalityToSame where
  constants := by
    rw [Formula.constantNames_equalityToSame]
    exact h.constants
  functions := by
    rw [Formula.functionNodes_equalityToSame]
    exact h.functions
  relations := by
    intro e he
    rcases List.mem_cons.1 ((Formula.relationNodes_equalityToSame f).2 he) with rfl | he
    · exact hsame
    · exact h.relations e he

/-! ## One element for all that are the same -/

/-- Quantifiers range over images, if what is asked of an image is what is asked of the element. -/
theorem Quantifier.eval_image (k : Quantifier) {domain images : List String} {rep : String → String}
    {p q : String → Bool} (himages : ∀ x, x ∈ images ↔ ∃ e ∈ domain, rep e = x)
    (h : ∀ e ∈ domain, p (rep e) = q e) : k.eval images p = k.eval domain q := by
  cases k with
  | universal =>
      rw [eval, eval, Bool.eq_iff_iff, List.all_eq_true, List.all_eq_true]
      constructor
      · intro hall e he
        rw [← h e he]
        exact hall _ ((himages _).2 ⟨e, he, rfl⟩)
      · intro hall x hx
        obtain ⟨e, he, rfl⟩ := (himages x).1 hx
        rw [h e he]
        exact hall e he
  | existential =>
      rw [eval, eval, Bool.eq_iff_iff, List.any_eq_true, List.any_eq_true]
      constructor
      · rintro ⟨x, hx, hp⟩
        obtain ⟨e, he, rfl⟩ := (himages x).1 hx
        exact ⟨e, he, by rw [← h e he, hp]⟩
      · rintro ⟨e, he, hq⟩
        exact ⟨rep e, (himages _).2 ⟨e, he, rfl⟩, by rw [h e he, hq]⟩

/-- An interpretation arises from another one by putting a representative for each element, the same for those
that are the same, and the listed names mean what they meant before. -/
structure Interpretation.Collapses (I J : Interpretation) (rep : String → String) (constants : List String)
    (functions relations : List (String × Nat)) : Prop where
  domain : ∀ x, x ∈ J.domain ↔ ∃ e ∈ I.domain, rep e = x
  same : ∀ d ∈ I.domain, ∀ e ∈ I.domain, (I.rel sameName [d, e] = true ↔ rep d = rep e)
  constants : ∀ c ∈ constants, I.const c ∈ I.domain ∧ J.const c = rep (I.const c)
  functions : ∀ e ∈ functions, ∀ es ∈ Model.tuples I.domain e.2,
    I.app e.1 es ∈ I.domain ∧ J.app e.1 (es.map rep) = rep (I.app e.1 es)
  relations : ∀ e ∈ relations, ∀ es ∈ Model.tuples I.domain e.2, J.rel e.1 (es.map rep) = I.rel e.1 es

theorem Interpretation.Collapses.mono {I J : Interpretation} {rep : String → String}
    {constants constants' : List String} {functions functions' relations relations' : List (String × Nat)}
    (h : I.Collapses J rep constants functions relations) (hconstants : constants' ⊆ constants)
    (hfunctions : functions' ⊆ functions) (hrelations : relations' ⊆ relations) :
    I.Collapses J rep constants' functions' relations' :=
  ⟨h.domain, h.same, fun c hc => h.constants c (hconstants hc), fun e he => h.functions e (hfunctions he),
    fun e he => h.relations e (hrelations he)⟩

section Collapse

variable {I J : Interpretation} {rep : String → String} {v : String → String}

/-- Arguments denote a tuple of representatives, if each one denotes that of what it denoted before. -/
theorem Term.map_denote_collapse {ts : List Term}
    (h : ∀ t ∈ ts, t.denote I v ∈ I.domain ∧ t.denote J (rep ∘ v) = rep (t.denote I v)) :
    ts.map (denote I v) ∈ Model.tuples I.domain ts.length ∧
      ts.map (denote J (rep ∘ v)) = (ts.map (denote I v)).map rep := by
  refine ⟨Model.mem_tuples.2 ⟨List.length_map _, List.forall_mem_map.2 fun t ht => (h t ht).1⟩, ?_⟩
  rw [List.map_map]
  exact List.map_congr_left fun t ht => (h t ht).2

/-- A term denotes the representative of what it denoted before. -/
theorem Term.denote_collapse {t : Term} (ht : t.WellFormed) {relations : List (String × Nat)}
    (hIJ : I.Collapses J rep t.constantLeaves t.functionNodes relations)
    (hv : ∀ x ∈ t.variableLeaves, v x ∈ I.domain) :
    t.denote I v ∈ I.domain ∧ t.denote J (rep ∘ v) = rep (t.denote I v) := by
  induction t with
  | const c => exact hIJ.constants c (by simp [constantLeaves])
  | var x => exact ⟨hv x (by simp [variableLeaves]), rfl⟩
  | app name ts ih =>
      have hargs : ∀ t ∈ ts, t.denote I v ∈ I.domain ∧ t.denote J (rep ∘ v) = rep (t.denote I v) := by
        intro t htmem
        refine ih t htmem (ht.args t htmem) (hIJ.mono (fun c hc => ?_) (fun e he => ?_)
          (List.Subset.refl _)) fun x hx => hv x ?_
        · rw [constantLeaves, constantLeavesOf_eq_flatMap ht.args]
          exact List.mem_flatMap.2 ⟨t, htmem, hc⟩
        · rw [functionNodes, functionNodesOf_eq_flatMap ht.args]
          exact List.mem_cons_of_mem _ (List.mem_flatMap.2 ⟨t, htmem, he⟩)
        · rw [variableLeaves, variableLeavesOf_eq_flatMap ht.args]
          exact List.mem_flatMap.2 ⟨t, htmem, hx⟩
      obtain ⟨htuple, hmap⟩ := map_denote_collapse hargs
      rw [denote, denote, denoteAll_eq_map, denoteAll_eq_map, hmap]
      exact hIJ.functions (name, ts.length) (by simp [functionNodes]) _ htuple
  | missing => exact ht.elim

/-- The terms of an atomic formula denote representatives. -/
theorem Formula.denote_terms {f : Formula} (hf : f.WellFormed) {relations : List (String × Nat)}
    (hIJ : I.Collapses J rep f.constantNames f.functionNodes relations)
    (hv : ∀ x ∈ f.terms.flatMap Term.variableLeaves, v x ∈ I.domain) :
    ∀ t ∈ f.terms, t.denote I v ∈ I.domain ∧ t.denote J (rep ∘ v) = rep (t.denote I v) := by
  intro t ht
  refine Term.denote_collapse (hf.terms t ht) (hIJ.mono ?_ ?_ (List.Subset.refl _)) fun x hx => ?_
  · exact fun c hc => List.mem_flatMap.2 ⟨t, ht, hc⟩
  · exact fun e he => List.mem_flatMap.2 ⟨t, ht, he⟩
  · exact hv x (List.mem_flatMap.2 ⟨t, ht, hx⟩)

/-- A formula says of representatives what it said before with sameness in place of equality. -/
theorem Formula.truth_equalityToSame {f : Formula} (hf : f.WellFormed)
    (hIJ : I.Collapses J rep f.constantNames f.functionNodes f.relationNodes)
    (hv : ∀ x ∈ f.freeNames, v x ∈ I.domain) :
    f.truth J (rep ∘ v) = f.equalityToSame.truth I v := by
  induction f generalizing v with
  | equal l r =>
      have hterms := denote_terms hf hIJ (by simpa [terms, or_imp, forall_and] using hv)
      obtain ⟨hl, hl'⟩ := hterms l (by simp [terms])
      obtain ⟨hr, hr'⟩ := hterms r (by simp [terms])
      rw [truth, hl', hr', Bool.eq_iff_iff, decide_eq_true_iff, ← hIJ.same _ hl _ hr]
      rfl
  | rel name ts =>
      rw [freeNames_rel hf] at hv
      have hterms : ∀ t ∈ ts, t.denote I v ∈ I.domain ∧ t.denote J (rep ∘ v) = rep (t.denote I v) :=
        denote_terms hf hIJ hv
      obtain ⟨htuple, hmap⟩ := Term.map_denote_collapse hterms
      rw [truth, hmap]
      exact hIJ.relations (name, ts.length) (List.mem_singleton.2 rfl) _ htuple
  | neg f ih => rw [equalityToSame, truth, truth, ih hf hIJ hv]
  | bin op l r ihl ihr =>
      obtain ⟨hvl, hvr⟩ := List.forall_mem_append.1 hv
      have hIJl : I.Collapses J rep l.constantNames l.functionNodes l.relationNodes :=
        hIJ.mono (fun c hc => mem_constantNames_bin.2 (.inl hc))
          (fun e he => mem_functionNodes_bin.2 (.inl he)) (List.subset_append_left _ _)
      have hIJr : I.Collapses J rep r.constantNames r.functionNodes r.relationNodes :=
        hIJ.mono (fun c hc => mem_constantNames_bin.2 (.inr hc))
          (fun e he => mem_functionNodes_bin.2 (.inr he)) (List.subset_append_right _ _)
      rw [equalityToSame, truth, truth, ihl hf.1 hIJl hvl, ihr hf.2 hIJr hvr]
  | quant k x f ih =>
      rw [equalityToSame, truth, truth]
      refine k.eval_image hIJ.domain fun e he => ?_
      rw [← Function.comp_update]
      refine ih hf.2 hIJ fun y hy => ?_
      by_cases hyx : y = x
      · rw [hyx, Function.update_self]
        exact he
      · rw [Function.update_of_ne hyx]
        exact hv y (mem_freeNames_quant.2 ⟨hy, hyx⟩)
  | bare t => exact hf.elim

end Collapse

end FormalLogic.Predicate
