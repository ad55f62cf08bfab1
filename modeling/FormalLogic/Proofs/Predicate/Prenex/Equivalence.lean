import FormalLogic.Predicate.Prenex
import FormalLogic.Proofs.Predicate.Abstraction
import FormalLogic.Proofs.Predicate.Semantics

/-!
# Formulas with the same meaning

Two formulas are alike if they have the same free variables and the same truth value under every
interpretation over a domain that is not empty, and the second one has no further names
(`Formula.Alike`). That relation passes through connectives and quantifiers, and each way to move a
quantifier or to rename its variable leads to a formula that is alike.
-/

namespace FormalLogic.Predicate

namespace Quantifier

variable {domain : List String} {p : String → Bool} {b : Bool}

theorem eval_dual (k : Quantifier) : k.dual.eval domain (fun e => !p e) = !k.eval domain p := by
  cases k with
  | universal => exact List.not_all_eq_any_not.symm
  | existential => exact List.not_any_eq_all_not.symm

/-- A quantifier comes out of a right operand. -/
theorem eval_right (hdomain : domain ≠ []) (op : Connective) (k : Quantifier) :
    k.eval domain (fun e => op.eval b (p e)) = op.eval b (k.eval domain p) := by
  obtain ⟨e, es, rfl⟩ := List.exists_cons_of_ne_nil hdomain
  cases op <;> cases k <;> cases b <;> simp [eval, Connective.eval]

/-- A quantifier comes out of a left operand; to the left of an implication it turns over. -/
theorem eval_left (hdomain : domain ≠ []) (op : Connective) (k : Quantifier) :
    (Axioms.leftQuantifier op k).eval domain (fun e => op.eval (p e) b) =
      op.eval (k.eval domain p) b := by
  cases op with
  | and =>
      simpa [Axioms.leftQuantifier, Connective.eval, Bool.and_comm] using
        @eval_right domain p b hdomain .and k
  | or =>
      simpa [Axioms.leftQuantifier, Connective.eval, Bool.or_comm] using
        @eval_right domain p b hdomain .or k
  | implies =>
      -- an implication is a disjunction with the negated left operand
      have h := @eval_right domain (fun e => !p e) b hdomain .or k.dual
      rw [eval_dual] at h
      simpa [Axioms.leftQuantifier, Connective.eval, Bool.or_comm] using h

end Quantifier

namespace Formula

/-- The second formula says the same as the first one, with no further names. -/
structure Alike (f g : Formula) : Prop where
  wellFormed : g.WellFormed
  constants : g.constantNames ⊆ f.constantNames
  functions : g.functionNodes ⊆ f.functionNodes
  relations : g.relationNodes ⊆ f.relationNodes
  free : ∀ x, x ∈ g.freeNames ↔ x ∈ f.freeNames
  truth : ∀ (I : Interpretation) (v : String → String), I.domain ≠ [] → g.truth I v = f.truth I v

namespace Alike

variable {f g h l l' r r' : Formula} {k : Quantifier} {op : Connective} {x : String}

theorem refl (hf : f.WellFormed) : Alike f f :=
  ⟨hf, List.Subset.refl _, List.Subset.refl _, List.Subset.refl _, fun _ => Iff.rfl,
    fun _ _ _ => rfl⟩

theorem trans (hfg : Alike f g) (hgh : Alike g h) : Alike f h where
  wellFormed := hgh.wellFormed
  constants := List.Subset.trans hgh.constants hfg.constants
  functions := List.Subset.trans hgh.functions hfg.functions
  relations := List.Subset.trans hgh.relations hfg.relations
  free x := (hgh.free x).trans (hfg.free x)
  truth I v hI := (hgh.truth I v hI).trans (hfg.truth I v hI)

/-! ### Operands -/

theorem neg (h : Alike f g) : Alike (.neg f) (.neg g) where
  wellFormed := h.wellFormed
  constants := h.constants
  functions := h.functions
  relations := h.relations
  free := h.free
  truth I v hI := by rw [Formula.truth, Formula.truth, h.truth I v hI]

theorem bin (op : Connective) (hl : Alike l l') (hr : Alike r r') :
    Alike (.bin op l r) (.bin op l' r') where
  wellFormed := ⟨hl.wellFormed, hr.wellFormed⟩
  constants _ hc :=
    mem_constantNames_bin.2 ((mem_constantNames_bin.1 hc).imp (hl.constants ·) (hr.constants ·))
  functions _ he :=
    mem_functionNodes_bin.2 ((mem_functionNodes_bin.1 he).imp (hl.functions ·) (hr.functions ·))
  relations _ he :=
    List.mem_append.2 ((List.mem_append.1 he).imp (hl.relations ·) (hr.relations ·))
  free x := by rw [freeNames_bin, freeNames_bin, List.mem_append, List.mem_append, hl.free, hr.free]
  truth I v hI := by rw [Formula.truth, Formula.truth, hl.truth I v hI, hr.truth I v hI]

theorem quant (k : Quantifier) (hx : isVariable x = true) (h : Alike f g) :
    Alike (.quant k x f) (.quant k x g) where
  wellFormed := ⟨hx, h.wellFormed⟩
  constants := h.constants
  functions := h.functions
  relations := h.relations
  free y := by rw [mem_freeNames_quant, mem_freeNames_quant, h.free]
  truth I v hI := by
    rw [Formula.truth, Formula.truth]
    exact congrArg _ (funext fun e => h.truth I _ hI)

/-! ### Quantifiers that move -/

theorem acrossNegation (hf : (Formula.quant k x f).WellFormed) :
    Alike (.neg (.quant k x f)) (.quant k.dual x (.neg f)) where
  wellFormed := hf
  constants := List.Subset.refl _
  functions := List.Subset.refl _
  relations := List.Subset.refl _
  free y := by rw [freeNames_neg, mem_freeNames_quant, mem_freeNames_quant, freeNames_neg]
  truth I v _ := k.eval_dual

theorem fromLeft (op : Connective) (hl : (Formula.quant k x l).WellFormed) (hr : r.WellFormed)
    (hx : x ∉ r.freeNames) :
    Alike (.bin op (.quant k x l) r) (.quant (Axioms.leftQuantifier op k) x (.bin op l r)) where
  wellFormed := ⟨hl.1, hl.2, hr⟩
  constants := List.Subset.refl _
  functions := List.Subset.refl _
  relations := List.Subset.refl _
  free y := by
    rw [mem_freeNames_quant, freeNames_bin, freeNames_bin, List.mem_append, List.mem_append,
      mem_freeNames_quant, or_and_right]
    exact or_congr_right (and_iff_left_of_imp fun hy hyx => hx (hyx ▸ hy))
  truth I v hI := by
    simp only [Formula.truth, truth_update_of_notMem hr hx]
    exact Quantifier.eval_left hI op k

theorem fromRight (op : Connective) (hl : l.WellFormed) (hr : (Formula.quant k x r).WellFormed)
    (hx : x ∉ l.freeNames) :
    Alike (.bin op l (.quant k x r)) (.quant k x (.bin op l r)) where
  wellFormed := ⟨hr.1, hl, hr.2⟩
  constants := List.Subset.refl _
  functions := List.Subset.refl _
  relations := List.Subset.refl _
  free y := by
    rw [mem_freeNames_quant, freeNames_bin, freeNames_bin, List.mem_append, List.mem_append,
      mem_freeNames_quant, or_and_right]
    exact or_congr_left (and_iff_left_of_imp fun hy hyx => hx (hyx ▸ hy))
  truth I v hI := by
    simp only [Formula.truth, truth_update_of_notMem hl hx]
    exact Quantifier.eval_right hI op k

/-- A bound variable can be renamed to one that the formula does not have. -/
theorem renamed {z : String} (hf : (Formula.quant k x f).WellFormed) (hz : isVariable z = true)
    (hbound : z ∉ f.binders) (hfree : z ∉ f.freeNames) :
    Alike (.quant k x f) (.quant k z (f.renamed x z)) := by
  have hσ : ∀ name s, Table.find? [(x, Term.var z)] name = some s → s.WellFormed :=
    fun _ _ => wellFormed_of_find?_single hz
  have hinserted : ∀ i ∈ f.insertions (Table.find? [(x, Term.var z)]) [], i.1 = .var z :=
    fun i hi => fst_of_mem_insertions_single hf.2 hi
  have hfresh : ∀ i ∈ f.insertions (Table.find? [(x, Term.var z)]) [], ∀ y ∈ i.2,
      y ∉ i.1.variableLeaves := by
    intro i hi y hy hleaf
    rw [hinserted i hi] at hleaf
    have hy := snd_subset_of_mem_insertions hi hy
    rw [List.append_nil, List.mem_singleton.1 hleaf] at hy
    exact hbound hy
  have hconstant : ∀ c ∈ f.constantNames, Table.find? [(x, Term.var z)] c = none := fun c hc =>
    find?_single_eq_none (ne_of_isConstant (hf.2.isConstant c hc) hf.1).symm
  refine ⟨⟨hz, hf.2.subst hσ⟩, fun c hc => ?_, fun e he => ?_, ?_, fun y => ?_, fun I v _ => ?_⟩
  · obtain ⟨hc, -⟩ | ⟨i, hi, hc⟩ := (mem_constantNames_subst hf.2 hσ []).1 hc
    · exact hc
    · rw [hinserted i hi] at hc
      cases hc
  · obtain he | ⟨i, hi, he⟩ := (mem_functionNodes_subst hf.2 hσ []).1 he
    · exact he
    · rw [hinserted i hi] at he
      cases he
  · exact fun e he => relationNodes_subst _ f ▸ he
  · rw [mem_freeNames_quant, mem_freeNames_quant]
    constructor
    · rintro ⟨hy, hyz⟩
      obtain ⟨hy, hnone⟩ | ⟨i, hi, hy⟩ := mem_freeNames_subst hf.2 hσ [] hy
      · refine ⟨hy, ?_⟩
        rintro rfl
        simp at hnone
      · rw [hinserted i hi] at hy
        exact absurd (List.mem_singleton.1 hy) hyz
    · rintro ⟨hy, hyx⟩
      exact ⟨mem_freeNames_subst_of_none hf.2 hσ hy (find?_single_eq_none hyx.symm),
        fun hyz => hfree (hyz ▸ hy)⟩
  · -- the new variable has the element that the old one had, and all others keep theirs
    rw [Formula.truth, Formula.truth]
    refine congrArg _ (funext fun e => truth_subst hf.2 hσ hfresh rfl rfl rfl ?_ ?_)
    · intro c hc
      rw [hconstant c hc]
      rfl
    · intro y hy
      by_cases hyx : y = x
      · subst hyx
        simp [Term.denote]
      · have hyz : y ≠ z := fun hyz => hfree (hyz ▸ hy)
        rw [find?_single_eq_none (Ne.symm hyx), Function.update_of_ne hyx]
        exact (Function.update_of_ne hyz e v).symm

/-! ### Evaluation -/

theorem freeVariables_eq (h : Alike f g) : g.freeVariables = f.freeVariables :=
  sortedSet_eq (pairwise_sortedSet _) fun x => (h.free x).trans mem_freeVariables.symm

/-- A model gives formulas that are alike the same value. -/
theorem evaluate_eq (h : Alike f g) (hf : f.WellFormed) {M : Model} (hM : M.WellFormed)
    (hdomain : M.domain ≠ []) (hnames : M.checkNames f = .ok ()) {a : Assignment}
    (ha : ∀ e ∈ a, e.2 ∈ M.domain) (hcovered : ∀ x ∈ f.freeVariables, Table.hasKey a x = true) :
    ∃ b, M.evaluate f a = .ok b ∧ M.evaluate g a = .ok b := by
  have hinterprets := (Model.checkNames_eq_ok hf).1 hnames
  have hnames' : M.checkNames g = .ok () := by
    refine (Model.checkNames_eq_ok h.wellFormed).2 ⟨fun c hc => ?_, fun e he => ?_, fun e he => ?_⟩
    · exact hinterprets.constants c (h.constants hc)
    · exact hinterprets.functions e (h.functions he)
    · exact hinterprets.relations e (h.relations he)
  refine ⟨_, Model.evaluate_eq_ok hM ha hf hnames hcovered, ?_⟩
  rw [Model.evaluate_eq_ok hM ha h.wellFormed hnames' (h.freeVariables_eq ▸ hcovered),
    h.truth _ _ hdomain]

/-- If the second formula has just the terms and relations of the first one, a model evaluates neither or
both, and to the same value. -/
theorem evaluate_congr (h : Alike f g) (hf : f.WellFormed) (hterms : g.terms = f.terms)
    (hrelations : g.relationNodes = f.relationNodes) {M : Model} (hM : M.WellFormed)
    (hdomain : M.domain ≠ []) {a : Assignment} (ha : ∀ e ∈ a, e.2 ∈ M.domain) :
    M.evaluate g a = M.evaluate f a := by
  have hnames : M.checkNames g = M.checkNames f := by
    simp only [Model.checkNames, hf.named_eq_ok, h.wellFormed.named_eq_ok, ok_bind, Formula.constants,
      Formula.functions, Formula.relations, hterms, hrelations]
  cases hcheck : M.checkNames f with
  | error e =>
      rw [Model.evaluate, Model.evaluate, hnames, hcheck]
      rfl
  | ok u =>
      by_cases hcovered : ∀ x ∈ f.freeVariables, Table.hasKey a x = true
      · obtain ⟨b, hfb, hgb⟩ := h.evaluate_eq hf hM hdomain hcheck ha hcovered
        exact hgb.trans hfb.symm
      · rw [← List.all_eq_true, Bool.not_eq_true] at hcovered
        rw [Model.evaluate, Model.evaluate, hnames, hcheck, ok_bind, ok_bind, h.freeVariables_eq, hcovered]
        rfl

end Alike

end Formula

end FormalLogic.Predicate
