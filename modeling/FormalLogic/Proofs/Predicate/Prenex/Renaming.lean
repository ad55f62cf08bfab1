import FormalLogic.Proofs.Predicate.Prenex.Conversion
import FormalLogic.Proofs.Predicate.Prenex.Equivalence

/-!
# Renaming apart

The first half of the conversion gives every quantifier a variable of its own. The names that a part of a
formula draws lie between the states of the supply before and after it (`FreshNames.Drawn`), so parts that
are renamed one after the other share none. The main statement is `Prenex.ensures_rename`: a formula that
has no variable of the supply is renamed to one that is alike, with a proof that both are equivalent, and
all its quantifiers bind names that were drawn for them.
-/

namespace FormalLogic.Predicate

namespace Formula

/-- A well-formed formula that has neither the underscore nor a variable of the supply. -/
structure Plain (f : Formula) : Prop where
  wellFormed : f.WellFormed
  hole_notMem : hole ∉ f.constantNames
  head?_ne : ∀ x ∈ f.variableNames, x.toList.head? ≠ some 'z'

namespace Plain

variable {f l r : Formula} {op : Connective} {k : Quantifier} {x : String}

theorem of_vars (hf : f.WellFormed) (hhole : hole ∉ f.constants)
    (hz : ∀ x ∈ f.vars, x.toList.head? ≠ some 'z') : f.Plain :=
  ⟨hf, fun h => hhole ((mem_constants hf).2 h), fun x hx => hz x (mem_vars.2 hx)⟩

theorem left (h : (bin op l r).Plain) : l.Plain where
  wellFormed := h.wellFormed.1
  hole_notMem hhole := h.hole_notMem (mem_constantNames_bin.2 (.inl hhole))
  head?_ne x hx := h.head?_ne x (List.mem_append_left _ hx)

theorem right (h : (bin op l r).Plain) : r.Plain where
  wellFormed := h.wellFormed.2
  hole_notMem hhole := h.hole_notMem (mem_constantNames_bin.2 (.inr hhole))
  head?_ne x hx := h.head?_ne x (List.mem_append_right _ hx)

theorem negated (h : (neg f).Plain) : f.Plain :=
  ⟨h.wellFormed, h.hole_notMem, h.head?_ne⟩

theorem body (h : (quant k x f).Plain) : f.Plain :=
  ⟨h.wellFormed.2, h.hole_notMem, fun y hy => h.head?_ne y (List.mem_append_left _ hy)⟩

end Plain

theorem binders_eq_nil {f : Formula} (h : f.isQuantifierFree = true) : f.binders = [] := by
  induction f with
  | equal l r => rfl
  | rel name ts => rfl
  | neg f ih => exact ih h
  | bin op l r ihl ihr =>
      obtain ⟨hl, hr⟩ := Bool.and_eq_true_iff.1 h
      rw [binders, ihl hl, ihr hr, List.append_nil]
  | quant k x f ih => cases h
  | bare t => rfl

end Formula

namespace Prenex

open Proving

variable {f g l r : Formula}

/-- What is said of a formula that was renamed. -/
structure Renamed (s : FreshNames) (f : Formula) (c : Converted) (s' : FreshNames) : Prop where
  proves : c.Proves f
  alike : f.Alike c.formula
  drawn : s.Drawn s' c.formula.binders

/-- Steps that derive an equivalence make up a conversion to what it says. -/
theorem renamed_convert {s s₁ s₂ : FreshNames} {steps : Proving Formula}
    (hsteps : ∀ p : Prover, p.Moves → Proving.Ensures False p s₁ steps fun g' p' s' =>
      (∃ i, p'.Ends i (.equivalence f g')) ∧ g' = g ∧ s' = s₂)
    (halike : f.Alike g) (hdrawn : s.Drawn s₂ g.binders) :
    Fallible.Ensures s₁ (convert steps) (Renamed s f) := by
  refine (ensures_convert hsteps).imp ?_
  rintro c _ ⟨hproves, rfl, rfl⟩
  exact ⟨hproves, halike, hdrawn⟩

/-- A formula without quantifiers stays as it is. -/
theorem renamed_unchanged (hf : f.Plain) (hfree : f.binders = []) (s : FreshNames) :
    Fallible.Ensures s (unchanged f) (Renamed s f) := by
  refine (ensures_unchanged f s).imp ?_
  rintro c _ ⟨hproves, rfl, rfl⟩
  exact ⟨hproves, .refl hf.wellFormed, hfree ▸ .nil _⟩

variable [SetOrder Int]

theorem renamed_neg (hf : (Formula.neg f).Plain) {s : FreshNames}
    (ih : Fallible.Ensures s (rename f) (Renamed s f)) :
    Fallible.Ensures s (rename (.neg f)) (Renamed s (.neg f)) := by
  rw [rename]
  split
  · rename_i hfree
    exact renamed_unchanged hf (Formula.binders_eq_nil hfree) s
  · refine Fallible.ensures_bind ih fun c s₁ hc => ?_
    refine renamed_convert (fun p hp => ?_) hc.alike.neg hc.drawn
    refine (adds_cite hp hc.proves).bind fun line p₁ _ hline => ?_
    refine (adds_equivalence [(f, c.formula)] (.cons hline.shows .nil) fun w hw => ?_).bind
      fun i p₂ _ hends => ensures_pure ⟨⟨i, hends⟩, rfl, rfl⟩
    rw [Formula.evalParts, Formula.evalParts, hw _ List.mem_cons_self]

/-- The names of the right operand are drawn after those of the left one. -/
theorem renamed_bin {op : Connective} (hf : (Formula.bin op l r).Plain) {s : FreshNames}
    (ihl : Fallible.Ensures s (rename l) (Renamed s l))
    (ihr : ∀ s, Fallible.Ensures s (rename r) (Renamed s r)) :
    Fallible.Ensures s (rename (.bin op l r)) (Renamed s (.bin op l r)) := by
  rw [rename]
  split
  · rename_i hfree
    exact renamed_unchanged hf (@Formula.binders_eq_nil (.bin op l r) hfree) s
  · refine Fallible.ensures_bind ihl fun cl s₁ hcl => ?_
    refine Fallible.ensures_bind (ihr s₁) fun cr s₂ hcr => ?_
    refine renamed_convert (fun p hp => ?_) (hcl.alike.bin op hcr.alike)
      (hcl.drawn.append hcr.drawn)
    refine (adds_cite hp hcl.proves).bind fun left p₁ hd₁ hleft => ?_
    refine (adds_cite (hd₁.moves hp) hcr.proves).bind fun right p₂ hd₂ hright => ?_
    refine (adds_equivalence [(l, cl.formula), (r, cr.formula)]
      (.cons (hleft.shows.mono hd₂) (.cons hright.shows .nil)) fun w hw => ?_).bind
      fun i p₃ _ hends => ensures_pure ⟨⟨i, hends⟩, rfl, rfl⟩
    rw [Formula.evalParts, Formula.evalParts, hw _ List.mem_cons_self,
      hw _ (List.mem_cons_of_mem _ List.mem_cons_self)]

/-- A quantifier gets the variable that is drawn after those below it. -/
theorem renamed_quant {k : Quantifier} {x : String} (hf : (Formula.quant k x f).Plain)
    {s : FreshNames} (ih : Fallible.Ensures s (rename f) (Renamed s f)) :
    Fallible.Ensures s (rename (.quant k x f)) (Renamed s (.quant k x f)) := by
  rw [rename]
  refine Fallible.ensures_bind ih fun c s₁ hc => ?_
  have hx : isVariable x = true := hf.wellFormed.1
  have hchole : hole ∉ c.formula.constantNames := fun h => hf.hole_notMem (hc.alike.constants h)
  generalize hz : FreshNames.name "z" (s₁.variablesDrawn + 1) = z
  -- what was drawn before has a smaller number, and the formula has no name of the supply
  have hzvar : isVariable z = true := hz ▸ isVariable_name _
  have hbound : z ∉ c.formula.binders := hz ▸ hc.drawn.notMem_next
  have hfree : z ∉ c.formula.freeNames := by
    intro h
    have hmem := Formula.freeNames_subset_variableNames f ((hc.alike.free z).1 h)
    exact hf.body.head?_ne z hmem (hz ▸ head?_name _)
  obtain ⟨hm, hkeys, hterms, hrelations⟩ :=
    congruence_instances (Formula.abstraction_wellFormed (x := x) hf.body.wellFormed)
      (Formula.abstraction_wellFormed (x := x) hc.alike.wellFormed) hx hzvar (.inr rfl)
  have hinstance := @Axioms.instantiate_congruence k x z f c.formula _ hm hf.body.wellFormed hx
    hf.hole_notMem hkeys hterms hrelations hc.alike.wellFormed hchole (.inr hbound)
  have hsubstitute := Formula.substitute_single_eq_ok hc.alike.wellFormed hx (t := .var z) hzvar
    fun y hy => List.mem_singleton.1 hy ▸ hbound
  have halike : (Formula.quant k x f).Alike (.quant k z (c.formula.renamed x z)) :=
    (hc.alike.quant k hx).trans (.renamed ⟨hx, hc.alike.wellFormed⟩ hzvar hbound hfree)
  have hdrawn : s.Drawn { s₁ with variablesDrawn := s₁.variablesDrawn + 1 }
      (Formula.quant k z (c.formula.renamed x z)).binders := by
    rw [Formula.binders, Formula.renamed, Formula.binders_subst, ← hz]
    exact hc.drawn.next
  refine renamed_convert (fun p hp => ?_) halike hdrawn
  refine (adds_cite hp hc.proves).bind fun line p₁ hd₁ hline => ?_
  refine ensures_freshVariable_bind ?_
  rw [hz]
  refine ensures_lift_bind (Formula.abstracted_eq_ok hf.body.wellFormed hx) ?_
  refine ensures_lift_bind (Formula.abstracted_eq_ok hc.alike.wellFormed hx) ?_
  refine ensures_lift_bind hinstance ?_
  have hmem := (hd₁.moves hp).mem_assumptions.2 (.inr (Axioms.moving_mem .and k).2.2.2)
  refine (adds_instanceOf hmem hm hinstance).bind fun axiomLine p₂ hd₂ haxiom => ?_
  refine (adds_modusPonens (hline.shows.mono hd₂) haxiom.shows).bind fun i p₃ _ hends => ?_
  exact ensures_lift_bind hsubstitute (ensures_pure ⟨⟨i, hends⟩, rfl, rfl⟩)

/-- A formula that has no variable of the supply is renamed apart. -/
theorem ensures_rename (hf : f.Plain) (s : FreshNames) :
    Fallible.Ensures s (rename f) (Renamed s f) := by
  induction f generalizing s with
  | equal l r => exact renamed_unchanged hf rfl s
  | rel name ts => exact renamed_unchanged hf rfl s
  | neg f ih => exact renamed_neg hf (ih hf.negated s)
  | bin op l r ihl ihr => exact renamed_bin hf (ihl hf.left s) (ihr hf.right)
  | quant k x f ih => exact renamed_quant hf (ih hf.body s)
  | bare t => exact hf.wellFormed.elim

end Prenex

end FormalLogic.Predicate
