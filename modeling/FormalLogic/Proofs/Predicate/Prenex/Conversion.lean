import FormalLogic.Predicate.Prenex
import FormalLogic.Proofs.Predicate.Abstraction
import FormalLogic.Proofs.Predicate.Proving

/-!
# Proofs that come with conversions

A conversion answers with a formula and a proof that the given formula is equivalent to it. What makes it a
proof is stated here (`Converted.Proves`): every line is justified, and the last one is the equivalence. A
conversion is a run of a prover from the axioms that move quantifiers, so it proves what its last step
derives (`Prenex.ensures_convert`).
-/

namespace FormalLogic.Predicate

/-- The conversion of a formula comes with a proof that both are equivalent, from the basic axioms and
those that move quantifiers, without generalizations. -/
structure Converted.Proves (c : Converted) (f : Formula) : Prop where
  conclusion : c.proof.conclusion = .equivalence f c.formula
  assumptions : ∀ s, s ∈ c.proof.assumptions ↔ s ∈ Axioms.basic ∨ s ∈ Axioms.quantification
  justified : Justified False c.proof.assumptions c.proof.lines
  last : ∃ ls l, c.proof.lines = ls ++ [l] ∧ l.formula = c.proof.conclusion

theorem Formula.evalParts_equivalence {w : Formula → Bool} {f g : Formula} :
    (Formula.equivalence f g).evalParts w = true ↔ f.evalParts w = g.evalParts w := by
  rw [equivalence, evalParts, Connective.eval, Bool.and_eq_true, evalParts_imp, evalParts_imp]
  exact ⟨fun h => Bool.eq_iff_iff.2 ⟨h.1, h.2⟩, fun h => ⟨fun hf => h ▸ hf, fun hg => h ▸ hg⟩⟩

theorem Formula.sides_equivalence (f g : Formula) : (Formula.equivalence f g).sides = .ok (f, g) := rfl

theorem Converted.Proves.sides_eq_ok {c : Converted} {f : Formula} (h : c.Proves f) :
    c.proof.conclusion.sides = .ok (f, c.formula) := by
  rw [h.conclusion, Formula.sides_equivalence]

namespace Prover

/-- The prover rests on the basic axioms and those that move quantifiers. -/
def Moves (p : Prover) : Prop :=
  p.assumptions = withAxioms Axioms.quantification

theorem Derives.moves {p p' : Prover} (h : p.Derives False p') (hp : p.Moves) : p'.Moves :=
  h.assumptions.trans hp

theorem Moves.mem_assumptions {p : Prover} (hp : p.Moves) {s : Schema} :
    s ∈ p.assumptions ↔ s ∈ Axioms.basic ∨ s ∈ Axioms.quantification := by
  rw [hp, withAxioms, List.mem_eraseDups, List.mem_append]

end Prover

theorem Axioms.moving_mem (op : Connective) (k : Quantifier) :
    acrossNegation k ∈ quantification ∧ fromLeft op k ∈ quantification ∧
      fromRight op k ∈ quantification ∧ congruence k ∈ quantification := by
  cases op <;> cases k <;> decide

namespace Prenex

open Proving

variable {p : Prover} {s : FreshNames} {f g : Formula} {c : Converted}

/-- What steps from the axioms derive at their end is what their conversion proves. -/
theorem ensures_convert {steps : Proving Formula} {Q : Formula → FreshNames → Prop}
    (hsteps : ∀ p : Prover, p.Moves → Proving.Ensures False p s steps fun g p' s' =>
      (∃ i, p'.Ends i (.equivalence f g)) ∧ Q g s') :
    Fallible.Ensures s (convert steps) fun c s' => c.Proves f ∧ Q c.formula s' := by
  obtain ⟨g, p', s', hrun, hderives, ⟨i, hends⟩, hQ⟩ :=
    hsteps (.ofAssumptions Axioms.quantification false) rfl
  have hmoves := hderives.moves rfl
  obtain ⟨p'', hqed⟩ := @run_qed p' s' _ i hends
  refine ⟨⟨g, .make p'.assumptions (.equivalence f g) p'.lines⟩, s', ?_, ?_, hQ⟩
  · have hrun' := (run_bind hrun fun f => do return Converted.mk f (← qed)).trans (run_bind hqed _)
    change ((ExceptT.run (steps >>= fun f => do return Converted.mk f (← qed))).run
      (.ofAssumptions Axioms.quantification false) >>= fun r => pure r.1).run s = _
    rw [StateT.run_bind, hrun']
    rfl
  · refine ⟨rfl, fun s => ?_, hderives.justified_make _, ?_⟩
    · exact List.mem_eraseDups.trans hmoves.mem_assumptions
    · obtain ⟨ls, l, hlines, -, hl⟩ := hends
      exact ⟨ls, l, hlines, hl⟩

/-- A formula is equivalent to itself. -/
theorem ensures_unchanged (f : Formula) (s : FreshNames) :
    Fallible.Ensures s (unchanged f) fun c s' => c.Proves f ∧ c.formula = f ∧ s' = s := by
  refine ensures_convert (Q := fun g s' => g = f ∧ s' = s) fun p hp => ?_
  refine (adds_tautology fun w => Formula.evalParts_equivalence.2 rfl).bind fun i p' _ hends => ?_
  exact ensures_pure ⟨⟨i, hends⟩, rfl, rfl⟩

theorem adds_cite (hp : p.Moves) (hc : c.Proves f) :
    Adds False p s (cite c) (.equivalence f c.formula) := by
  obtain ⟨ls, l, hlines, hl⟩ := hc.last
  rw [cite, ← hc.conclusion]
  exact adds_appendProof (fun s hs => hp.mem_assumptions.2 ((hc.assumptions s).1 hs)) hc.justified
    hlines hl (Instance.toFormula_ofFormula _)

/-- What follows from equivalences by propositional logic. -/
theorem adds_equivalence [SetOrder Int] {is : List Int} (cited : List (Formula × Formula))
    (his : List.Forall₂ (fun i e => p.Shows i (.equivalence e.1 e.2)) is cited)
    (himplies : ∀ w, (∀ e ∈ cited, e.1.evalParts w = e.2.evalParts w) →
      f.evalParts w = g.evalParts w) :
    Adds False p s (tautologicalConsequence (.ofFormula (.equivalence f g)) is)
      (.equivalence f g) := by
  refine adds_tautologicalConsequence rfl (fun i hi => ?_) fun w hw => ?_
  · obtain ⟨e, -, he⟩ := exists_right_of_forall₂ his i hi
    exact ⟨_, he, rfl⟩
  · refine Formula.evalParts_equivalence.2 (himplies w fun e he => ?_)
    obtain ⟨i, hi, hshows⟩ := exists_left_of_forall₂ his e he
    exact Formula.evalParts_equivalence.1 (hw i hi _ hshows)

/-- Equivalences chain. -/
theorem adds_trans [SetOrder Int] {h : Formula} {i j : Int} (hi : p.Shows i (.equivalence f g))
    (hj : p.Shows j (.equivalence g h)) :
    Adds False p s (tautologicalConsequence (.ofFormula (.equivalence f h)) [i, j])
      (.equivalence f h) := by
  refine adds_equivalence [(f, g), (g, h)] (.cons hi (.cons hj .nil)) fun w hw => ?_
  obtain ⟨hfg, hgh⟩ := List.forall_mem_cons.1 hw
  exact hfg.trans (hgh _ List.mem_cons_self)

/-! ## Quantifiers in front of both sides -/

section Quantify

variable {k : Quantifier} {x y : String}

/-- What the congruence axiom is instantiated with. -/
theorem congruence_instances (hf : f.WellFormed) (hg : g.WellFormed) (hx : isVariable x = true)
    (hy : isVariable y = true) {m : Instances}
    (hm : m = [("R", .ofFormula f), ("Q", .ofFormula g), ("x", .text x), ("y", .text y)] ∨
      m = [("R", .ofFormula f), ("x", .text x), ("y", .text y), ("Q", .ofFormula g)]) :
    Instances.Proper m ∧ (∀ e ∈ m, e.1 ∈ ["Q", "R", "x", "y"]) ∧
      Instances.terms m = [("x", .var x), ("y", .var y)] ∧
        Instances.relations m = [("R", f), ("Q", g)] := by
  have hR : isRelation "R" = true := by decide
  have hQ : isRelation "Q" = true := by decide
  have hvars : isVariable "x" = true ∧ isVariable "y" = true := by decide
  rw [Instance.ofFormula_eq hf, Instance.ofFormula_eq hg] at hm
  rcases hm with rfl | rfl
  all_goals
    simp [Instances.Proper, Instances.terms, Instances.relations, Instance.Suits, hR, hQ, hvars, hf, hg,
      hx, hy]

variable (hf : f.WellFormed) (hg : g.WellFormed) (hx : isVariable x = true)
  (hfhole : hole ∉ f.constantNames) (hghole : hole ∉ g.constantNames)
include hf hg hx hfhole hghole

/-- A quantifier is put in front of both sides of an equivalence. -/
theorem ensures_quantifyBoth (hp : p.Moves) {line : Int} (hline : p.Shows line (.equivalence f g)) :
    Proving.Ensures False p s (quantifyBoth k x line (.equivalence f g)) fun r p' s' =>
      s' = s ∧ r.2 = .equivalence (.quant k x f) (.quant k x g) ∧ p'.Ends r.1 r.2 := by
  obtain ⟨hm, hkeys, hterms, hrelations⟩ := congruence_instances (Formula.abstraction_wellFormed hf)
    (Formula.abstraction_wellFormed hg) hx hx (.inl rfl)
  have hinstance := @Axioms.instantiate_congruence k x x f g _ hm hf hx hfhole hkeys hterms hrelations
    hg hghole (.inl rfl)
  rw [Formula.renamed_self hg hx] at hinstance
  refine ensures_lift_bind (Formula.sides_equivalence f g) ?_
  refine ensures_lift_bind (Formula.abstracted_eq_ok hf hx) ?_
  refine ensures_lift_bind (Formula.abstracted_eq_ok hg hx) ?_
  refine ensures_lift_bind hinstance ?_
  have hmem := hp.mem_assumptions.2 (.inr (Axioms.moving_mem .and k).2.2.2)
  refine (adds_instanceOf hmem hm hinstance).bind fun i p' hderives hends => ?_
  refine (adds_modusPonens (hline.mono hderives) hends.shows).bind fun j p'' _ hends => ?_
  exact ensures_pure ⟨rfl, rfl, hends⟩

/-- One quantifier is pulled over an axiom, and the conversion below it is put under it. -/
theorem ensures_pullOver [SetOrder Int] {h : Formula} {moving : Schema} (hmoving : moving ∈ Axioms.quantification)
    {m : Instances} (hm : Instances.Proper m)
    (hmoved : moving.instantiate m = .ok (.equivalence h (.quant k x f)))
    (hc : c.Proves f) (hcg : c.formula = g) :
    Fallible.Ensures s (pullOver h moving m k x c) fun c' s' =>
      c'.Proves h ∧ c'.formula = .quant k x g ∧ s' = s := by
  obtain ⟨hm', hkeys, hterms, hrelations⟩ := congruence_instances (Formula.abstraction_wellFormed hf)
    (Formula.abstraction_wellFormed hg) hx hx (.inl rfl)
  have hlifted := @Axioms.instantiate_congruence k x x f g _ hm' hf hx hfhole hkeys hterms hrelations
    hg hghole (.inl rfl)
  rw [Formula.renamed_self hg hx] at hlifted
  subst hcg
  refine ensures_convert (Q := fun g' s' => g' = .quant k x c.formula ∧ s' = s) fun p hp => ?_
  refine (adds_cite hp hc).bind fun line p₁ hd₁ hline => ?_
  refine ensures_lift_bind hmoved (ensures_lift_bind hc.sides_eq_ok ?_)
  refine ensures_lift_bind (Formula.abstracted_eq_ok hf hx) ?_
  refine ensures_lift_bind (Formula.abstracted_eq_ok hg hx) ?_
  refine ensures_lift_bind hlifted (ensures_lift_bind (a := Formula.equivalence h (.quant k x f)) rfl ?_)
  have hp₁ := hd₁.moves hp
  refine (adds_instanceOf (hp₁.mem_assumptions.2 (.inr hmoving)) hm hmoved).bind
    fun movedLine p₂ hd₂ hmovedLine => ?_
  have hp₂ := hd₂.moves hp₁
  refine (adds_instanceOf (hp₂.mem_assumptions.2 (.inr (Axioms.moving_mem .and k).2.2.2)) hm'
    hlifted).bind fun liftedLine p₃ hd₃ hliftedLine => ?_
  refine (adds_modusPonens (hline.shows.mono (hd₂.trans hd₃)) hliftedLine.shows).bind
    fun equivalent p₄ hd₄ hequivalent => ?_
  exact (adds_trans (hmovedLine.shows.mono (hd₃.trans hd₄)) hequivalent.shows).bind
    fun i p₅ _ hends => ensures_pure ⟨⟨i, hends⟩, rfl, rfl⟩

end Quantify

end Prenex

end FormalLogic.Predicate
