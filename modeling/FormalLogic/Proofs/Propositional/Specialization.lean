import FormalLogic.Proofs.Propositional.Deduction
import FormalLogic.Proofs.Propositional.Reading

/-!
# Specializing proofs

Replacing variables throughout an accepted proof gives an accepted proof (`Proof.isValid_subst`): a
specialization of a rule stays one under any further replacement
(`InferenceRule.isSpecializationOf_subst_subst`), and what a citation denotes does not depend on the
formulas. What remains to be seen is that no formula gets lost, for which the images that matching finds
must be formulas (`InferenceRule.wellFormed_of_images?`).
-/

namespace FormalLogic.Propositional

open Formula

/-! ## Replacing twice -/

namespace Formula

theorem subst_subst (σ τ : String → Formula) (f : Formula) :
    (f.subst σ).subst τ = f.subst fun x => (σ x).subst τ := by
  induction f with
  | var x => rfl
  | const a => rfl
  | neg f ih => simp only [subst, ih]
  | bin op l r ihl ihr => simp only [subst, ihl, ihr]
  | missing => rfl

theorem isMissing_of_subst {σ : String → Formula} {f : Formula}
    (h : (f.subst σ).isMissing = false) : f.isMissing = false := by
  cases f with
  | missing => exact h
  | _ => rfl

/-- Whether a formula is well-formed. -/
def decideWellFormed (d : Dialect) : (f : Formula) → Decidable (f.WellFormed d)
  | var name => inferInstanceAs (Decidable (isVariable name = true))
  | const _ => isTrue trivial
  | neg f => f.decideWellFormed d
  | bin op l r =>
    have := l.decideWellFormed d
    have := r.decideWellFormed d
    inferInstanceAs (Decidable (op ∈ d ∧ l.WellFormed d ∧ r.WellFormed d))
  | missing => isFalse id

instance (d : Dialect) : DecidablePred (WellFormed d) := decideWellFormed d

theorem WellFormed.subst {d : Dialect} {σ : String → Formula} {f : Formula} (hf : f.WellFormed d)
    (hσ : ∀ x ∈ f.leafVariables, (σ x).WellFormed d) : (f.subst σ).WellFormed d := by
  induction f with
  | var x => exact hσ x (by simp [leafVariables])
  | const a => trivial
  | neg f ih => exact ih hf hσ
  | bin op l r ihl ihr =>
      simp only [leafVariables, List.forall_mem_append] at hσ
      exact ⟨hf.1, ihl hf.2.1 hσ.1, ihr hf.2.2 hσ.2⟩
  | missing => exact hf

theorem WellFormed.specialize {d : Dialect} {σ : String → Formula} {f : Formula}
    (hf : f.WellFormed d) (hσ : ∀ x, Propositional.isVariable x = true → (σ x).WellFormed d) :
    (f.subst σ).WellFormed d :=
  hf.subst fun x hx => hσ x (hf.isVariable x hx)

end Formula

namespace InferenceRule

/-- A rule that was given, and whose formulas are well formed. -/
structure WellFormed (d : Dialect) (r : InferenceRule) : Prop where
  given : r.isMissing = false
  formulas : ∀ f ∈ r.formulas, f.WellFormed d

instance (d : Dialect) (r : InferenceRule) : Decidable (r.WellFormed d) :=
  decidable_of_iff (r.isMissing = false ∧ ∀ f ∈ r.formulas, f.WellFormed d)
    ⟨fun h => ⟨h.1, h.2⟩, fun h => ⟨h.1, h.2⟩⟩

theorem WellFormed.exists_eq_rule {d : Dialect} {r : InferenceRule} (h : r.WellFormed d) :
    ∃ as c, r = rule as c ∧ (∀ a ∈ as, a.WellFormed d) ∧ c.WellFormed d := by
  cases r with
  | missing => exact absurd h.given (by decide)
  | rule as c =>
      obtain ⟨has, hc⟩ := List.forall_mem_append.1 h.formulas
      exact ⟨as, c, rfl, has, List.forall_mem_singleton.1 hc⟩

theorem WellFormed.isComplete {d : Dialect} {r : InferenceRule} (h : r.WellFormed d) :
    r.isComplete = true := by
  obtain ⟨as, c, rfl, has, hc⟩ := h.exists_eq_rule
  exact isComplete_iff.2 ⟨rfl, fun a ha => (has a ha).isMissing_eq_false, hc.isMissing_eq_false⟩

theorem WellFormed.subst {d : Dialect} {σ : String → Formula} {r : InferenceRule} (h : r.WellFormed d)
    (hσ : ∀ x, isVariable x = true → (σ x).WellFormed d) : (r.subst σ).WellFormed d := by
  obtain ⟨as, c, rfl, has, hc⟩ := h.exists_eq_rule
  refine ⟨rfl, List.forall_mem_append.2 ⟨List.forall_mem_map.2 fun a ha => (has a ha).specialize hσ, ?_⟩⟩
  exact List.forall_mem_singleton.2 (hc.specialize hσ)

theorem assumptions_subst (σ : String → Formula) (r : InferenceRule) :
    (r.subst σ).assumptions = r.assumptions.map (Formula.subst σ) := by
  cases r <;> rfl

theorem conclusion_subst (σ : String → Formula) (r : InferenceRule) :
    (r.subst σ).conclusion = r.conclusion.subst σ := by
  cases r <;> rfl

theorem formulas_subst (σ : String → Formula) (r : InferenceRule) :
    (r.subst σ).formulas = r.formulas.map (Formula.subst σ) := by
  cases r with
  | missing => rfl
  | rule as c => simp [InferenceRule.subst, formulas]

theorem isMissing_subst (σ : String → Formula) (r : InferenceRule) :
    (r.subst σ).isMissing = r.isMissing := by
  cases r <;> rfl

theorem subst_subst (σ τ : String → Formula) (r : InferenceRule) :
    (r.subst σ).subst τ = r.subst fun x => (σ x).subst τ := by
  cases r with
  | missing => rfl
  | rule as c =>
      simp only [InferenceRule.subst, List.map_map, Formula.subst_subst]
      congr 1
      exact List.map_congr_left fun f _ => Formula.subst_subst σ τ f

theorem isComplete_of_subst {σ : String → Formula} {r : InferenceRule}
    (h : (r.subst σ).isComplete = true) : r.isComplete = true := by
  cases r with
  | missing => exact h
  | rule as c =>
      obtain ⟨-, has, hc⟩ := isComplete_iff.1 h
      refine isComplete_iff.2 ⟨rfl, fun f hf => ?_, isMissing_of_subst hc⟩
      exact isMissing_of_subst (has _ (List.mem_map_of_mem hf))

/-- A specialization stays one when variables are replaced in it, as long as nothing is missing. -/
theorem isSpecializationOf_subst_subst {special general : InferenceRule} {τ : String → Formula}
    (h : special.isSpecializationOf general = .ok true) (hspecial : special.isComplete = true)
    (hτ : (special.subst τ).isComplete = true) :
    (special.subst τ).isSpecializationOf general = .ok true := by
  rcases isSpecializationOf_inversion h with ⟨c, c', rfl, rfl, hmissing⟩ | ⟨-, σ, rfl⟩
  · -- a rule that lacks its conclusion fits everything without assumptions
    obtain ⟨-, -, hc'⟩ := isComplete_iff.1 hspecial
    have hc : c.isMissing = true := by
      rcases hmissing with hc | hmissing
      · exact hc
      · exact absurd hmissing (by rw [show c'.isMissing = false from hc']; exact Bool.false_ne_true)
    refine isSpecializationOf_eq_true.2 ⟨[], ?_⟩
    simp [InferenceRule.subst, images?_rule, formulaImages?, hc]
  · have hgeneral := isComplete_of_subst hspecial
    rw [subst_subst] at hτ ⊢
    exact isSpecializationOf_subst (isComplete_iff.1 hgeneral).1 fun _ => ⟨hgeneral, hτ⟩

end InferenceRule

/-! ## Images are formulas -/

/-- The images of a table are formulas of a language. -/
def ImagesWellFormed (d : Dialect) (m : Specialization) : Prop :=
  ∀ x g, Table.find? m x = some g → g.WellFormed d

theorem ImagesWellFormed.imageIn {d : Dialect} {m : Specialization} (h : ImagesWellFormed d m)
    {x : String} (hx : isVariable x = true) : (imageIn m x).WellFormed d := by
  unfold Formula.imageIn
  cases hg : Table.find? m x with
  | none => exact hx
  | some g => exact h x g hg

section Images

variable {d : Dialect} {m m' : Specialization}

theorem ImagesWellFormed.matchFormula {f g : Formula} (hm : ImagesWellFormed d m)
    (hg : g.WellFormed d) (h : matchFormula m f g = some m') : ImagesWellFormed d m' := by
  refine matchFormula_invariant (Q := Formula.WellFormed d) (fun _ hg => hg) (fun _ _ _ hg => hg.2)
    (fun m x g hm hg _ => ?_) hm hg h
  intro y g' hy
  rw [Table.find?_append] at hy
  rcases Option.or_eq_some_iff.1 hy with hy | ⟨-, hy⟩
  · exact hm y g' hy
  · rw [Table.find?_cons] at hy
    split at hy
    · rwa [← Option.some.inj hy]
    · cases hy

theorem ImagesWellFormed.matchFormulas {fs gs : List Formula} (hm : ImagesWellFormed d m)
    (hgs : ∀ g ∈ gs, g.WellFormed d) (h : matchFormulas m fs gs = some m') :
    ImagesWellFormed d m' :=
  matchFormulas_invariant (fun hm hg hf => hm.matchFormula hg hf) hm hgs h

theorem imagesWellFormed_nil : ImagesWellFormed d [] := by
  intro x g hx
  simp at hx

/-- The images found between two rules are formulas if those of the special rule are. -/
theorem InferenceRule.wellFormed_of_images? {general special : InferenceRule}
    (h : images? general special = .ok (some m)) (hspecial : ∀ f ∈ special.formulas, f.WellFormed d) :
    ImagesWellFormed d m := by
  rcases images?_cases h with ⟨c, c', rfl, rfl, hm⟩ | ⟨-, as, as', c, c', rfl, rfl, hm⟩
  · rw [formulaImages?] at hm
    split at hm
    · rw [← Option.some.inj hm]
      exact imagesWellFormed_nil
    · exact imagesWellFormed_nil.matchFormula (hspecial c' (by simp [formulas])) hm
  · exact imagesWellFormed_nil.matchFormulas hspecial hm

end Images

/-! ## Lines -/

/-- Replaces variables in the formula of a line. -/
def Line.subst (σ : String → Formula) (l : Line) : Line :=
  { l with formula := l.formula.subst σ }

@[simp] theorem Line.formula_subst (σ : String → Formula) (l : Line) :
    (l.subst σ).formula = l.formula.subst σ := rfl

@[simp] theorem Line.inference_subst (σ : String → Formula) (l : Line) :
    (l.subst σ).inference = l.inference := rfl

namespace Proof

/-- Replaces variables throughout a proof. Its lines keep their rules and citations. -/
def subst (σ : String → Formula) (pf : Proof) : Proof :=
  ⟨pf.statement.subst σ, pf.rules, pf.lines.map (Line.subst σ)⟩

/-- A proof that consists of formulas of a language. -/
structure WellFormed (d : Dialect) (pf : Proof) : Prop where
  statement : ∀ f ∈ pf.statement.formulas, f.WellFormed d
  lines : ∀ l ∈ pf.lines, l.formula.WellFormed d

instance (d : Dialect) (pf : Proof) : Decidable (pf.WellFormed d) :=
  decidable_of_iff ((∀ f ∈ pf.statement.formulas, f.WellFormed d) ∧
    ∀ l ∈ pf.lines, l.formula.WellFormed d) ⟨fun h => ⟨h.1, h.2⟩, fun h => ⟨h.1, h.2⟩⟩

variable {d : Dialect} {pf : Proof} {σ : String → Formula}

/-- The rule that leads from cited lines to a line consists of formulas. -/
theorem rule_wellFormed {premises : List Int} {cited : List Line} {l : Line}
    (hlines : ∀ l' ∈ pf.lines, l'.formula.WellFormed d) (hl : l.formula.WellFormed d)
    (hcited : List.Forall₂ (fun j l' => fetch pf.lines j = .ok l') premises cited) :
    (InferenceRule.rule (cited.map Line.formula) l.formula).WellFormed d := by
  refine ⟨rfl, List.forall_mem_append.2 ⟨List.forall_mem_map.2 fun l' hl' => ?_, ?_⟩⟩
  · obtain ⟨j, -, hj⟩ := exists_left_of_forall₂ hcited l' hl'
    exact hlines l' (mem_of_fetch hj)
  · exact List.forall_mem_singleton.2 hl

/-- A justified line stays justified when variables are replaced throughout the proof. Its citations are
read as before, from whichever end they count. -/
theorem Justified.subst {k : Nat} {l : Line} (h : pf.Justified k l)
    (hlines : ∀ l' ∈ pf.lines, l'.formula.WellFormed d) (hl : l.formula.WellFormed d)
    (hσ : ∀ x, isVariable x = true → (σ x).WellFormed d) : (pf.subst σ).Justified k (l.subst σ) := by
  unfold Justified at h ⊢
  rw [Line.inference_subst]
  cases hinf : l.inference with
  | none =>
      rw [hinf] at h
      show l.formula.subst σ ∈ (pf.statement.subst σ).assumptions
      rw [InferenceRule.assumptions_subst]
      exact List.mem_map_of_mem h
  | some inf =>
      rw [hinf] at h
      obtain ⟨hrule, hlt, cited, hcited, hspec⟩ := h
      refine ⟨hrule, hlt, cited.map (Line.subst σ), ?_, ?_⟩
      · exact List.forall₂_map_right_iff.2 (hcited.imp fun _ _ hj => fetch_map hj)
      -- the rule that leads to the line consists of formulas, before and after
      have hstep := rule_wellFormed hlines hl hcited
      have hsubst := InferenceRule.isSpecializationOf_subst_subst hspec hstep.isComplete
        (hstep.subst hσ).isComplete
      rw [InferenceRule.subst, List.map_map] at hsubst
      rw [List.map_map]
      exact hsubst

/-- An accepted proof is accepted after replacing variables throughout. -/
theorem isValid_subst (hpf : pf.WellFormed d) (hvalid : pf.isValid = .ok true)
    (hσ : ∀ x, isVariable x = true → (σ x).WellFormed d) : (pf.subst σ).isValid = .ok true := by
  obtain ⟨hlines, hgiven, last, hlast, hconclusion⟩ := isValid_eq_true.1 hvalid
  refine isValid_eq_true.2 ⟨?_, ?_, last.subst σ, ?_, ?_⟩
  · intro k l' hk
    obtain ⟨l, hl, rfl⟩ := Option.map_eq_some_iff.1 (List.getElem?_map ▸ hk)
    exact (hlines k l hl).subst hpf.lines (hpf.lines l (List.mem_of_getElem? hl)) hσ
  · show (pf.statement.subst σ).isMissing = false
    rw [InferenceRule.isMissing_subst, hgiven]
  · show (pf.lines.map (Line.subst σ)).getLast? = _
    rw [List.getLast?_map, hlast, Option.map_some]
  · rw [Line.formula_subst, hconclusion]
    exact (InferenceRule.conclusion_subst σ pf.statement).symm

theorem WellFormed.subst (hpf : pf.WellFormed d) (hstatement : pf.statement.isMissing = false)
    (hσ : ∀ x, isVariable x = true → (σ x).WellFormed d) : (pf.subst σ).WellFormed d where
  statement := (InferenceRule.WellFormed.subst ⟨hstatement, hpf.statement⟩ hσ).formulas
  lines := List.forall_mem_map.2 fun l hl => (hpf.lines l hl).specialize hσ

/-! ## Specialized proofs -/

/-- The statement of an accepted proof is a rule that was given. -/
theorem WellFormed.statement_wellFormed (h : pf.WellFormed d) (hvalid : pf.isValid = .ok true) :
    pf.statement.WellFormed d :=
  ⟨(isValid_eq_true.1 hvalid).2.1, h.statement⟩

theorem WellFormed.complete_eq_self (h : pf.WellFormed d) (hvalid : pf.isValid = .ok true) :
    pf.complete = .ok pf :=
  complete_eq_ok.2 ⟨(h.statement_wellFormed hvalid).isComplete,
    fun l hl => (h.lines l hl).isMissing_eq_false, rfl⟩

/-- An accepted proof that consists of formulas establishes the conclusion of its statement, if its
citations count from the front. -/
theorem WellFormed.establishes (h : pf.WellFormed d) (hvalid : pf.isValid = .ok true)
    (hfront : ∀ l ∈ pf.lines, ∀ j ∈ l.cited, 0 ≤ j) :
    pf.Establishes pf.statement.assumptions pf.statement.conclusion :=
  establishes_of_isValid hvalid hfront (h.complete_eq_self hvalid)

/-- Specializing an accepted proof replaces variables throughout, by images that make its statement the
special rule. -/
theorem exists_specialize_eq_subst {special : InferenceRule} (hpf : pf.WellFormed d)
    (hvalid : pf.isValid = .ok true) (hspecial : special.WellFormed d)
    (hspec : special.isSpecializationOf pf.statement = .ok true) :
    ∃ σ : String → Formula, (∀ x, isVariable x = true → (σ x).WellFormed d) ∧
      pf.statement.subst σ = special ∧ pf.specialize special = .ok (pf.subst σ) := by
  obtain ⟨m, hm⟩ := InferenceRule.isSpecializationOf_eq_true.1 hspec
  have himages := InferenceRule.wellFormed_of_images? hm hspecial.formulas
  have hrule := InferenceRule.subst_of_images? (hpf.statement_wellFormed hvalid).isComplete
    hspecial.isComplete hm
  refine ⟨imageIn m, fun x hx => himages.imageIn hx, hrule, ?_⟩
  have hrequired : pf.requireValid = .ok () := requireValid_eq_ok.2 hvalid
  have hspecialization : pf.specialization special = .ok m := by
    rw [specialization, hrequired, ok_bind, hm]
    rfl
  rw [Proof.specialize, hspecialization, ok_bind, hpf.complete_eq_self hvalid]
  rfl

theorem map_inference_subst (σ : String → Formula) (pf : Proof) :
    (pf.subst σ).lines.map Line.inference = pf.lines.map Line.inference := by
  rw [Proof.subst, List.map_map]
  rfl

/-- Replacing variables throughout a proof makes it a proof of the rule that its statement becomes. -/
theorem Establishes.subst {as as' : List Formula} {c c' : Formula} (h : pf.Establishes as c)
    (hpf : pf.WellFormed d) (hσ : ∀ x, isVariable x = true → (σ x).WellFormed d)
    (hrule : pf.statement.subst σ = .rule as' c') : (pf.subst σ).Establishes as' c' := by
  obtain ⟨-, -, hlines⟩ := establishes_iff.1 h
  refine establishes_iff.2 ⟨hrule, isValid_subst hpf h.isValid hσ, ?_⟩
  refine List.forall_mem_map.2 fun l hl => ⟨?_, (hlines l hl).2⟩
  exact ((hpf.lines l hl).specialize hσ).isMissing_eq_false

/-- Specializing a proof answers with a proof of the special rule, in which every line is justified in
the same way. -/
theorem Establishes.specialize {as as' : List Formula} {c c' : Formula} (h : pf.Establishes as c)
    (hpf : pf.WellFormed d)
    (hspecial : (InferenceRule.rule as' c').isSpecializationOf pf.statement = .ok true)
    (hformulas : ∀ f ∈ as' ++ [c'], f.WellFormed d) :
    ∃ q, pf.specialize (.rule as' c') = .ok q ∧ q.Establishes as' c' ∧ q.WellFormed d ∧
      q.rules = pf.rules ∧ q.lines.map Line.inference = pf.lines.map Line.inference := by
  have hwellFormed : (InferenceRule.rule as' c').WellFormed d := ⟨rfl, hformulas⟩
  obtain ⟨σ, hσ, hrule, hrun⟩ := exists_specialize_eq_subst hpf h.isValid hwellFormed hspecial
  have hgiven := (hpf.statement_wellFormed h.isValid).given
  exact ⟨pf.subst σ, hrun, h.subst hpf hσ hrule, hpf.subst hgiven hσ, rfl, map_inference_subst σ pf⟩

/-- Specializing an accepted proof, wherever its citations count from, answers with an accepted proof of the
special rule by the same rules. Every line cites the same rule and the same positions as the original one. -/
theorem specialize_isValid {special : InferenceRule} (hvalid : pf.isValid = .ok true)
    (hpf : pf.WellFormed Connective.all) (hspecial : special.WellFormed Connective.all)
    (hspec : special.isSpecializationOf pf.statement = .ok true) :
    ∃ q, pf.specialize special = .ok q ∧ q.isValid = .ok true ∧ q.statement = special ∧
      q.rules = pf.rules ∧ q.lines.length = pf.lines.length ∧
      q.lines.map Line.inference = pf.lines.map Line.inference := by
  obtain ⟨σ, hσ, hrule, hrun⟩ := exists_specialize_eq_subst hpf hvalid hspecial hspec
  exact ⟨pf.subst σ, hrun, isValid_subst hpf hvalid hσ, hrule, rfl, List.length_map _,
    map_inference_subst σ pf⟩

open Axioms in
/-- A proof that cites its first line from the end, and has a variable that its statement does not have. -/
theorem specialize_isValid_from_end :
    let pf := make (.rule [p] (imp q p)) [MP, I1]
      [.assumed p, .inferred (imp r (imp p r)) I1 [], .inferred (imp p (imp q p)) I1 [],
        .inferred (imp q p) MP [-4, 2]]
    let special := InferenceRule.rule [neg r] (imp (imp p (const true)) (neg r))
    pf.isValid = .ok true ∧ special.isSpecializationOf pf.statement = .ok true ∧
      ∃ result, pf.specialize special = .ok result ∧ result.isValid = .ok true ∧
        result.statement = special ∧ result.rules = [MP, I1] ∧
        result.lines.map Line.inference = pf.lines.map Line.inference := by
  intro pf special
  have hvalid : pf.isValid = .ok true := by decide
  have hspec : special.isSpecializationOf pf.statement = .ok true := by decide
  obtain ⟨result, hrun, haccepted, hstatement, hrules, -, hlines⟩ :=
    specialize_isValid hvalid (by decide) (by decide) hspec
  exact ⟨hvalid, hspec, result, hrun, haccepted, hstatement, hrules, hlines⟩

end Proof

end FormalLogic.Propositional
