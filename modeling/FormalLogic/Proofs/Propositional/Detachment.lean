import FormalLogic.Proofs.Propositional.Deduction

/-!
# Which detachments are accepted

A consequence of given proofs is written behind them: an implication that holds by a rule, and modus ponens
for each of its antecedents. The answer has the rules of the given proofs and the rule of the implication.
Modus ponens is not added to them, so the checker accepts the answer exactly if the given proofs have it
already (`corollary_combine_detaches`).
-/

namespace FormalLogic.Propositional

open Formula Axioms

/-- The rule of an implication that is written without citations is not modus ponens. -/
theorem ne_modusPonens_of_schema {f : Formula} {r : InferenceRule}
    (h : (schema f).isSpecializationOf r = .ok true) : r ≠ MP := by
  rintro rfl
  have hno : (schema f).isSpecializationOf MP = .ok false := rfl
  rw [hno] at h
  cases h

namespace Proof

/-- What it is to detach `c` from a proof by the rule `r`: the answer is a proof of `c` from the same
assumptions by the same rules and `r`, and it is accepted exactly if modus ponens is one of the same
rules. -/
structure Detaches (pf : Proof) (r : InferenceRule) (c : Formula) (answer : Proof) : Prop where
  statement_eq : answer.statement = .rule pf.statement.assumptions c
  nodup_rules : answer.rules.Nodup
  mem_rules : ∀ r', r' ∈ answer.rules ↔ r' ∈ pf.rules ∨ r' = r
  isValid_eq : answer.isValid = .ok (decide (MP ∈ pf.rules))

section Detaches

variable {pf pf' : Proof} {r : InferenceRule} {a b c : Formula} {as : List Formula}

theorem mem_rules_make {statement : InferenceRule} {rules : List InferenceRule} {lines : List Line}
    {r' : InferenceRule} :
    r' ∈ (make statement (rules ++ [r]) lines).rules ↔ r' ∈ rules ∨ r' = r := by
  rw [make, List.mem_eraseDups, List.mem_append, List.mem_singleton]

/-- Lines by modus ponens behind a derivation are refused in a proof without modus ponens. -/
theorem isValid_make_of_notMem {rules : List InferenceRule} {done more : List Line}
    (hdone : Derivation as (rules ++ [r]) done) (hr : r ≠ MP) (hMP : MP ∉ rules) (hne : more ≠ [])
    (hmore : ∀ l ∈ more, l.rule = MP) :
    (make (.rule as c) (rules ++ [r]) (done ++ more)).isValid = .ok false := by
  have hforeign : MP ∉ (make (.rule as c) (rules ++ [r]) (done ++ more)).rules := by
    rw [mem_rules_make]
    rintro (h | h)
    · exact hMP h
    · exact hr h.symm
  refine isValid_of_notMem_rules rfl (fun k l hk => justified_of_derivation rfl ?_ hk) hne ?_
  · exact hdone.mono (List.Subset.refl as) fun r' hr' => List.mem_eraseDups.2 hr'
  · rintro ⟨f, inference⟩ hl
    cases inference with
    | none => exact absurd (hmore _ hl) (by simp [Line.rule, MP])
    | some inf =>
        have hrule : inf.rule = MP := hmore _ hl
        exact ⟨inf, rfl, hrule ▸ hforeign⟩

/-- An implication by the rule and further lines by modus ponens, behind a derivation, detach what they are
to detach, if the checker accepts them in the presence of modus ponens. -/
theorem detaches_make {lines more : List Line} {f : Formula} (has : pf.statement.assumptions = as)
    (hlines : Derivation as pf.rules lines) (hf : f.isMissing = false)
    (hspec : (schema f).isSpecializationOf r = .ok true) (hne : more ≠ [])
    (hmore : ∀ l ∈ more, l.rule = MP)
    (hvalid : MP ∈ pf.rules →
      (make (.rule as c) (pf.rules ++ [r]) (lines ++ .inferred f r [] :: more)).isValid = .ok true) :
    Detaches pf r c (make (.rule as c) (pf.rules ++ [r]) (lines ++ .inferred f r [] :: more)) := by
  refine ⟨by rw [has]; rfl, nodup_eraseDups _, fun _ => mem_rules_make, ?_⟩
  by_cases hMP : MP ∈ pf.rules
  · rw [hvalid hMP, decide_eq_true hMP]
  · have hdone : Derivation as (pf.rules ++ [r]) (lines ++ [.inferred f r []]) :=
      derivation_concat.2 ⟨hlines.mono (List.Subset.refl as) (List.subset_append_left _ _),
        follows_schema List.mem_concat_self hf hspec⟩
    rw [List.append_cons lines, decide_eq_false hMP]
    exact isValid_make_of_notMem hdone (ne_modusPonens_of_schema hspec) hMP hne hmore

/-- A consequence is detached. -/
theorem Establishes.detaches_corollary (h : pf.Establishes as a) (hb : b.isMissing = false)
    (hspec : (schema (imp a b)).isSpecializationOf r = .ok true) :
    ∃ q, pf.corollary b r = .ok q ∧ Detaches pf r b q := by
  refine ⟨_, h.corollary_eq_ok hb hspec,
    detaches_make (by rw [h.statement_eq]; rfl) h.derivation rfl hspec (by simp) ?_ ?_⟩
  · simp [Line.rule, Line.inferred]
  · intro hMP
    obtain ⟨q, hq, hestablishes, -⟩ := h.corollary hMP hb hspec
    rw [h.corollary_eq_ok hb hspec] at hq
    exact Except.ok.inj hq ▸ hestablishes.isValid

/-- A consequence of two proofs is detached. -/
theorem Establishes.detaches_combine (h : pf.Establishes as a) (h' : pf'.Establishes as b)
    (hrules : sameSet pf.rules pf'.rules = true) (hc : c.isMissing = false)
    (hspec : (schema (imp a (imp b c))).isSpecializationOf r = .ok true) :
    ∃ q, pf.combine pf' c r = .ok q ∧ Detaches pf r c q := by
  refine ⟨_, h.combine_eq_ok h' hrules hc hspec,
    detaches_make (by rw [h.statement_eq]; rfl) (h.append h' hrules) rfl hspec (by simp) ?_ ?_⟩
  · simp [Line.rule, Line.inferred]
  · intro hMP
    obtain ⟨q, hq, hestablishes, -⟩ := h.combine h' hrules hMP hc hspec
    rw [h.combine_eq_ok h' hrules hc hspec] at hq
    exact Except.ok.inj hq ▸ hestablishes.isValid

end Detaches

/-- Detachment from accepted proofs. If the conclusion of a proof implies `c` by the rule `r`, or the
conclusions of two proofs from the same assumptions by the same rules do so one after the other, then the
consequence is answered: a proof of `c` from the same assumptions, by the same rules and `r`. The checker
accepts it if modus ponens is among the given rules, and refuses it if it is not. -/
theorem corollary_combine_detaches {pf : Proof} (hpf : pf.Accepted) {c : Formula}
    (hc : c.isMissing = false) {r : InferenceRule} :
    ((schema (imp pf.statement.conclusion c)).isSpecializationOf r = .ok true →
      ∃ q, pf.corollary c r = .ok q ∧ Detaches pf r c q) ∧
    ∀ pf' : Proof, pf'.Accepted → pf.statement.assumptions = pf'.statement.assumptions →
      sameSet pf.rules pf'.rules = true →
      (schema (imp pf.statement.conclusion
        (imp pf'.statement.conclusion c))).isSpecializationOf r = .ok true →
      ∃ q, pf.combine pf' c r = .ok q ∧ Detaches pf r c q := by
  refine ⟨hpf.establishes.detaches_corollary hc, ?_⟩
  intro pf' hpf' has hrules hspec
  have hestablishes' := hpf'.establishes
  rw [← has] at hestablishes'
  exact hpf.establishes.detaches_combine hestablishes' hrules hc hspec

/-- A conclusion by modus ponens and an assumption are combined into a conjunction, in either order of the
rules. -/
theorem corollary_combine_detaches_conjunction :
    let pf := make (.rule [p, imp p q] q) [MP, A]
      [.assumed p, .assumed (imp p q), .inferred q MP [0, 1]]
    let pf' := make (.rule [p, imp p q] p) [A, MP] [.assumed (imp p q), .assumed p]
    pf.isValid = .ok true ∧ pf'.isValid = .ok true ∧
      (∃ answer, pf.corollary (imp p q) I1 = .ok answer ∧ answer.isValid = .ok true ∧
        answer.statement = .rule [p, imp p q] (imp p q)) ∧
      ∃ answer, pf.combine pf' (conj q p) A = .ok answer ∧ answer.isValid = .ok true ∧
        answer.statement = .rule [p, imp p q] (conj q p) := by
  intro pf pf'
  have hpf : pf.Accepted := ⟨by decide, by decide, by decide⟩
  have hpf' : pf'.Accepted := ⟨by decide, by decide, by decide⟩
  have hMP : decide (MP ∈ pf.rules) = true := by decide
  obtain ⟨answer, hanswer, hdetaches⟩ :=
    (corollary_combine_detaches hpf (c := imp p q) rfl (r := I1)).1 (by decide)
  obtain ⟨answer', hanswer', hdetaches'⟩ :=
    (corollary_combine_detaches hpf (c := conj q p) rfl (r := A)).2 pf' hpf' rfl (by decide) (by decide)
  exact ⟨hpf.isValid, hpf'.isValid,
    ⟨answer, hanswer, by rw [hdetaches.isValid_eq, hMP], hdetaches.statement_eq⟩,
    answer', hanswer', by rw [hdetaches'.isValid_eq, hMP], hdetaches'.statement_eq⟩

/-- An assumption is a proof by no rules at all. The consequences drawn from it have one rule each, which is not
modus ponens, and are refused. -/
theorem corollary_combine_without_modusPonens :
    let pf := make (.rule [p] p) [] [.assumed p]
    pf.isValid = .ok true ∧
      (∃ answer, pf.corollary (imp q p) I1 = .ok answer ∧ answer.isValid = .ok false ∧
        answer.rules = [I1]) ∧
      ∃ answer, pf.combine pf (conj p p) A = .ok answer ∧ answer.isValid = .ok false ∧
        answer.rules = [A] := by
  intro pf
  exact ⟨by decide, ⟨_, rfl, by decide, by decide⟩, _, rfl, by decide, by decide⟩

end Proof

end FormalLogic.Propositional
