import FormalLogic.Propositional.Tautology
import FormalLogic.Proofs.Propositional.Deduction

/-!
# Indirect proof

Three ways to prove a formula other than directly: from a formula and its negation
(`Establishes.ofInconsistency`), from a contradiction that follows from its negation
(`Establishes.byContradiction`), and by cases on the last assumption (`Establishes.reduceAssumption`). Each is
an axiom detached from proofs that are put behind each other, in two of them after the deduction theorem has
discharged the last assumption. They add to the given rules exactly those that they use
(`indirect_proofs_isValid`).
-/

namespace FormalLogic.Propositional

open Formula Axioms

namespace Proof

section Establishes

variable {pf pf' : Proof} {as : List Formula} {a c g : Formula}

/-! ## From a formula and its negation -/

/-- From proofs of a formula and of its negation results one of anything. -/
theorem Establishes.ofInconsistency (h : pf.Establishes as a) (h' : pf'.Establishes as (neg a))
    (hrules : sameSet pf.rules pf'.rules = true) (hc : c.isMissing = false) :
    ∃ q, pf.ofInconsistency pf' c = .ok q ∧ q.Establishes as c ∧
      q.rules = (pf.rules ++ [I2, MP]).eraseDups := by
  have hlines : Derivation as (pf.rules ++ [I2, MP])
      (pf.lines ++ pf'.lines.map (Line.shift pf.lines.length)) :=
    (h.append h' hrules).mono (List.Subset.refl as) (List.subset_append_left _ _)
  -- the negation stands on the last line of the second part, the formula on that of the first
  have hdetached := hlines.detachTwice (r := I2) (by simp) (by simp) (h'.ends.shift pf.lines _)
    (h.ends.append _) hc (isSpecializationOf_schema (imp (neg p) (imp p q)) a c a)
  rw [h.natCast_length_sub_one, Int.natCast_add, h'.natCast_length_sub_one, ← Int.add_sub_assoc,
    List.length_append, List.length_map, Int.natCast_add] at hdetached
  have hvalid : pf.requireValid = .ok () := requireValid_eq_ok.2 h.isValid
  have hvalid' : pf'.requireValid = .ok () := requireValid_eq_ok.2 h'.isValid
  have hpresent : requirePresent [a, c] = .ok () :=
    requirePresent_eq_ok.2 (by simp [h.present, hc])
  refine ⟨_, ?_, establishes_make hdetached (by simp [Shows]), rfl⟩
  simp only [Proof.ofInconsistency, hvalid, hvalid', h.statement_eq, h'.statement_eq,
    InferenceRule.assumptions, InferenceRule.conclusion, decide_true, require_true, ok_bind,
    hpresent, hrules]
  rfl

/-! ## By contradiction -/

/-- From a proof of the absurdity whose last assumption is the negation of `g` results one of `g`. -/
theorem Establishes.byContradiction (h : pf.Establishes (as ++ [neg g]) absurdity)
    (hg : g.isMissing = false)
    (haxioms : ∀ r ∈ pf.rules, r = MP ∨ r.isMissing = false ∧ r.assumptions = []) :
    ∃ q, pf.byContradiction = .ok q ∧ q.Establishes as g ∧
      q.rules = ((pf.rules.filter fun r => decide (r ≠ MP)) ++ [I0, I1, D, N, MP]).eraseDups := by
  obtain ⟨discharged, hdischarged, hd, hrules⟩ := h.removeAssumption rfl haxioms
  have hsubset : discharged.rules ⊆
      (pf.rules.filter fun r => decide (r ≠ MP)) ++ [I0, I1, D, N, MP] := by
    intro r hr
    rw [hrules, List.mem_eraseDups, mem_addRules] at hr
    by_cases hMP : r = MP
    · simp [hMP]
    · rcases hr with hr | hr
      · exact List.mem_append_left _ (List.mem_filter.2 ⟨hr, decide_eq_true hMP⟩)
      · refine List.mem_append_right _ ?_
        simp only [List.mem_cons, List.not_mem_nil, or_false] at hr ⊢
        tauto
  have hlines := hd.derivation.mono (List.Subset.refl as) hsubset
  -- contraposition turns it round, and what is to follow from a tautology follows
  have hstep := hlines.detach (r := N) (by simp) (by simp) hd.ends (g := imp (imp p p) g) rfl
    (isSpecializationOf_schema (imp (imp (neg q) (neg p)) (imp p q)) (imp p p) g g)
  rw [hd.natCast_length_sub_one] at hstep
  have htautology := derivation_concat.2 ⟨hstep, follows_schema (f := imp p p) (r := I0) (by simp) rfl
    (isSpecializationOf_schema (imp p p) p p p)⟩
  have hgoal := derivation_concat.2 ⟨htautology, follows_modusPonens (by simp)
    (i := discharged.lines.length + 2) (j := discharged.lines.length + 1) (f := imp p p) (g := g)
    (by simp [Shows]) (by simp [Shows]) rfl hg⟩
  have hvalid : pf.requireValid = .ok () := requireValid_eq_ok.2 h.isValid
  have hrequired : pf.requireAxioms = .ok () := requireAxioms_eq_ok.2 haxioms
  simp only [List.append_assoc, List.cons_append, List.nil_append] at hgoal
  refine ⟨_, ?_, establishes_make hgoal (by simp [Shows]), rfl⟩
  simp only [Proof.byContradiction, hvalid, h.conclusion_eq, decide_true, require_true, ok_bind,
    h.lastAssumption, hrequired, hdischarged]
  rfl

/-! ## By cases -/

/-- From proofs of the same formula whose last assumptions are `a` and the negation of `a` results one
without that assumption. -/
theorem Establishes.reduceAssumption (h : pf.Establishes (as ++ [a]) c)
    (h' : pf'.Establishes (as ++ [neg a]) c) (ha : a.isMissing = false)
    (hrules : sameSet pf.rules pf'.rules = true)
    (haxioms : ∀ r ∈ pf.rules, r = MP ∨ r.isMissing = false ∧ r.assumptions = []) :
    ∃ q, pf.reduceAssumption pf' = .ok q ∧ q.Establishes as c ∧
      q.rules = (addRules pf.rules [MP, I0, I1, D, R]).eraseDups := by
  have hsame := sameSet_eq_true.1 hrules
  obtain ⟨removed, hremoved, hac, hremovedRules⟩ := h.removeAssumption ha haxioms
  obtain ⟨removed', hremoved', hnac, hremovedRules'⟩ :=
    h'.removeAssumption rfl fun r hr => haxioms r (hsame.2 hr)
  -- the same rules were added to the same rules
  have hrules' : sameSet removed.rules removed'.rules = true := by
    rw [sameSet_eq_true, hremovedRules, hremovedRules']
    constructor
    · intro r hr
      rw [List.mem_eraseDups, mem_addRules] at hr ⊢
      exact hr.imp_left fun hr => hsame.1 hr
    · intro r hr
      rw [List.mem_eraseDups, mem_addRules] at hr ⊢
      exact hr.imp_left fun hr => hsame.2 hr
  have hMP : MP ∈ removed.rules := by
    rw [hremovedRules, List.mem_eraseDups, mem_addRules]
    exact .inr (by simp)
  obtain ⟨combined, hcombined, hc, hcombinedRules⟩ := hac.combine hnac hrules' hMP (r := R) h.present
    (isSpecializationOf_schema (imp (imp q p) (imp (imp (neg q) p) p)) c a c)
  have hsubset : combined.rules ⊆ addRules pf.rules [MP, I0, I1, D, R] := by
    intro r hr
    rw [hcombinedRules, List.mem_eraseDups, List.mem_append, hremovedRules, List.mem_eraseDups,
      mem_addRules] at hr
    rw [mem_addRules]
    simp only [List.mem_cons, List.not_mem_nil, or_false] at hr ⊢
    tauto
  have hvalid : pf.requireValid = .ok () := requireValid_eq_ok.2 h.isValid
  have hvalid' : pf'.requireValid = .ok () := requireValid_eq_ok.2 h'.isValid
  have hpresent : requirePresent [a] = .ok () := requirePresent_eq_ok.2 (by simpa using ha)
  refine ⟨_, ?_,
    establishes_make (hc.derivation.mono (List.Subset.refl as) hsubset) hc.ends, rfl⟩
  simp only [Proof.reduceAssumption, hvalid, hvalid', h.conclusion_eq, h'.conclusion_eq,
    h.lastAssumption, h'.lastAssumption, decide_true, require_true, ok_bind, hpresent, hrules,
    hremoved, hremoved', hcombined, hc.statement_eq]
  rfl

end Establishes

/-! ## For accepted proofs -/

/-- An accepted proof of `c` from the assumptions by exactly the given rules, in any order. -/
structure ProvesBy (pf : Proof) (as : List Formula) (c : Formula) (rules : List InferenceRule) :
    Prop where
  isValid : pf.isValid = .ok true
  statement_eq : pf.statement = .rule as c
  nodup_rules : pf.rules.Nodup
  mem_rules : ∀ r, r ∈ pf.rules ↔ r ∈ rules

theorem Establishes.provesBy {pf : Proof} {as : List Formula} {c : Formula}
    {rules rules' : List InferenceRule} (h : pf.Establishes as c) (hrules : pf.rules = rules'.eraseDups)
    (hsame : ∀ r, r ∈ rules' ↔ r ∈ rules) : pf.ProvesBy as c rules where
  isValid := h.isValid
  statement_eq := h.statement_eq
  nodup_rules := by
    rw [hrules]
    exact nodup_eraseDups rules'
  mem_rules r := by rw [hrules, List.mem_eraseDups, hsame]

theorem Accepted.establishes_of_eq {pf : Proof} (h : pf.Accepted) {as : List Formula} {c : Formula}
    (hstatement : pf.statement = .rule as c) : pf.Establishes as c := by
  have hestablishes := h.establishes
  rw [hstatement] at hestablishes
  exact hestablishes

/-- Indirect proof from accepted proofs. From a proof of a formula and one of its negation, from the same
assumptions and by the same rules, anything is proved from these assumptions, by `MP` and `I2` next to these
rules. From a proof of the absurdity by axioms and modus ponens whose last assumption is the negation of `g`,
`g` is proved from the other assumptions, by `MP`, `I0`, `I1`, `D` and `N` next to these rules. From two proofs
of a formula by the same axioms and modus ponens, whose last assumptions are `a` and its negation and whose
other assumptions are the same, the formula is proved from these, by `MP`, `I0`, `I1`, `D` and `R` next to
the same rules. -/
theorem indirect_proofs_isValid {pf : Proof} (hpf : pf.Accepted) :
    (∀ (pf' : Proof) (c : Formula), pf'.Accepted →
      pf'.statement = .rule pf.statement.assumptions (neg pf.statement.conclusion) →
      sameSet pf.rules pf'.rules = true → c.isMissing = false →
      ∃ q, pf.ofInconsistency pf' c = .ok q ∧
        q.ProvesBy pf.statement.assumptions c (pf.rules ++ [MP, I2])) ∧
    ((∀ r ∈ pf.rules, r = MP ∨ r.isMissing = false ∧ r.assumptions = []) →
      (∀ (as : List Formula) (g : Formula), pf.statement = .rule (as ++ [neg g]) absurdity →
        g.isMissing = false →
        ∃ q, pf.byContradiction = .ok q ∧ q.ProvesBy as g (pf.rules ++ [MP, I0, I1, D, N])) ∧
      ∀ (pf' : Proof) (as : List Formula) (a c : Formula), pf'.Accepted →
        pf.statement = .rule (as ++ [a]) c → pf'.statement = .rule (as ++ [neg a]) c →
        sameSet pf.rules pf'.rules = true →
        ∃ q, pf.reduceAssumption pf' = .ok q ∧
          q.ProvesBy as c (pf.rules ++ [MP, I0, I1, D, R])) := by
  refine ⟨?_, fun haxioms => ⟨?_, ?_⟩⟩
  · intro pf' c hpf' hstatement hrules hc
    obtain ⟨q, hq, hestablishes, hqrules⟩ :=
      hpf.establishes.ofInconsistency (hpf'.establishes_of_eq hstatement) hrules hc
    refine ⟨q, hq, hestablishes.provesBy hqrules fun r => ?_⟩
    simp only [List.mem_append, List.mem_cons, List.not_mem_nil, or_false]
    tauto
  · intro as g hstatement hg
    obtain ⟨q, hq, hestablishes, hqrules⟩ :=
      (hpf.establishes_of_eq hstatement).byContradiction hg haxioms
    refine ⟨q, hq, hestablishes.provesBy hqrules fun r => ?_⟩
    simp only [List.mem_append, List.mem_filter, decide_eq_true_eq, List.mem_cons, List.not_mem_nil,
      or_false]
    tauto
  · intro pf' as a c hpf' hstatement hstatement' hrules
    have ha : a.isMissing = false := by
      refine hpf.present_of_mem ?_
      rw [hstatement]
      exact List.mem_concat_self
    obtain ⟨q, hq, hestablishes, hqrules⟩ := (hpf.establishes_of_eq hstatement).reduceAssumption
      (hpf'.establishes_of_eq hstatement') ha hrules haxioms
    refine ⟨q, hq, hestablishes.provesBy hqrules fun r => ?_⟩
    rw [mem_addRules, List.mem_append]

/-- From `p` and its negation `q` is proved; from the negation of `q`, which leads to the absurdity, `q` is
proved; and `q` or not, `p` is implied by it. -/
theorem indirect_proofs_isValid_each :
    let given := [p, neg p]
    let affirmed := make (.rule given p) [] [.assumed p]
    let denied := make (.rule given (neg p)) [] [.assumed p, .assumed (neg p)]
    let absurd := make (.rule [imp (neg q) absurdity, neg q] absurdity) [MP]
      [.assumed (neg q), .assumed (imp (neg q) absurdity), .inferred absurdity MP [0, 1]]
    let weakening := [.assumed p, .inferred (imp p (imp q p)) I1 [], .inferred (imp q p) MP [0, 1]]
    let first := make (.rule [p, q] (imp q p)) [MP, I1] weakening
    let second := make (.rule [p, neg q] (imp q p)) [I1, MP] weakening
    (∃ answer, affirmed.ofInconsistency denied q = .ok answer ∧
      answer.ProvesBy given q [MP, I2]) ∧
    (∃ answer, absurd.byContradiction = .ok answer ∧
      answer.ProvesBy [imp (neg q) absurdity] q [MP, MP, I0, I1, D, N]) ∧
    ∃ answer, first.reduceAssumption second = .ok answer ∧
      answer.ProvesBy [p] (imp q p) [MP, I1, MP, I0, I1, D, R] := by
  intro given affirmed denied absurd weakening first second
  have haffirmed : affirmed.Accepted := ⟨by decide, by decide, by decide⟩
  have hdenied : denied.Accepted := ⟨by decide, by decide, by decide⟩
  have habsurd : absurd.Accepted := ⟨by decide, by decide, by decide⟩
  have hfirst : first.Accepted := ⟨by decide, by decide, by decide⟩
  have hsecond : second.Accepted := ⟨by decide, by decide, by decide⟩
  refine ⟨(indirect_proofs_isValid haffirmed).1 denied q hdenied rfl (by decide) rfl,
    ((indirect_proofs_isValid habsurd).2 (by decide)).1 [imp (neg q) absurdity] q rfl rfl, ?_⟩
  exact ((indirect_proofs_isValid hfirst).2 (by decide)).2 second [p] q (imp q p) hsecond rfl rfl
    (by decide)

end Proof

end FormalLogic.Propositional
