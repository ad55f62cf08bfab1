import FormalLogic.Propositional.Axioms
import FormalLogic.Proofs.Propositional.Checking
import FormalLogic.Proofs.Propositional.Semantics
import Mathlib.Logic.Relation

/-!
# Soundness of the proof checker

If all rules of an accepted proof are sound and its lines are cited from the front, then its
statement is sound: by induction over the lines, every line holds wherever the assumptions hold.

That citations count from the front is needed. A citation is compared with the position of the
citing line as a number, and a negative number is smaller than every position, but it is read from
the end of the proof. The second part says exactly which citations of an accepted line denote an
earlier one.
-/

namespace FormalLogic.Propositional

namespace Proof

/-! ## Lines hold wherever the assumptions hold -/

/-- A justified line that cites lines which hold, holds itself, if its rule is sound. -/
theorem Justified.eval_eq_true {pf : Proof} {k : Nat} {l : Line} {v : String → Bool}
    (hl : pf.Justified k l) (hrules : ∀ r ∈ pf.rules, r.isComplete = true ∧ r.isSound = true)
    (hassumptions : ∀ f ∈ pf.statement.assumptions, f.eval v = true)
    (hcited : ∀ j ∈ l.cited, ∀ l', fetch pf.lines j = .ok l' → l'.formula.isMissing = false →
      l'.formula.eval v = true)
    (hgiven : l.formula.isMissing = false) : l.formula.eval v = true := by
  unfold Justified at hl
  cases hinf : l.inference with
  | none =>
      rw [hinf] at hl
      exact hassumptions l.formula hl
  | some inf =>
      rw [hinf] at hl
      obtain ⟨hrule, -, cited, hfetch, hspec⟩ := hl
      obtain ⟨hcomplete, hsound⟩ := hrules inf.rule hrule
      rcases InferenceRule.isSpecializationOf_inversion hspec with
        ⟨c, c', hgeneral, hspecial, hmissing⟩ | ⟨hspecial, σ, hσ⟩
      · -- a conclusion is missing: neither that of the sound rule nor that of the line
        rw [InferenceRule.rule.injEq] at hspecial
        rcases hmissing with hmissing | hmissing
        · rw [hgeneral] at hcomplete
          simp [InferenceRule.isComplete, InferenceRule.formulas, hmissing] at hcomplete
        · rw [hspecial.2, hmissing] at hgiven
          exact absurd hgiven (by decide)
      · -- the rule that leads to the line is an instance of the sound rule
        have hholds : (InferenceRule.rule (cited.map Line.formula) l.formula).holds v = true := by
          rw [hσ, InferenceRule.holds_subst]
          exact InferenceRule.isSound_iff.1 hsound _
        refine InferenceRule.holds_iff.1 hholds ?_
        intro f hf
        have hpresent : f.isMissing = false := by
          have h := InferenceRule.isComplete_iff.1 (hspecial (List.ne_nil_of_mem hf))
          exact h.2.1 f hf
        obtain ⟨l', hl', rfl⟩ := List.mem_map.1 hf
        obtain ⟨j, hj, hfetch⟩ := exists_left_of_forall₂ hfetch l' hl'
        refine hcited j ?_ l' hfetch hpresent
        rw [Line.cited, hinf]
        exact hj

/-- In an accepted proof by sound rules whose citations count from the front, every line holds wherever
the assumptions hold. -/
theorem eval_line_eq_true {pf : Proof} (hvalid : pf.isValid = .ok true)
    (hfront : ∀ l ∈ pf.lines, ∀ j ∈ l.cited, 0 ≤ j)
    (hrules : ∀ r ∈ pf.rules, r.isComplete = true ∧ r.isSound = true) {v : String → Bool}
    (hassumptions : ∀ f ∈ pf.statement.assumptions, f.eval v = true) {k : Nat} {l : Line}
    (hk : pf.lines[k]? = some l) (hgiven : l.formula.isMissing = false) :
    l.formula.eval v = true := by
  -- by induction on the position: an accepted line cites smaller numbers, which are positions
  induction k using Nat.strong_induction_on generalizing l with
  | _ k ih =>
      have hjustified : pf.Justified k l := (isValid_eq_true.1 hvalid).1 k l hk
      refine hjustified.eval_eq_true hrules hassumptions ?_ hgiven
      intro j hj l' hfetch hgiven'
      obtain ⟨i, rfl⟩ := Int.eq_ofNat_of_zero_le (hfront l (List.mem_of_getElem? hk) j hj)
      have hik : i < k := Int.ofNat_lt.1 (hjustified.of_mem_cited hj).1
      exact ih i hik (fetch_natCast_eq_ok.1 hfetch) hgiven'

/-- The checker is sound. If it accepts a proof whose citations count from the front, all of whose rules
are sound, then the statement of the proof is sound: in every valuation in which its assumptions are
true, its conclusion is. -/
theorem isSound_statement_of_isValid {pf : Proof} (hvalid : pf.isValid = .ok true)
    (hfront : ∀ l ∈ pf.lines, ∀ j ∈ l.cited, 0 ≤ j)
    (hrules : ∀ r ∈ pf.rules, r.isComplete = true ∧ r.isSound = true)
    (hstatement : pf.statement.isComplete = true) :
    pf.statement.isSound = true ∧
      ∀ m : Valuation, (∀ f ∈ pf.statement.assumptions, f.evaluate m = .ok true) →
        subset pf.statement.conclusion.vars (Table.keys m) = true →
        pf.statement.conclusion.evaluate m = .ok true := by
  obtain ⟨-, -, last, hlast, hconclusion⟩ := isValid_eq_true.1 hvalid
  have hpresent := (InferenceRule.isComplete_iff.1 hstatement).2.2
  have htrue : ∀ v, (∀ f ∈ pf.statement.assumptions, f.eval v = true) →
      pf.statement.conclusion.eval v = true := by
    intro v hv
    rw [List.getLast?_eq_getElem?] at hlast
    rw [← hconclusion] at hpresent ⊢
    exact eval_line_eq_true hvalid hfront hrules hv hlast hpresent
  constructor
  · exact InferenceRule.isSound_iff.2 fun v => InferenceRule.holds_iff.2 (htrue v)
  · intro m hm hcovered
    refine Formula.evaluate_eq_ok.2 ⟨hpresent, hcovered, htrue m.value ?_⟩
    intro f hf
    exact (Formula.evaluate_eq_ok.1 (hm f hf)).2.2

/-- Modus ponens itself has a proof by modus ponens, and so it is sound. -/
theorem isSound_statement_of_isValid_modusPonens :
    let pf := make Axioms.MP [Axioms.MP]
      [.assumed (.var "p"), .assumed (.bin .implies (.var "p") (.var "q")),
        .inferred (.var "q") Axioms.MP [0, 1]]
    pf.isValid = .ok true ∧ pf.statement.isSound = true := by
  intro pf
  have hvalid : pf.isValid = .ok true := by decide
  have hMP : Axioms.MP.isSound = true := by
    refine InferenceRule.isSound_iff.2 fun v => InferenceRule.holds_iff.2 ?_
    intro h
    have hp : v "p" = true := h (.var "p") (by simp [Axioms.MP, InferenceRule.assumptions])
    have hpq := h (.bin .implies (.var "p") (.var "q"))
      (by simp [Axioms.MP, InferenceRule.assumptions])
    simpa [Axioms.MP, InferenceRule.conclusion, Formula.eval, Connective.eval, hp] using hpq
  have hrules : ∀ r ∈ pf.rules, r.isComplete = true ∧ r.isSound = true := by
    intro r hr
    obtain rfl := List.mem_singleton.1 (show r ∈ [Axioms.MP] from hr)
    exact ⟨by decide, hMP⟩
  exact ⟨hvalid, (isSound_statement_of_isValid hvalid (by decide) hrules (by decide)).1⟩

/-! ## Circular citations -/

/-- Whether the line at one position cites the line at another. -/
def Cites (pf : Proof) (n k : Nat) : Prop :=
  ∃ l, pf.lines[n]? = some l ∧ ∃ i ∈ l.cited, place? pf.lines.length i = some k

/-- Whether every citation counts from the front, or far enough from the end to be read before the
line that makes it. -/
def LooksBack (pf : Proof) : Prop :=
  ∀ (n : Nat) (l : Line), pf.lines[n]? = some l → ∀ i ∈ l.cited, 0 ≤ i ∨ i + pf.lines.length < n

/-- Where a citation of a justified line is read. -/
theorem Justified.place?_of_mem_cited {pf : Proof} {n : Nat} {l : Line} (h : pf.Justified n l)
    {i : Int} (hi : i ∈ l.cited) :
    ∃ k, place? pf.lines.length i = some k ∧ (k < n ↔ 0 ≤ i ∨ i + pf.lines.length < n) := by
  obtain ⟨hlt, l', hfetch⟩ := h.of_mem_cited hi
  obtain ⟨k, hk, -⟩ := fetch_eq_ok.1 hfetch
  refine ⟨k, hk, ?_⟩
  obtain ⟨hklen, hik⟩ := place?_eq_some.1 hk
  omega

/-- If every line cites earlier ones only, then no line is reached from itself by citations. -/
theorem not_transGen_cites_self {pf : Proof} (h : ∀ n k, pf.Cites n k → k < n) (n : Nat) :
    ¬ Relation.TransGen pf.Cites n n := by
  have hlt : ∀ k, Relation.TransGen pf.Cites n k → k < n := by
    intro k hk
    induction hk with
    | single hcites => exact h _ _ hcites
    | tail _ hcites ih => exact (h _ _ hcites).trans ih
  exact fun hn => lt_irrefl n (hlt n hn)

/-- A citation of an accepted line is read at an earlier position exactly if it counts from the front,
or from the end to before the line. So the lines of an accepted proof cite earlier ones only if and only
if all its citations are of this kind, and then no line is reached from itself by citations. -/
theorem cites_earlier_iff_looksBack (pf : Proof) :
    (∀ (n : Nat) (l : Line), pf.lines[n]? = some l → pf.lineValid n = .ok true → ∀ i ∈ l.cited,
      ∃ k, place? pf.lines.length i = some k ∧ (k < n ↔ 0 ≤ i ∨ i + pf.lines.length < n)) ∧
    (pf.isValid = .ok true →
      ((∀ n k, pf.Cites n k → k < n) ↔ pf.LooksBack) ∧
      (pf.LooksBack → ∀ n, ¬ Relation.TransGen pf.Cites n n)) := by
  refine ⟨fun n l hn hvalid i hi => ((lineValid_eq_true hn).1 hvalid).place?_of_mem_cited hi, ?_⟩
  intro hvalid
  have hjustified := (isValid_eq_true.1 hvalid).1
  have hiff : (∀ n k, pf.Cites n k → k < n) ↔ pf.LooksBack := by
    constructor
    · intro h n l hn i hi
      obtain ⟨k, hk, hkn⟩ := (hjustified n l hn).place?_of_mem_cited hi
      exact hkn.1 (h n k ⟨l, hn, i, hi, hk⟩)
    · rintro h n k ⟨l, hn, i, hi, hk⟩
      obtain ⟨k', hk', hkn⟩ := (hjustified n l hn).place?_of_mem_cited hi
      rw [hk, Option.some.injEq] at hk'
      exact hk' ▸ hkn.2 (h n l hn i hi)
  exact ⟨hiff, fun h => not_transGen_cites_self (hiff.2 h)⟩

/-- Citations from the end can look back: here modus ponens is used on the first two of three lines. -/
theorem cites_earlier_iff_looksBack_from_end :
    let pf := make Axioms.MP [Axioms.MP]
      [.assumed (.var "p"), .assumed (.bin .implies (.var "p") (.var "q")),
        .inferred (.var "q") Axioms.MP [-3, -2]]
    pf.isValid = .ok true ∧ pf.LooksBack ∧ ∀ n, ¬ Relation.TransGen pf.Cites n n := by
  intro pf
  have hvalid : pf.isValid = .ok true := by decide
  have hback : pf.LooksBack := by
    intro n l hn
    have hlt : n < 3 := (List.getElem?_eq_some_iff.1 hn).1
    match n, hlt with
    | 0, _ | 1, _ | 2, _ =>
        obtain rfl := Option.some.inj hn
        decide
  exact ⟨hvalid, hback, ((cites_earlier_iff_looksBack pf).2 hvalid).2 hback⟩

/-- Accepted lines can be circular: a line that cites itself from the end of the proof is accepted as a
proof of any formula, although its rule is sound. -/
theorem accepts_circular_line :
    let pf := make (.rule [] (.var "q")) [.rule [.var "p"] (.var "p")]
      [.inferred (.var "q") (.rule [.var "p"] (.var "p")) [-1]]
    pf.lineValid 0 = .ok true ∧ pf.isValid = .ok true ∧ pf.Cites 0 0 ∧ pf.statement.isSound = false := by
  intro pf
  refine ⟨by decide, by decide, ⟨_, rfl, -1, by decide, by decide⟩, ?_⟩
  rw [← Bool.not_eq_true, InferenceRule.isSound_iff]
  intro h
  exact absurd (h fun _ => false) (by decide)

end Proof

end FormalLogic.Propositional
