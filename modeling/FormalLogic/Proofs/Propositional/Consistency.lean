import FormalLogic.Proofs.Propositional.Tautology
import Mathlib

/-!
# Sound rules and consistent sets

A rule is sound exactly if the chain of implications from its assumptions to its conclusion is a tautology. A
proof of the chain is continued by detaching the assumptions one after the other, so every sound rule in
implication and negation is proved (`InferenceRule.exists_proveSound`).

A set of formulas without a model makes every rule sound that has it for assumptions. So a search through the
valuations ends with a model or with a proof of a contradiction (`modelOrInconsistency_settles`), unless there are
no formulas at all: then no valuation is tried, and the contradiction cannot be proved.
-/

namespace FormalLogic.Propositional

open Formula Axioms

/-! ## Chains of implications -/

namespace Formula

variable {as : List Formula} {c : Formula}

theorem eval_foldr_imp {v : String → Bool} :
    (as.foldr imp c).eval v = true ↔ ((∀ a ∈ as, a.eval v = true) → c.eval v = true) := by
  induction as with
  | nil => simp
  | cons a as ih =>
      have himp : (imp a (as.foldr imp c)).eval v = true ↔
          (a.eval v = true → (as.foldr imp c).eval v = true) := by
        simp only [eval, Connective.eval]
        cases a.eval v <;> simp
      rw [List.foldr_cons, himp, ih, List.forall_mem_cons, and_imp]

theorem IsImplicational.foldr_imp (has : ∀ a ∈ as, a.IsImplicational) (hc : c.IsImplicational) :
    (as.foldr imp c).IsImplicational := by
  induction as with
  | nil => exact hc
  | cons a as ih =>
      obtain ⟨ha, has⟩ := List.forall_mem_cons.1 has
      exact ⟨rfl, ha, ih has⟩

theorem isMissing_foldr_imp (hc : c.isMissing = false) : (as.foldr imp c).isMissing = false := by
  cases as with
  | nil => exact hc
  | cons a as => rfl

/-- Every tautology is proved from nothing. -/
theorem exists_proveTautology {f : Formula} (hf : f.IsImplicational) (htrue : ∀ v, f.eval v = true) :
    ∃ pf, f.proveTautology = .ok pf ∧ pf.Basic [] f := by
  have hnone : sortedSet (Table.keys ([] : Valuation)) = [] := sortedSet_eq .nil (by simp [Table.keys])
  have hformulas : Valuation.formulas [] = [] := by rw [Valuation.formulas, hnone, List.map_nil]
  have hvars : f.leafVariables ⊆ Table.keys ([] : Valuation) ++ f.vars := fun x hx => mem_vars.2 hx
  have hsorted : (sortedSet (Table.keys ([] : Valuation)) ++ f.vars).Pairwise (· < ·) := by
    rw [hnone]
    exact pairwise_sortedSet _
  obtain ⟨pf, hpf, hbasic⟩ := exists_proveByCases hf htrue hvars hsorted
  refine ⟨pf, ?_, hformulas ▸ hbasic⟩
  have hentries : Mark.toValuation [] = .ok [] := rfl
  rw [proveTautology, proveTautologyFrom, given_eq_self hf.isMissing_eq_false, ok_bind,
    isTautology_iff.2 htrue, require_true, ok_bind, hf.requireProvable_eq_ok, ok_bind, hentries, ok_bind,
    hnone]
  exact hpf

end Formula

/-! ## Detaching assumptions -/

/-- Behind a chain of implications, the lines that detach its assumptions derive its end. -/
theorem Derivation.append_detachLines {given as : List Formula} {c : Formula} {rules : List InferenceRule}
    {lines : List Line} (h : Derivation given rules lines)
    (hends : Shows lines (lines.length - 1) (as.foldr imp c)) (hMP : MP ∈ rules) (has : as ⊆ given)
    (hpresent : ∀ a ∈ as, a.isMissing = false) (hc : c.isMissing = false) :
    Derivation given rules (lines ++ detachLines lines.length as c) ∧
      Shows (lines ++ detachLines lines.length as c)
        ((lines ++ detachLines lines.length as c).length - 1) c := by
  induction as generalizing lines with
  | nil =>
      rw [detachLines, List.append_nil]
      exact ⟨h, hends⟩
  | cons a as ih =>
      obtain ⟨hagiven, has⟩ := List.cons_subset.1 has
      obtain ⟨hapresent, hpresent⟩ := List.forall_mem_cons.1 hpresent
      -- the chain stands last, the assumption comes behind it, and modus ponens cites the two
      have hassumed : Derivation given rules (lines ++ [.assumed a]) :=
        derivation_concat.2 ⟨h, follows_assumed hagiven hapresent⟩
      have hfollows : Follows given rules (lines ++ [.assumed a])
          (.inferred (as.foldr imp c) MP [(lines.length : Int), (lines.length : Int) - 1]) := by
        have hlast : (lines.length : Int) - 1 = ((lines.length - 1 : Nat) : Int) := by
          have := hends.lt_length
          omega
        rw [hlast]
        exact follows_modusPonens hMP (shows_length_concat lines (.assumed a)) (hends.append _) hapresent
          (isMissing_foldr_imp hc)
      have hdetached := derivation_concat.2 ⟨hassumed, hfollows⟩
      have hrest := ih hdetached (by simp [Shows]) has hpresent
      simpa [detachLines] using hrest

/-! ## Sound rules -/

namespace InferenceRule

variable {as : List Formula} {c : Formula}

theorem isSound_iff_encode {r : InferenceRule} : r.isSound = true ↔ ∀ v, r.encode.eval v = true := by
  rw [isSound_iff]
  exact forall_congr' fun v => holds_iff.trans eval_foldr_imp.symm

/-- Every sound rule in implication and negation is proved. -/
theorem exists_proveSound (has : ∀ a ∈ as, a.IsImplicational) (hc : c.IsImplicational)
    (hsound : (rule as c).isSound = true) :
    ∃ pf, (rule as c).proveSound = .ok pf ∧ pf.Basic as c := by
  have hpresent : ∀ a ∈ as, a.isMissing = false := fun a ha => (has a ha).isMissing_eq_false
  have hcomplete : (rule as c).isComplete = true :=
    isComplete_iff.2 ⟨rfl, hpresent, hc.isMissing_eq_false⟩
  have hprovable : (rule as c).formulas.forM requireProvable = .ok () :=
    forM_eq_ok.2 (List.forall_mem_append.2 ⟨fun a ha => (has a ha).requireProvable_eq_ok,
      List.forall_mem_singleton.2 hc.requireProvable_eq_ok⟩)
  obtain ⟨pf, hpf, hbasic⟩ :=
    exists_proveTautology (IsImplicational.foldr_imp has hc) (isSound_iff_encode.1 hsound)
  have hchain : Derivation as basic pf.lines := by
    have hderivation := hbasic.derivation
    rw [hbasic.rules_eq] at hderivation
    exact hderivation.mono (List.nil_subset as) (List.Subset.refl _)
  obtain ⟨hlines, hends⟩ := hchain.append_detachLines hbasic.ends (by decide) (List.Subset.refl as) hpresent
    hc.isMissing_eq_false
  refine ⟨Proof.make (rule as c) basic (pf.lines ++ detachLines pf.lines.length as c), ?_,
    Proof.establishes_make hlines hends, eraseDups_basic⟩
  rw [proveSound, complete, if_pos hcomplete, ok_bind, hsound, require_true, ok_bind, hprovable, ok_bind]
  change (as.foldr imp c).proveTautology >>= _ = _
  rw [hpf]
  rfl

/-- What the prover answers for a rule has passed its test of soundness. -/
theorem isSound_of_proveSound {r : InferenceRule} {pf : Proof} (h : r.proveSound = .ok pf) :
    r.isSound = true := by
  obtain ⟨r', hcomplete, h⟩ := bind_eq_ok.1 h
  obtain ⟨_, hsound, -⟩ := bind_eq_ok.1 h
  unfold complete at hcomplete
  split at hcomplete
  · rw [Except.ok.inj hcomplete]
    exact require_eq_ok.1 hsound
  · cases hcomplete

/-- The sound rules in implication and negation are those that the prover proves: it answers for a rule exactly
if the rule is sound, with a proof of it by the nine basic rules that the checker accepts. -/
theorem isSound_iff_proveSound (has : ∀ a ∈ as, a.IsImplicational) (hc : c.IsImplicational) :
    (rule as c).isSound = true ↔ ∃ pf, (rule as c).proveSound = .ok pf ∧ pf.isValid = .ok true ∧
      pf.statement = rule as c ∧ pf.rules = basic := by
  constructor
  · intro hsound
    obtain ⟨pf, hpf, hbasic⟩ := exists_proveSound has hc hsound
    exact ⟨pf, hpf, hbasic.isValid, hbasic.statement_eq, hbasic.rules_eq⟩
  · rintro ⟨pf, hpf, -⟩
    exact isSound_of_proveSound hpf

/-- Contraposition from an assumption that is made twice. -/
theorem isSound_iff_proveSound_repeated :
    let r := rule [imp p q, neg q, imp p q] (neg p)
    r.isSound = true ∧ ∃ pf, r.proveSound = .ok pf ∧ pf.isValid = .ok true ∧ pf.statement = r ∧
      pf.rules = basic := by
  intro r
  have hp : isVariable "p" = true := by decide
  have hq : isVariable "q" = true := by decide
  have hsound : r.isSound = true := by
    refine isSound_iff.2 fun v => holds_iff.2 ?_
    simp only [r, assumptions, conclusion, List.forall_mem_cons, eval, Connective.eval]
    grind
  have hassumptions : ∀ a ∈ [imp p q, neg q, imp p q], a.IsImplicational := by
    simp only [List.forall_mem_cons]
    exact ⟨⟨rfl, hp, hq⟩, hq, ⟨rfl, hp, hq⟩, by simp⟩
  exact ⟨hsound, (isSound_iff_proveSound (c := neg p) hassumptions hp).1 hsound⟩

end InferenceRule

/-! ## A model or a contradiction -/

/-- The formulas of a list are all true in a valuation that covers them. -/
def Valuation.Models (m : Valuation) (fs : List Formula) : Prop :=
  ∀ f ∈ fs, f.evaluate m = .ok true

/-- What is found out about a list of formulas is right: a valuation of their variables in which all are true, or,
where there is none, a proof of a contradiction from the formulas by the basic rules. -/
def Verdict.Settles (fs : List Formula) : Verdict → Prop
  | valuation m => (∀ x, x ∈ Table.keys m ↔ ∃ f ∈ fs, x ∈ f.leafVariables) ∧ m.Models fs
  | proved pf => (¬ ∃ m : Valuation, m.Models fs) ∧ pf.isValid = .ok true ∧
      pf.statement = .rule fs Proof.absurdity ∧ pf.rules = basic

/-- A rule is sound if its assumptions are never true together. -/
theorem InferenceRule.isSound_of_unsatisfiable {fs : List Formula} {c : Formula}
    (hfs : ∀ v, ¬ ∀ f ∈ fs, f.eval v = true) : (rule fs c).isSound = true :=
  isSound_iff.2 fun v => holds_iff.2 fun hall => absurd hall (hfs v)

section Search

variable [SetOrder String]

/-- The first valuation of the variables of formulas in which all of them are true. -/
def firstModel? (fs : List Formula) : Option Valuation :=
  (Valuation.all (SetOrder.list (fs.flatMap leafVariables))).find? fun m => fs.all fun f => f.eval m.value

variable {fs : List Formula}

/-- Where no model is found, the formulas are never true together. -/
theorem unsatisfiable_of_firstModel? (h : firstModel? fs = none) (v : String → Bool) :
    ¬ ∀ f ∈ fs, f.eval v = true := by
  intro hall
  obtain ⟨m, hm, hv⟩ := Valuation.exists_mem_all (SetOrder.list (fs.flatMap leafVariables)) v
  refine List.find?_eq_none.1 h m hm (List.all_eq_true.2 fun f hf => ?_)
  rw [eval_congr f fun x hx => hv x (SetOrder.mem_list.2 (List.mem_flatMap.2 ⟨f, hf, hx⟩))]
  exact hall f hf

variable (hfs : ∀ f ∈ fs, f.IsImplicational)
include hfs

/-- A model that is found gives values to the variables and makes all formulas true. -/
theorem settles_of_firstModel? {m : Valuation} (h : firstModel? fs = some m) :
    (Verdict.valuation m).Settles fs := by
  have hkeys : ∀ x, x ∈ Table.keys m ↔ ∃ f ∈ fs, x ∈ f.leafVariables := fun x => by
    rw [Valuation.mem_keys_of_mem_all (List.mem_of_find?_eq_some h), SetOrder.mem_list,
      List.mem_flatMap]
  have htrue : (fs.all fun f => f.eval m.value) = true := List.find?_some (p := fun m : Valuation =>
    fs.all fun f => f.eval m.value) h
  refine ⟨hkeys, fun f hf => ?_⟩
  have hcovered : f.leafVariables ⊆ Table.keys m := fun x hx => (hkeys x).2 ⟨f, hf, hx⟩
  rw [evaluate_of_subset (hfs f hf).isMissing_eq_false hcovered, List.all_eq_true.1 htrue f hf]

/-- A contradiction is proved where no model is found. -/
theorem exists_proveAbsurdity (h : firstModel? fs = none) :
    ∃ pf, (InferenceRule.rule fs Proof.absurdity).proveSound = .ok pf ∧ (Verdict.proved pf).Settles fs := by
  have hp : isVariable "p" = true := by decide
  have habsurdity : Proof.absurdity.IsImplicational := ⟨rfl, hp, hp⟩
  have hunsatisfiable := unsatisfiable_of_firstModel? h
  obtain ⟨pf, hpf, hbasic⟩ := InferenceRule.exists_proveSound hfs habsurdity
    (InferenceRule.isSound_of_unsatisfiable hunsatisfiable)
  refine ⟨pf, hpf, ?_, hbasic.isValid, hbasic.statement_eq, hbasic.rules_eq⟩
  rintro ⟨m, hm⟩
  exact hunsatisfiable m.value fun f hf => (evaluate_eq_ok.1 (hm f hf)).2.2

end Search

/-- Without formulas no valuation is tried, and a contradiction does not follow from nothing. -/
theorem modelOrInconsistency_nil [SetOrder String] : modelOrInconsistency [] = .error (.unmet .sound) := by
  have hunsound : (InferenceRule.rule [] Proof.absurdity).isSound = false := by
    refine Bool.eq_false_iff.2 fun hsound => ?_
    have hholds := InferenceRule.holds_iff.1 (InferenceRule.isSound_iff.1 hsound fun _ => true)
    exact absurd (hholds (by simp [InferenceRule.assumptions])) (by decide)
  have hcomplete : (InferenceRule.rule [] Proof.absurdity).isComplete = true := rfl
  have hprove : (InferenceRule.rule [] Proof.absurdity).proveSound = .error (.unmet .sound) := by
    rw [InferenceRule.proveSound, InferenceRule.complete, if_pos hcomplete, ok_bind, hunsound]
    rfl
  change (InferenceRule.rule [] Proof.absurdity).proveSound >>= _ = _
  rw [hprove]
  rfl

/-- In whichever order the variables are taken, the search ends with a right answer for every list of formulas in
implication and negation but the empty one: either a valuation of exactly their variables that makes all of them true,
or, if none does, an accepted proof of a contradiction from them by the nine basic rules. -/
theorem modelOrInconsistency_settles [SetOrder String] {fs : List Formula} (hfs : ∀ f ∈ fs, f.IsImplicational) :
    (∃ v, modelOrInconsistency fs = .ok v ∧ v.Settles fs) ↔ fs ≠ [] := by
  constructor
  · rintro ⟨v, hv, -⟩ rfl
    rw [modelOrInconsistency_nil] at hv
    cases hv
  · intro hne
    have hempty : fs.isEmpty = false := by simpa using hne
    have hprovable : fs.forM requireProvable = .ok () :=
      forM_eq_ok.2 fun f hf => (hfs f hf).requireProvable_eq_ok
    simp only [modelOrInconsistency, hprovable, ok_bind, hempty, if_neg Bool.false_ne_true]
    rw [← firstModel?]
    cases hfirst : firstModel? fs with
    | some m => exact ⟨.valuation m, rfl, settles_of_firstModel? hfs hfirst⟩
    | none =>
        obtain ⟨pf, hpf, hsettles⟩ := exists_proveAbsurdity hfs hfirst
        exact ⟨.proved pf, by rw [hpf]; rfl, hsettles⟩

/-- Modus ponens with its conclusion denied has no model. -/
theorem modelOrInconsistency_settles_detached :
    let _ := SetOrder.ascendingNames
    let fs := [imp p q, p, neg q]
    ∃ pf, modelOrInconsistency fs = .ok (.proved pf) ∧ (Verdict.proved pf).Settles fs := by
  intro _ fs
  have hp : isVariable "p" = true := by decide
  have hq : isVariable "q" = true := by decide
  have hfs : ∀ f ∈ fs, f.IsImplicational := by
    simp only [fs, List.forall_mem_cons]
    exact ⟨⟨rfl, hp, hq⟩, hp, hq, by simp⟩
  obtain ⟨v, hv, hsettles⟩ := (modelOrInconsistency_settles hfs).2 (by simp [fs])
  cases v with
  | proved pf => exact ⟨pf, hv, hsettles⟩
  | valuation m =>
      have htrue : ∀ f ∈ fs, f.eval m.value = true := fun f hf => (evaluate_eq_ok.1 (hsettles.2 f hf)).2.2
      simp only [fs, List.forall_mem_cons, eval, Connective.eval] at htrue
      grind

/-- The empty list has a model, which is not found. -/
theorem modelOrInconsistency_empty :
    Valuation.Models [] [] ∧ ∀ [SetOrder String], modelOrInconsistency [] = .error (.unmet .sound) :=
  ⟨by simp [Valuation.Models], modelOrInconsistency_nil⟩

end FormalLogic.Propositional
