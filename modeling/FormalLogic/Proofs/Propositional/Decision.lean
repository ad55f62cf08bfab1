import FormalLogic.Propositional.Conversion
import FormalLogic.Proofs.Propositional.Reading
import FormalLogic.Proofs.Propositional.Semantics

/-!
# The decision procedures are exact

Soundness of a rule, tautology and satisfiability are decided by going through the valuations of exactly the
variables that occur. They are about models of any more variables as well (`decisions_exact`): truth in a model
depends only on the assignment that the model gives to the variables that occur, and every assignment is that of
a model of exactly these variables (`Valuation.ofAssignment`).
-/

namespace FormalLogic.Propositional

/-! ## Models -/

/-- Entries that are truth values of variables are the valuation. -/
theorem Mark.toValuation_map_truth {m : Valuation} (hm : ∀ x ∈ Table.keys m, isVariable x = true) :
    toValuation (m.map fun e => (e.1, truth e.2)) = .ok m := by
  have hvaluation : areValuation (m.map fun e => (e.1, truth e.2)) = .ok true := by
    induction m with
    | nil => rfl
    | cons e m ih =>
        obtain ⟨he, hm⟩ := List.forall_mem_cons.1 hm
        have hcheck : checkVariable e.1 = .ok true :=
          checkVariable_eq_ok.2 ⟨isVariable_ne_empty he, he⟩
        rw [List.map_cons, areValuation, hcheck, ok_bind]
        exact ih hm
  rw [toValuation, hvaluation, ok_bind, require_true, ok_bind, List.map_map]
  exact congrArg Except.ok (List.map_id m)

namespace Valuation

/-- A model that is defined on the given names and maybe on others: its keys are variables, and each of them
has one value. -/
structure Covers (m : Valuation) (names : List String) : Prop where
  nodup : (Table.keys m).Nodup
  isVariable : ∀ x ∈ Table.keys m, isVariable x = true
  subset : names ⊆ Table.keys m

/-- The valuation of the listed variables that agrees with an assignment. -/
def ofAssignment (v : String → Bool) (names : List String) : Valuation :=
  names.map fun x => (x, v x)

section Assignments

variable {v : String → Bool} {names : List String}

theorem keys_ofAssignment : Table.keys (ofAssignment v names) = names := by
  rw [ofAssignment, Table.keys, List.map_map]
  exact List.map_id names

theorem value_ofAssignment {x : String} (hx : x ∈ names) : (ofAssignment v names).value x = v x := by
  have hkey : x ∈ Table.keys (ofAssignment v names) := by rwa [keys_ofAssignment]
  obtain ⟨b, hb⟩ := Option.isSome_iff_exists.1 (Table.find?_isSome.2 hkey)
  obtain ⟨y, -, hy⟩ := List.mem_map.1 (Table.mem_of_find?_eq_some hb)
  obtain ⟨rfl, rfl⟩ := Prod.mk.inj hy
  rw [value, hb]
  rfl

theorem covers_of_keys {m : Valuation} (hm : Table.keys m = names) (hnodup : names.Nodup)
    (hnames : ∀ x ∈ names, isVariable x = true) : m.Covers names := by
  subst hm
  exact ⟨hnodup, hnames, List.Subset.refl _⟩

end Assignments

end Valuation

/-! ## Formulas in models -/

namespace Formula

variable {f : Formula} {names : List String}

theorem evaluate_ofAssignment (hf : f.isMissing = false) (hnames : f.leafVariables ⊆ names)
    (v : String → Bool) : f.evaluate (Valuation.ofAssignment v names) = .ok (f.eval v) := by
  rw [evaluate_of_subset hf (by rwa [Valuation.keys_ofAssignment])]
  exact congrArg Except.ok (f.eval_congr fun x hx => Valuation.value_ofAssignment (hnames hx))

theorem leafVariables_subset_vars (f : Formula) : f.leafVariables ⊆ f.vars :=
  fun _ hx => mem_vars.2 hx

/-- The models of exactly the variables of a formula cover it. -/
theorem WellFormed.covers_of_keys {d : Dialect} (hf : f.WellFormed d) {m : Valuation}
    (hm : Table.keys m = f.vars) : m.Covers f.vars :=
  Valuation.covers_of_keys hm (nodup_sortedSet _) fun x hx => hf.isVariable x (mem_vars.1 hx)

/-- The models of any variables that include those of a formula decide whether it is a tautology. -/
theorem isTautology_iff_keys (hf : f.isMissing = false) (hnames : f.vars ⊆ names) :
    f.isTautology = true ↔ ∀ m : Valuation, Table.keys m = names → f.evaluate m = .ok true := by
  have hleaves := List.Subset.trans f.leafVariables_subset_vars hnames
  rw [isTautology_iff]
  constructor
  · rintro h m rfl
    rw [evaluate_of_subset hf hleaves, h]
  · intro h v
    have hv := h _ (Valuation.keys_ofAssignment (v := v))
    rw [evaluate_ofAssignment hf hleaves] at hv
    exact Except.ok.inj hv

/-- The models of any variables that include those of a formula decide whether it can be true. -/
theorem isSatisfiable_iff_keys (hf : f.isMissing = false) (hnames : f.vars ⊆ names) :
    f.isSatisfiable = true ↔ ∃ m : Valuation, Table.keys m = names ∧ f.evaluate m = .ok true := by
  have hleaves := List.Subset.trans f.leafVariables_subset_vars hnames
  rw [isSatisfiable_iff]
  constructor
  · rintro ⟨v, hv⟩
    exact ⟨_, Valuation.keys_ofAssignment (v := v), by rw [evaluate_ofAssignment hf hleaves, hv]⟩
  · rintro ⟨m, rfl, hm⟩
    rw [evaluate_of_subset hf hleaves] at hm
    exact ⟨m.value, Except.ok.inj hm⟩

theorem isContradiction_iff : f.isContradiction = true ↔ (neg f).isTautology = true := by
  rw [isContradiction, Bool.not_eq_true', ← Bool.not_eq_true, isSatisfiable_iff, isTautology_iff]
  simp [eval]

end Formula

/-! ## Rules in models -/

namespace InferenceRule

variable {as : List Formula} {c : Formula} {m : Valuation}

/-- The assumptions are gone through up to the first that fails. -/
theorem evaluate_go_eq {b : Bool} (has : ∀ a ∈ as, a.evaluate m = .ok (a.eval m.value)) :
    evaluate.go m b as = .ok (!(as.all fun a => a.eval m.value) || b) := by
  induction as with
  | nil => rfl
  | cons a as ih =>
      obtain ⟨ha, has⟩ := List.forall_mem_cons.1 has
      rw [evaluate.go, ha, ok_bind, ih has, List.all_cons]
      cases a.eval m.value
      · rfl
      · rfl

theorem leafVariables_subset_vars {f : Formula} (hf : f ∈ (rule as c).formulas) :
    f.leafVariables ⊆ (rule as c).vars :=
  fun _ hx => mem_sortedSet.2 (List.mem_flatMap.2 ⟨f, hf, hx⟩)

/-- In a model that covers a rule, all its formulas have values. -/
theorem evaluate_formulas_of_covers (hpresent : ∀ f ∈ (rule as c).formulas, f.isMissing = false)
    (hm : m.Covers (rule as c).vars) :
    ∀ f ∈ (rule as c).formulas, f.evaluate m = .ok (f.eval m.value) := by
  intro f hf
  exact Formula.evaluate_of_subset (hpresent f hf)
    (List.Subset.trans (leafVariables_subset_vars hf) hm.subset)

/-- In a model that covers it, a rule holds or does not. -/
theorem evaluate_eq_holds (hpresent : ∀ f ∈ (rule as c).formulas, f.isMissing = false)
    (hm : m.Covers (rule as c).vars) : (rule as c).evaluate m = .ok ((rule as c).holds m.value) := by
  have hvalues := evaluate_formulas_of_covers hpresent hm
  rw [evaluate, given, if_neg (by simp [isMissing]), ok_bind, conclusion,
    hvalues c (List.mem_append_right as List.mem_cons_self), ok_bind, assumptions,
    evaluate_go_eq fun a ha => hvalues a (List.mem_append_left [c] ha)]
  rfl

/-- A rule holds in a model that covers it exactly if its conclusion is true there whenever its assumptions
are. -/
theorem evaluate_eq_true_iff (hpresent : ∀ f ∈ (rule as c).formulas, f.isMissing = false)
    (hm : m.Covers (rule as c).vars) :
    (rule as c).evaluate m = .ok true ↔
      ((∀ a ∈ as, a.evaluate m = .ok true) → c.evaluate m = .ok true) := by
  have hvalues := evaluate_formulas_of_covers hpresent hm
  rw [evaluate_eq_holds hpresent hm, Except.ok.injEq, holds_iff,
    hvalues c (List.mem_append_right as List.mem_cons_self), Except.ok.injEq]
  refine imp_congr_left (forall₂_congr fun a ha => ?_)
  rw [hvalues a (List.mem_append_left [c] ha), Except.ok.injEq]

/-- A rule is sound exactly if it holds in all models that cover it. -/
theorem isSound_iff_evaluate (hwell : ∀ f ∈ (rule as c).formulas, f.WellFormed Connective.all) :
    (rule as c).isSound = true ↔
      ∀ m : Valuation, m.Covers (rule as c).vars → (rule as c).evaluate m = .ok true := by
  have hpresent : ∀ f ∈ (rule as c).formulas, f.isMissing = false :=
    fun f hf => (hwell f hf).isMissing_eq_false
  rw [isSound_iff]
  constructor
  · intro h m hm
    rw [evaluate_eq_holds hpresent hm, h m.value]
  · intro h v
    have hcovers : (Valuation.ofAssignment v (rule as c).vars).Covers (rule as c).vars := by
      refine Valuation.covers_of_keys Valuation.keys_ofAssignment (nodup_sortedSet _) fun x hx => ?_
      obtain ⟨f, hf, hxf⟩ := List.mem_flatMap.1 (mem_sortedSet.1 hx)
      exact (hwell f hf).isVariable x hxf
    have hv := h _ hcovers
    rw [evaluate_eq_holds hpresent hcovers,
      holds_congr fun x hx => Valuation.value_ofAssignment hx] at hv
    exact Except.ok.inj hv

end InferenceRule

/-! ## Exactness -/

/-- The decision procedures are exact. A rule is found sound exactly if in every model of its variables and any
others in which its assumptions are true, its conclusion is; this is so exactly if it holds in every such model.
A formula is found a tautology exactly if it is true in all models of its variables and any others, and found
satisfiable exactly if it is true in one; the models of any one list of variables that includes its own decide
this. It is found a contradiction exactly if its negation is found a tautology. -/
theorem decisions_exact :
    (∀ (as : List Formula) (c : Formula),
      (∀ f ∈ (InferenceRule.rule as c).formulas, f.WellFormed Connective.all) →
      ((InferenceRule.rule as c).isSound = true ↔
        ∀ m : Valuation, m.Covers (InferenceRule.rule as c).vars →
          (∀ a ∈ as, a.evaluate m = .ok true) → c.evaluate m = .ok true) ∧
      ((InferenceRule.rule as c).isSound = true ↔
        ∀ m : Valuation, m.Covers (InferenceRule.rule as c).vars →
          (InferenceRule.rule as c).evaluate m = .ok true)) ∧
    ∀ f : Formula, f.WellFormed Connective.all →
      (f.isTautology = true ↔ ∀ m : Valuation, m.Covers f.vars → f.evaluate m = .ok true) ∧
      (f.isSatisfiable = true ↔ ∃ m : Valuation, m.Covers f.vars ∧ f.evaluate m = .ok true) ∧
      (∀ names : List String, f.vars ⊆ names →
        (f.isTautology = true ↔
          ∀ m : Valuation, Table.keys m = names → f.evaluate m = .ok true) ∧
        (f.isSatisfiable = true ↔
          ∃ m : Valuation, Table.keys m = names ∧ f.evaluate m = .ok true)) ∧
      (f.isContradiction = true ↔ (Formula.neg f).isTautology = true) := by
  refine ⟨?_, ?_⟩
  · intro as c hwell
    have hsound := InferenceRule.isSound_iff_evaluate hwell
    refine ⟨?_, hsound⟩
    rw [hsound]
    refine forall₂_congr fun m hm => InferenceRule.evaluate_eq_true_iff (fun f hf => ?_) hm
    exact (hwell f hf).isMissing_eq_false
  · intro f hf
    have hpresent := hf.isMissing_eq_false
    refine ⟨?_, ?_, ?_, Formula.isContradiction_iff⟩
    · constructor
      · intro h m hm
        exact (Formula.isTautology_iff_keys hpresent hm.subset).1 h m rfl
      · intro h
        rw [Formula.isTautology_iff_keys hpresent (List.Subset.refl f.vars)]
        exact fun m hm => h m (hf.covers_of_keys hm)
    · constructor
      · intro h
        obtain ⟨m, hm, hvalue⟩ :=
          (Formula.isSatisfiable_iff_keys hpresent (List.Subset.refl f.vars)).1 h
        exact ⟨m, hf.covers_of_keys hm, hvalue⟩
      · rintro ⟨m, hm, hvalue⟩
        exact (Formula.isSatisfiable_iff_keys hpresent hm.subset).2 ⟨m, rfl, hvalue⟩
    · intro names hnames
      exact ⟨Formula.isTautology_iff_keys hpresent hnames,
        Formula.isSatisfiable_iff_keys hpresent hnames⟩

/-- Disjunctive syllogism is sound, so it leads to a true conclusion in every model of `p`, `q` and any others; and
there is a model of `r`, `q` and `p` in which either `p` or `q` is true but not both. -/
theorem decisions_exact_syllogism :
    let rule := InferenceRule.rule [.disj .p .q, .neg .p] .q
    let either := Formula.bin .xor .p .q
    rule.isSound = true ∧
      (∀ m : Valuation, m.Covers rule.vars → (∀ a ∈ rule.assumptions, a.evaluate m = .ok true) →
        rule.conclusion.evaluate m = .ok true) ∧
      either.isSatisfiable = true ∧
      ∃ m : Valuation, Table.keys m = ["r", "q", "p"] ∧ either.evaluate m = .ok true := by
  intro rule either
  have hp : isVariable "p" = true := by decide
  have hq : isVariable "q" = true := by decide
  have hsound : rule.isSound = true := by
    rw [InferenceRule.isSound_iff]
    intro v
    cases hvp : v "p" <;> cases hvq : v "q" <;>
      simp [rule, InferenceRule.holds, InferenceRule.assumptions, InferenceRule.conclusion,
        Formula.eval, Connective.eval, hvp, hvq]
  have hwell : ∀ f ∈ rule.formulas, f.WellFormed Connective.all := by
    simp only [rule, InferenceRule.formulas, List.cons_append, List.nil_append, List.forall_mem_cons]
    exact ⟨⟨by decide, hp, hq⟩, hp, hq, by simp⟩
  have hsatisfiable : either.isSatisfiable = true :=
    Formula.isSatisfiable_iff.2 ⟨fun x => x == "p", by decide⟩
  have hvars : either.vars ⊆ ["r", "q", "p"] := by
    intro x hx
    have hx : x = "p" ∨ x = "q" := by
      simpa [either, Formula.leafVariables] using Formula.mem_vars.1 hx
    rcases hx with rfl | rfl
    · simp
    · simp
  refine ⟨hsound, (decisions_exact.1 _ _ hwell).1.1 hsound, hsatisfiable, ?_⟩
  have heither := decisions_exact.2 either ⟨by decide, hp, hq⟩
  exact ((heither.2.2.1 ["r", "q", "p"] hvars).2).1 hsatisfiable

end FormalLogic.Propositional
