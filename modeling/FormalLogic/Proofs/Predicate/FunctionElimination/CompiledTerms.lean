import FormalLogic.Proofs.Predicate.Evaluation
import FormalLogic.Proofs.Predicate.FunctionElimination.Compilation
import Mathlib

/-!
# What compiled steps say

A term that applies a function is compiled to steps, one for each application in it. The steps hold under an
assignment exactly if it gives every variable of a step the value of the application that the step is for
(`Compiles.holds_iff`). So the last variable has the value of the term, and an assignment of the variables of the
term is extended to those of the steps in one way only (`Term.compile_computes`).
-/

namespace FormalLogic.Predicate

/-! ## Applications in a term -/

namespace Term

mutual

/-- The parts of a term that apply a function, each behind those in its arguments. -/
def occurrences : Term → List Term
  | const _ => []
  | var _ => []
  | app name ts => occurrencesOf ts ++ [app name ts]
  | missing => []

/-- The parts of terms that apply a function. -/
def occurrencesOf : List Term → List Term
  | [] => []
  | t :: ts => t.occurrences ++ occurrencesOf ts

end

theorem occurrencesOf_eq_flatMap (ts : List Term) : occurrencesOf ts = ts.flatMap occurrences := by
  induction ts with
  | nil => rfl
  | cons t ts ih => rw [occurrencesOf, ih, List.flatMap_cons]

theorem length_occurrences (t : Term) : t.occurrences.length = t.applications.length := by
  induction t with
  | const c => rfl
  | var x => rfl
  | app name ts ih =>
      have hargs : ts.map (List.length ∘ occurrences) = ts.map (List.length ∘ applications) :=
        List.map_congr_left ih
      rw [occurrences, applications, occurrencesOf_eq_flatMap, applicationsOf_eq_flatMap, List.length_append,
        List.length_append, List.length_flatMap, List.length_flatMap]
      exact congrArg (List.sum · + 1) hargs
  | missing => rfl

/-- Functions have arguments. -/
theorem WellFormed.pos_of_mem_functionNodes {t : Term} (ht : t.WellFormed) : ∀ e ∈ t.functionNodes, 0 < e.2 := by
  induction t with
  | const c => simp [functionNodes]
  | var x => simp [functionNodes]
  | app name ts ih =>
      rw [functionNodes, functionNodesOf_eq_flatMap ht.args]
      refine List.forall_mem_cons.2 ⟨List.length_pos_iff.2 ht.2.1, fun e he => ?_⟩
      obtain ⟨t, htmem, he⟩ := List.mem_flatMap.1 he
      exact ih t htmem (ht.args t htmem) e he
  | missing => exact ht.elim

/-- The names in a part of a term are among those of the term. -/
theorem WellFormed.occurrences {t : Term} (ht : t.WellFormed) : ∀ u ∈ t.occurrences, u.WellFormed ∧
    u.constantLeaves ⊆ t.constantLeaves ∧ u.functionNodes ⊆ t.functionNodes ∧
      u.variableLeaves ⊆ t.variableLeaves := by
  induction t with
  | const c => simp [Term.occurrences]
  | var x => simp [Term.occurrences]
  | app name ts ih =>
      intro u hu
      rw [Term.occurrences, occurrencesOf_eq_flatMap, List.mem_append, List.mem_singleton] at hu
      rcases hu with hu | rfl
      · obtain ⟨t, htmem, hu⟩ := List.mem_flatMap.1 hu
        obtain ⟨hwf, hconstants, hfunctions, hvariables⟩ := ih t htmem (ht.args t htmem) u hu
        rw [constantLeaves, functionNodes, variableLeaves, constantLeavesOf_eq_flatMap ht.args,
          functionNodesOf_eq_flatMap ht.args, variableLeavesOf_eq_flatMap ht.args]
        exact ⟨hwf, fun c hc => List.mem_flatMap.2 ⟨t, htmem, hconstants hc⟩,
          fun e he => List.mem_cons_of_mem _ (List.mem_flatMap.2 ⟨t, htmem, hfunctions he⟩),
          fun x hx => List.mem_flatMap.2 ⟨t, htmem, hvariables hx⟩⟩
      · exact ⟨ht, List.Subset.refl _, List.Subset.refl _, List.Subset.refl _⟩
  | missing => exact ht.elim

end Term

/-! ## Steps that hold -/

namespace Model

variable {m : Model} {a : Assignment}

/-- All steps are true equalities under an assignment. -/
def StepsHold (m : Model) (a : Assignment) (steps : List CompiledStep) : Prop :=
  ∀ step ∈ steps, m.evaluate step.equality a = .ok true

theorem exists_termValue_of_termValues {ts : List Term} {es : List String} (h : m.termValues a ts = .ok es) :
    ∀ t ∈ ts, ∃ e, m.termValue a t = .ok e := by
  induction ts generalizing es with
  | nil => simp
  | cons t ts ih =>
      rw [termValues] at h
      obtain ⟨e, he, h⟩ := bind_eq_ok.1 h
      obtain ⟨es', hes, -⟩ := bind_eq_ok.1 h
      exact List.forall_mem_cons.2 ⟨⟨e, he⟩, ih hes⟩

/-- The variables of a term that has a value have entries. -/
theorem hasKey_of_termValue {t : Term} (ht : t.WellFormed) {e : String} (h : m.termValue a t = .ok e) :
    ∀ x ∈ t.variableLeaves, Table.hasKey a x = true := by
  induction t generalizing e with
  | const c => simp [Term.variableLeaves]
  | var x =>
      refine List.forall_mem_singleton.2 ?_
      rw [termValue] at h
      cases hx : Table.find? a x with
      | none =>
          rw [hx] at h
          cases h
      | some e' => rw [Table.hasKey, hx, Option.isSome_some]
  | app name ts ih =>
      rw [termValue] at h
      obtain ⟨es, hes, -⟩ := bind_eq_ok.1 h
      rw [Term.variableLeaves, Term.variableLeavesOf_eq_flatMap ht.args]
      intro x hx
      obtain ⟨t, htmem, hx⟩ := List.mem_flatMap.1 hx
      obtain ⟨e', he'⟩ := exists_termValue_of_termValues hes t htmem
      exact ih t htmem (ht.args t htmem) he' x hx
  | missing => exact ht.elim

theorem termValue_var_eq_ok {x e : String} : m.termValue a (.var x) = .ok e ↔ Table.find? a x = some e := by
  rw [termValue]
  cases Table.find? a x with
  | none => simp [Failure.orElse]
  | some e' => simp [Failure.orElse]

/-- An equality is true if it passes the checks and both sides have the same value. -/
theorem evaluate_equal_eq_true {l r : Term} : m.evaluate (.equal l r) a = .ok true ↔
    m.checkFormula a (.equal l r) = .ok () ∧ ∃ e, m.termValue a l = .ok e ∧ m.termValue a r = .ok e := by
  rw [evaluate_eq_bind, bind_eq_ok, formulaValue]
  simp only [bind_eq_ok, pure_eq_ok, decide_eq_true_eq]
  constructor
  · rintro ⟨_, hcheck, e, hl, _, hr, rfl⟩
    exact ⟨hcheck, e, hl, hr⟩
  · rintro ⟨hcheck, e, hl, hr⟩
    exact ⟨(), hcheck, e, hl, e, hr, rfl⟩

end Model

namespace Compiles

variable {m : Model} {a : Assignment} {s s' : FreshNames} {ts us : List Term} {steps : List CompiledStep}

theorem length_steps (h : Compiles s ts steps us s') :
    steps.length = (ts.flatMap Term.occurrences).length := by
  have hlength := congrArg List.length h.applications
  rw [List.length_map, List.length_flatMap] at hlength
  rw [hlength, List.length_flatMap]
  exact congrArg List.sum (List.map_congr_left fun t _ => t.length_occurrences.symm)

/-- The variables of the steps have the values of the applications, in their order. -/
def Valued (m : Model) (a : Assignment) (ts : List Term) (steps : List CompiledStep) : Prop :=
  steps.map (fun step => m.termValue a (.var step.target)) = (ts.flatMap Term.occurrences).map (m.termValue a)

/-- What the variables of steps have values of: first the applications in the arguments, then the application
itself, then those in the terms that follow. -/
theorem valued_app_iff {args : List Term} {steps' : List CompiledStep} {name z : String}
    (h : Compiles s args steps us s') :
    Valued m a (.app name args :: ts) (steps ++ ⟨z, name, us⟩ :: steps') ↔
      Valued m a args steps ∧ m.termValue a (.var z) = m.termValue a (.app name args) ∧
        Valued m a ts steps' := by
  unfold Valued
  rw [List.map_append, List.map_cons, List.flatMap_cons, Term.occurrences, Term.occurrencesOf_eq_flatMap,
    List.append_assoc, List.singleton_append, List.map_append, List.map_cons]
  constructor
  · intro heq
    have hlength : (steps.map fun step => m.termValue a (.var step.target)).length =
        ((args.flatMap Term.occurrences).map (m.termValue a)).length := by
      rw [List.length_map, List.length_map, h.length_steps]
    obtain ⟨hargs, hrest⟩ := List.append_inj heq hlength
    obtain ⟨hz, hts⟩ := List.cons.inj hrest
    exact ⟨hargs, hz, hts⟩
  · rintro ⟨hargs, hz, hts⟩
    rw [hargs, hz, hts]

/-- With these values, what is left of the terms has the values of the terms. -/
theorem termValues_of_valued (h : Compiles s ts steps us s') (hvalued : Valued m a ts steps) :
    m.termValues a us = m.termValues a ts := by
  induction h with
  | nil s => rfl
  | const c h ih => rw [Model.termValues, Model.termValues, ih hvalued]
  | var x h ih => rw [Model.termValues, Model.termValues, ih hvalued]
  | app name hargs h ihargs ih =>
      obtain ⟨-, hz, hts⟩ := (valued_app_iff hargs).1 hvalued
      rw [Model.termValues, Model.termValues, hz, ih hts]

/-- Every variable of a step has the value of what the step applies exactly if it has the value of the
application that the step is for. -/
theorem holds_iff (h : Compiles s ts steps us s') :
    (∀ step ∈ steps, m.termValue a (.var step.target) = m.termValue a (.app step.function step.args)) ↔
      Valued m a ts steps := by
  induction h with
  | nil s => simp [Valued]
  | const c h ih => exact ih
  | var x h ih => exact ih
  | app name hargs h ihargs ih =>
      rw [valued_app_iff hargs, List.forall_mem_append, List.forall_mem_cons, ihargs, ih]
      refine and_congr_right fun hvalued => and_congr_left fun _ => ?_
      rw [Model.termValue, Model.termValue, Model.termValue, hargs.termValues_of_valued hvalued]

theorem valued_of_stepsHold (h : Compiles s ts steps us s') (hsteps : m.StepsHold a steps) :
    Valued m a ts steps := by
  refine h.holds_iff.1 fun step hstep => ?_
  obtain ⟨-, e, hl, hr⟩ := Model.evaluate_equal_eq_true.1 (hsteps step hstep)
  exact hl.trans hr.symm

/-- A variable among the arguments of a step is one of the terms, or that of an earlier step. -/
theorem earlier (h : Compiles s ts steps us s') (hts : ∀ t ∈ ts, t.WellFormed) {before after : List CompiledStep}
    {step : CompiledStep} (hsteps : steps = before ++ step :: after) : ∀ u ∈ step.args, ∀ x ∈ u.variableLeaves,
      x ∈ ts.flatMap Term.variableLeaves ∨ x ∈ before.map CompiledStep.target := by
  induction h generalizing before after with
  | nil s => simp at hsteps
  | const c h ih =>
      obtain ⟨-, hts⟩ := List.forall_mem_cons.1 hts
      exact ih hts hsteps
  | var y h ih =>
      obtain ⟨-, hts⟩ := List.forall_mem_cons.1 hts
      exact fun u hu x hx => (ih hts hsteps u hu x hx).imp_left (List.mem_append_right _)
  | @app s s₁ s' args ts us us' steps steps' name hargs h ihargs ih =>
      obtain ⟨happ, hts⟩ := List.forall_mem_cons.1 hts
      have hmono : args.flatMap Term.variableLeaves ⊆
          (Term.app name args :: ts).flatMap Term.variableLeaves := by
        rw [List.flatMap_cons, Term.variableLeaves, Term.variableLeavesOf_eq_flatMap happ.args]
        exact List.subset_append_left _ _
      have happlied : ∀ u ∈ us, ∀ x ∈ u.variableLeaves,
          x ∈ (Term.app name args :: ts).flatMap Term.variableLeaves ∨ x ∈ steps.map CompiledStep.target :=
        fun u hu x hx => (hargs.variableLeaves happ.args u hu x hx).imp_left (hmono ·)
      -- the step is one for the arguments, the one for the application, or one for the terms behind it
      rcases List.append_eq_append_iff.1 hsteps with ⟨rest, rfl, hrest⟩ | ⟨rest, rfl, hrest⟩
      · cases rest with
        | nil =>
            obtain ⟨rfl, -⟩ := List.cons.inj hrest
            rw [List.append_nil]
            exact happlied
        | cons first rest =>
            obtain ⟨-, hrest⟩ := List.cons.inj hrest
            intro u hu x hx
            rcases ih hts hrest u hu x hx with hx | hx
            · exact .inl (List.mem_append_right _ hx)
            · rw [List.map_append, List.map_cons]
              exact .inr (List.mem_append_right _ (List.mem_cons_of_mem _ hx))
      · cases rest with
        | nil =>
            obtain ⟨rfl, -⟩ := List.cons.inj hrest
            rw [List.append_nil] at happlied
            exact happlied
        | cons first rest =>
            obtain ⟨rfl, -⟩ := List.cons.inj hrest
            exact fun u hu x hx => (ihargs happ.args rfl u hu x hx).imp_left (hmono ·)

/-! ## One way to extend an assignment -/

/-- If the applications have values, the variables of the steps have these values exactly if they have the
corresponding entries. -/
theorem valued_iff {es : List String}
    (hes : (ts.flatMap Term.occurrences).map (m.termValue a) = es.map .ok) :
    Valued m a ts steps ↔ steps.map (fun step => Table.find? a step.target) = es.map some := by
  have hinjective : Function.Injective (Failure.unknownKey.orElse : Option String → Outcome String) := by
    intro o o' h
    cases o with
    | none =>
        cases o' with
        | none => rfl
        | some e => cases h
    | some e =>
        cases o' with
        | none => cases h
        | some e' => rw [Except.ok.inj h]
  have htargets : steps.map (fun step => m.termValue a (.var step.target)) =
      (steps.map fun step => Table.find? a step.target).map Failure.unknownKey.orElse := by
    rw [List.map_map]
    rfl
  have hentries : es.map .ok = (es.map some).map Failure.unknownKey.orElse := by
    rw [List.map_map]
    rfl
  rw [Valued, htargets, hes, hentries]
  exact (List.map_injective_iff.2 hinjective).eq_iff

section Names

variable (h : Compiles s ts steps us s') (hts : ∀ t ∈ ts, t.WellFormed)
  (hconst : ∀ c ∈ ts.flatMap Term.constantLeaves, Table.hasKey m.constants c = true)
  (hfun : ∀ e ∈ ts.flatMap Term.functionNodes, m.functionArity? e.1 = some e.2)
include h hts hconst hfun

/-- If the variables of the steps have the values of the applications, the steps hold. -/
theorem stepsHold_of_valued (hvalued : Valued m a ts steps)
    (hentries : ∀ step ∈ steps, ∃ e, Table.find? a step.target = some e) : m.StepsHold a steps := by
  intro step hstep
  obtain ⟨e, he⟩ := hentries step hstep
  obtain ⟨hfunction, hargs⟩ := (h.leafOf hts).2 step hstep
  have hnode := h.mem_functionNodes hts step hstep
  have hne : step.args ≠ [] := by
    obtain ⟨t, ht, hnode⟩ := List.mem_flatMap.1 hnode
    exact List.length_pos_iff.1 ((hts t ht).pos_of_mem_functionNodes _ hnode)
  have hwf : (Term.app step.function step.args).WellFormed :=
    ⟨hfunction, hne, Term.allWellFormed_iff.2 fun u hu => (hargs u hu).wellFormed⟩
  have hequality : step.equality.WellFormed := ⟨h.isVariable_target step hstep, hwf⟩
  have htarget : m.termValue a (.var step.target) = .ok e := Model.termValue_var_eq_ok.2 he
  have happlied : m.termValue a (.app step.function step.args) = .ok e :=
    (h.holds_iff.2 hvalued step hstep).symm.trans htarget
  have hconstants : ∀ c ∈ step.equality.constantNames, Table.hasKey m.constants c = true := by
    intro c hc
    rcases Formula.mem_constantNames_equal.1 hc with hc | hc
    · cases hc
    · rw [Term.constantLeaves, Term.constantLeavesOf_eq_flatMap hwf.args] at hc
      obtain ⟨u, hu, hc⟩ := List.mem_flatMap.1 hc
      exact hconst c ((hargs u hu).constants hc)
  have hfunctions : ∀ e ∈ step.equality.functionNodes, m.functionArity? e.1 = some e.2 := by
    intro e he
    rcases Formula.mem_functionNodes_equal.1 he with he | he
    · cases he
    · rw [Term.functionNodes, Term.functionNodesOf_eq_flatMap hwf.args] at he
      rcases List.mem_cons.1 he with rfl | he
      · exact hfun _ hnode
      · obtain ⟨u, hu, he⟩ := List.mem_flatMap.1 he
        rw [(hargs u hu).functionNodes] at he
        cases he
  have hfree : ∀ x ∈ step.equality.freeNames, Table.hasKey a x = true := by
    intro x hx
    rcases Formula.mem_freeNames_equal.1 hx with hx | hx
    · rw [List.mem_singleton.1 hx, Table.hasKey, he, Option.isSome_some]
    · exact Model.hasKey_of_termValue hwf happlied x hx
  have hnames : m.Interprets step.equality := ⟨hconstants, hfunctions, fun e he => by cases he⟩
  exact Model.evaluate_equal_eq_true.2
    ⟨(Model.checkFormula_eq_ok hequality).2 ⟨hnames, hfree⟩, e, htarget, happlied⟩

/-- An assignment of elements to the variables of the terms is extended to the variables of the steps, so that the
steps hold, in one way only. -/
theorem exists_extension (hm : m.WellFormed)
    (hz : ∀ x ∈ ts.flatMap Term.variableLeaves, x.toList.head? ≠ some 'z')
    (ha : ∀ x ∈ ts.flatMap Term.variableLeaves, ∃ e ∈ m.domain, Table.find? a x = some e) :
    ∃ es ∈ Model.tuples m.domain steps.length,
      m.StepsHold ((steps.map CompiledStep.target).zip es ++ a) steps ∧
        ∀ a', (∀ x ∈ ts.flatMap Term.variableLeaves, Table.find? a' x = Table.find? a x) →
          m.StepsHold a' steps → steps.map (fun step => Table.find? a' step.target) = es.map some := by
  have hparts : ∀ u ∈ ts.flatMap Term.occurrences, u.WellFormed ∧
      u.variableLeaves ⊆ ts.flatMap Term.variableLeaves ∧ ∃ e ∈ m.domain, m.termValue a u = .ok e := by
    intro u hu
    obtain ⟨t, ht, hu⟩ := List.mem_flatMap.1 hu
    obtain ⟨hwf, hconstants, hfunctions, hvariables⟩ := (hts t ht).occurrences u hu
    refine ⟨hwf, fun x hx => List.mem_flatMap.2 ⟨t, ht, hvariables hx⟩, ?_⟩
    exact Model.exists_termValue hm hwf (fun c hc => hconst c (List.mem_flatMap.2 ⟨t, ht, hconstants hc⟩))
      (fun e he => hfun e (List.mem_flatMap.2 ⟨t, ht, hfunctions he⟩))
      fun x hx => ha x (List.mem_flatMap.2 ⟨t, ht, hvariables hx⟩)
  choose! value hvalue using fun u hu => (hparts u hu).2.2
  generalize hes : (ts.flatMap Term.occurrences).map value = es
  have hlength : es.length = steps.length := by rw [← hes, List.length_map, h.length_steps]
  -- the values of the applications depend on the variables of the terms only
  have hvalues : ∀ a', (∀ x ∈ ts.flatMap Term.variableLeaves, Table.find? a' x = Table.find? a x) →
      (ts.flatMap Term.occurrences).map (m.termValue a') = es.map .ok := by
    intro a' ha'
    rw [← hes, List.map_map]
    refine List.map_congr_left fun u hu => ?_
    obtain ⟨hwf, hvariables, -⟩ := hparts u hu
    exact (Model.termValue_congr hwf fun x hx => ha' x (hvariables hx)).trans (hvalue u hu).2
  refine ⟨es, Model.mem_tuples.2 ⟨hlength, fun e he => ?_⟩, ?_, fun a' ha' hsteps => ?_⟩
  · rw [← hes] at he
    obtain ⟨u, hu, rfl⟩ := List.mem_map.1 he
    exact (hvalue u hu).1
  · have hkeys : Table.keys ((steps.map CompiledStep.target).zip es) = steps.map CompiledStep.target :=
      List.map_fst_zip (by rw [List.length_map, hlength])
    have hagrees : ∀ x ∈ ts.flatMap Term.variableLeaves,
        Table.find? ((steps.map CompiledStep.target).zip es ++ a) x = Table.find? a x := by
      intro x hx
      have hnone : Table.find? ((steps.map CompiledStep.target).zip es) x = none := by
        rw [← Option.not_isSome_iff_eq_none, Table.find?_isSome, hkeys]
        exact h.notMem_targets (hz x hx)
      rw [Table.find?_append, hnone, Option.none_or]
    have hentries : steps.map (fun step =>
        Table.find? ((steps.map CompiledStep.target).zip es ++ a) step.target) = es.map some := by
      rw [← Table.map_find?_zip_append h.drawn.nodup (by rw [List.length_map, hlength]) a, List.map_map]
      rfl
    refine h.stepsHold_of_valued hts hconst hfun ((valued_iff (hvalues _ hagrees)).2 hentries) fun step hstep => ?_
    have hmem := List.mem_map_of_mem (f := fun step =>
      Table.find? ((steps.map CompiledStep.target).zip es ++ a) step.target) hstep
    rw [hentries] at hmem
    obtain ⟨e, -, he⟩ := List.mem_map.1 hmem
    exact ⟨e, he.symm⟩
  · exact (valued_iff (hvalues a' ha')).1 (h.valued_of_stepsHold hsteps)

end Names

end Compiles

/-! ## Compiled terms -/

/-- What is left of terms is a constant of theirs or a variable. -/
theorem Term.LeafOf.eq_const_or_var {ts : List Term} {u : Term} (h : u.LeafOf ts) :
    (∃ c ∈ ts.flatMap constantLeaves, u = .const c) ∨ ∃ x, u = .var x := by
  cases u with
  | const c => exact .inl ⟨c, h.constants List.mem_cons_self, rfl⟩
  | var x => exact .inr ⟨x, rfl⟩
  | app name us => exact absurd h.functionNodes (List.cons_ne_nil _ _)
  | missing => exact h.wellFormed.elim

/-- Steps name the applications of a term one after the other: each has a variable of its own, that is none of the
term's, and applies a function to constants of the term, variables of the term and variables of earlier steps. -/
structure Term.NamedBy (t : Term) (steps : List CompiledStep) : Prop where
  nodup : (steps.map CompiledStep.target).Nodup
  fresh : ∀ x ∈ t.vars, x ∉ steps.map CompiledStep.target
  applications : steps.map (fun step => (step.function, step.args.length)) = t.applications
  arguments : ∀ before step after, steps = before ++ step :: after → ∀ u ∈ step.args,
    (∃ c ∈ t.constants, u = .const c) ∨
      ∃ x, u = .var x ∧ (x ∈ t.vars ∨ x ∈ before.map CompiledStep.target)

theorem Compiles.namedBy {s s' : FreshNames} {t : Term} {steps : List CompiledStep} {us : List Term}
    (h : Compiles s [t] steps us s') (ht : t.WellFormed) (hz : ∀ x ∈ t.vars, x.toList.head? ≠ some 'z') :
    t.NamedBy steps := by
  have hts : ∀ t' ∈ [t], t'.WellFormed := List.forall_mem_singleton.2 ht
  refine ⟨h.drawn.nodup, fun x hx => h.notMem_targets (hz x hx), ?_, fun before step after hsteps u hu => ?_⟩
  · rw [h.applications, List.flatMap_singleton]
  · have hstep : step ∈ steps := hsteps ▸ List.mem_append_right _ List.mem_cons_self
    rcases (((h.leafOf hts).2 step hstep).2 u hu).eq_const_or_var with ⟨c, hc, rfl⟩ | ⟨x, rfl⟩
    · rw [List.flatMap_singleton] at hc
      exact .inl ⟨c, Term.mem_constants.2 hc, rfl⟩
    · refine .inr ⟨x, rfl, ?_⟩
      have hx := h.earlier hts hsteps _ hu x List.mem_cons_self
      rw [List.flatMap_singleton] at hx
      exact hx.imp_left Term.mem_vars.2

namespace Term

/-- Steps that hold give the last variable the value of the term. -/
theorem evaluateTerm_of_stepsHold {m : Model} {a : Assignment} {s s' : FreshNames} {t : Term}
    {steps : List CompiledStep} {us : List Term} (h : Compiles s [t] steps us s') (ht : t.WellFormed)
    (happ : t.isApp = true) (hnames : m.checkTermNames t.constants t.functions = .ok ())
    (hsteps : m.StepsHold a steps) : ∃ last e, steps.getLast? = some last ∧
      Table.find? a last.target = some e ∧ m.evaluateTerm t a = .ok e := by
  have hvalued := h.valued_of_stepsHold hsteps
  rw [Compiles.Valued, List.flatMap_singleton] at hvalued
  have hlast := congrArg List.getLast? hvalued
  have hoccurrence : t.occurrences.getLast? = some t := by
    cases t with
    | app name ts => rw [occurrences, List.getLast?_concat]
    | _ => cases happ
  rw [List.getLast?_map, List.getLast?_map, hoccurrence, Option.map_some, Option.map_eq_some_iff] at hlast
  obtain ⟨last, hlast, hvalue⟩ := hlast
  obtain ⟨-, e, he, -⟩ := Model.evaluate_equal_eq_true.1 (hsteps last (List.mem_of_getLast? hlast))
  rw [he] at hvalue
  refine ⟨last, e, hlast, Model.termValue_var_eq_ok.1 he, ?_⟩
  have hcovered : t.vars.all (Table.hasKey a) = true :=
    List.all_eq_true.2 fun x hx => Model.hasKey_of_termValue ht hvalue.symm x (mem_vars.1 hx)
  rw [Model.evaluateTerm, ht.given_eq_ok, ok_bind, hnames, ok_bind, hcovered, require_true, ok_bind, ← hvalue]

/-- Compiling a term that applies a function, with no variable that could be drawn, names its applications by the
variables that are drawn next. In a model with meanings for its names, the last of these variables has the value of
the term whenever the steps hold, and to make them hold there is exactly one way to extend an assignment of the
term's variables. -/
theorem compile_computes {t : Term} (ht : t.WellFormed) (happ : t.isApp = true)
    (hz : ∀ x ∈ t.vars, x.toList.head? ≠ some 'z') (s : FreshNames) :
    Fallible.Ensures s t.compile fun steps s' =>
      s'.variablesDrawn = s.variablesDrawn + steps.length ∧
      steps.map CompiledStep.target =
        (List.range' (s.variablesDrawn + 1) steps.length).map (FreshNames.name "z") ∧
      t.NamedBy steps ∧
      ∀ m : Model, m.WellFormed → m.checkTermNames t.constants t.functions = .ok () →
        (∀ a, m.StepsHold a steps → ∃ last e, steps.getLast? = some last ∧
          Table.find? a last.target = some e ∧ m.evaluateTerm t a = .ok e) ∧
        ∀ a, (∀ x ∈ t.vars, ∃ e ∈ m.domain, Table.find? a x = some e) →
          ∃ es ∈ Model.tuples m.domain steps.length,
            m.StepsHold ((steps.map CompiledStep.target).zip es ++ a) steps ∧
              ∀ a', (∀ x ∈ t.vars, Table.find? a' x = Table.find? a x) → m.StepsHold a' steps →
                steps.map (fun step => Table.find? a' step.target) = es.map some := by
  have hrequire : require t.isApp .shape = .ok () := require_eq_ok.2 happ
  rw [compile]
  refine Fallible.ensures_lift_bind ht.given_eq_ok (Fallible.ensures_lift_bind hrequire ?_)
  refine Fallible.ensures_bind (ensures_compileSteps ht s) ?_
  rintro ⟨steps, u⟩ s' hcompiles
  have h := hcompiles [] [] [] s' (.nil s')
  rw [List.append_nil] at h
  refine ⟨steps, s', rfl, h.targets.1, h.targets.2, h.namedBy ht hz, fun m hm hnames => ⟨fun a hsteps => ?_, ?_⟩⟩
  · exact evaluateTerm_of_stepsHold h ht happ hnames hsteps
  · intro a ha
    obtain ⟨hconst, hfun⟩ := Model.checkTermNames_eq_ok.1 hnames
    have hextension := h.exists_extension (List.forall_mem_singleton.2 ht)
      (fun c hc => hconst c (mem_constants.2 (by simpa using hc)))
      (fun e he => hfun e (mem_sortedSignature.2 (by simpa using he))) hm (a := a)
    simp only [List.flatMap_singleton] at hextension
    simp only [mem_vars] at hz ha ⊢
    exact hextension hz ha

/-- A function among its own arguments, behind another one. The assignment has an entry for one of the variables
that are drawn, which the extension replaces. -/
theorem compile_computes_nested :
    let t : Term := .app "f" [.app "g" [.const "c"], .app "f" [.var "x", .app "g" [.var "x"]]]
    let m : Model := ⟨["0", "1"], [("c", "1")], [],
      [("f", [(["0", "0"], "0"), (["0", "1"], "1"), (["1", "0"], "1"), (["1", "1"], "0")]),
        ("g", [(["0"], "1"), (["1"], "0")])]⟩
    t.WellFormed ∧ m.WellFormed ∧ Fallible.Ensures ⟨4, 0⟩ t.compile fun steps _ =>
      t.NamedBy steps ∧ steps.map CompiledStep.target = ["z5", "z6", "z7", "z8"] ∧
        ∃ es ∈ Model.tuples m.domain 4,
          m.StepsHold ((steps.map CompiledStep.target).zip es ++ [("x", "0"), ("z5", "outside")]) steps := by
  intro t m
  have ht : t.WellFormed := by decide
  have hm : m.WellFormed := ⟨by cbv, by decide⟩
  have hvars : t.vars = ["x"] := by cbv
  have hz : ∀ x ∈ t.vars, x.toList.head? ≠ some 'z' := by
    rw [hvars]
    exact List.forall_mem_singleton.2 (by decide)
  have hnames : m.checkTermNames t.constants t.functions = .ok () := by cbv
  refine ⟨ht, hm, (compile_computes ht rfl hz ⟨4, 0⟩).imp fun steps s' h => ?_⟩
  obtain ⟨-, htargets, hnamed, hmeaning⟩ := h
  have hlength : steps.length = 4 := by
    have happlications := congrArg List.length hnamed.applications
    rwa [List.length_map] at happlications
  have ha : ∀ x ∈ t.vars, ∃ e ∈ m.domain, Table.find? [("x", "0"), ("z5", "outside")] x = some e := by
    rw [hvars]
    exact List.forall_mem_singleton.2 ⟨"0", by decide, rfl⟩
  obtain ⟨es, hes, hhold, -⟩ := (hmeaning m hm hnames).2 _ ha
  rw [hlength] at htargets hes
  exact ⟨hnamed, htargets.trans (by decide), es, hes, hhold⟩

end Term

end FormalLogic.Predicate
