import FormalLogic.Proofs.Predicate.FunctionElimination.Graphs
import FormalLogic.Proofs.FreshNames

/-!
# Terms without functions

Compiling terms names every application by a fresh variable, so that constants and variables are left. A run
is described by a relation with one case for each form of the first term (`Compiles`), and what is said about
it follows by induction over that relation: which names are drawn, which names occur in the steps and in
what is left, and that the steps compute the terms (`Compiles.computes`). The latter is stated for a formula
that the steps are put in front of: where the graphs of functions are given, the whole is as true as the
formula itself, once every variable of a step has the value of its application.
-/

namespace FormalLogic.Predicate

/-! ## Runs of the compilation -/

/-- Terms are compiled, one after the other, to steps and what is left of the terms. -/
inductive Compiles : FreshNames → List Term → List CompiledStep → List Term → FreshNames → Prop
  | nil (s : FreshNames) : Compiles s [] [] [] s
  | const {s s' : FreshNames} {ts us : List Term} {steps : List CompiledStep} (c : String) :
      Compiles s ts steps us s' → Compiles s (.const c :: ts) steps (.const c :: us) s'
  | var {s s' : FreshNames} {ts us : List Term} {steps : List CompiledStep} (x : String) :
      Compiles s ts steps us s' → Compiles s (.var x :: ts) steps (.var x :: us) s'
  | app {s s₁ s' : FreshNames} {args ts us us' : List Term} {steps steps' : List CompiledStep}
      (name : String) :
      Compiles s args steps us s₁ →
      Compiles { s₁ with variablesDrawn := s₁.variablesDrawn + 1 } ts steps' us' s' →
      Compiles s (.app name args :: ts)
        (steps ++ ⟨FreshNames.name "z" (s₁.variablesDrawn + 1), name, us⟩ :: steps')
        (.var (FreshNames.name "z" (s₁.variablesDrawn + 1)) :: us') s'

namespace Term

open Fallible

/-- Terms that are compiled one by one are compiled together. -/
theorem ensures_compileArguments_of_forall {ts : List Term}
    (h : ∀ t ∈ ts, ∀ s, Ensures s t.compileSteps fun r s₁ => ∀ ts steps us s',
      Compiles s₁ ts steps us s' → Compiles s (t :: ts) (r.1 ++ steps) (r.2 :: us) s')
    (s : FreshNames) :
    Ensures s (compileArguments ts) fun r s' => Compiles s ts r.1 r.2 s' := by
  induction ts generalizing s with
  | nil =>
      rw [compileArguments]
      exact ⟨_, _, rfl, .nil s⟩
  | cons t ts ih =>
      obtain ⟨ht, hts⟩ := List.forall_mem_cons.1 h
      rw [compileArguments]
      refine ensures_bind (ht s) ?_
      rintro ⟨steps, u⟩ s₁ hu
      refine ensures_bind (ih hts s₁) ?_
      rintro ⟨steps', us⟩ s' hus
      exact ⟨_, _, rfl, hu _ _ _ _ hus⟩

/-- A term is compiled before the terms that follow it. -/
theorem ensures_compileSteps {t : Term} (ht : t.WellFormed) (s : FreshNames) :
    Ensures s t.compileSteps fun r s₁ => ∀ ts steps us s',
      Compiles s₁ ts steps us s' → Compiles s (t :: ts) (r.1 ++ steps) (r.2 :: us) s' := by
  induction t generalizing s with
  | const c =>
      rw [compileSteps]
      exact ⟨_, _, rfl, fun _ _ _ _ h => .const c h⟩
  | var x =>
      rw [compileSteps]
      exact ⟨_, _, rfl, fun _ _ _ _ h => .var x h⟩
  | app name ts ih =>
      rw [compileSteps]
      refine ensures_bind (ensures_compileArguments_of_forall (fun t h => ih t h (ht.args t h)) s) ?_
      rintro ⟨steps, us⟩ s₁ hus
      refine ⟨_, _, rfl, fun ts' steps' us' s' h => ?_⟩
      rw [List.append_assoc, List.singleton_append]
      exact .app name hus h
  | missing => exact ht.elim

theorem ensures_compileArguments {ts : List Term} (hts : ∀ t ∈ ts, t.WellFormed) (s : FreshNames) :
    Ensures s (compileArguments ts) fun r s' => Compiles s ts r.1 r.2 s' :=
  ensures_compileArguments_of_forall (fun t ht => ensures_compileSteps (hts t ht)) s

end Term

/-! ## Names of steps -/

namespace Term

mutual

/-- The applications of functions in a term, each behind those in its arguments. -/
def applications : Term → List (String × Nat)
  | const _ => []
  | var _ => []
  | app name ts => applicationsOf ts ++ [(name, ts.length)]
  | missing => []

/-- The applications of functions in terms. -/
def applicationsOf : List Term → List (String × Nat)
  | [] => []
  | t :: ts => t.applications ++ applicationsOf ts

end

theorem applicationsOf_eq_flatMap (ts : List Term) : applicationsOf ts = ts.flatMap applications := by
  induction ts with
  | nil => rfl
  | cons t ts ih => rw [applicationsOf, ih, List.flatMap_cons]

theorem mem_applications {t : Term} (ht : t.WellFormed) {e : String × Nat} :
    e ∈ t.applications ↔ e ∈ t.functionNodes := by
  induction t with
  | const c => exact Iff.rfl
  | var x => exact Iff.rfl
  | app name ts ih =>
      rw [applications, applicationsOf_eq_flatMap, functionNodes, functionNodesOf_eq_flatMap ht.args]
      simp only [List.mem_append, List.mem_flatMap, List.mem_cons, List.not_mem_nil, or_false]
      rw [or_comm]
      exact or_congr_right (exists_congr fun t => and_congr_right fun h => ih t h (ht.args t h))
  | missing => exact Iff.rfl

/-- What is left of terms: a constant of theirs, or a variable. -/
structure LeafOf (ts : List Term) (u : Term) : Prop where
  wellFormed : u.WellFormed
  functionNodes : u.functionNodes = []
  constants : u.constantLeaves ⊆ ts.flatMap constantLeaves

theorem LeafOf.mono {ts ts' : List Term} {u : Term} (h : u.LeafOf ts)
    (hts : ts.flatMap constantLeaves ⊆ ts'.flatMap constantLeaves) : u.LeafOf ts' :=
  ⟨h.wellFormed, h.functionNodes, List.Subset.trans h.constants hts⟩

end Term

/-- A step applies a function to what is left of terms. -/
def CompiledStep.Over (ts : List Term) (step : CompiledStep) : Prop :=
  isFunction step.function = true ∧ ∀ u ∈ step.args, u.LeafOf ts

theorem CompiledStep.Over.mono {ts ts' : List Term} {step : CompiledStep} (h : step.Over ts)
    (hts : ts.flatMap Term.constantLeaves ⊆ ts'.flatMap Term.constantLeaves) : step.Over ts' :=
  ⟨h.1, fun u hu => (h.2 u hu).mono hts⟩

namespace Compiles

variable {s s' : FreshNames} {ts us : List Term} {steps : List CompiledStep}

theorem length_eq (h : Compiles s ts steps us s') : us.length = ts.length := by
  induction h with
  | nil s => rfl
  | const c h ih => rw [List.length_cons, List.length_cons, ih]
  | var x h ih => rw [List.length_cons, List.length_cons, ih]
  | app name hargs h ihargs ih => rw [List.length_cons, List.length_cons, ih]

/-- What is compiled in two parts is compiled as a whole. -/
theorem append {s₁ : FreshNames} {ts' us' : List Term} {steps' : List CompiledStep}
    (h : Compiles s ts steps us s₁) (h' : Compiles s₁ ts' steps' us' s') :
    Compiles s (ts ++ ts') (steps ++ steps') (us ++ us') s' := by
  induction h with
  | nil s => exact h'
  | const c h ih => exact .const c (ih h')
  | var x h ih => exact .var x (ih h')
  | app name hargs h ihargs ih =>
      rw [List.append_assoc, List.cons_append]
      exact .app name hargs (ih h')

/-- There is a step for each application. -/
theorem applications (h : Compiles s ts steps us s') :
    steps.map (fun step => (step.function, step.args.length)) = ts.flatMap Term.applications := by
  induction h with
  | nil s => rfl
  | const c h ih => exact ih
  | var x h ih => exact ih
  | app name hargs h ihargs ih =>
      rw [List.map_append, List.map_cons, ihargs, ih, hargs.length_eq, List.flatMap_cons,
        Term.applications, Term.applicationsOf_eq_flatMap, List.append_assoc, List.singleton_append]

theorem mem_functionNodes (h : Compiles s ts steps us s') (hts : ∀ t ∈ ts, t.WellFormed) :
    ∀ step ∈ steps, (step.function, step.args.length) ∈ ts.flatMap Term.functionNodes := by
  intro step hstep
  have hmem := List.mem_map_of_mem (f := fun step => (step.function, step.args.length)) hstep
  rw [h.applications] at hmem
  obtain ⟨t, ht, hmem⟩ := List.mem_flatMap.1 hmem
  exact List.mem_flatMap.2 ⟨t, ht, (Term.mem_applications (hts t ht)).1 hmem⟩

/-- The variables of the steps are those that are drawn next. -/
theorem targets (h : Compiles s ts steps us s') :
    s'.variablesDrawn = s.variablesDrawn + steps.length ∧ steps.map CompiledStep.target =
      (List.range' (s.variablesDrawn + 1) steps.length).map (FreshNames.name "z") := by
  induction h with
  | nil s => exact ⟨rfl, rfl⟩
  | const c h ih => exact ih
  | var x h ih => exact ih
  | @app s s₁ s' args ts us us' steps steps' name hargs h ihargs ih =>
      obtain ⟨hcount, htargets⟩ := ihargs
      obtain ⟨hcount', htargets'⟩ := ih
      dsimp only at hcount' htargets'
      rw [hcount] at hcount' htargets'
      refine ⟨?_, ?_⟩
      · rw [hcount', List.length_append, List.length_cons]
        omega
      · have hrange : List.range' (s.variablesDrawn + 1) (steps.length + (steps'.length + 1)) =
            List.range' (s.variablesDrawn + 1) steps.length ++ (s.variablesDrawn + steps.length + 1) ::
              List.range' (s.variablesDrawn + steps.length + 1 + 1) steps'.length := by
          rw [← List.range'_append_1, List.range'_succ, Nat.add_right_comm]
        rw [List.map_append, List.map_cons, htargets, htargets', List.length_append, List.length_cons,
          hrange, List.map_append, List.map_cons, hcount]

/-- The variable of a step, and the application that it is for, by the place of the step. -/
theorem getElem?_steps (h : Compiles s ts steps us s') {k : Nat} {step : CompiledStep}
    (hk : steps[k]? = some step) : step.target = FreshNames.name "z" (s.variablesDrawn + k + 1) ∧
      (ts.flatMap Term.applications)[k]? = some (step.function, step.args.length) := by
  refine ⟨?_, by rw [← h.applications, List.getElem?_map, hk, Option.map_some]⟩
  obtain ⟨hlt, -⟩ := List.getElem?_eq_some_iff.1 hk
  have htarget : (steps.map CompiledStep.target)[k]? = some step.target := by
    rw [List.getElem?_map, hk, Option.map_some]
  rw [h.targets.2, List.getElem?_map, List.getElem?_range' hlt, Option.map_some] at htarget
  rw [← Option.some.inj htarget, Nat.one_mul, Nat.add_right_comm]

theorem drawn (h : Compiles s ts steps us s') : s.Drawn s' (steps.map CompiledStep.target) := by
  induction h with
  | nil s => exact .nil s
  | const c h ih => exact ih
  | var x h ih => exact ih
  | @app s s₁ s' args ts us us' steps steps' name hargs h ihargs ih =>
      rw [List.map_append, List.map_cons]
      exact ihargs.append ((FreshNames.Drawn.nil s₁).next.append ih)

/-- No variable of a step is one of the terms. -/
theorem notMem_targets (h : Compiles s ts steps us s') {x : String} (hx : x.toList.head? ≠ some 'z') :
    x ∉ steps.map CompiledStep.target := by
  intro hmem
  obtain ⟨n, -, -, rfl⟩ := h.drawn.between x hmem
  exact hx (head?_name n)

/-- Constants of the terms, and variables, are left of the terms, and steps have them for arguments. -/
theorem leafOf (h : Compiles s ts steps us s') (hts : ∀ t ∈ ts, t.WellFormed) :
    (∀ u ∈ us, u.LeafOf ts) ∧ ∀ step ∈ steps, step.Over ts := by
  induction h with
  | nil s => simp
  | @const s s' ts us steps c h ih =>
      obtain ⟨hc, hts⟩ := List.forall_mem_cons.1 hts
      obtain ⟨hus, hsteps⟩ := ih hts
      have hmono : ts.flatMap Term.constantLeaves ⊆ (Term.const c :: ts).flatMap Term.constantLeaves :=
        List.subset_append_right _ _
      refine ⟨List.forall_mem_cons.2 ⟨⟨hc, rfl, List.subset_append_left _ _⟩, ?_⟩, ?_⟩
      · exact fun u hu => (hus u hu).mono hmono
      · exact fun step hstep => (hsteps step hstep).mono hmono
  | @var s s' ts us steps x h ih =>
      obtain ⟨hx, hts⟩ := List.forall_mem_cons.1 hts
      obtain ⟨hus, hsteps⟩ := ih hts
      have hmono : ts.flatMap Term.constantLeaves ⊆ (Term.var x :: ts).flatMap Term.constantLeaves :=
        List.Subset.refl _
      refine ⟨List.forall_mem_cons.2 ⟨⟨hx, rfl, List.nil_subset _⟩, ?_⟩, ?_⟩
      · exact fun u hu => (hus u hu).mono hmono
      · exact fun step hstep => (hsteps step hstep).mono hmono
  | @app s s₁ s' args ts us us' steps steps' name hargs h ihargs ih =>
      obtain ⟨happ, hts⟩ := List.forall_mem_cons.1 hts
      obtain ⟨hus, hsteps⟩ := ihargs happ.args
      obtain ⟨hus', hsteps'⟩ := ih hts
      have hmono : args.flatMap Term.constantLeaves ⊆
          (Term.app name args :: ts).flatMap Term.constantLeaves := by
        rw [List.flatMap_cons, Term.constantLeaves, Term.constantLeavesOf_eq_flatMap happ.args]
        exact List.subset_append_left _ _
      have hmono' : ts.flatMap Term.constantLeaves ⊆
          (Term.app name args :: ts).flatMap Term.constantLeaves := List.subset_append_right _ _
      refine ⟨List.forall_mem_cons.2 ⟨⟨isVariable_name _, rfl, List.nil_subset _⟩, fun u hu => ?_⟩,
        List.forall_mem_append.2 ⟨fun step hstep => ?_, List.forall_mem_cons.2 ⟨?_, ?_⟩⟩⟩
      · exact (hus' u hu).mono hmono'
      · exact (hsteps step hstep).mono hmono
      · exact ⟨happ.1, fun u hu => (hus u hu).mono hmono⟩
      · exact fun step hstep => (hsteps' step hstep).mono hmono'

/-- The variables that are left are those of the terms and of the steps. -/
theorem variableLeaves (h : Compiles s ts steps us s') (hts : ∀ t ∈ ts, t.WellFormed) :
    ∀ u ∈ us, ∀ x ∈ u.variableLeaves,
      x ∈ ts.flatMap Term.variableLeaves ∨ x ∈ steps.map CompiledStep.target := by
  induction h with
  | nil s => simp
  | const c h ih =>
      obtain ⟨-, hts⟩ := List.forall_mem_cons.1 hts
      exact List.forall_mem_cons.2 ⟨by simp [Term.variableLeaves], ih hts⟩
  | var y h ih =>
      obtain ⟨-, hts⟩ := List.forall_mem_cons.1 hts
      refine List.forall_mem_cons.2 ⟨fun x hx => .inl (List.mem_append_left _ hx), fun u hu x hx => ?_⟩
      exact (ih hts u hu x hx).imp_left (List.mem_append_right _)
  | app name hargs h ihargs ih =>
      obtain ⟨-, hts⟩ := List.forall_mem_cons.1 hts
      refine List.forall_mem_cons.2 ⟨fun x hx => .inr ?_, fun u hu x hx => ?_⟩
      · rw [List.mem_singleton.1 hx]
        simp
      · rcases ih hts u hu x hx with hx | hx
        · exact .inl (List.mem_append_right _ hx)
        · refine .inr ?_
          rw [List.map_append, List.map_cons]
          exact List.mem_append_right _ (List.mem_cons_of_mem _ hx)

theorem isVariable_target (h : Compiles s ts steps us s') :
    ∀ step ∈ steps, isVariable step.target = true := by
  intro step hstep
  obtain ⟨n, -, -, hn⟩ := h.drawn.between _ (List.mem_map_of_mem hstep)
  rw [hn]
  exact isVariable_name n

end Compiles

/-! ## Steps in front of a formula -/

namespace Formula

variable {g : Formula} {steps : List CompiledStep}

theorem boundBy_append (steps' : List CompiledStep) :
    g.boundBy (steps ++ steps') = (g.boundBy steps').boundBy steps :=
  List.foldr_append

theorem terms_boundBy : (g.boundBy steps).terms =
    steps.flatMap (fun step => .var step.target :: step.args) ++ g.terms := by
  induction steps with
  | nil => rfl
  | cons step steps ih =>
      rw [List.flatMap_cons, List.append_assoc, ← ih]
      rfl

theorem relationNodes_boundBy : (g.boundBy steps).relationNodes =
    steps.map (fun step => (graphName step.function, step.args.length + 1)) ++ g.relationNodes := by
  induction steps with
  | nil => rfl
  | cons step steps ih =>
      rw [List.map_cons, List.cons_append, ← ih]
      rfl

variable {ts : List Term}

theorem graphAtom_wellFormed {step : CompiledStep} (hstep : step.Over ts)
    (htarget : isVariable step.target = true) : step.graphAtom.WellFormed :=
  ⟨isRelation_graphName hstep.1,
    List.forall_mem_cons.2 ⟨htarget, fun u hu => (hstep.2 u hu).wellFormed⟩⟩

theorem mem_freeNames_graphAtom {step : CompiledStep} (hstep : step.Over ts)
    (htarget : isVariable step.target = true) {x : String} :
    x ∈ step.graphAtom.freeNames ↔ x = step.target ∨ ∃ u ∈ step.args, x ∈ u.variableLeaves := by
  have hatom := graphAtom_wellFormed hstep htarget
  rw [CompiledStep.graphAtom] at hatom ⊢
  rw [freeNames_rel hatom, List.flatMap_cons, List.mem_append, List.mem_flatMap]
  exact or_congr_left List.mem_singleton

theorem mem_freeNames_boundBy_cons {step : CompiledStep} (hstep : step.Over ts)
    (htarget : isVariable step.target = true) (g : Formula) (steps : List CompiledStep) {x : String} :
    x ∈ (g.boundBy (step :: steps)).freeNames ↔
      ((∃ u ∈ step.args, x ∈ u.variableLeaves) ∨ x ∈ (g.boundBy steps).freeNames) ∧
        x ≠ step.target := by
  change x ∈ (forAll step.target (imp step.graphAtom (g.boundBy steps))).freeNames ↔ _
  rw [mem_freeNames_quant, freeNames_bin, List.mem_append, mem_freeNames_graphAtom hstep htarget]
  exact and_congr_left fun hne => or_congr_left (or_iff_right hne)

theorem boundBy_wellFormed (hg : g.WellFormed) (hsteps : ∀ step ∈ steps, step.Over ts)
    (htargets : ∀ step ∈ steps, isVariable step.target = true) : (g.boundBy steps).WellFormed := by
  induction steps with
  | nil => exact hg
  | cons step steps ih =>
      obtain ⟨hstep, hsteps⟩ := List.forall_mem_cons.1 hsteps
      obtain ⟨htarget, htargets⟩ := List.forall_mem_cons.1 htargets
      exact ⟨htarget, graphAtom_wellFormed hstep htarget, ih hsteps htargets⟩

/-- A step in front of a formula gives its variable the value of the function, which is the only one that
the graph has for the arguments. -/
theorem truth_forAll_graphAtom {I J : Interpretation} {w : String → String} {step : CompiledStep}
    {es : List String} (hdomain : J.domain = I.domain)
    (hargs : ∀ e, step.args.map (Term.denote J (Function.update w step.target e)) = es)
    (happ : I.app step.function es ∈ I.domain)
    (hgraph : ∀ a, J.rel (graphName step.function) (a :: es) = true ↔ a = I.app step.function es) :
    (forAll step.target (imp step.graphAtom g)).truth J w =
      g.truth J (Function.update w step.target (I.app step.function es)) := by
  have hatom : ∀ e, step.graphAtom.truth J (Function.update w step.target e) = true ↔
      e = I.app step.function es := by
    intro e
    rw [CompiledStep.graphAtom, truth, List.map_cons, hargs, Term.denote, Function.update_self]
    exact hgraph e
  rw [Bool.eq_iff_iff, truth_forAll, hdomain]
  simp only [truth_imp, hatom]
  constructor
  · exact fun h => h _ happ rfl
  · rintro h e - rfl
    exact h

end Formula

namespace Compiles

variable {s s' : FreshNames} {ts us : List Term} {steps : List CompiledStep}

/-- The variable that is drawn for an application is none of what is left of its arguments. -/
theorem name_notMem (h : Compiles s ts steps us s') (hts : ∀ t ∈ ts, t.WellFormed)
    (hz : ∀ x ∈ ts.flatMap Term.variableLeaves, x.toList.head? ≠ some 'z') :
    ∀ u ∈ us, FreshNames.name "z" (s'.variablesDrawn + 1) ∉ u.variableLeaves := by
  intro u hu hmem
  rcases h.variableLeaves hts u hu _ hmem with hmem | hmem
  · exact hz _ hmem (head?_name _)
  · exact h.drawn.notMem_next hmem

/-- The variables of the steps are bound, and all others stay free. -/
theorem mem_freeNames_boundBy (h : Compiles s ts steps us s') (hts : ∀ t ∈ ts, t.WellFormed)
    (hz : ∀ x ∈ ts.flatMap Term.variableLeaves, x.toList.head? ≠ some 'z') {g : Formula}
    (hg : ∀ u ∈ us, u.variableLeaves ⊆ g.freeNames) {x : String} :
    x ∈ (g.boundBy steps).freeNames ↔
      x ∈ ts.flatMap Term.variableLeaves ∨ x ∈ g.freeNames ∧ x ∉ steps.map CompiledStep.target := by
  induction h generalizing g x with
  | nil s => simp [Formula.boundBy]
  | const c h ih =>
      obtain ⟨-, hts⟩ := List.forall_mem_cons.1 hts
      exact ih hts hz (List.forall_mem_cons.1 hg).2
  | @var s s' ts us steps y h ih =>
      obtain ⟨-, hts⟩ := List.forall_mem_cons.1 hts
      obtain ⟨hy, hg⟩ := List.forall_mem_cons.1 hg
      rw [List.flatMap_cons, List.forall_mem_append] at hz
      rw [ih hts hz.2 hg, List.flatMap_cons, List.mem_append, or_assoc]
      refine (or_iff_right_of_imp fun hx => .inr ?_).symm
      exact ⟨hy hx, h.notMem_targets (hz.1 x hx)⟩
  | @app s s₁ s' args ts us us' steps steps' name hargs h ihargs ih =>
      obtain ⟨happ, hts'⟩ := List.forall_mem_cons.1 hts
      obtain ⟨-, hg'⟩ := List.forall_mem_cons.1 hg
      simp only [List.flatMap_cons, Term.variableLeaves, Term.variableLeavesOf_eq_flatMap happ.args,
        List.forall_mem_append] at hz ⊢
      have hover : CompiledStep.Over args ⟨FreshNames.name "z" (s₁.variablesDrawn + 1), name, us⟩ :=
        ⟨happ.1, (hargs.leafOf happ.args).1⟩
      have hfresh := hargs.name_notMem happ.args hz.1
      -- what the steps of the arguments are put in front of has all that is left of them free
      have hmem := @Formula.mem_freeNames_boundBy_cons args _ hover (isVariable_name _) g steps'
      have hus : ∀ u ∈ us, u.variableLeaves ⊆ (Formula.boundBy g
          (⟨FreshNames.name "z" (s₁.variablesDrawn + 1), name, us⟩ :: steps')).freeNames := by
        refine fun u hu x hx => hmem.2 ⟨.inl ⟨u, hu, hx⟩, ?_⟩
        exact ne_of_mem_of_not_mem hx (hfresh u hu)
      rw [Formula.boundBy_append, ihargs happ.args hz.1 hus, hmem, ih hts' hz.2 hg', List.map_append,
        List.map_cons, List.mem_append, List.mem_append, List.mem_cons]
      constructor
      · rintro (hx | ⟨⟨⟨u, hu, hx⟩ | hx | ⟨hxg, hx⟩, hne⟩, hnot⟩)
        · exact .inl (.inl hx)
        · exact .inl (.inl ((hargs.variableLeaves happ.args u hu x hx).resolve_right hnot))
        · exact .inl (.inr hx)
        · exact .inr ⟨hxg, not_or.2 ⟨hnot, not_or.2 ⟨hne, hx⟩⟩⟩
      · rintro ((hx | hx) | ⟨hxg, hnot⟩)
        · exact .inl hx
        · have hne : x ≠ FreshNames.name "z" (s₁.variablesDrawn + 1) := by
            rintro rfl
            exact hz.2 _ hx (head?_name _)
          exact .inr ⟨⟨.inr (.inl hx), hne⟩, hargs.notMem_targets (hz.2 x hx)⟩
        · obtain ⟨hsteps, hne, hsteps'⟩ := by simpa only [not_or] using hnot
          exact .inr ⟨⟨.inr (.inr ⟨hxg, hsteps'⟩), hne⟩, hsteps⟩

/-- The steps compute terms: the variables of the steps get values, with which what is left of the terms
denotes the same elements, and with which a formula is as true as it is behind the steps. -/
structure Computes (I J : Interpretation) (v : String → String) (ts : List Term)
    (steps : List CompiledStep) (us : List Term) (w : String → String) : Prop where
  agrees : ∀ x, x ∉ steps.map CompiledStep.target → w x = v x
  values : us.map (Term.denote J w) = ts.map (Term.denote I v)
  elements : ∀ t ∈ ts, t.denote I v ∈ I.domain
  bound : ∀ g : Formula, (g.boundBy steps).truth J v = g.truth J w

theorem computes (h : Compiles s ts steps us s') (hts : ∀ t ∈ ts, t.WellFormed)
    (hz : ∀ x ∈ ts.flatMap Term.variableLeaves, x.toList.head? ≠ some 'z') {I J : Interpretation}
    (hIJ : I.Graphed J (ts.flatMap Term.constantLeaves) (ts.flatMap Term.functionNodes))
    {v : String → String} (hv : ∀ x ∈ ts.flatMap Term.variableLeaves, v x ∈ I.domain) :
    ∃ w, Computes I J v ts steps us w := by
  induction h generalizing v with
  | nil s => exact ⟨v, fun _ _ => rfl, rfl, by simp, fun _ => rfl⟩
  | @const s s' ts us steps c h ih =>
      obtain ⟨-, hts⟩ := List.forall_mem_cons.1 hts
      obtain ⟨w, hw⟩ := ih hts hz (hIJ.mono (List.subset_append_right _ _) (List.Subset.refl _)) hv
      have hc : I.const c ∈ I.domain := hIJ.constants c (List.mem_append_left _ List.mem_cons_self)
      refine ⟨w, hw.agrees, ?_, List.forall_mem_cons.2 ⟨hc, hw.elements⟩, hw.bound⟩
      rw [List.map_cons, List.map_cons, hw.values, Term.denote, Term.denote, hIJ.const]
  | @var s s' ts us steps x h ih =>
      obtain ⟨-, hts⟩ := List.forall_mem_cons.1 hts
      rw [List.flatMap_cons, List.forall_mem_append] at hz hv
      obtain ⟨w, hw⟩ := ih hts hz.2 hIJ hv.2
      have hx : x ∈ (Term.var x).variableLeaves := List.mem_cons_self
      refine ⟨w, hw.agrees, ?_, List.forall_mem_cons.2 ⟨hv.1 x hx, hw.elements⟩, hw.bound⟩
      rw [List.map_cons, List.map_cons, hw.values, Term.denote, Term.denote,
        hw.agrees x (h.notMem_targets (hz.1 x hx))]
  | @app s s₁ s' args ts us us' steps steps' name hargs h ihargs ih =>
      obtain ⟨happ, hts'⟩ := List.forall_mem_cons.1 hts
      simp only [List.flatMap_cons, Term.variableLeaves, Term.variableLeavesOf_eq_flatMap happ.args,
        List.forall_mem_append] at hz hv
      simp only [List.flatMap_cons, Term.constantLeaves, Term.constantLeavesOf_eq_flatMap happ.args,
        Term.functionNodes, Term.functionNodesOf_eq_flatMap happ.args] at hIJ
      obtain ⟨w₁, hw₁⟩ := ihargs happ.args hz.1 (hIJ.mono (List.subset_append_left _ _)
        fun e he => List.mem_append_left _ (List.mem_cons_of_mem _ he)) hv.1
      have hfresh := hargs.name_notMem happ.args hz.1
      have hes : args.map (Term.denote I v) ∈ Model.tuples I.domain args.length := by
        refine Model.mem_tuples.2 ⟨List.length_map _, fun e he => ?_⟩
        obtain ⟨t, ht, rfl⟩ := List.mem_map.1 he
        exact hw₁.elements t ht
      obtain ⟨hmem, hgraph⟩ := hIJ.functions (name, args.length) (by simp) _ hes
      have hdenote : (Term.app name args).denote I v = I.app name (args.map (Term.denote I v)) := by
        rw [Term.denote, Term.denoteAll_eq_map]
      generalize hv₂ : Function.update w₁ (FreshNames.name "z" (s₁.variablesDrawn + 1))
        (I.app name (args.map (Term.denote I v))) = v₂
      -- the terms that follow have neither the new variable nor those of the steps
      have hagrees : ∀ x ∈ ts.flatMap Term.variableLeaves, v₂ x = v x := by
        intro x hx
        have hne : x ≠ FreshNames.name "z" (s₁.variablesDrawn + 1) := by
          rintro rfl
          exact hz.2 _ hx (head?_name _)
        rw [← hv₂, Function.update_of_ne hne, hw₁.agrees x (hargs.notMem_targets (hz.2 x hx))]
      have hsame : ∀ t ∈ ts, t.denote I v₂ = t.denote I v := fun t ht =>
        Term.denote_congr (hts' t ht) (fun _ _ => rfl) (fun _ _ => rfl) fun x hx =>
          hagrees x (List.mem_flatMap.2 ⟨t, ht, hx⟩)
      obtain ⟨w₂, hw₂⟩ := ih hts' hz.2 (hIJ.mono (List.subset_append_right _ _)
        (List.subset_append_right _ _)) fun x hx => hagrees x hx ▸ hv.2 x hx
      refine ⟨w₂, fun x hx => ?_, ?_, List.forall_mem_cons.2 ⟨hdenote ▸ hmem, fun t ht => ?_⟩,
        fun g => ?_⟩
      · rw [List.map_append, List.map_cons, List.mem_append, List.mem_cons, not_or, not_or] at hx
        rw [hw₂.agrees x hx.2.2, ← hv₂, Function.update_of_ne hx.2.1, hw₁.agrees x hx.1]
      · have hz₂ : w₂ (FreshNames.name "z" (s₁.variablesDrawn + 1)) =
            I.app name (args.map (Term.denote I v)) := by
          rw [hw₂.agrees _ (h.drawn.notMem_of_le (Nat.le_refl _)), ← hv₂, Function.update_self]
        rw [List.map_cons, List.map_cons, hw₂.values, List.map_congr_left hsame, Term.denote, hz₂, hdenote]
      · exact hsame t ht ▸ hw₂.elements t ht
      · have hargs' : ∀ e, us.map (Term.denote J (Function.update w₁
            (FreshNames.name "z" (s₁.variablesDrawn + 1)) e)) = args.map (Term.denote I v) := by
          intro e
          rw [← hw₁.values]
          refine List.map_congr_left fun u hu => Term.denote_congr
            ((hargs.leafOf happ.args).1 u hu).wellFormed (fun _ _ => rfl) (fun _ _ => rfl) fun x hx => ?_
          exact Function.update_of_ne (ne_of_mem_of_not_mem hx (hfresh u hu)) e w₁
        rw [Formula.boundBy_append, hw₁.bound, ← hw₂.bound, ← hv₂]
        exact Formula.truth_forAll_graphAtom hIJ.domain hargs' hmem hgraph

end Compiles

end FormalLogic.Predicate
