import FormalLogic.Proofs.Predicate.FunctionElimination.Formulas
import FormalLogic.Proofs.Predicate.FunctionElimination.GraphAxioms
import Mathlib

/-!
# Sets of formulas without functions

In a set of formulas, functions are replaced in the formulas that are relation formulas. Others are left as
they are, with the functions in them (`Formula.Replaced`). For every application that is replaced, it is
added that the new relation is the graph of a function.

The main statement is `Formula.isModelOf_allFunctionsToRelations`. No functions are left exactly if all of
them stand in relation formulas. A model with graphs in place of functions then satisfies the result exactly
if the model itself satisfies the formulas and, where the variable that was drawn for an application is also
that of an argument (`Formula.SharesVariable`), the function has a value equal to that argument.
-/

namespace FormalLogic.Predicate

namespace Formula

/-- The arguments of a relation formula, in which functions are replaced. -/
def relationArguments : Formula → List Term
  | rel _ ts => ts
  | _ => []

/-- The applications of functions in relation formulas, in the order in which variables are drawn. -/
def relationApplications (fs : List Formula) : List (String × Nat) :=
  (fs.flatMap relationArguments).flatMap Term.applications

/-- The variable that is drawn for an application of a function is also that of the argument at a place, where
it is said that the function has values. Variables are numbered in the order of the applications, behind those
drawn before, and the variables of arguments are numbered from three. -/
def SharesVariable (s : FreshNames) (fs : List Formula) (function : String) (n i : Nat) : Prop :=
  i < n ∧ ∃ k, (relationApplications fs)[k]? = some (function, n) ∧ s.variablesDrawn + k + 1 = i + 3

/-! ## Runs -/

/-- Functions are replaced in a relation formula, and any other formula is left as it is. -/
inductive Replaced : Formula → Formula → Prop
  | rel {name : String} {ts : List Term} {f' : Formula} (h : (rel name ts).Eliminates f') :
      Replaced (rel name ts) f'
  | other {f : Formula} (h : ∀ name ts, f ≠ rel name ts) : Replaced f f

/-- A formula without functions says the same with graphs. -/
theorem Eliminates.refl {f : Formula} (hf : f.WellFormed) (h : f.functionNodes = []) :
    f.Eliminates f where
  wellFormed := hf
  functionNodes := h
  constantNames := List.Subset.refl _
  relationNodes _ he := .inl he
  freeNames _ := Iff.rfl
  truth hIJ hrel _ := truth_congr hf hIJ.domain (by simp [h]) hrel
    (fun c _ => congrFun hIJ.const c) fun _ _ => rfl

namespace Replaced

variable {f f' : Formula} (h : Replaced f f')
include h

theorem functionNodes_eq_nil_iff :
    f'.functionNodes = [] ↔ f.functionNodes = [] ∨ ∃ name ts, f = .rel name ts := by
  cases h with
  | rel h => exact ⟨fun _ => .inr ⟨_, _, rfl⟩, fun _ => h.functionNodes⟩
  | other h =>
      refine ⟨.inl, fun hf => hf.resolve_right ?_⟩
      rintro ⟨name, ts, rfl⟩
      exact h name ts rfl

theorem wellFormed (hf : f.WellFormed) : f'.WellFormed := by
  cases h with
  | rel h => exact h.wellFormed
  | other h => exact hf

theorem eliminates (hf : f.WellFormed) (hnil : f'.functionNodes = []) : f.Eliminates f' := by
  cases h with
  | rel h => exact h
  | other h => exact .refl hf hnil

end Replaced

/-- The formulas of a set are replaced, the arguments of the relation formulas are compiled one after the
other, and for every step it is said that the new relation is a graph. -/
structure ReplacedAll (s s' : FreshNames) (fs fs' : List Formula) (steps : List CompiledStep)
    (result : List Formula) : Prop where
  replaced : List.Forall₂ Replaced fs fs'
  compiles : ∃ us, Compiles s (fs.flatMap relationArguments) steps us s'
  mem_iff : ∀ g, g ∈ result ↔ g ∈ fs' ∨ ∃ step ∈ steps, g ∈ graphAxioms step

open Fallible

/-- Replacing functions in one formula of a set. -/
theorem ensures_graphFormulas {f : Formula} (hf : f.WellFormed)
    (hz : ∀ x ∈ f.variableNames, x.toList.head? ≠ some 'z') (s : FreshNames) :
    Ensures s f.graphFormulas fun gs s' => ∃ f' steps us, Replaced f f' ∧
      Compiles s f.relationArguments steps us s' ∧ gs = f' :: steps.flatMap graphAxioms := by
  have hother : (∀ name ts, f ≠ rel name ts) → f.relationArguments = [] →
      f.graphFormulas = pure [f] → Ensures s f.graphFormulas fun gs s' => ∃ f' steps us,
        Replaced f f' ∧ Compiles s f.relationArguments steps us s' ∧
          gs = f' :: steps.flatMap graphAxioms := by
    intro hne hargs hrun
    rw [hrun, hargs]
    exact ⟨_, s, rfl, f, [], [], .other hne, .nil s, rfl⟩
  cases f with
  | rel name ts =>
      rw [graphFormulas]
      refine ensures_bind (Term.ensures_compileArguments hf.2 s) ?_
      rintro ⟨steps, us⟩ s' hcompiles
      exact ⟨_, _, rfl, _, steps, us,
        .rel (eliminates_boundBy (.rel name hcompiles.length_eq) hcompiles hf hz), hcompiles, rfl⟩
  | equal l r => exact hother (by simp) rfl rfl
  | neg f => exact hother (by simp) rfl rfl
  | bin op l r => exact hother (by simp) rfl rfl
  | quant k x f => exact hother (by simp) rfl rfl
  | bare t => exact hf.elim

/-- Replacing functions in the formulas of a set, one after the other. -/
theorem ensures_mapM_graphFormulas {fs : List Formula} (hfs : ∀ f ∈ fs, f.WellFormed)
    (hz : ∀ f ∈ fs, ∀ x ∈ f.variableNames, x.toList.head? ≠ some 'z') (s : FreshNames) :
    Ensures s (fs.mapM graphFormulas) fun parts s' => ∃ fs' steps,
      ReplacedAll s s' fs fs' steps parts.flatten := by
  induction fs generalizing s with
  | nil => exact ⟨_, s, rfl, [], [], .nil, ⟨[], .nil s⟩, by simp⟩
  | cons f fs ih =>
      obtain ⟨hf, hfs⟩ := List.forall_mem_cons.1 hfs
      obtain ⟨hzf, hz⟩ := List.forall_mem_cons.1 hz
      rw [List.mapM_cons]
      refine ensures_bind (ensures_graphFormulas hf hzf s) ?_
      rintro _ s₁ ⟨f', steps, us, hreplaced, hcompiles, rfl⟩
      refine ensures_bind (ih hfs hz s₁) ?_
      rintro parts s' ⟨fs', steps', hreplaced', ⟨us', hcompiles'⟩, hmem⟩
      refine ⟨_, s', rfl, f' :: fs', steps ++ steps', .cons hreplaced hreplaced',
        ⟨us ++ us', hcompiles.append hcompiles'⟩, fun g => ?_⟩
      simp only [List.flatten_cons, List.mem_append, List.mem_cons, List.mem_flatMap, hmem, or_and_right,
        exists_or]
      exact or_or_or_comm

/-- Replacing the functions of a set of formulas answers. -/
theorem ensures_allFunctionsToRelations {fs : List Formula} (hne : fs ≠ [])
    (hfs : ∀ f ∈ fs, f.WellFormed) (hz : ∀ f ∈ fs, ∀ x ∈ f.vars, x.toList.head? ≠ some 'z')
    (hnames : ∀ f ∈ fs, ∀ e ∈ f.functions, ∀ g ∈ fs, ∀ r ∈ g.relations, r.1 ≠ graphName e.1)
    (s : FreshNames) :
    Ensures s (allFunctionsToRelations fs) fun result s' => ∃ fs' steps,
      ReplacedAll s s' fs fs' steps result := by
  have hcheck : checkGraphNames fs = .ok () := (checkGraphNames_eq_ok hfs).2 ⟨hnames, hz⟩
  rw [allFunctionsToRelations, if_neg (by simpa using hne)]
  refine ensures_lift_bind hcheck ?_
  refine ensures_bind (ensures_mapM_graphFormulas hfs (fun f hf x hx => hz f hf x (mem_vars.2 hx)) s) ?_
  rintro parts s' ⟨fs', steps, h⟩
  refine ⟨_, s', rfl, fs', steps, h.replaced, h.compiles, fun g => ?_⟩
  rw [List.mem_eraseDups, h.mem_iff]

/-! ## Names in the result -/

theorem relationArguments_subset_terms (f : Formula) : f.relationArguments ⊆ f.terms := by
  cases f with
  | rel name ts => exact List.Subset.refl _
  | _ => exact List.nil_subset _

namespace ReplacedAll

variable {s s' : FreshNames} {fs fs' result : List Formula} {steps : List CompiledStep}
  (h : ReplacedAll s s' fs fs' steps result) (hfs : ∀ f ∈ fs, f.WellFormed)
include h

theorem functionNodes_eq_nil_iff : (∀ g ∈ result, g.functionNodes = []) ↔
    ∀ f ∈ fs, f.functionNodes = [] ∨ ∃ name ts, f = rel name ts := by
  rw [forall_mem_iff_of_forall₂ h.replaced fun f f' hf => hf.functionNodes_eq_nil_iff.symm]
  simp only [h.mem_iff, or_imp, forall_and]
  refine and_iff_left ?_
  rintro g ⟨step, -, hg⟩
  exact functionNodes_graphAxioms g hg

include hfs

/-- The functions that are replaced are those of the formulas. -/
theorem step_made : ∀ step ∈ steps, isFunction step.function = true ∧ isVariable step.target = true ∧
    ∃ f ∈ fs, (step.function, step.args.length) ∈ f.functionNodes := by
  obtain ⟨us, hcompiles⟩ := h.compiles
  have hwf : ∀ t ∈ fs.flatMap relationArguments, t.WellFormed := by
    intro t ht
    obtain ⟨f, hf, ht⟩ := List.mem_flatMap.1 ht
    exact (hfs f hf).terms t (relationArguments_subset_terms f ht)
  intro step hstep
  refine ⟨((hcompiles.leafOf hwf).2 step hstep).1, hcompiles.isVariable_target step hstep, ?_⟩
  obtain ⟨t, ht, hnode⟩ := List.mem_flatMap.1 (hcompiles.mem_functionNodes hwf step hstep)
  obtain ⟨f, hf, ht⟩ := List.mem_flatMap.1 ht
  exact ⟨f, hf, List.mem_flatMap.2 ⟨t, relationArguments_subset_terms f ht, hnode⟩⟩

theorem wellFormed : ∀ g ∈ result, g.WellFormed := by
  intro g hg
  rcases (h.mem_iff g).1 hg with hg | ⟨step, hstep, hg⟩
  · obtain ⟨f, hf, hreplaced⟩ := exists_left_of_forall₂ h.replaced g hg
    exact hreplaced.wellFormed (hfs f hf)
  · obtain ⟨hname, htarget, -⟩ := h.step_made hfs step hstep
    exact graphAxioms_wellFormed hname htarget g hg

theorem functions_eq_nil_iff : (∀ g ∈ result, g.functions = []) ↔
    ∀ f ∈ fs, f.functions = [] ∨ ∃ name ts, f = rel name ts := by
  rw [forall₂_congr fun g hg => Formula.functions_eq_nil_iff (h.wellFormed hfs g hg),
    h.functionNodes_eq_nil_iff]
  exact forall₂_congr fun f hf => or_congr_left (Formula.functions_eq_nil_iff (hfs f hf)).symm

end ReplacedAll

end Formula

/-! ## Models -/

namespace Model

open Formula

variable {m : Model} (hm : m.WellFormed)
include hm

theorem holds_graphs_iff {f f' : Formula} (h : f.Eliminates f') (hnames : m.Interprets f)
    (hgraphs : ∀ e ∈ f.functionNodes, Table.hasKey m.relations (graphName e.1) = false) :
    m.graphs.Holds f' ↔ m.Holds f := by
  refine forall_congr' fun v => ?_
  simp only [h.freeNames, graphs_domain]
  exact imp_congr_right fun hv => by rw [truth_graphs hm h hnames hgraphs hv]

variable {s s' : FreshNames} {fs fs' result : List Formula} {steps : List CompiledStep}
  (h : ReplacedAll s s' fs fs' steps result)
include h

/-- What is said of all the graphs holds, up to the variables that are shared. -/
theorem forall_holds_graphAxioms
    (hsteps : ∀ step ∈ steps, m.functionArity? step.function = some step.args.length ∧
      Table.hasKey m.relations (graphName step.function) = false) :
    (∀ step ∈ steps, ∀ g ∈ graphAxioms step, m.graphs.Holds g) ↔ ∀ function n i,
      SharesVariable s fs function n i → m.interpretation.FixedAt function n i := by
  obtain ⟨us, hcompiles⟩ := h.compiles
  have hstep : ∀ k step, steps[k]? = some step → ((∀ g ∈ graphAxioms step, m.graphs.Holds g) ↔
      ∀ i < step.args.length, s.variablesDrawn + k + 1 = i + 3 →
        m.interpretation.FixedAt step.function step.args.length i) := by
    intro k step hk
    obtain ⟨harity, hfree⟩ := hsteps step (List.mem_of_getElem? hk)
    exact holds_graphAxioms hm harity hfree (hcompiles.getElem?_steps hk).1
  constructor
  · rintro hall function n i ⟨hi, k, hk, hcount⟩
    rw [relationApplications, ← hcompiles.applications, List.getElem?_map] at hk
    obtain ⟨step, hsome, hnode⟩ := Option.map_eq_some_iff.1 hk
    obtain ⟨rfl, rfl⟩ := Prod.mk.inj hnode
    exact (hstep k step hsome).1 (hall step (List.mem_of_getElem? hsome)) i hi hcount
  · intro hall step hmem
    obtain ⟨k, hk⟩ := List.mem_iff_getElem?.1 hmem
    refine (hstep k step hk).2 fun i hi hcount => ?_
    exact hall _ _ i ⟨hi, k, (hcompiles.getElem?_steps hk).2, hcount⟩

/-- Both questions are answered, and the answers are related. -/
theorem isModelOf_graphs (hfs : ∀ f ∈ fs, f.WellFormed) (hnil : ∀ g ∈ result, g.functionNodes = [])
    (hnames : ∀ f ∈ fs, m.Interprets f)
    (hgraphs : ∀ f ∈ fs, ∀ e ∈ f.functionNodes, Table.hasKey m.relations (graphName e.1) = false) :
    ∃ b b', m.isModelOf fs = .ok b ∧ m.graphs.isModelOf result = .ok b' ∧
      (b' = true ↔ b = true ∧ ∀ function n i, SharesVariable s fs function n i →
        m.interpretation.FixedAt function n i) := by
  -- each formula says with graphs what it is replaced by
  have heliminates : List.Forall₂ (fun f f' => f ∈ fs ∧ f.Eliminates f') fs fs' := by
    have hleft := h.functionNodes_eq_nil_iff.1 hnil
    refine ((List.forall₂_and_left _ _).2 ⟨fun f hf => hf, h.replaced⟩).imp ?_
    rintro f f' ⟨hf, hreplaced⟩
    exact ⟨hf, hreplaced.eliminates (hfs f hf) (hreplaced.functionNodes_eq_nil_iff.2 (hleft f hf))⟩
  have hsteps : ∀ step ∈ steps, m.functionArity? step.function = some step.args.length ∧
      Table.hasKey m.relations (graphName step.function) = false := by
    intro step hstep
    obtain ⟨-, -, f, hf, hnode⟩ := h.step_made hfs step hstep
    exact ⟨(hnames f hf).functions _ hnode, hgraphs f hf _ hnode⟩
  have hinterprets : ∀ g ∈ result, m.graphs.Interprets g := by
    intro g hg
    rcases (h.mem_iff g).1 hg with hg | ⟨step, hstep, hg⟩
    · obtain ⟨f, -, hf, hfg⟩ := exists_left_of_forall₂ heliminates g hg
      exact interprets_graphs hm hfg (hnames f hf) (hgraphs f hf)
    · obtain ⟨harity, hfree⟩ := hsteps step hstep
      exact interprets_graphAxioms hm harity hfree g hg
  obtain ⟨b, hb, hholds⟩ := isModelOf_eq_ok hm fun f hf => ⟨hfs f hf, hnames f hf⟩
  obtain ⟨b', hb', hholds'⟩ := isModelOf_eq_ok hm.graphs fun g hg =>
    ⟨h.wellFormed hfs g hg, hinterprets g hg⟩
  refine ⟨b, b', hb, hb', ?_⟩
  rw [hholds', hholds, ← forall_holds_graphAxioms hm h hsteps,
    forall_mem_iff_of_forall₂ heliminates fun f f' hff' =>
      (holds_graphs_iff hm hff'.2 (hnames f hff'.1) (hgraphs f hff'.1)).symm]
  simp only [h.mem_iff, or_imp, forall_and]
  refine and_congr_right fun _ => ⟨fun hall step hstep g hg => hall g ⟨step, hstep, hg⟩, ?_⟩
  rintro hall g ⟨step, hstep, hg⟩
  exact hall step hstep g hg

end Model

/-- Replacing the functions of formulas by relations answers, whatever names were drawn before. No functions
are left exactly if those of the formulas stand in relation formulas. Then a model with the graphs of
functions in their place is a model of the result exactly if the model itself is one of the formulas and,
where a variable that is drawn is also that of an argument, the function has a value equal to that argument.
If no variable is shared, this is the case exactly if the model is one of the formulas. -/
theorem Formula.isModelOf_allFunctionsToRelations {fs : List Formula} (hne : fs ≠ [])
    (hfs : ∀ f ∈ fs, f.WellFormed) (hz : ∀ f ∈ fs, ∀ x ∈ f.vars, x.toList.head? ≠ some 'z')
    (hnames : ∀ f ∈ fs, ∀ e ∈ f.functions, ∀ g ∈ fs, ∀ r ∈ g.relations, r.1 ≠ graphName e.1)
    (s : FreshNames) :
    ∃ fs' s', (allFunctionsToRelations fs).run.run s = (.ok fs', s') ∧
      ((∀ f' ∈ fs', f'.functions = []) ↔ ∀ f ∈ fs, f.functions = [] ∨ ∃ name ts, f = rel name ts) ∧
      ((∀ f' ∈ fs', f'.functions = []) → ∀ m : Model, m.WellFormed →
        (∀ f ∈ fs, m.checkNames f = .ok ()) →
        (∀ f ∈ fs, ∀ e ∈ f.functions, Table.hasKey m.relations (graphName e.1) = false) →
        ∃ b b', m.isModelOf fs = .ok b ∧ m.graphs.isModelOf fs' = .ok b' ∧
          (b' = true ↔ b = true ∧ ∀ function n i, SharesVariable s fs function n i →
            m.interpretation.FixedAt function n i)) := by
  obtain ⟨result, s', hrun, fs', steps, h⟩ := ensures_allFunctionsToRelations hne hfs hz hnames s
  refine ⟨result, s', hrun, h.functions_eq_nil_iff hfs, fun hnil m hm hmnames hgraphs => ?_⟩
  refine m.isModelOf_graphs hm h hfs (fun g hg => ?_) (fun f hf => ?_) fun f hf e he => ?_
  · exact (functions_eq_nil_iff (h.wellFormed hfs g hg)).1 (hnil g hg)
  · exact (Model.checkNames_eq_ok (hfs f hf)).1 (hmnames f hf)
  · exact hgraphs f hf e ((mem_functions (hfs f hf)).2 he)

/-- One formula has nested applications, and the other has no functions. One variable was drawn before, so
that the variable of the outer application is also that of its argument; the function has such a value. -/
theorem Formula.isModelOf_allFunctionsToRelations_shared :
    let fs : List Formula := [.rel "R" [.app "f" [.app "g" [.const "c"]]],
      .forAll "x" (.imp (.rel "R" [.var "x"]) (.rel "S" [.var "x", .const "c"]))]
    let m : Model := ⟨["0", "1"], [("c", "1")], [("R", [["1"]]), ("S", [["0", "1"], ["1", "1"]])],
      [("f", [(["0"], "1"), (["1"], "1")]), ("g", [(["0"], "1"), (["1"], "0")])]⟩
    m.WellFormed ∧ SharesVariable ⟨1, 0⟩ fs "f" 1 0 ∧ m.isModelOf fs = .ok true ∧
      ∃ fs' s', (allFunctionsToRelations fs).run.run ⟨1, 0⟩ = (.ok fs', s') ∧
        (∀ f' ∈ fs', f'.functions = []) ∧ m.graphs.isModelOf fs' = .ok true := by
  intro fs m
  have hfs : ∀ f ∈ fs, f.WellFormed := by decide
  have hm : m.WellFormed := ⟨by cbv, by decide⟩
  have hnames : ∀ f ∈ fs, m.checkNames f = .ok () := by
    simp only [fs, List.forall_mem_cons]
    exact ⟨by cbv, by cbv, by simp⟩
  have hmodel : m.isModelOf fs = .ok true := by cbv
  have hvars : ∀ f ∈ fs, ∀ x ∈ f.variableNames, x.toList.head? ≠ some 'z' := by decide
  have hrelations : ∀ f ∈ fs, ∀ e ∈ f.functionNodes, ∀ g ∈ fs, ∀ r ∈ g.relationNodes,
      r.1 ≠ graphName e.1 := by decide
  have hgraphs : ∀ f ∈ fs, ∀ e ∈ f.functionNodes, Table.hasKey m.relations (graphName e.1) = false := by
    decide
  have hfixed : m.interpretation.FixedAt "f" 1 0 := by
    have hall : ∀ es ∈ Model.tuples ["0", "1"] 1, ∃ a ∈ ["0", "1"],
        m.interpretation.app "f" (es.set 0 a) = a := by decide
    exact hall
  have happlications : relationApplications fs = [("g", 1), ("f", 1)] := by decide
  have hshares : ∀ function n i, SharesVariable ⟨1, 0⟩ fs function n i →
      m.interpretation.FixedAt function n i := by
    rintro function n i ⟨hi, k, hk, hcount⟩
    rw [happlications] at hk
    dsimp only at hcount
    rcases k with _ | _ | k
    · omega
    · obtain ⟨rfl, rfl⟩ : "f" = function ∧ 1 = n := by simpa using hk
      obtain rfl : i = 0 := by omega
      exact hfixed
    · simp at hk
  have hfunctions : ∀ f ∈ fs, f.functionNodes = [] ∨ ∃ name ts, f = rel name ts := by
    simp only [fs, List.forall_mem_cons]
    exact ⟨.inr ⟨_, _, rfl⟩, .inl rfl, by simp⟩
  obtain ⟨fs', s', hrun, hnil, hanswers⟩ := isModelOf_allFunctionsToRelations (by simp [fs]) hfs
    (fun f hf x hx => hvars f hf x (mem_vars.1 hx))
    (fun f hf e he g hg r hr => hrelations f hf e ((mem_functions (hfs f hf)).1 he) g hg r
      (mem_relations.1 hr)) ⟨1, 0⟩
  have hnone := hnil.2 fun f hf => (hfunctions f hf).imp_left (functions_eq_nil_iff (hfs f hf)).2
  obtain ⟨b, b', hb, hb', hiff⟩ := hanswers hnone m hm hnames fun f hf e he =>
    hgraphs f hf e ((mem_functions (hfs f hf)).1 he)
  have htrue : b' = true := hiff.2 ⟨Except.ok.inj (hb.symm.trans hmodel), hshares⟩
  rw [htrue] at hb'
  exact ⟨hm, ⟨Nat.one_pos, 1, by rw [happlications]; rfl, rfl⟩, hmodel, fs', s', hrun, hnone, hb'⟩

/-- Functions stay in formulas that are not relation formulas. In a model where no element is its own value
under a function, a variable that is shared makes the result false. -/
theorem Formula.allFunctionsToRelations_fails :
    let f : Formula := .equal (.app "f" [.const "c"]) (.const "c")
    let g : Formula := .rel "R" [.app "f" [.app "g" [.app "h" [.const "c"]]]]
    let m : Model := ⟨["0", "1"], [("c", "0")], [("R", [["1"]])],
      [("f", [(["0"], "1"), (["1"], "0")]), ("g", [(["0"], "0"), (["1"], "1")]),
        ("h", [(["0"], "0"), (["1"], "1")])]⟩
    ((allFunctionsToRelations [f]).run.run ⟨0, 0⟩ = (.ok [f], ⟨0, 0⟩) ∧ f.functions = [("f", 1)]) ∧
      m.WellFormed ∧ m.isModelOf [g] = .ok true ∧
        (((allFunctionsToRelations [g]).run.run ⟨0, 0⟩).1 >>= m.graphs.isModelOf) = .ok false := by
  intro f g m
  exact ⟨⟨by cbv, by cbv⟩, ⟨by cbv, by decide⟩, by cbv, by cbv⟩

end FormalLogic.Predicate
