import FormalLogic.Proofs.Predicate.FunctionElimination.Compilation
import Mathlib

/-!
# Formulas without functions

Replacing functions by relations compiles the terms of every atomic formula, and puts the steps in front of
it. The result has the names of the formula and of the graphs of its functions, no functions, and the same
free variables, and it is true with the graphs exactly where the formula is true with the functions
(`Formula.Eliminates`). The main statement is `Formula.evaluate_functionsToRelations`: the result has the
truth value of the formula in every model that has the graphs of functions in their place.
-/

namespace FormalLogic.Predicate

namespace Formula

/-- A formula says with the graphs of functions what another one says with the functions. -/
structure Eliminates (f f' : Formula) : Prop where
  wellFormed : f'.WellFormed
  functionNodes : f'.functionNodes = []
  constantNames : f'.constantNames ⊆ f.constantNames
  relationNodes : ∀ e ∈ f'.relationNodes,
    e ∈ f.relationNodes ∨ ∃ d ∈ f.functionNodes, e = (graphName d.1, d.2 + 1)
  freeNames : ∀ x, x ∈ f'.freeNames ↔ x ∈ f.freeNames
  truth : ∀ {I J : Interpretation} {v : String → String},
    I.Graphed J f.constantNames f.functionNodes → (∀ e ∈ f.relationNodes, J.rel e.1 = I.rel e.1) →
      (∀ x ∈ f.freeNames, v x ∈ I.domain) → f'.truth J v = f.truth I v

/-! ## Atomic formulas -/

/-- Two atomic formulas differ in their terms only. -/
inductive SameAtom : Formula → Formula → Prop
  | equal (l r l' r' : Term) : SameAtom (equal l r) (equal l' r')
  | rel (name : String) {ts us : List Term} (h : us.length = ts.length) :
      SameAtom (rel name ts) (rel name us)

namespace SameAtom

variable {f g : Formula} (h : SameAtom f g)
include h

theorem relationNodes_eq : g.relationNodes = f.relationNodes := by
  cases h with
  | equal l r l' r' => rfl
  | rel name hlength => rw [relationNodes, relationNodes, hlength]

theorem wellFormed (hf : f.WellFormed) (hg : ∀ u ∈ g.terms, u.WellFormed) : g.WellFormed := by
  cases h with
  | equal l r l' r' => exact ⟨hg l' (by simp [terms]), hg r' (by simp [terms])⟩
  | rel name hlength => exact ⟨hf.1, hg⟩

theorem mem_freeNames (hf : f.WellFormed) {x : String} :
    x ∈ f.freeNames ↔ x ∈ f.terms.flatMap Term.variableLeaves := by
  cases h with
  | equal l r l' r' => simp [terms]
  | rel name hlength => rw [freeNames_rel hf, terms]

theorem symm : SameAtom g f := by
  cases h with
  | equal l r l' r' => exact .equal l' r' l r
  | rel name hlength => exact .rel name hlength.symm

theorem truth_eq {I J : Interpretation} {v w : String → String}
    (hvalues : g.terms.map (Term.denote J w) = f.terms.map (Term.denote I v))
    (hrel : ∀ e ∈ f.relationNodes, J.rel e.1 = I.rel e.1) : g.truth J w = f.truth I v := by
  cases h with
  | equal l r l' r' =>
      have hsides : l'.denote J w = l.denote I v ∧ r'.denote J w = r.denote I v := by
        simpa [terms] using hvalues
      rw [truth, truth, hsides.1, hsides.2]
  | @rel name ts us hlength =>
      have hname : J.rel name = I.rel name := hrel (name, ts.length) List.mem_cons_self
      have hargs : us.map (Term.denote J w) = ts.map (Term.denote I v) := hvalues
      rw [truth, truth, hargs, hname]

end SameAtom

/-- The terms of an atomic formula are compiled, and the steps are put in front of what is left. -/
theorem eliminates_boundBy {f g : Formula} (hsame : SameAtom f g) {s s' : FreshNames}
    {steps : List CompiledStep} (h : Compiles s f.terms steps g.terms s') (hf : f.WellFormed)
    (hz : ∀ x ∈ f.variableNames, x.toList.head? ≠ some 'z') : f.Eliminates (g.boundBy steps) := by
  obtain ⟨hleaves, hsteps⟩ := h.leafOf hf.terms
  have hg : g.WellFormed := hsame.wellFormed hf fun u hu => (hleaves u hu).wellFormed
  have hz : ∀ x ∈ f.terms.flatMap Term.variableLeaves, x.toList.head? ≠ some 'z' := fun x hx =>
    hz x (freeNames_subset_variableNames f ((hsame.mem_freeNames hf).2 hx))
  have hterms : ∀ u ∈ (g.boundBy steps).terms, u.LeafOf f.terms := by
    rw [terms_boundBy]
    refine List.forall_mem_append.2 ⟨fun u hu => ?_, hleaves⟩
    obtain ⟨step, hstep, hu⟩ := List.mem_flatMap.1 hu
    rcases List.mem_cons.1 hu with rfl | hu
    · exact ⟨h.isVariable_target step hstep, rfl, List.nil_subset _⟩
    · exact (hsteps step hstep).2 u hu
  constructor
  case wellFormed => exact boundBy_wellFormed hg hsteps h.isVariable_target
  case functionNodes => exact List.flatMap_eq_nil_iff.2 fun u hu => (hterms u hu).functionNodes
  case constantNames =>
    intro c hc
    obtain ⟨u, hu, hc⟩ := List.mem_flatMap.1 hc
    exact (hterms u hu).constants hc
  case relationNodes =>
    rw [relationNodes_boundBy, hsame.relationNodes_eq]
    refine List.forall_mem_append.2 ⟨fun e he => .inr ?_, fun e he => .inl he⟩
    obtain ⟨step, hstep, rfl⟩ := List.mem_map.1 he
    exact ⟨_, h.mem_functionNodes hf.terms step hstep, rfl⟩
  case freeNames =>
    intro x
    have hus : ∀ u ∈ g.terms, u.variableLeaves ⊆ g.freeNames := fun u hu y hy =>
      (hsame.symm.mem_freeNames hg).2 (List.mem_flatMap.2 ⟨u, hu, hy⟩)
    rw [h.mem_freeNames_boundBy hf.terms hz hus, hsame.mem_freeNames hf]
    refine or_iff_left_of_imp ?_
    rintro ⟨hx, hnot⟩
    obtain ⟨u, hu, hx⟩ := List.mem_flatMap.1 ((hsame.symm.mem_freeNames hg).1 hx)
    exact (h.variableLeaves hf.terms u hu x hx).resolve_right hnot
  case truth =>
    intro I J v hIJ hrel hv
    obtain ⟨w, hw⟩ := h.computes hf.terms hz hIJ fun x hx => hv x ((hsame.mem_freeNames hf).2 hx)
    rw [hw.bound]
    exact hsame.truth_eq hw.values hrel

/-! ## All formulas -/

namespace Eliminates

variable {f f' l l' r r' : Formula}

theorem neg (h : f.Eliminates f') : (neg f).Eliminates (neg f') where
  wellFormed := h.wellFormed
  functionNodes := h.functionNodes
  constantNames := h.constantNames
  relationNodes := h.relationNodes
  freeNames := h.freeNames
  truth hIJ hrel hv := congrArg (!·) (h.truth hIJ hrel hv)

theorem bin (op : Connective) (hl : l.Eliminates l') (hr : r.Eliminates r') :
    (bin op l r).Eliminates (bin op l' r') where
  wellFormed := ⟨hl.wellFormed, hr.wellFormed⟩
  functionNodes := by
    rw [Formula.functionNodes, terms, List.flatMap_append]
    exact List.append_eq_nil_iff.2 ⟨hl.functionNodes, hr.functionNodes⟩
  constantNames c hc := by
    rw [mem_constantNames_bin] at hc ⊢
    exact hc.imp (fun h => hl.constantNames h) fun h => hr.constantNames h
  relationNodes e he := by
    simp only [mem_functionNodes_bin]
    rcases List.mem_append.1 he with he | he
    · rcases hl.relationNodes e he with he | ⟨d, hd, he⟩
      · exact .inl (List.mem_append_left _ he)
      · exact .inr ⟨d, .inl hd, he⟩
    · rcases hr.relationNodes e he with he | ⟨d, hd, he⟩
      · exact .inl (List.mem_append_right _ he)
      · exact .inr ⟨d, .inr hd, he⟩
  freeNames x := by
    rw [freeNames_bin, freeNames_bin, List.mem_append, List.mem_append, hl.freeNames, hr.freeNames]
  truth {I J v} hIJ hrel hv := by
    simp only [freeNames_bin, Formula.relationNodes, List.forall_mem_append] at hrel hv
    have hconstants := @mem_constantNames_bin op l r
    have hfunctions := @mem_functionNodes_bin op l r
    rw [Formula.truth, Formula.truth,
      hl.truth (hIJ.mono (fun c hc => hconstants.2 (.inl hc)) fun e he => hfunctions.2 (.inl he))
        hrel.1 hv.1,
      hr.truth (hIJ.mono (fun c hc => hconstants.2 (.inr hc)) fun e he => hfunctions.2 (.inr he))
        hrel.2 hv.2]

theorem quant (k : Quantifier) {x : String} (hx : isVariable x = true) (h : f.Eliminates f') :
    (quant k x f).Eliminates (quant k x f') where
  wellFormed := ⟨hx, h.wellFormed⟩
  functionNodes := h.functionNodes
  constantNames := h.constantNames
  relationNodes := h.relationNodes
  freeNames y := by rw [mem_freeNames_quant, mem_freeNames_quant, h.freeNames]
  truth {I J v} hIJ hrel hv := by
    rw [Formula.truth, Formula.truth, hIJ.domain]
    refine k.eval_congr fun e he => h.truth hIJ hrel fun y hy => ?_
    by_cases hyx : y = x
    · rw [hyx, Function.update_self]
      exact he
    · rw [Function.update_of_ne hyx]
      exact hv y (mem_freeNames_quant.2 ⟨hy, hyx⟩)

end Eliminates

open Fallible

/-- Replacing functions answers with a formula that says the same. -/
theorem ensures_withoutFunctions {f : Formula} (hf : f.WellFormed)
    (hz : ∀ x ∈ f.variableNames, x.toList.head? ≠ some 'z') (s : FreshNames) :
    Ensures s f.withoutFunctions fun f' _ => f.Eliminates f' := by
  induction f generalizing s with
  | equal l r =>
      rw [withoutFunctions]
      refine ensures_bind (Term.ensures_compileSteps hf.1 s) ?_
      rintro ⟨steps, l'⟩ s₁ hl
      refine ensures_bind (Term.ensures_compileSteps hf.2 s₁) ?_
      rintro ⟨steps', r'⟩ s₂ hr
      have hcompiles := hl _ _ _ _ (hr _ _ _ _ (.nil s₂))
      rw [List.append_nil] at hcompiles
      exact ⟨_, _, rfl, eliminates_boundBy (.equal l r l' r') hcompiles hf hz⟩
  | rel name ts =>
      rw [withoutFunctions]
      refine ensures_bind (Term.ensures_compileArguments hf.2 s) ?_
      rintro ⟨steps, us⟩ s₁ hcompiles
      exact ⟨_, _, rfl, eliminates_boundBy (.rel name hcompiles.length_eq) hcompiles hf hz⟩
  | neg f ih =>
      rw [withoutFunctions]
      exact ensures_bind (ih hf hz s) fun f' s' h => ⟨_, _, rfl, h.neg⟩
  | bin op l r ihl ihr =>
      rw [variableNames, List.forall_mem_append] at hz
      rw [withoutFunctions]
      refine ensures_bind (ihl hf.1 hz.1 s) fun l' s₁ hl => ?_
      exact ensures_bind (ihr hf.2 hz.2 s₁) fun r' s₂ hr => ⟨_, _, rfl, hl.bin op hr⟩
  | quant k x f ih =>
      rw [variableNames, List.forall_mem_append] at hz
      rw [withoutFunctions]
      exact ensures_bind (ih hf.2 hz.1 s) fun f' s' h => ⟨_, _, rfl, h.quant k hf.1⟩
  | bare t => exact hf.elim

/-- What replacing functions requires of the names of formulas. -/
theorem checkGraphNames_eq_ok {fs : List Formula} (hfs : ∀ f ∈ fs, f.WellFormed) {u : Unit} :
    checkGraphNames fs = .ok u ↔
      (∀ f ∈ fs, ∀ e ∈ f.functions, ∀ g ∈ fs, ∀ r ∈ g.relations, r.1 ≠ graphName e.1) ∧
        ∀ f ∈ fs, ∀ x ∈ f.vars, x.toList.head? ≠ some 'z' := by
  have hnamed : fs.mapM named = .ok fs := by
    rw [mapM_eq_ok, List.forall₂_same]
    exact fun f hf => (hfs f hf).named_eq_ok
  have hclash : ((fs.flatMap fun f => f.functions.map fun e => graphName e.1).all fun g =>
      !(fs.flatMap fun f => f.relations.map Prod.fst).contains g) = true ↔
        ∀ f ∈ fs, ∀ e ∈ f.functions, ∀ g ∈ fs, ∀ r ∈ g.relations, r.1 ≠ graphName e.1 := by
    simp only [List.all_flatMap, List.all_map, List.all_eq_true, Function.comp_apply, Bool.not_eq_true',
      List.contains_eq_mem, decide_eq_false_iff_not, List.mem_flatMap, List.mem_map, not_exists, not_and]
  rw [checkGraphNames, hnamed, ok_bind]
  simp only [bind_eq_ok, require_eq_ok, hclash, List.all_eq_true, decide_eq_true_eq, exists_const]

theorem functions_eq_nil_iff {f : Formula} (hf : f.WellFormed) :
    f.functions = [] ↔ f.functionNodes = [] := by
  simp only [List.eq_nil_iff_forall_not_mem, mem_functions hf]

end Formula

/-! ## Models -/

namespace Model

variable {m : Model} (hm : m.WellFormed) {f f' : Formula} (hf : f.WellFormed) (h : f.Eliminates f')
  (hnames : m.Interprets f)
  (hgraphs : ∀ e ∈ f.functionNodes, Table.hasKey m.relations (graphName e.1) = false)
include hm h hnames hgraphs

/-- The graphs give meanings to the new relations. -/
theorem interprets_graphs : m.graphs.Interprets f' := by
  refine ⟨fun c hc => hnames.constants c (h.constantNames hc), ?_, fun e he => ?_⟩
  · rw [h.functionNodes]
    simp
  · rcases h.relationNodes e he with he | ⟨d, hd, rfl⟩
    · obtain ⟨hkey, harity⟩ := hnames.relations e he
      rw [Table.hasKey, relationArity?, find?_graphs_of_hasKey hkey]
      exact ⟨hkey, harity⟩
    · obtain ⟨hkey, harity⟩ := hm.relationArity?_graphs (hgraphs d hd) (hnames.functions d hd)
      refine ⟨hkey, fun n hn => ?_⟩
      exact Option.some.inj (hn.symm.trans harity)

/-- The truth value is that of the formula with functions. -/
theorem truth_graphs {v : String → String} (hv : ∀ x ∈ f.freeNames, v x ∈ m.domain) :
    f'.truth m.graphs.interpretation v = f.truth m.interpretation v := by
  refine h.truth (hm.graphed hnames.constants fun e he => ⟨hnames.functions e he, hgraphs e he⟩)
    (fun e he => interpretation_graphs_rel (hnames.relations e he).1) hv

include hf

theorem evaluate_graphs {a : Assignment} (ha : ∀ e ∈ a, e.2 ∈ m.domain)
    (hcovered : ∀ x ∈ f.freeVariables, Table.hasKey a x = true) :
    ∃ b, m.evaluate f a = .ok b ∧ m.graphs.evaluate f' a = .ok b := by
  refine ⟨_, evaluate_eq_ok hm ha hf ((checkNames_eq_ok hf).2 hnames) hcovered, ?_⟩
  have hcovered' : ∀ x ∈ f'.freeVariables, Table.hasKey a x = true := fun x hx =>
    hcovered x (Formula.mem_freeVariables.2 ((h.freeNames x).1 (Formula.mem_freeVariables.1 hx)))
  have hv : ∀ x ∈ f.freeNames, m.valuation a x ∈ m.domain := fun x hx =>
    valuation_mem_of_hasKey ha (hcovered x (Formula.mem_freeVariables.2 hx))
  rw [evaluate_eq_ok hm.graphs ha h.wellFormed
    ((checkNames_eq_ok h.wellFormed).2 (interprets_graphs hm h hnames hgraphs)) hcovered']
  exact congrArg _ (truth_graphs hm h hnames hgraphs hv)

end Model

/-- Replacing the functions of a formula by relations answers, whatever names were drawn before, with a
formula without functions. In a model with the graphs of functions in their place it has the truth value
that the formula has with the functions, under every assignment of the free variables. -/
theorem Formula.evaluate_functionsToRelations {f : Formula} (hf : f.WellFormed)
    (hz : ∀ x ∈ f.vars, x.toList.head? ≠ some 'z')
    (hnames : ∀ e ∈ f.functions, ∀ r ∈ f.relations, r.1 ≠ graphName e.1) (s : FreshNames) :
    ∃ f' s', f.functionsToRelations.run.run s = (.ok f', s') ∧ f'.functions = [] ∧
      ∀ (m : Model) (a : Assignment), m.WellFormed → m.checkNames f = .ok () →
        (∀ e ∈ f.functions, Table.hasKey m.relations (graphName e.1) = false) →
        (∀ e ∈ a, e.2 ∈ m.domain) → (∀ x ∈ f.freeVariables, Table.hasKey a x = true) →
        ∃ b, m.evaluate f a = .ok b ∧ m.graphs.evaluate f' a = .ok b := by
  have hcheck : checkGraphNames [f] = .ok () := by
    refine (checkGraphNames_eq_ok (List.forall_mem_singleton.2 hf)).2 ⟨?_, ?_⟩
    · simpa using hnames
    · simpa using hz
  obtain ⟨f', s', hrun, h⟩ := ensures_withoutFunctions hf (fun x hx => hz x (mem_vars.2 hx)) s
  refine ⟨f', s', ?_, (functions_eq_nil_iff h.wellFormed).2 h.functionNodes,
    fun m a hm hmnames hgraphs ha hcovered => ?_⟩
  · rw [functionsToRelations, hcheck]
    exact hrun
  · exact m.evaluate_graphs hm hf h ((Model.checkNames_eq_ok hf).1 hmnames)
      (fun e he => hgraphs e ((mem_functions hf).2 he)) ha hcovered

/-- Applications are nested below a quantifier, and stand in an equality with a free variable. -/
theorem Formula.evaluate_functionsToRelations_nested :
    let f : Formula := .forAll "x" (.imp (.rel "R" [.app "f" [.app "g" [.var "x", .const "c"]]])
      (.equal (.app "f" [.var "y"]) (.var "x")))
    let m : Model := ⟨["0", "1"], [("c", "1")], [("R", [["1"]])],
      [("f", [(["0"], "1"), (["1"], "0")]),
       ("g", [(["0", "0"], "1"), (["0", "1"], "0"), (["1", "0"], "0"), (["1", "1"], "1")])]⟩
    m.WellFormed ∧ m.evaluate f [("y", "1")] = .ok true ∧
      ∃ f' s', f.functionsToRelations.run.run ⟨1, 0⟩ = (.ok f', s') ∧ f'.functions = [] ∧
        m.graphs.evaluate f' [("y", "1")] = .ok true := by
  intro f m
  have hf : f.WellFormed := by decide
  have hm : m.WellFormed := ⟨by cbv, by decide⟩
  have hnames : m.checkNames f = .ok () := by cbv
  have hvalue : m.evaluate f [("y", "1")] = .ok true := by cbv
  have hvars : ∀ x ∈ f.variableNames, x.toList.head? ≠ some 'z' := by decide
  have hrelations : ∀ e ∈ f.functionNodes, ∀ r ∈ f.relationNodes, r.1 ≠ graphName e.1 := by decide
  have hgraphs : ∀ e ∈ f.functionNodes, Table.hasKey m.relations (graphName e.1) = false := by decide
  have hfree : ∀ x ∈ f.freeNames, Table.hasKey [("y", "1")] x = true := by decide
  obtain ⟨f', s', hrun, hfunctions, hevaluate⟩ := evaluate_functionsToRelations hf
    (fun x hx => hvars x (mem_vars.1 hx))
    (fun e he r hr => hrelations e ((mem_functions hf).1 he) r (mem_relations.1 hr)) ⟨1, 0⟩
  obtain ⟨b, hb, hb'⟩ := hevaluate m [("y", "1")] hm hnames
    (fun e he => hgraphs e ((mem_functions hf).1 he)) (by decide)
    fun x hx => hfree x (mem_freeVariables.1 hx)
  rw [← Except.ok.inj (hvalue.symm.trans hb)] at hb'
  exact ⟨hm, hvalue, f', s', hrun, hfunctions, hb'⟩

end FormalLogic.Predicate
