import FormalLogic.Predicate.FunctionElimination
import FormalLogic.Proofs.Predicate.Semantics

/-!
# Graphs of functions

The graph of a function has the function's name with a capital letter. No two functions have the same name
for their graphs, because the function's name can be read off again (`ofGraphName_graphName`).

A model is turned into one without functions by adding their graphs to its relations (`Model.graphs`). Where
a name was free for the graph, the relation of that name then holds of a value and arguments exactly if the
function has that value (`Model.WellFormed.graphed`).
-/

namespace FormalLogic.Predicate

/-! ## Names of graphs -/

/-- The first characters of functions and their capital letters. -/
theorem toUpper_of_startsFunction {c : Char} (hc : startsFunction c = true) :
    startsRelation c.toUpper = true ∧ Text.isAlphanumeric c.toUpper = true ∧ c.toUpper.toLower = c := by
  have hall : ∀ n ∈ List.range' 102 15, startsRelation (Char.ofNat n).toUpper = true ∧
      Text.isAlphanumeric (Char.ofNat n).toUpper = true ∧
        (Char.ofNat n).toUpper.toLower = Char.ofNat n := by decide
  simp only [startsFunction, Bool.and_eq_true, decide_eq_true_eq] at hc
  have hlow : 102 ≤ c.toNat := hc.1
  have hhigh : c.toNat ≤ 116 := hc.2
  rw [← Char.ofNat_toNat c]
  exact hall c.toNat (List.mem_range'_1.2 ⟨hlow, by omega⟩)

variable {g : String} (hg : isFunction g = true)
include hg

/-- A function's name is a first character and the rest, and so is its graph's. -/
theorem exists_toList_graphName : ∃ c cs, g.toList = c :: cs ∧ startsFunction c = true ∧
    cs.all Text.isAlphanumeric = true ∧ graphName g = String.ofList (c.toUpper :: cs) := by
  rw [isFunction, isNameWith] at hg
  cases hcs : g.toList with
  | nil => simp [hcs] at hg
  | cons c cs =>
      simp only [hcs, List.all_cons, Bool.and_eq_true] at hg
      exact ⟨c, cs, rfl, hg.1, hg.2.2, by rw [graphName, mapFirst, hcs]⟩

theorem isRelation_graphName : isRelation (graphName g) = true := by
  obtain ⟨c, cs, -, hc, hcs, hname⟩ := exists_toList_graphName hg
  obtain ⟨hstarts, halphanumeric, -⟩ := toUpper_of_startsFunction hc
  rw [hname, isRelation, isNameWith, String.toList_ofList]
  simp only [hstarts, halphanumeric, hcs, List.all_cons, Bool.and_self]

/-- The name of a function is read off that of its graph. -/
theorem ofGraphName_graphName : ofGraphName (graphName g) = g := by
  obtain ⟨c, cs, hlist, hc, -, hname⟩ := exists_toList_graphName hg
  rw [hname, ofGraphName, mapFirst, String.toList_ofList]
  change String.ofList (c.toUpper.toLower :: cs) = g
  rw [(toUpper_of_startsFunction hc).2.2, ← hlist, String.ofList_toList]

/-- Two functions of the same graph are the same. -/
theorem graphName_inj {g' : String} (hg' : isFunction g' = true) : graphName g = graphName g' ↔ g = g' := by
  refine ⟨fun hgraph => ?_, congrArg graphName⟩
  have hsame := congrArg ofGraphName hgraph
  rwa [ofGraphName_graphName hg, ofGraphName_graphName hg'] at hsame

omit hg

/-! ## Models -/

namespace Model

/-- The tuples of the graph of a function: each value with its arguments. -/
def graphRows (t : List (List String × String)) : List (List String) :=
  sortedRows (t.map fun e => e.2 :: e.1)

/-- The model that has the graphs of functions in their place. -/
def graphs (m : Model) : Model where
  domain := m.domain
  constants := m.constants
  relations := m.relations ++ m.functions.map fun f => (graphName f.1, graphRows f.2)
  functions := []

@[simp] theorem graphs_domain (m : Model) : m.graphs.domain = m.domain := rfl

theorem mem_graphRows {t : List (List String × String)} {row : List String} :
    row ∈ graphRows t ↔ ∃ e ∈ t, e.2 :: e.1 = row := by
  rw [graphRows, mem_sortedRows, List.mem_map]

/-- A value stands with arguments in the graph exactly if it is their value in the table. -/
theorem cons_mem_graphRows {t : List (List String × String)} (ht : (Table.keys t).Nodup) {y : String}
    {xs : List String} : y :: xs ∈ graphRows t ↔ Table.find? t xs = some y := by
  rw [mem_graphRows]
  constructor
  · rintro ⟨⟨args, value⟩, hentry, hrow⟩
    obtain ⟨rfl, rfl⟩ := List.cons.inj hrow
    exact Table.find?_eq_some_of_mem ht hentry
  · exact fun h => ⟨(xs, y), Table.mem_of_find?_eq_some h, rfl⟩

/-- The tuples of a graph have one place more than those of the function. -/
theorem tupleLength?_graphRows {t : List (List String × String)} {n : Nat}
    (hn : t.head?.map (fun e => e.1.length) = some n) (ht : ∀ e ∈ t, e.1.length = n) :
    tupleLength? (graphRows t) = some (n + 1) := by
  obtain ⟨e, he, -⟩ := Option.map_eq_some_iff.1 hn
  have hmem : e.2 :: e.1 ∈ graphRows t := mem_graphRows.2 ⟨e, List.mem_of_head? he, rfl⟩
  refine tupleLength?_eq_some (fun row hrow => ?_) (List.ne_nil_of_mem hmem)
  obtain ⟨e', he', rfl⟩ := mem_graphRows.1 hrow
  rw [List.length_cons, ht e' he']

variable {m : Model}

/-- A relation that was there keeps its tuples. -/
theorem find?_graphs_of_hasKey {r : String} (h : Table.hasKey m.relations r = true) :
    Table.find? m.graphs.relations r = Table.find? m.relations r := by
  obtain ⟨rows, hrows⟩ := Option.isSome_iff_exists.1 h
  rw [graphs, Table.find?_append, hrows, Option.some_or]

theorem interpretation_graphs_rel {r : String} (h : Table.hasKey m.relations r = true) :
    m.graphs.interpretation.rel r = m.interpretation.rel r := by
  funext es
  change ((Table.find? m.graphs.relations r).getD []).contains es = _
  rw [find?_graphs_of_hasKey h]
  rfl

namespace WellFormed

variable (hm : m.WellFormed)
include hm

/-- The graph of a function is found under its name, if the name was free. -/
theorem find?_graphs_graphName (hg : isFunction g = true)
    (hfree : Table.hasKey m.relations (graphName g) = false) :
    Table.find? m.graphs.relations (graphName g) = (Table.find? m.functions g).map graphRows := by
  have hnone : Table.find? m.relations (graphName g) = none := by simpa [Table.hasKey] using hfree
  have hnames : ∀ f ∈ m.functions, isFunction f.1 = true := fun f hf => (hm.table_of_mem hf).1
  rw [graphs, Table.find?_append, hnone, Option.none_or]
  generalize m.functions = functions at hnames
  induction functions with
  | nil => rfl
  | cons f functions ih =>
      obtain ⟨name, t⟩ := f
      obtain ⟨hname, hnames⟩ := List.forall_mem_cons.1 hnames
      rw [List.map_cons, Table.find?_cons, Table.find?_cons, ih hnames]
      by_cases heq : name = g
      · rw [if_pos heq, if_pos (congrArg graphName heq)]
        rfl
      · rw [if_neg heq, if_neg (mt (graphName_inj hname hg).1 heq)]

/-- The graph model can be made: its relations are of one length each and lie in the domain. -/
theorem graphs : m.graphs.WellFormed := by
  obtain ⟨hconstants, hrelations, -⟩ := hm.checked
  have hsorted' : m.graphs.relations.map (fun r => (r.1, sortedRows r.2)) = m.graphs.relations := by
    rw [Model.graphs, List.map_append, hm.relations_eq, List.map_map]
    simp [graphRows, sortedRows_sortedRows]
  refine ⟨make_eq_ok.2 ⟨?_, ?_, by simp [Model.graphs], ?_⟩, by simp [Model.graphs]⟩
  · rw [graphs_domain, hm.domain_eq]
    exact hconstants
  · rw [hsorted', graphs_domain, hm.domain_eq]
    refine List.forall_mem_append.2 ⟨hrelations, fun r hr => ?_⟩
    obtain ⟨f, hf, rfl⟩ := List.mem_map.1 hr
    obtain ⟨hname, n, hn, -, hall⟩ := hm.table_of_mem hf
    refine checkRelation_eq_ok.2 ⟨(requireName_eq_ok rfl).2 (isRelation_graphName hname), ?_, ?_⟩
    · intro row hrow
      rw [tupleLength?_graphRows hn fun e he => (hall e he).1.1]
      obtain ⟨e, he, rfl⟩ := mem_graphRows.1 hrow
      rw [List.length_cons, (hall e he).1.1]
    · intro row hrow
      obtain ⟨e, he, rfl⟩ := mem_graphRows.1 hrow
      exact List.cons_subset.2 ⟨(hall e he).2, (hall e he).1.2⟩
  · rw [hsorted', graphs_domain, hm.domain_eq]
    rfl

/-- What has a number of arguments in a model is named like a function. -/
theorem isFunction_of_arity {n : Nat} (hn : m.functionArity? g = some n) : isFunction g = true := by
  obtain ⟨t, ht, -⟩ := Option.bind_eq_some_iff.1 hn
  exact (hm.table_of_mem (Table.mem_of_find?_eq_some ht)).1

/-- The graph of a function has one argument more than the function. -/
theorem relationArity?_graphs (hfree : Table.hasKey m.relations (graphName g) = false) {n : Nat}
    (hn : m.functionArity? g = some n) :
    Table.hasKey m.graphs.relations (graphName g) = true ∧
      m.graphs.relationArity? (graphName g) = some (n + 1) := by
  have hg := hm.isFunction_of_arity hn
  obtain ⟨t, ht, htn⟩ := Option.bind_eq_some_iff.1 hn
  obtain ⟨n', hn', -, hall⟩ := hm.function_table ht
  obtain rfl : n = n' := Option.some.inj (hn.symm.trans hn')
  rw [Table.hasKey, relationArity?, hm.find?_graphs_graphName hg hfree, ht]
  exact ⟨rfl, tupleLength?_graphRows htn fun e he => (hall e he).1.1⟩

end WellFormed

end Model

/-! ## Interpretations -/

/-- An interpretation without functions has the graphs of the listed functions of another one, whose listed
constants denote elements. -/
structure Interpretation.Graphed (I J : Interpretation) (constants : List String)
    (functions : List (String × Nat)) : Prop where
  domain : J.domain = I.domain
  const : J.const = I.const
  constants : ∀ c ∈ constants, I.const c ∈ I.domain
  functions : ∀ e ∈ functions, ∀ es ∈ Model.tuples I.domain e.2, I.app e.1 es ∈ I.domain ∧
    ∀ a, J.rel (graphName e.1) (a :: es) = true ↔ a = I.app e.1 es

theorem Interpretation.Graphed.mono {I J : Interpretation} {constants constants' : List String}
    {functions functions' : List (String × Nat)} (h : I.Graphed J constants functions)
    (hconstants : constants' ⊆ constants) (hfunctions : functions' ⊆ functions) :
    I.Graphed J constants' functions' :=
  ⟨h.domain, h.const, fun c hc => h.constants c (hconstants hc),
    fun e he => h.functions e (hfunctions he)⟩

/-- The model with graphs has the graphs of the functions of a model. -/
theorem Model.WellFormed.graphed {m : Model} (hm : m.WellFormed) {constants : List String}
    {functions : List (String × Nat)}
    (hconstants : ∀ c ∈ constants, Table.hasKey m.constants c = true)
    (hfunctions : ∀ e ∈ functions, m.functionArity? e.1 = some e.2 ∧
      Table.hasKey m.relations (graphName e.1) = false) :
    m.interpretation.Graphed m.graphs.interpretation constants functions := by
  refine ⟨rfl, rfl, fun c hc => ?_, fun e he es hes => ?_⟩
  · exact hm.interpretation_const_mem (hconstants c hc)
  · obtain ⟨harity, hfree⟩ := hfunctions e he
    obtain ⟨t, b, ht, hb, hmem⟩ := hm.find?_function harity hes
    have happ : m.interpretation.app e.1 es = b := by
      rw [interpretation_app, ht, Option.bind_some, hb]
      rfl
    refine ⟨happ ▸ hmem, fun a => ?_⟩
    have hrows : m.graphs.interpretation.rel (graphName e.1) (a :: es) =
        (graphRows t).contains (a :: es) := by
      change ((Table.find? m.graphs.relations (graphName e.1)).getD []).contains (a :: es) = _
      rw [hm.find?_graphs_graphName (hm.isFunction_of_arity harity) hfree, ht]
      rfl
    have honce := hm.once _ (Table.mem_of_find?_eq_some ht)
    rw [hrows, happ, List.contains_iff_mem, cons_mem_graphRows honce, hb, Option.some.injEq, eq_comm]

end FormalLogic.Predicate
