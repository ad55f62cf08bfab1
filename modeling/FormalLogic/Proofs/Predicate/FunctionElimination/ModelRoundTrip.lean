import FormalLogic.Proofs.Predicate.FunctionElimination.Graphs
import Mathlib

/-!
# From functions to graphs and back

A model is turned into one without functions, and from there back into one with functions. On the way there,
each argument of a function contributes its characters to the tuple of the graph (`Model.spelled`). For elements
of one character this is the argument itself, so that the result is the model with graphs, and the way back
gives the same functions, with their tables in another order (`Model.tabled`). For other elements some tuple of
the graph is missing, whatever the function (`Model.relationsToFunctions_functionsToRelations`).
-/

namespace FormalLogic.Predicate.Model

/-! ## From functions to relations -/

/-- The characters of arguments, each as an element. -/
def spelled (args : List String) : List String :=
  args.flatMap fun arg => arg.toList.map fun c => String.ofList [c]

theorem length_of_mem_spelled {args : List String} : ∀ x ∈ spelled args, x.length = 1 := by
  intro x hx
  obtain ⟨arg, -, hx⟩ := List.mem_flatMap.1 hx
  obtain ⟨c, -, rfl⟩ := List.mem_map.1 hx
  rw [String.length_ofList]
  rfl

theorem spelled_eq_self {args : List String} (h : ∀ a ∈ args, a.length = 1) : spelled args = args := by
  induction args with
  | nil => rfl
  | cons a args ih =>
      obtain ⟨ha, hargs⟩ := List.forall_mem_cons.1 h
      rw [← String.length_toList] at ha
      obtain ⟨c, hc⟩ := List.length_eq_one_iff.1 ha
      have ih := ih hargs
      rw [spelled] at ih ⊢
      rw [List.flatMap_cons, ih, hc, List.map_singleton, ← hc, String.ofList_toList]
      rfl

variable {m : Model} (hm : m.WellFormed)
include hm

/-- If arguments are their characters, the functions of a model are replaced by their graphs. -/
theorem functionsToRelations_eq_ok
    (hfree : ∀ f ∈ m.functions, Table.hasKey m.relations (graphName f.1) = false)
    (hspelled : ∀ f ∈ m.functions, ∀ e ∈ f.2, spelled e.1 = e.1) : m.functionsToRelations = .ok m.graphs := by
  have hcheck : (m.functions.forM fun f =>
      require (!Table.hasKey m.relations (graphName f.1)) .distinctNames) = .ok () :=
    forM_eq_ok.2 fun f hf => by rw [hfree f hf]; rfl
  have hgraphs : (m.functions.map fun f => (graphName f.1, f.2.map graphTuple)) =
      m.functions.map fun f => (graphName f.1, f.2.map fun e => e.2 :: e.1) := by
    refine List.map_congr_left fun f hf => ?_
    refine congrArg (graphName f.1, ·) (List.map_congr_left fun e he => ?_)
    exact congrArg (e.2 :: ·) (hspelled f hf e he)
  -- sorting the tuples once or twice makes no difference
  have hsorted : (m.relations ++ m.functions.map fun f => (graphName f.1, f.2.map fun e => e.2 :: e.1)).map
      (fun r => (r.1, sortedRows r.2)) = m.graphs.relations.map fun r => (r.1, sortedRows r.2) := by
    rw [graphs, List.map_append, List.map_append, List.map_map, List.map_map]
    refine congrArg _ (List.map_congr_left fun f _ => ?_)
    exact congrArg (graphName f.1, ·) (sortedRows_sortedRows _).symm
  rw [functionsToRelations, hcheck, ok_bind, hgraphs]
  have hmade := make_eq_ok.1 hm.graphs.made
  rw [← hsorted] at hmade
  exact make_eq_ok.2 hmade

/-- If all values are in the graphs with their arguments, elements are single characters. -/
theorem length_eq_one_of_graphs {m' : Model} (hrun : m.functionsToRelations = .ok m')
    (hgraphs : ∀ g t, Table.find? m.functions g = some t → ∀ y xs, Table.find? t xs = some y →
      y :: xs ∈ m'.rows (graphName g)) (hfunctions : m.functions ≠ []) : ∀ e ∈ m.domain, e.length = 1 := by
  intro d hd
  obtain ⟨⟨g, t⟩, others, hcons⟩ := List.exists_cons_of_ne_nil hfunctions
  have hmem : (g, t) ∈ m.functions := hcons ▸ List.mem_cons_self
  have hfind : Table.find? m.functions g = some t := by rw [hcons, Table.find?_cons, if_pos rfl]
  -- the tuple that repeats the element has a value
  obtain ⟨-, n, hpos, hn, -⟩ := checkFunction_eq_ok.1 (hm.checked.2.2 _ hmem)
  have harity : m.functionArity? g = some n := by rw [functionArity?, hfind]; exact hn
  have htuple : List.replicate n d ∈ tuples m.domain n :=
    mem_tuples.2 ⟨List.length_replicate, fun e he => List.eq_of_mem_replicate he ▸ hd⟩
  obtain ⟨t', y, ht', hy, -⟩ := hm.find?_function harity htuple
  obtain rfl : t = t' := Option.some.inj (hfind.symm.trans ht')
  have hrow := hgraphs g t hfind y _ hy
  -- so it stands in the graph, which has characters only
  rw [functionsToRelations] at hrun
  obtain ⟨_, hdistinct, hmake⟩ := bind_eq_ok.1 hrun
  obtain ⟨-, -, -, rfl⟩ := make_eq_ok.1 hmake
  have hfree : Table.hasKey m.relations (graphName g) = false := by
    simpa using forM_eq_ok.1 hdistinct _ hmem
  have hnone : Table.find? m.relations (graphName g) = none := by simpa [Table.hasKey] using hfree
  rw [rows, Table.find?_map, Table.find?_append, hnone, Option.none_or, hcons, List.map_cons, Table.find?_cons,
    if_pos rfl, Option.map_some, Option.getD_some, mem_sortedRows] at hrow
  obtain ⟨e, -, hrow⟩ := List.mem_map.1 hrow
  have hspelled : spelled e.1 = List.replicate n d := (List.cons.inj hrow).2
  exact length_of_mem_spelled d (hspelled ▸ List.mem_replicate.2 ⟨hpos.ne', rfl⟩)

omit hm

/-! ## From relations to functions -/

/-- A tuple of a graph as an entry of the table: the arguments with their value in front. -/
def entryOfRow (row : List String) : List String × String :=
  (row.tail, row.headD "")

/-- The table of a function in the order of its graph. -/
def tableOfRows (t : List (List String × String)) : List (List String × String) :=
  (graphRows t).map entryOfRow

/-- Rows with different arguments are all entered into the table. -/
theorem tableOfGraph_eq_ok {table : List (List String × String)} {rows : List (List String)}
    (hrows : ∀ row ∈ rows, row ≠ []) (hnodup : (Table.keys table ++ rows.map List.tail).Nodup) :
    tableOfGraph table rows = .ok (some (table ++ rows.map entryOfRow)) := by
  induction rows generalizing table with
  | nil => rw [tableOfGraph, List.map_nil, List.append_nil]
  | cons row rows ih =>
      obtain ⟨hrow, hothers⟩ := List.forall_mem_cons.1 hrows
      obtain ⟨value, args, rfl⟩ := List.exists_cons_of_ne_nil hrow
      have hnone : Table.find? table args = none := by
        have hnotMem : args ∉ Table.keys table := fun h =>
          (List.nodup_append.1 hnodup).2.2 args h args List.mem_cons_self rfl
        simpa [← Table.find?_isSome] using hnotMem
      have hkeys : Table.keys (table ++ [(args, value)]) ++ rows.map List.tail =
          Table.keys table ++ ((value :: args) :: rows).map List.tail := by
        simp [Table.keys]
      rw [tableOfGraph, hnone]
      dsimp only
      rw [ih hothers (hkeys ▸ hnodup), List.append_assoc]
      rfl

section Table

variable {t : List (List String × String)} (ht : (Table.keys t).Nodup)
include ht

/-- The tuples of a graph are those of the table in another order. -/
theorem perm_graphRows : (graphRows t).Perm (t.map fun e => e.2 :: e.1) := by
  refine perm_sortedRows (List.Nodup.of_map List.tail ?_)
  rw [List.map_map]
  exact ht

theorem perm_tableOfRows : (tableOfRows t).Perm t := by
  have hperm := (perm_graphRows ht).map entryOfRow
  have hentries : (t.map fun e => e.2 :: e.1).map entryOfRow = t := by
    rw [List.map_map]
    exact List.map_id t
  rwa [hentries] at hperm

/-- The table of a function is read off its graph. -/
theorem tableOfGraph_graphRows : tableOfGraph [] (graphRows t) = .ok (some (tableOfRows t)) := by
  refine tableOfGraph_eq_ok (fun row hrow => ?_) ?_
  · obtain ⟨e, -, rfl⟩ := mem_graphRows.1 hrow
    exact List.cons_ne_nil _ _
  · have hperm := (perm_graphRows ht).map List.tail
    rw [List.map_map] at hperm
    exact hperm.nodup_iff.2 ht

end Table

/-- Relations that are not chosen are passed over. -/
theorem graphsToTables_append {chosen : List String} {relations rest : List (String × List (List String))}
    (h : ∀ r ∈ relations, r.1 ∉ chosen) :
    graphsToTables chosen (relations ++ rest) = graphsToTables chosen rest := by
  induction relations with
  | nil => rfl
  | cons r relations ih =>
      obtain ⟨hr, h⟩ := List.forall_mem_cons.1 h
      rw [List.cons_append, graphsToTables, if_neg (by simpa using hr), ih h]

/-- The tables of chosen functions are read off their graphs. -/
theorem graphsToTables_graphs {chosen : List String}
    {functions : List (String × List (List String × String))}
    (hchosen : ∀ f ∈ functions, graphName f.1 ∈ chosen) (hnames : ∀ f ∈ functions, isFunction f.1 = true)
    (honce : ∀ f ∈ functions, (Table.keys f.2).Nodup) :
    graphsToTables chosen (functions.map fun f => (graphName f.1, graphRows f.2)) =
      .ok (some (functions.map fun f => (f.1, tableOfRows f.2))) := by
  induction functions with
  | nil => rfl
  | cons f functions ih =>
      obtain ⟨hf, hchosen⟩ := List.forall_mem_cons.1 hchosen
      obtain ⟨hname, hnames⟩ := List.forall_mem_cons.1 hnames
      obtain ⟨ht, honce⟩ := List.forall_mem_cons.1 honce
      rw [List.map_cons, graphsToTables, if_pos (by simpa using hf), tableOfGraph_graphRows ht, ok_bind]
      dsimp only
      rw [ih hchosen hnames honce, ok_bind]
      dsimp only
      rw [ofGraphName_graphName hname]
      rfl

/-- Tables that a model can have are total. -/
theorem tablesTotal_eq_ok {tables : List (String × List (List String × String))}
    (h : ∀ f ∈ tables, checkFunction m.domain f = .ok ()) : m.tablesTotal tables = .ok true := by
  induction tables with
  | nil => rfl
  | cons f tables ih =>
      obtain ⟨hf, hothers⟩ := List.forall_mem_cons.1 h
      obtain ⟨name, t⟩ := f
      obtain ⟨-, n, -, hn, hlength, -⟩ := checkFunction_eq_ok.1 hf
      cases t with
      | nil => cases hn
      | cons entry t =>
          obtain ⟨args, v⟩ := entry
          have harity : args.length = n := Option.some.inj hn
          change (if ((args, v) :: t).length = m.domain.length ^ args.length then m.tablesTotal tables
            else .ok false) = .ok true
          rw [harity, if_pos hlength, ih hothers]

/-- The order of a table does not matter to a model. -/
theorem checkFunction_of_perm {domain : List String} {name : String} {t t' : List (List String × String)}
    (hperm : t'.Perm t) (h : checkFunction domain (name, t) = .ok ()) :
    checkFunction domain (name, t') = .ok () := by
  obtain ⟨hname, n, hpos, hn, hlength, hall⟩ := checkFunction_eq_ok.1 h
  have hall' : ∀ e ∈ t', (e.1.length = n ∧ ∀ a ∈ e.1, a ∈ domain) ∧ e.2 ∈ domain := fun e he =>
    hall e (hperm.mem_iff.1 he)
  refine checkFunction_eq_ok.2 ⟨hname, n, hpos, ?_, hperm.length_eq.trans hlength, hall'⟩
  cases t' with
  | nil =>
      rw [← hperm.nil_eq] at hn
      cases hn
  | cons e t' => exact congrArg some (hall' e List.mem_cons_self).1.1

/-- The model with the tables of functions in the order of their graphs. -/
def tabled (m : Model) : Model :=
  { m with functions := m.functions.map fun f => (f.1, tableOfRows f.2) }

include hm in
/-- The way back from the graphs of all functions gives these functions. -/
theorem relationsToFunctions_graphs
    (hfree : ∀ f ∈ m.functions, Table.hasKey m.relations (graphName f.1) = false) {names : List String}
    (hnames : ∀ g, g ∈ names ↔ g ∈ Table.keys m.functions) :
    m.graphs.relationsToFunctions names = .ok (some m.tabled) := by
  have hfunction : ∀ f ∈ m.functions, isFunction f.1 = true := fun f hf => (hm.table_of_mem hf).1
  have hnamed : ∀ g ∈ names, ∃ t, (g, t) ∈ m.functions := by
    intro g hg
    obtain ⟨⟨_, t⟩, hf, rfl⟩ := List.mem_map.1 ((hnames g).1 hg)
    exact ⟨t, hf⟩
  have hcheck : (names.forM fun f => do
      requireName isFunction f
      require (!Table.hasKey m.graphs.functions f) .distinctNames
      require (Table.hasKey m.graphs.relations (graphName f)) .meaning : Outcome Unit) = .ok () := by
    refine forM_eq_ok.2 fun g hg => ?_
    obtain ⟨t, hmem⟩ := hnamed g hg
    have hkey : Table.hasKey m.graphs.relations (graphName g) = true := by
      rw [Table.hasKey, hm.find?_graphs_graphName (hfunction _ hmem) (hfree _ hmem), Option.isSome_map]
      exact Table.find?_isSome.2 ((hnames g).1 hg)
    have hname : requireName isFunction g = .ok () := (requireName_eq_ok rfl).2 (hfunction _ hmem)
    rw [hname, ok_bind, hkey]
    rfl
  have hchosen : ∀ f ∈ m.functions, graphName f.1 ∈ names.map graphName := fun f hf =>
    List.mem_map_of_mem ((hnames f.1).2 (List.mem_map_of_mem hf))
  have hothers : ∀ r ∈ m.relations, r.1 ∉ names.map graphName := by
    intro r hr hmem
    obtain ⟨g, hg, heq⟩ := List.mem_map.1 hmem
    obtain ⟨t, ht⟩ := hnamed g hg
    have hkey : Table.hasKey m.relations r.1 = true := Table.find?_isSome.2 (List.mem_map_of_mem hr)
    rw [← heq, hfree _ ht] at hkey
    cases hkey
  have htables : graphsToTables (names.map graphName) m.graphs.relations = .ok (some m.tabled.functions) := by
    rw [graphs, graphsToTables_append hothers]
    exact graphsToTables_graphs hchosen hfunction hm.once
  have hrest : (m.graphs.relations.filter fun r => !(names.map graphName).contains r.1) = m.relations := by
    rw [graphs, List.filter_append, List.filter_eq_self.2, List.filter_eq_nil_iff.2, List.append_nil]
    · intro r hr
      obtain ⟨f, hf, rfl⟩ := List.mem_map.1 hr
      simpa using hchosen f hf
    · intro r hr
      simpa using hothers r hr
  obtain ⟨hconstants, hrelations, hfunctions⟩ := hm.checked
  have hchecked : ∀ f ∈ m.tabled.functions, checkFunction m.domain f = .ok () := by
    refine List.forall_mem_map.2 fun f hf => ?_
    exact checkFunction_of_perm (perm_tableOfRows (hm.once f hf)) (hfunctions f hf)
  have htotal : m.graphs.tablesTotal m.tabled.functions = .ok true :=
    tablesTotal_eq_ok hchecked
  have hmake : make m.domain m.constants m.relations m.tabled.functions = .ok m.tabled := by
    rw [make_eq_ok, hm.domain_eq, hm.relations_eq]
    exact ⟨hconstants, hrelations, hchecked, rfl⟩
  rw [relationsToFunctions, hcheck, ok_bind]
  dsimp only
  rw [htables, ok_bind]
  dsimp only
  rw [htotal, ok_bind, if_pos rfl, hrest]
  change (make m.domain m.constants m.relations m.tabled.functions >>= fun q => pure (some q)) = _
  rw [hmake]
  rfl

/-! ## The round trip -/

/-- If no relation has the name of a function's graph, then elements of one character are necessary and sufficient,
where there are functions at all, for a model to be turned into one with the graphs of its functions and back
into one with the same elements, meanings of constants, relations and entries of functions. -/
theorem relationsToFunctions_functionsToRelations {m : Model} (hm : m.WellFormed)
    (hfree : ∀ f ∈ m.functions, Table.hasKey m.relations (graphName f.1) = false) {names : List String}
    (hnames : ∀ g, g ∈ names ↔ g ∈ Table.keys m.functions) :
    (m.functions = [] ∨ ∀ e ∈ m.domain, e.length = 1) ↔
      ∃ m', m.functionsToRelations = .ok m' ∧ m'.functions = [] ∧
        (∀ g t, Table.find? m.functions g = some t → ∀ y xs,
          (y :: xs ∈ m'.rows (graphName g) ↔ Table.find? t xs = some y)) ∧
        ∃ m'', m'.relationsToFunctions names = .ok (some m'') ∧ m''.domain = m.domain ∧
          m''.constants = m.constants ∧ m''.relations = m.relations ∧
          List.Forall₂ (fun f f' => f.1 = f'.1 ∧ f.2.Perm f'.2) m.functions m''.functions := by
  constructor
  · intro hone
    have hspelled : ∀ f ∈ m.functions, ∀ e ∈ f.2, spelled e.1 = e.1 := by
      intro f hf e he
      have hone := hone.resolve_left (List.ne_nil_of_mem hf)
      obtain ⟨-, n, -, -, hall⟩ := hm.table_of_mem hf
      exact spelled_eq_self fun a ha => hone a ((hall e he).1.2 a ha)
    refine ⟨m.graphs, functionsToRelations_eq_ok hm hfree hspelled, rfl, fun g t ht y xs => ?_,
      m.tabled, relationsToFunctions_graphs hm hfree hnames, rfl, rfl, rfl, ?_⟩
    · have hmem := Table.mem_of_find?_eq_some ht
      have hname := (hm.table_of_mem hmem).1
      rw [rows, hm.find?_graphs_graphName hname (hfree _ hmem), ht, Option.map_some, Option.getD_some]
      exact cons_mem_graphRows (hm.once _ hmem)
    · refine List.forall₂_map_right_iff.2 (List.forall₂_same.2 fun f hf => ⟨rfl, ?_⟩)
      exact (perm_tableOfRows (hm.once f hf)).symm
  · rintro ⟨m', hrun, -, hgraphs, -⟩
    by_cases hfunctions : m.functions = []
    · exact .inl hfunctions
    · exact .inr (length_eq_one_of_graphs hm hrun (fun g t ht y xs => (hgraphs g t ht y xs).2) hfunctions)

/-- A function of one and a function of two arguments, with tables that are not in order, survive. -/
theorem relationsToFunctions_functionsToRelations_two_functions :
    let m : Model := ⟨["0", "1"], [("c", "1")], [("R", [["0"]])],
      [("plus", [(["1", "1"], "0"), (["0", "0"], "0"), (["1", "0"], "1"), (["0", "1"], "1")]),
        ("s", [(["1"], "0"), (["0"], "1")])]⟩
    m.WellFormed ∧ ∃ m', m.functionsToRelations = .ok m' ∧ m'.functions = [] ∧
      ["1", "0", "1"] ∈ m'.rows "Plus" ∧ ["1", "1"] ∉ m'.rows "S" ∧
        ∃ m'', m'.relationsToFunctions ["s", "plus"] = .ok (some m'') ∧ m''.relations = m.relations ∧
          List.Forall₂ (fun f f' => f.1 = f'.1 ∧ f.2.Perm f'.2) m.functions m''.functions := by
  intro m
  have hm : m.WellFormed := ⟨by cbv, by decide⟩
  have hfree : ∀ f ∈ m.functions, Table.hasKey m.relations (graphName f.1) = false := by decide
  have hnames : ∀ g, g ∈ ["s", "plus"] ↔ g ∈ Table.keys m.functions := by
    simp [m, Table.keys, or_comm]
  have hone : ∀ e ∈ m.domain, e.length = 1 := by decide
  obtain ⟨m', hrun, hnil, hgraphs, m'', hback, -, -, hrelations, hfunctions⟩ :=
    (relationsToFunctions_functionsToRelations hm hfree hnames).1 (.inr hone)
  have hplus := hgraphs "plus" _ rfl "1" ["0", "1"]
  have hs := hgraphs "s" _ rfl "1" ["1"]
  exact ⟨hm, m', hrun, hnil, hplus.2 (by decide), fun h => absurd (hs.1 h) (by decide), m'', hback, hrelations,
    hfunctions⟩

/-- The one tuple of a graph over an element of two characters has three places, two of which are no elements. -/
theorem functionsToRelations_two_characters :
    let m : Model := ⟨["10"], [], [], [("f", [(["10"], "10")])]⟩
    m.WellFormed ∧ (∀ f ∈ m.functions, Table.hasKey m.relations (graphName f.1) = false) ∧
      m.functions.map (fun f => f.2.map graphTuple) = [[["10", "1", "0"]]] ∧
        m.functionsToRelations = .error (.unmet .interpretation) := by
  intro m
  exact ⟨⟨by cbv, by decide⟩, by decide, by decide, by cbv⟩

end FormalLogic.Predicate.Model
