import FormalLogic.Proofs.Predicate.FunctionElimination.ModelRoundTrip
import Mathlib

/-!
# Which relations are graphs

To turn relations of a model into functions, all of them are tested twice: whether no arguments have two
values, and then whether there are as many tuples as there are arguments. Each test stops at the first relation
that does not pass it, with the answer that there is no such model, and each has relations that it fails on: the
first those with no place at all, the second those without tuples. What passes both and has no arguments is
refused when the model is made.

Whenever there is an answer it is right: a model with the functions whose graphs the relations are, or none if one
of the relations is no graph. There is an answer exactly if no relation that a test fails on comes
before one that stops it (`Model.relationsToFunctions_recognizes`).
-/

namespace FormalLogic

/-! ## Tests that can fail -/

section Spared

variable {α : Type} {stops fails : α → Prop} {p : α → Outcome Bool} {l : List α}

/-- How a test of an element can end: it fails, it is stopped, or it is passed. -/
inductive Tested (p : α → Outcome Bool) (stops fails : α → Prop) (a : α) : Prop
  | failed (e : Failure) (hfails : fails a) (hstops : ¬ stops a) (h : p a = .error e)
  | stopped (hfails : ¬ fails a) (hstops : stops a) (h : p a = .ok false)
  | passed (hfails : ¬ fails a) (hstops : ¬ stops a) (h : p a = .ok true)

theorem Tested.of_eq_true {a : α} (h : Tested p stops fails a) (hp : p a = .ok true) : ¬ fails a ∧ ¬ stops a := by
  cases h with
  | failed e _ _ h => cases hp.symm.trans h
  | stopped _ _ h => cases hp.symm.trans h
  | passed hfails hstops _ => exact ⟨hfails, hstops⟩

/-- Going through a list up to the first element of one kind, no element of another kind is met. -/
def Spared (stops fails : α → Prop) : List α → Prop
  | [] => True
  | a :: l => stops a ∨ ¬ fails a ∧ Spared stops fails l

/-- A test of all elements answers exactly if it meets none that it fails on up to the first that stops it, and the
answer says whether there is one that stops it. -/
theorem allM_eq_ok (h : ∀ a ∈ l, Tested p stops fails a) {b : Bool} :
    l.allM p = .ok b ↔ Spared stops fails l ∧ (b = false ↔ ∃ a ∈ l, stops a) := by
  induction l with
  | nil =>
      cases b with
      | false => simp [List.allM, Spared]
      | true => simp [List.allM, Spared]
  | cons a l ih =>
      obtain ⟨ha, hl⟩ := List.forall_mem_cons.1 h
      simp only [List.allM, Spared, List.mem_cons, exists_eq_or_imp]
      cases ha with
      | failed e hfails hstops h => simp [h, hfails, hstops, bind, Except.bind]
      | stopped hfails hstops h =>
          cases b with
          | false => simp [h, hstops]
          | true => simp [h, hstops]
      | passed hfails hstops h => simpa [h, hfails, hstops] using ih hl

end Spared

namespace Predicate.Model

/-! ## Graphs -/

/-- Tuples are the graph of a function with arguments: each tuple of arguments with its value in front. -/
def IsGraph (domain : List String) (rows : List (List String)) : Prop :=
  ∃ n, 0 < n ∧ ∃ value : List String → String, (∀ xs ∈ tuples domain n, value xs ∈ domain) ∧
    ∀ row, row ∈ rows ↔ ∃ xs ∈ tuples domain n, row = value xs :: xs

/-- Some arguments have two values. -/
def IsAmbiguous (rows : List (List String)) : Prop :=
  ∃ xs y y', y :: xs ∈ rows ∧ y' :: xs ∈ rows ∧ y ≠ y'

/-- Some arguments have no value, and others have one. -/
def IsPartial (domain : List String) (rows : List (List String)) : Prop :=
  ∃ y ys, y :: ys ∈ rows ∧ ∃ xs ∈ tuples domain ys.length, ∀ y', y' :: xs ∉ rows

/-- Tuples are of one length over a domain, each of them once. -/
structure RowsOver (domain : List String) (rows : List (List String)) : Prop where
  nodup : rows.Nodup
  uniform : ∃ k, ∀ row ∈ rows, row ∈ tuples domain k

/-- Tuples that pass the first test: each has a value in front, and no arguments have two of them. -/
structure ValueRows (domain : List String) (rows : List (List String)) : Prop extends RowsOver domain rows where
  nil_notMem : [] ∉ rows
  unambiguous : ¬ IsAmbiguous rows

/-- Tuples that pass the second test as well: there are some, and no arguments are without a value. -/
structure TotalRows (domain : List String) (rows : List (List String)) : Prop extends ValueRows domain rows where
  ne_nil : rows ≠ []
  total : ¬ IsPartial domain rows

variable {domain : List String} {rows : List (List String)}

theorem IsGraph.not_isAmbiguous (h : IsGraph domain rows) : ¬ IsAmbiguous rows := by
  obtain ⟨n, -, value, -, hrows⟩ := h
  rintro ⟨xs, y, y', hy, hy', hne⟩
  obtain ⟨zs, -, hz⟩ := (hrows _).1 hy
  obtain ⟨zs', -, hz'⟩ := (hrows _).1 hy'
  obtain ⟨rfl, rfl⟩ := List.cons.inj hz
  obtain ⟨rfl, rfl⟩ := List.cons.inj hz'
  exact hne rfl

theorem IsGraph.not_isPartial (h : IsGraph domain rows) : ¬ IsPartial domain rows := by
  obtain ⟨n, -, value, -, hrows⟩ := h
  rintro ⟨y, ys, hy, xs, hxs, hnone⟩
  obtain ⟨zs, hzs, hz⟩ := (hrows _).1 hy
  obtain ⟨-, rfl⟩ := List.cons.inj hz
  rw [(mem_tuples.1 hzs).1] at hxs
  exact hnone _ ((hrows _).2 ⟨xs, hxs, rfl⟩)

theorem RowsOver.length_eq (h : RowsOver domain rows) {row row' : List String} (hrow : row ∈ rows)
    (hrow' : row' ∈ rows) : row.length = row'.length := by
  obtain ⟨k, hk⟩ := h.uniform
  rw [(mem_tuples.1 (hk row hrow)).1, (mem_tuples.1 (hk row' hrow')).1]

/-- Where a tuple has a place, all have one. -/
theorem RowsOver.nil_notMem_of_mem (h : RowsOver domain rows) {y : String} {xs : List String} (hy : y :: xs ∈ rows) :
    [] ∉ rows := fun hnil => absurd (h.length_eq hnil hy) (by simp)

section Relation

variable {m : Model} (hm : m.WellFormed) {r : String × List (List String)} (hr : r ∈ m.relations)
include hm hr

theorem WellFormed.sortedRows_eq : sortedRows r.2 = r.2 := by
  have hmap : m.relations.map (fun r => (r.1, sortedRows r.2)) = m.relations.map id := by
    rw [hm.relations_eq, List.map_id]
  exact congrArg Prod.snd (List.map_inj_left.1 hmap r hr)

/-- The tuples of a relation of a model. -/
theorem WellFormed.rowsOver : RowsOver m.domain r.2 := by
  obtain ⟨-, hlength, hdomain⟩ := checkRelation_eq_ok.1 (hm.checked.2.1 r hr)
  refine ⟨hm.sortedRows_eq hr ▸ nodup_sortedRows r.2, ?_⟩
  cases hk : tupleLength? r.2 with
  | none =>
      have hnil : r.2 = [] := by simpa [tupleLength?] using hk
      exact ⟨0, by simp [hnil]⟩
  | some k =>
      refine ⟨k, fun row hrow => mem_tuples.2 ⟨?_, fun e he => hdomain row hrow he⟩⟩
      have hrowlength := hlength row hrow
      rw [hk] at hrowlength
      exact Option.some.inj hrowlength

end Relation

/-! ## One value for all arguments -/

/-- Without tuples that have no place, a table is read off, or two values are found. -/
theorem exists_tableOfGraph (hrows : [] ∉ rows) (table : List (List String × String)) :
    ∃ o, tableOfGraph table rows = .ok o := by
  induction rows generalizing table with
  | nil => exact ⟨_, rfl⟩
  | cons row rows ih =>
      obtain ⟨hrow, hothers⟩ := not_or.1 (List.mem_cons.not.1 hrows)
      obtain ⟨y, xs, rfl⟩ := List.exists_cons_of_ne_nil (Ne.symm hrow)
      rw [tableOfGraph]
      cases Table.find? table xs with
      | none => exact ih hothers _
      | some v =>
          by_cases hv : v = y
          · obtain ⟨o, ho⟩ := ih hothers table
            exact ⟨o, (if_pos hv).trans ho⟩
          · exact ⟨none, if_neg hv⟩

/-- A table that is read off keeps the entries that were there, and has an entry for each tuple. -/
theorem find?_of_tableOfGraph {table t : List (List String × String)}
    (h : tableOfGraph table rows = .ok (some t)) :
    (∀ xs y, Table.find? table xs = some y → Table.find? t xs = some y) ∧
      ∀ xs y, y :: xs ∈ rows → Table.find? t xs = some y := by
  induction rows generalizing table with
  | nil =>
      obtain rfl : table = t := Option.some.inj (Except.ok.inj h)
      exact ⟨fun _ _ hy => hy, by simp⟩
  | cons row rows ih =>
      cases row with
      | nil => cases h
      | cons value args =>
          -- the entry for this tuple is there before the rest is read
          obtain ⟨table', hrest, hkeep, hentry⟩ : ∃ table', tableOfGraph table' rows = .ok (some t) ∧
              (∀ xs y, Table.find? table xs = some y → Table.find? table' xs = some y) ∧
                Table.find? table' args = some value := by
            rw [tableOfGraph] at h
            cases hargs : Table.find? table args with
            | none =>
                rw [hargs] at h
                refine ⟨_, h, fun xs y hy => ?_, ?_⟩
                · rw [Table.find?_append, hy, Option.some_or]
                · rw [Table.find?_append, hargs, Option.none_or, Table.find?_cons, if_pos rfl]
            | some v =>
                rw [hargs] at h
                by_cases hv : v = value
                · exact ⟨table, (if_pos hv).symm.trans h, fun _ _ hy => hy, hv ▸ hargs⟩
                · have hnone := (if_neg hv).symm.trans h
                  cases hnone
          obtain ⟨hold, hnew⟩ := ih hrest
          refine ⟨fun xs y hy => hold xs y (hkeep xs y hy), fun xs y hy => ?_⟩
          rcases List.mem_cons.1 hy with hy | hy
          · obtain ⟨rfl, rfl⟩ := List.cons.inj hy
            exact hold _ _ hentry
          · exact hnew xs y hy

theorem ValueRows.exists_eq_cons (h : ValueRows domain rows) {row : List String} (hrow : row ∈ rows) :
    ∃ y xs, row = y :: xs :=
  List.exists_cons_of_ne_nil (ne_of_mem_of_not_mem hrow h.nil_notMem)

theorem ValueRows.eq_of_mem (h : ValueRows domain rows) {y y' : String} {xs : List String} (hy : y :: xs ∈ rows)
    (hy' : y' :: xs ∈ rows) : y = y' := by
  by_contra hne
  exact h.unambiguous ⟨xs, y, y', hy, hy', hne⟩

/-- Tuples without two values for the same arguments have different arguments. -/
theorem ValueRows.nodup_tails (h : ValueRows domain rows) : (rows.map List.tail).Nodup := by
  refine List.Nodup.map_on (fun row hrow row' hrow' htail => ?_) h.nodup
  obtain ⟨y, xs, rfl⟩ := h.exists_eq_cons hrow
  obtain ⟨y', xs', rfl⟩ := h.exists_eq_cons hrow'
  obtain rfl : xs = xs' := htail
  rw [h.eq_of_mem hrow hrow']

/-- How the first test ends: it fails on tuples without a place, two values stop it, and else it reads off the
table. -/
theorem RowsOver.tableOfGraph_cases (h : RowsOver domain rows) :
    ([] ∈ rows ∧ ¬ IsAmbiguous rows ∧ tableOfGraph [] rows = .error .outOfRange) ∨
      ([] ∉ rows ∧ IsAmbiguous rows ∧ tableOfGraph [] rows = .ok none) ∨
        (ValueRows domain rows ∧ tableOfGraph [] rows = .ok (some (rows.map entryOfRow))) := by
  by_cases hnil : [] ∈ rows
  · refine .inl ⟨hnil, fun ⟨xs, y, _, hy, _⟩ => h.nil_notMem_of_mem hy hnil, ?_⟩
    cases rows with
    | nil => cases hnil
    | cons row rows =>
        obtain rfl : row = [] := List.length_eq_zero_iff.1 (h.length_eq List.mem_cons_self hnil)
        rfl
  · by_cases hambiguous : IsAmbiguous rows
    · refine .inr (.inl ⟨hnil, hambiguous, ?_⟩)
      obtain ⟨o, ho⟩ := exists_tableOfGraph hnil []
      cases o with
      | none => exact ho
      | some t =>
          obtain ⟨xs, y, y', hy, hy', hne⟩ := hambiguous
          obtain ⟨-, hentry⟩ := find?_of_tableOfGraph ho
          exact absurd (Option.some.inj ((hentry xs y hy).symm.trans (hentry xs y' hy'))) hne
    · have hvalues : ValueRows domain rows := ⟨h, hnil, hambiguous⟩
      exact .inr (.inr ⟨hvalues,
        tableOfGraph_eq_ok (fun row hrow heq => hnil (heq ▸ hrow)) hvalues.nodup_tails⟩)

theorem keys_entries (rows : List (List String)) : Table.keys (rows.map entryOfRow) = rows.map List.tail := by
  rw [Table.keys, List.map_map]
  rfl

/-- A value is found in the table exactly if it stands in front of its arguments in a tuple. -/
theorem ValueRows.find?_entries (h : ValueRows domain rows) {xs : List String} {y : String} :
    Table.find? (rows.map entryOfRow) xs = some y ↔ y :: xs ∈ rows := by
  constructor
  · intro hy
    obtain ⟨row, hrow, hentry⟩ := List.mem_map.1 (Table.mem_of_find?_eq_some hy)
    obtain ⟨y', xs', rfl⟩ := h.exists_eq_cons hrow
    obtain ⟨rfl, rfl⟩ := Prod.mk.inj hentry
    exact hrow
  · intro hy
    refine Table.find?_eq_some_of_mem ?_ (List.mem_map.2 ⟨_, hy, rfl⟩)
    rw [keys_entries]
    exact h.nodup_tails

/-! ## A value for all arguments -/

theorem nodup_tuples (hdomain : domain.Nodup) (n : Nat) : (tuples domain n).Nodup := by
  induction n with
  | zero => exact List.nodup_singleton []
  | succ n ih =>
      rw [tuples, List.nodup_flatMap]
      refine ⟨fun e _ => ih.map List.cons_injective, hdomain.imp fun {e e'} hne => ?_⟩
      rw [Function.onFun, List.disjoint_iff_ne]
      rintro _ hxs _ hys rfl
      obtain ⟨xs, -, hxs⟩ := List.mem_map.1 hxs
      obtain ⟨ys, -, hys⟩ := List.mem_map.1 hys
      exact hne (List.cons.inj (hxs.trans hys.symm)).1

/-- The length of one tuple tells the number of arguments of all. -/
theorem RowsOver.map_tail_subset (h : RowsOver domain rows) {y : String} {ys : List String}
    (hy : y :: ys ∈ rows) : rows.map List.tail ⊆ tuples domain ys.length := by
  obtain ⟨k, hk⟩ := h.uniform
  intro xs hxs
  obtain ⟨row, hrow, rfl⟩ := List.mem_map.1 hxs
  refine mem_tuples.2 ⟨?_, fun e he => (mem_tuples.1 (hk row hrow)).2 e (List.mem_of_mem_tail he)⟩
  rw [List.length_tail, h.length_eq hrow hy]
  rfl

section ValueRows

variable (h : ValueRows domain rows) {y : String} {ys : List String} (hy : y :: ys ∈ rows)
include h hy

theorem ValueRows.isPartial_iff : IsPartial domain rows ↔ ¬ tuples domain ys.length ⊆ rows.map List.tail := by
  constructor
  · rintro ⟨y', ys', hy', xs, hxs, hnone⟩ hsubset
    rw [Nat.succ.inj (h.length_eq hy' hy)] at hxs
    obtain ⟨row, hrow, rfl⟩ := List.mem_map.1 (hsubset hxs)
    obtain ⟨z, zs, rfl⟩ := h.exists_eq_cons hrow
    exact hnone z hrow
  · intro hmissing
    obtain ⟨xs, hxs, hnone⟩ := Set.not_subset.1 hmissing
    exact ⟨y, ys, hy, xs, hxs, fun y' hy' => hnone (List.mem_map.2 ⟨_, hy', rfl⟩)⟩

/-- Different arguments are as many as there are exactly if none is missing. -/
theorem ValueRows.length_eq_pow_iff (hdomain : domain.Nodup) :
    rows.length = domain.length ^ ys.length ↔ ¬ IsPartial domain rows := by
  have hsubperm := List.subperm_of_subset h.nodup_tails (h.map_tail_subset hy)
  rw [h.isPartial_iff hy, not_not, ← length_tuples, ← List.length_map List.tail]
  constructor
  · intro hlength
    exact (hsubperm.perm_of_length_le hlength.ge).symm.subset
  · intro hsubset
    exact le_antisymm hsubperm.length_le
      (List.subperm_of_subset (nodup_tuples hdomain ys.length) hsubset).length_le

end ValueRows

/-- The second test counts the tuples, and fails if there is none to tell the number of arguments. -/
def countsAll (domain : List String) : List (List String) → Outcome Bool
  | [] => .error .noTuple
  | row :: rows => .ok (decide ((row :: rows).length = domain.length ^ row.tail.length))

/-- How the second test ends: it fails without tuples, and missing arguments stop it. -/
theorem ValueRows.tested_countsAll (h : ValueRows domain rows) (hdomain : domain.Nodup) :
    Tested (countsAll domain) (IsPartial domain) (· = []) rows := by
  cases hrows : rows with
  | nil =>
      refine .failed .noTuple rfl ?_ rfl
      rintro ⟨y, ys, hy, -⟩
      cases hy
  | cons row rest =>
      have hmem : row ∈ rows := hrows ▸ List.mem_cons_self
      obtain ⟨y, ys, rfl⟩ := h.exists_eq_cons hmem
      have hcount := h.length_eq_pow_iff hmem hdomain
      rw [hrows] at hcount
      by_cases hpartial : IsPartial domain ((y :: ys) :: rest)
      · have hlength := mt hcount.1 (not_not_intro hpartial)
        exact .stopped (List.cons_ne_nil _ _) hpartial (congrArg Except.ok (decide_eq_false hlength))
      · have hlength := hcount.2 hpartial
        exact .passed (List.cons_ne_nil _ _) hpartial (congrArg Except.ok (decide_eq_true hlength))

theorem length_pos_of_mem (hunary : ∀ y, [y] ∉ rows) {y : String} {ys : List String} (hy : y :: ys ∈ rows) :
    0 < ys.length := by
  rw [List.length_pos_iff]
  rintro rfl
  exact hunary y hy

/-- Tuples that pass both tests are a graph if they have arguments. -/
theorem TotalRows.isGraph (h : TotalRows domain rows) (hunary : ∀ y, [y] ∉ rows) : IsGraph domain rows := by
  obtain ⟨row, hrow⟩ := List.exists_mem_of_ne_nil rows h.ne_nil
  obtain ⟨y, ys, rfl⟩ := h.exists_eq_cons hrow
  have hsubset := not_not.1 (mt (h.isPartial_iff hrow).2 h.total)
  have hvalues : ∀ xs ∈ tuples domain ys.length, ∃ z, z :: xs ∈ rows := by
    intro xs hxs
    obtain ⟨row, hrow, rfl⟩ := List.mem_map.1 (hsubset hxs)
    obtain ⟨z, zs, rfl⟩ := h.exists_eq_cons hrow
    exact ⟨z, hrow⟩
  choose! value hvalue using hvalues
  obtain ⟨k, hk⟩ := h.uniform
  refine ⟨ys.length, length_pos_of_mem hunary hrow, value, fun xs hxs => ?_, fun row => ⟨fun hrow' => ?_, ?_⟩⟩
  · exact (mem_tuples.1 (hk _ (hvalue xs hxs))).2 _ List.mem_cons_self
  · obtain ⟨z, zs, rfl⟩ := h.exists_eq_cons hrow'
    have hzs : zs ∈ tuples domain ys.length := h.map_tail_subset hrow (List.mem_map_of_mem hrow')
    exact ⟨zs, hzs, congrArg (· :: zs) (h.eq_of_mem hrow' (hvalue zs hzs))⟩
  · rintro ⟨xs, hxs, rfl⟩
    exact hvalue xs hxs

/-- A table read off tuples that pass both tests is refused only for a function without arguments. -/
theorem TotalRows.checkFunction_eq_ok (h : TotalRows domain rows) (hdomain : domain.Nodup) {g : String}
    (hg : isFunction g = true) :
    checkFunction domain (g, rows.map entryOfRow) = .ok () ↔ ∀ y, [y] ∉ rows := by
  rw [Model.checkFunction_eq_ok]
  constructor
  · rintro ⟨-, n, hpos, -, -, hall⟩ y hy
    have hlength : [].length = n := (hall _ (List.mem_map_of_mem hy)).1.1
    exact hpos.ne hlength
  · intro hunary
    obtain ⟨row, rest, rfl⟩ := List.exists_cons_of_ne_nil h.ne_nil
    have hrow : row ∈ row :: rest := List.mem_cons_self
    obtain ⟨y, ys, rfl⟩ := h.exists_eq_cons hrow
    obtain ⟨k, hk⟩ := h.uniform
    refine ⟨hg, ys.length, length_pos_of_mem hunary hrow, rfl, ?_, fun e he => ?_⟩
    · rw [List.length_map]
      exact (h.length_eq_pow_iff hrow hdomain).2 h.total
    · obtain ⟨row, hrow', rfl⟩ := List.mem_map.1 he
      obtain ⟨z, zs, rfl⟩ := h.exists_eq_cons hrow'
      have hzs := mem_tuples.1 (h.map_tail_subset hrow (List.mem_map_of_mem hrow'))
      exact ⟨hzs, (mem_tuples.1 (hk _ hrow')).2 z List.mem_cons_self⟩

/-! ## Both tests -/

/-- The first test: whether a table can be read off. -/
def singleValued (rows : List (List String)) : Outcome Bool :=
  Option.isSome <$> tableOfGraph [] rows

theorem RowsOver.tested_singleValued (h : RowsOver domain rows) :
    Tested singleValued IsAmbiguous ([] ∈ ·) rows := by
  rcases h.tableOfGraph_cases with ⟨hnil, hunambiguous, hrun⟩ | ⟨hnil, hambiguous, hrun⟩ | ⟨hvalues, hrun⟩
  · exact .failed .outOfRange hnil hunambiguous (congrArg (Option.isSome <$> ·) hrun)
  · exact .stopped hnil hambiguous (congrArg (Option.isSome <$> ·) hrun)
  · exact .passed hvalues.nil_notMem hvalues.unambiguous (congrArg (Option.isSome <$> ·) hrun)

/-- The relations of a model that are named for the graphs of functions, in their order. -/
def chosen (m : Model) (names : List String) : List (String × List (List String)) :=
  m.relations.filter fun r => (names.map graphName).contains r.1

/-- The tables of functions whose graphs are relations. -/
def tablesOf (relations : List (String × List (List String))) : List (String × List (List String × String)) :=
  relations.map fun r => (ofGraphName r.1, r.2.map entryOfRow)

/-- The table of a function is found under its name if its graph is found. -/
theorem find?_tablesOf {relations : List (String × List (List String))}
    (hrelations : ∀ r ∈ relations, ∃ g, isFunction g = true ∧ graphName g = r.1) {g : String}
    (hg : isFunction g = true) : Table.find? (tablesOf relations) g =
      (Table.find? relations (graphName g)).map fun rows => rows.map entryOfRow := by
  induction relations with
  | nil => rfl
  | cons r relations ih =>
      obtain ⟨name, rows⟩ := r
      obtain ⟨⟨g', hg', hname⟩, hothers⟩ := List.forall_mem_cons.1 hrelations
      obtain rfl : graphName g' = name := hname
      rw [tablesOf, List.map_cons, ← tablesOf, Table.find?_cons, Table.find?_cons, ih hothers,
        ofGraphName_graphName hg']
      by_cases heq : g' = g
      · rw [if_pos heq, if_pos (congrArg graphName heq), Option.map_some]
      · rw [if_neg heq, if_neg (mt (graphName_inj hg' hg).1 heq)]

theorem graphsToTables_filter (names : List String) (relations : List (String × List (List String))) :
    graphsToTables names relations = graphsToTables names (relations.filter fun r => names.contains r.1) := by
  induction relations with
  | nil => rfl
  | cons r relations ih =>
      by_cases hr : names.contains r.1 = true
      · rw [List.filter_cons, if_pos hr, graphsToTables, graphsToTables, if_pos hr, if_pos hr, ih]
      · rw [List.filter_cons, if_neg hr, graphsToTables, if_neg hr, ih]

/-- Reading off all tables is the first test of all relations. -/
theorem graphsToTables_eq_bind {names : List String} {relations : List (String × List (List String))}
    (hnames : ∀ r ∈ relations, names.contains r.1 = true) (hrows : ∀ r ∈ relations, RowsOver domain r.2) :
    graphsToTables names relations = do
      let b ← (relations.map Prod.snd).allM singleValued
      return if b then some (tablesOf relations) else none := by
  induction relations with
  | nil => rfl
  | cons r relations ih =>
      obtain ⟨hname, hnames⟩ := List.forall_mem_cons.1 hnames
      obtain ⟨hr, hrows⟩ := List.forall_mem_cons.1 hrows
      rw [graphsToTables, if_pos hname, List.map_cons, List.allM, singleValued, ih hnames hrows]
      rcases hr.tableOfGraph_cases with ⟨-, -, hrun⟩ | ⟨-, -, hrun⟩ | ⟨-, hrun⟩
      · rw [hrun]
        rfl
      · rw [hrun]
        rfl
      · rw [hrun]
        cases (relations.map Prod.snd).allM singleValued with
        | error e => rfl
        | ok b =>
            cases b with
            | false => rfl
            | true => rfl

/-- Whether all tables are total is the second test of all relations. -/
theorem tablesTotal_tablesOf (m : Model) (relations : List (String × List (List String))) :
    m.tablesTotal (tablesOf relations) = (relations.map Prod.snd).allM (countsAll m.domain) := by
  induction relations with
  | nil => rfl
  | cons r relations ih =>
      obtain ⟨name, rows⟩ := r
      cases rows with
      | nil => rfl
      | cons row rows =>
          change (if (entryOfRow row :: rows.map entryOfRow).length = m.domain.length ^ row.tail.length then
            m.tablesTotal (tablesOf relations) else .ok false) = _
          rw [List.length_cons, List.length_map, ← List.length_cons (a := row), ih, List.map_cons, List.allM,
            countsAll]
          by_cases hlength : (row :: rows).length = m.domain.length ^ row.tail.length
          · rw [if_pos hlength, decide_eq_true hlength]
            rfl
          · rw [if_neg hlength, decide_eq_false hlength]
            rfl

/-! ## The run -/

section Run

variable {m : Model} {names : List String}

theorem mem_chosen {r : String × List (List String)} :
    r ∈ m.chosen names ↔ r ∈ m.relations ∧ ∃ g ∈ names, graphName g = r.1 := by
  rw [chosen, List.mem_filter, List.contains_iff_mem, List.mem_map]

/-- The tuples of the chosen relations. -/
def chosenRows (m : Model) (names : List String) : List (List (List String)) :=
  (m.chosen names).map Prod.snd

theorem WellFormed.rowsOver_of_mem_chosenRows (hm : m.WellFormed) (hrows : rows ∈ m.chosenRows names) :
    RowsOver m.domain rows := by
  obtain ⟨r, hr, rfl⟩ := List.mem_map.1 hrows
  exact hm.rowsOver (mem_chosen.1 hr).1

/-- For names of functions whose graphs have meanings, there are three ways to an answer: one of the tests is
stopped, or the model is made. -/
theorem relationsToFunctions_eq_ok (hm : m.WellFormed) (hfunctions : m.functions = [])
    (hnames : ∀ g ∈ names, isFunction g = true ∧ Table.hasKey m.relations (graphName g) = true)
    {o : Option Model} : m.relationsToFunctions names = .ok o ↔
      (m.chosenRows names).allM singleValued = .ok false ∧ o = none ∨
        (m.chosenRows names).allM singleValued = .ok true ∧
          ((m.chosenRows names).allM (countsAll m.domain) = .ok false ∧ o = none ∨
            (m.chosenRows names).allM (countsAll m.domain) = .ok true ∧
              ∃ m', make m.domain m.constants
                (m.relations.filter fun r => !(names.map graphName).contains r.1) (tablesOf (m.chosen names)) =
                  .ok m' ∧ o = some m') := by
  have hcheck : (names.forM fun f => do
      requireName isFunction f
      require (!Table.hasKey m.functions f) .distinctNames
      require (Table.hasKey m.relations (graphName f)) .meaning : Outcome Unit) = .ok () := by
    refine forM_eq_ok.2 fun g hg => ?_
    obtain ⟨hfunction, hkey⟩ := hnames g hg
    have hname : requireName isFunction g = .ok () := (requireName_eq_ok rfl).2 hfunction
    rw [hname, ok_bind, hfunctions, hkey]
    rfl
  have hread : graphsToTables (names.map graphName) m.relations = do
      let b ← (m.chosenRows names).allM singleValued
      return if b then some (tablesOf (m.chosen names)) else none := by
    rw [graphsToTables_filter]
    exact graphsToTables_eq_bind (fun r hr => (List.mem_filter.1 hr).2)
      fun r hr => hm.rowsOver (List.mem_filter.1 hr).1
  have htotal : m.tablesTotal (tablesOf (m.chosen names)) = (m.chosenRows names).allM (countsAll m.domain) :=
    m.tablesTotal_tablesOf (m.chosen names)
  rw [relationsToFunctions, hcheck, ok_bind]
  dsimp only
  rw [hread]
  cases (m.chosenRows names).allM singleValued with
  | error e => simp [bind, Except.bind]
  | ok b =>
      cases b with
      | false => simp [eq_comm (a := o)]
      | true =>
          simp only [ok_bind, pure_bind, if_true, htotal]
          cases (m.chosenRows names).allM (countsAll m.domain) with
          | error e => simp [bind, Except.bind]
          | ok b =>
              cases b with
              | false => simp [eq_comm (a := o)]
              | true => simp [map_eq_ok, eq_comm (a := o)]

/-- No test fails before it is stopped, and if none is stopped, all functions have arguments. -/
def Settled (domain : List String) (relations : List (List (List String))) : Prop :=
  Spared IsAmbiguous ([] ∈ ·) relations ∧
    ((∃ rows ∈ relations, IsAmbiguous rows) ∨
      Spared (IsPartial domain) (· = []) relations ∧
        ((∃ rows ∈ relations, IsPartial domain rows) ∨ ∀ rows ∈ relations, ∀ y, [y] ∉ rows))

/-- What an answer says about the chosen relations: they are graphs, and the functions with these graphs take their
place while all else is left as it is; or one of them is no graph. -/
def Recognizes (m : Model) (names : List String) : Option Model → Prop
  | none => ∃ rows ∈ m.chosenRows names, ¬ IsGraph m.domain rows
  | some m' => (∀ rows ∈ m.chosenRows names, IsGraph m.domain rows) ∧ m'.WellFormed ∧
      m'.domain = m.domain ∧ m'.constants = m.constants ∧
      m'.relations = (m.relations.filter fun r => !(names.map graphName).contains r.1) ∧
      (∀ g, g ∈ Table.keys m'.functions ↔ g ∈ names) ∧
      ∀ g ∈ names, ∃ t, Table.find? m'.functions g = some t ∧
        ∀ y xs, Table.find? t xs = some y ↔ y :: xs ∈ m.rows (graphName g)

/-- A chosen name has its relation among the chosen ones, and the table that is read off it. -/
theorem find?_tablesOf_chosen
    (hnames : ∀ g ∈ names, isFunction g = true ∧ Table.hasKey m.relations (graphName g) = true) {g : String}
    (hg : g ∈ names) : m.rows (graphName g) ∈ m.chosenRows names ∧
      Table.find? (tablesOf (m.chosen names)) g = some ((m.rows (graphName g)).map entryOfRow) := by
  obtain ⟨hfunction, hkey⟩ := hnames g hg
  obtain ⟨rows, hrows⟩ := Option.isSome_iff_exists.1 hkey
  have hchosen : (names.map graphName).contains (graphName g) = true :=
    List.contains_iff_mem.2 (List.mem_map_of_mem hg)
  have hfind : Table.find? (m.chosen names) (graphName g) = some rows := by
    rw [chosen, Table.find?_filter m.relations (names.map graphName).contains, if_pos hchosen, hrows]
  have hgraphs : ∀ r ∈ m.chosen names, ∃ g, isFunction g = true ∧ graphName g = r.1 := by
    intro r hr
    obtain ⟨-, g, hg, hname⟩ := mem_chosen.1 hr
    exact ⟨g, (hnames g hg).1, hname⟩
  rw [find?_tablesOf hgraphs hfunction, hfind, Model.rows, hrows]
  exact ⟨List.mem_map_of_mem (f := Prod.snd) (Table.mem_of_find?_eq_some hfind), rfl⟩

section Names

variable (hm : m.WellFormed)
  (hnames : ∀ g ∈ names, isFunction g = true ∧ Table.hasKey m.relations (graphName g) = true)
include hm

theorem WellFormed.nodup_domain : m.domain.Nodup :=
  hm.domain_eq ▸ nodup_sortedSet m.domain

theorem allM_singleValued_eq_ok {b : Bool} : (m.chosenRows names).allM singleValued = .ok b ↔
    Spared IsAmbiguous ([] ∈ ·) (m.chosenRows names) ∧
      (b = false ↔ ∃ rows ∈ m.chosenRows names, IsAmbiguous rows) :=
  allM_eq_ok fun _ hrows => (hm.rowsOver_of_mem_chosenRows hrows).tested_singleValued

section First

variable (hfirst : (m.chosenRows names).allM singleValued = .ok true)
include hfirst

theorem valueRows_of_mem_chosenRows (hrows : rows ∈ m.chosenRows names) : ValueRows m.domain rows := by
  have h := hm.rowsOver_of_mem_chosenRows hrows
  obtain ⟨hnil, hunambiguous⟩ := h.tested_singleValued.of_eq_true (allM_eq_true.1 hfirst rows hrows)
  exact ⟨h, hnil, hunambiguous⟩

theorem allM_countsAll_eq_ok {b : Bool} : (m.chosenRows names).allM (countsAll m.domain) = .ok b ↔
    Spared (IsPartial m.domain) (· = []) (m.chosenRows names) ∧
      (b = false ↔ ∃ rows ∈ m.chosenRows names, IsPartial m.domain rows) :=
  allM_eq_ok fun _ hrows => (valueRows_of_mem_chosenRows hm hfirst hrows).tested_countsAll hm.nodup_domain

variable (hsecond : (m.chosenRows names).allM (countsAll m.domain) = .ok true)
include hsecond

theorem totalRows_of_mem_chosenRows (hrows : rows ∈ m.chosenRows names) : TotalRows m.domain rows := by
  have h := valueRows_of_mem_chosenRows hm hfirst hrows
  obtain ⟨hne, htotal⟩ := (h.tested_countsAll hm.nodup_domain).of_eq_true (allM_eq_true.1 hsecond rows hrows)
  exact ⟨h, hne, htotal⟩

include hnames in
/-- Relations that pass both tests make a model exactly if none is of one place only. -/
theorem make_tablesOf_eq_ok {m' : Model} : make m.domain m.constants
    (m.relations.filter fun r => !(names.map graphName).contains r.1) (tablesOf (m.chosen names)) = .ok m' ↔
      (∀ rows ∈ m.chosenRows names, ∀ y, [y] ∉ rows) ∧
        m' = ⟨m.domain, m.constants, m.relations.filter fun r => !(names.map graphName).contains r.1,
          tablesOf (m.chosen names)⟩ := by
  obtain ⟨hconstants, hrelations, -⟩ := hm.checked
  have hsorted : (m.relations.filter fun r => !(names.map graphName).contains r.1).map
      (fun r => (r.1, sortedRows r.2)) = m.relations.filter fun r => !(names.map graphName).contains r.1 := by
    refine (List.map_congr_left fun r hr => ?_).trans (List.map_id _)
    exact congrArg (r.1, ·) (hm.sortedRows_eq (List.mem_filter.1 hr).1)
  have hchecked : (∀ f ∈ tablesOf (m.chosen names), checkFunction m.domain f = .ok ()) ↔
      ∀ rows ∈ m.chosenRows names, ∀ y, [y] ∉ rows := by
    rw [tablesOf, chosenRows, List.forall_mem_map, List.forall_mem_map]
    refine forall₂_congr fun r hr => ?_
    obtain ⟨-, g, hg, hname⟩ := mem_chosen.1 hr
    have hrows : r.2 ∈ m.chosenRows names := List.mem_map_of_mem hr
    rw [← hname, ofGraphName_graphName (hnames g hg).1]
    exact (totalRows_of_mem_chosenRows hm hfirst hsecond hrows).checkFunction_eq_ok hm.nodup_domain (hnames g hg).1
  rw [make_eq_ok, hm.domain_eq, hsorted, hchecked]
  constructor
  · rintro ⟨-, -, hunary, rfl⟩
    exact ⟨hunary, rfl⟩
  · rintro ⟨hunary, rfl⟩
    exact ⟨hconstants, fun r hr => hrelations r (List.mem_filter.1 hr).1, hunary, rfl⟩

include hnames in
/-- The model that is made of relations that pass both tests has the functions whose graphs they are. -/
theorem recognizes_tablesOf (hunary : ∀ rows ∈ m.chosenRows names, ∀ y, [y] ∉ rows) :
    m.Recognizes names (some ⟨m.domain, m.constants,
      m.relations.filter fun r => !(names.map graphName).contains r.1, tablesOf (m.chosen names)⟩) := by
  have hvalues : ∀ rows ∈ m.chosenRows names, ValueRows m.domain rows := fun rows hrows =>
    valueRows_of_mem_chosenRows hm hfirst hrows
  have honce : ∀ f ∈ tablesOf (m.chosen names), (Table.keys f.2).Nodup := by
    refine List.forall_mem_map.2 fun r hr => ?_
    rw [keys_entries]
    exact (hvalues _ (List.mem_map_of_mem hr)).nodup_tails
  refine ⟨fun rows hrows => ?_, ?_, rfl, rfl, rfl, fun g => ?_, fun g hg => ?_⟩
  · exact (totalRows_of_mem_chosenRows hm hfirst hsecond hrows).isGraph (hunary rows hrows)
  · exact wellFormed_of_make ((make_tablesOf_eq_ok hm hnames hfirst hsecond).2 ⟨hunary, rfl⟩) honce
  · constructor
    · intro hmem
      obtain ⟨_, hf, rfl⟩ := List.mem_map.1 hmem
      obtain ⟨r, hr, rfl⟩ := List.mem_map.1 hf
      obtain ⟨-, g, hg, hname⟩ := mem_chosen.1 hr
      dsimp only
      rwa [← hname, ofGraphName_graphName (hnames g hg).1]
    · intro hg
      rw [← Table.find?_isSome, (find?_tablesOf_chosen hnames hg).2, Option.isSome_some]
  · obtain ⟨hrows, hfind⟩ := find?_tablesOf_chosen hnames hg
    exact ⟨_, hfind, fun y xs => (hvalues _ hrows).find?_entries⟩

end First

variable (hfunctions : m.functions = [])
include hnames hfunctions

/-- An answer is right. -/
theorem recognizes_of_relationsToFunctions {o : Option Model} (hrun : m.relationsToFunctions names = .ok o) :
    m.Recognizes names o := by
  rcases (relationsToFunctions_eq_ok hm hfunctions hnames).1 hrun with
    ⟨hfirst, rfl⟩ | ⟨hfirst, ⟨hsecond, rfl⟩ | ⟨hsecond, m', hmake, rfl⟩⟩
  · obtain ⟨rows, hrows, hambiguous⟩ := ((allM_singleValued_eq_ok hm).1 hfirst).2.1 rfl
    exact ⟨rows, hrows, fun hgraph => hgraph.not_isAmbiguous hambiguous⟩
  · obtain ⟨rows, hrows, hpartial⟩ := ((allM_countsAll_eq_ok hm hfirst).1 hsecond).2.1 rfl
    exact ⟨rows, hrows, fun hgraph => hgraph.not_isPartial hpartial⟩
  · obtain ⟨hunary, rfl⟩ := (make_tablesOf_eq_ok hm hnames hfirst hsecond).1 hmake
    exact recognizes_tablesOf hm hnames hfirst hsecond hunary

theorem settled_of_relationsToFunctions {o : Option Model} (hrun : m.relationsToFunctions names = .ok o) :
    Settled m.domain (m.chosenRows names) := by
  rcases (relationsToFunctions_eq_ok hm hfunctions hnames).1 hrun with
    ⟨hfirst, -⟩ | ⟨hfirst, ⟨hsecond, -⟩ | ⟨hsecond, m', hmake, -⟩⟩
  · obtain ⟨hspared, hambiguous⟩ := (allM_singleValued_eq_ok hm).1 hfirst
    exact ⟨hspared, .inl (hambiguous.1 rfl)⟩
  · obtain ⟨hspared, hpartial⟩ := (allM_countsAll_eq_ok hm hfirst).1 hsecond
    exact ⟨((allM_singleValued_eq_ok hm).1 hfirst).1, .inr ⟨hspared, .inl (hpartial.1 rfl)⟩⟩
  · obtain ⟨hunary, -⟩ := (make_tablesOf_eq_ok hm hnames hfirst hsecond).1 hmake
    exact ⟨((allM_singleValued_eq_ok hm).1 hfirst).1,
      .inr ⟨((allM_countsAll_eq_ok hm hfirst).1 hsecond).1, .inr hunary⟩⟩

theorem exists_relationsToFunctions (h : Settled m.domain (m.chosenRows names)) :
    ∃ o, m.relationsToFunctions names = .ok o := by
  obtain ⟨hspared, hrest⟩ := h
  simp only [relationsToFunctions_eq_ok hm hfunctions hnames]
  by_cases hambiguous : ∃ rows ∈ m.chosenRows names, IsAmbiguous rows
  · have hfirst := (allM_singleValued_eq_ok (b := false) hm).2 ⟨hspared, by simp [hambiguous]⟩
    exact ⟨none, .inl ⟨hfirst, rfl⟩⟩
  · have hfirst := (allM_singleValued_eq_ok (b := true) hm).2 ⟨hspared, by simp [hambiguous]⟩
    obtain ⟨hspared, hrest⟩ := hrest.resolve_left hambiguous
    by_cases hpartial : ∃ rows ∈ m.chosenRows names, IsPartial m.domain rows
    · have hsecond := (allM_countsAll_eq_ok (b := false) hm hfirst).2 ⟨hspared, by simp [hpartial]⟩
      exact ⟨none, .inr ⟨hfirst, .inl ⟨hsecond, rfl⟩⟩⟩
    · have hsecond := (allM_countsAll_eq_ok (b := true) hm hfirst).2 ⟨hspared, by simp [hpartial]⟩
      have hmake := (make_tablesOf_eq_ok hm hnames hfirst hsecond).2 ⟨hrest.resolve_left hpartial, rfl⟩
      exact ⟨_, .inr ⟨hfirst, .inr ⟨hsecond, _, hmake, rfl⟩⟩⟩

end Names

/-- In a model without functions, relations with the names of functions' graphs are recognized: whenever there is
an answer it is right, and there is one exactly if no test fails and no function without arguments is left. -/
theorem relationsToFunctions_recognizes (hm : m.WellFormed) (hfunctions : m.functions = [])
    (hnames : ∀ g ∈ names, isFunction g = true ∧ Table.hasKey m.relations (graphName g) = true) :
    (∀ o, m.relationsToFunctions names = .ok o → m.Recognizes names o) ∧
      ((∃ o, m.relationsToFunctions names = .ok o) ↔ Settled m.domain (m.chosenRows names)) := by
  refine ⟨fun o hrun => recognizes_of_relationsToFunctions hm hnames hfunctions hrun, ?_, fun hsettled => ?_⟩
  · rintro ⟨o, hrun⟩
    exact settled_of_relationsToFunctions hm hnames hfunctions hrun
  · exact exists_relationsToFunctions hm hnames hfunctions hsettled

/-- Two graphs are recognized beside another relation. Behind a relation with two values for an argument, one
without tuples does no harm. -/
theorem relationsToFunctions_recognizes_two_graphs :
    let m : Model := ⟨["0", "1"], [("c", "1")], [("F", [["0", "1"], ["1", "0"]]), ("R", [["0"]]),
      ("Plus", [["0", "0", "0"], ["0", "1", "1"], ["1", "0", "1"], ["1", "1", "0"]])], []⟩
    let m' : Model := ⟨["0", "1"], [], [("F", [["0", "1"], ["1", "1"]]), ("Plus", [])], []⟩
    m.WellFormed ∧ m'.WellFormed ∧
      (∃ o, m.relationsToFunctions ["plus", "f"] = .ok (some o) ∧ m.Recognizes ["plus", "f"] (some o)) ∧
        Settled m'.domain (m'.chosenRows ["plus", "f"]) ∧ m'.Recognizes ["plus", "f"] none := by
  intro m m'
  have hm : m.WellFormed := ⟨by cbv, by decide⟩
  have hm' : m'.WellFormed := ⟨by cbv, by decide⟩
  have hnames : ∀ g ∈ ["plus", "f"], isFunction g = true ∧ Table.hasKey m.relations (graphName g) = true := by
    decide
  have hnames' : ∀ g ∈ ["plus", "f"], isFunction g = true ∧ Table.hasKey m'.relations (graphName g) = true := by
    decide
  have hfirst : (m.chosenRows ["plus", "f"]).allM singleValued = .ok true := by cbv
  have hsecond : (m.chosenRows ["plus", "f"]).allM (countsAll m.domain) = .ok true := by cbv
  have hunary : ∀ rows ∈ m.chosenRows ["plus", "f"], ∀ y, [y] ∉ rows := by
    intro rows hrows y hy
    have hplaces : ∀ rows ∈ m.chosenRows ["plus", "f"], ∀ row ∈ rows, 1 < row.length := by decide
    exact absurd (hplaces rows hrows [y] hy) (by simp)
  have hfirst' : (m'.chosenRows ["plus", "f"]).allM singleValued = .ok false := by cbv
  have hmake := (make_tablesOf_eq_ok hm hnames hfirst hsecond).2 ⟨hunary, rfl⟩
  have hrun := (relationsToFunctions_eq_ok hm rfl hnames).2 (.inr ⟨hfirst, .inr ⟨hsecond, _, hmake, rfl⟩⟩)
  have hrun' := (relationsToFunctions_eq_ok hm' rfl hnames').2 (.inl ⟨hfirst', rfl⟩)
  obtain ⟨hanswer, -⟩ := relationsToFunctions_recognizes hm rfl hnames
  obtain ⟨hanswer', hsettled⟩ := relationsToFunctions_recognizes hm' rfl hnames'
  exact ⟨hm, hm', ⟨_, hrun, hanswer _ hrun⟩, hsettled.1 ⟨none, hrun'⟩, hanswer' none hrun'⟩

/-- No tuple, one of one place, and one without a place: none of these is a graph over one element, and none gets
an answer. -/
theorem relationsToFunctions_unanswered :
    (∀ rows ∈ [[], [["a"]], [[]]], (⟨["a"], [], [("F", rows)], []⟩ : Model).WellFormed ∧
      ¬ IsGraph ["a"] rows) ∧
      (⟨["a"], [], [("F", [])], []⟩ : Model).relationsToFunctions ["f"] = .error .noTuple ∧
      (⟨["a"], [], [("F", [["a"]])], []⟩ : Model).relationsToFunctions ["f"] = .error (.unmet .interpretation) ∧
      (⟨["a"], [], [("F", [[]])], []⟩ : Model).relationsToFunctions ["f"] = .error .outOfRange := by
  have hmake : make ["a"] [] [] [("f", [([], "a")])] = .error (.unmet .interpretation) := by cbv
  have hunary : (⟨["a"], [], [("F", [["a"]])], []⟩ : Model).relationsToFunctions ["f"] =
      .error (.unmet .interpretation) := by
    change (some <$> make ["a"] [] [] [("f", [([], "a")])] : Outcome (Option Model)) = _
    rw [hmake]
    rfl
  refine ⟨fun rows hrows => ?_, rfl, hunary, rfl⟩
  simp only [List.mem_cons, List.not_mem_nil, or_false] at hrows
  refine ⟨?_, ?_⟩
  · rcases hrows with rfl | rfl | rfl
    all_goals exact ⟨by cbv, by decide⟩
  · rintro ⟨n, hpos, value, -, hgraph⟩
    have htuple : List.replicate n "a" ∈ tuples ["a"] n := by simp [mem_tuples]
    have hrow := (hgraph _).2 ⟨_, htuple, rfl⟩
    rcases hrows with rfl | rfl | rfl
    · cases hrow
    · have htail := (List.cons.inj (List.mem_singleton.1 hrow)).2
      exact hpos.ne' ((List.replicate_eq_nil_iff "a").1 htail)
    · cases List.mem_singleton.1 hrow

end Run

end Predicate.Model

end FormalLogic
