import FormalLogic.Predicate.Model
import FormalLogic.Proofs.Outcome
import FormalLogic.Proofs.Table
import FormalLogic.Proofs.Predicate.Syntax
import Mathlib.Data.List.Perm.Subperm
import Mathlib.Logic.Function.Basic

/-!
# Truth in a model

An interpretation gives a meaning to every name, so that terms denote elements and formulas are true or
false without further ado. Truth depends on the names that occur only (`Formula.truth_congr`).

A model gives meanings to finitely many names by tables. It is read as an interpretation in which every
other name denotes the first element of the domain. Evaluation in a model looks every name up and can
fail; on a well-formed formula with meanings for its names and elements for its free variables it answers,
and with the truth value (`Model.evaluate_eq_ok`). That function tables are total is a matter of
counting: they list as many tuples as there are, and each once.
-/

namespace FormalLogic.Predicate

/-- The truth of a quantification, given the elements and the truth of each instance. -/
def Quantifier.eval (k : Quantifier) (domain : List String) (p : String → Bool) : Bool :=
  match k with
  | .universal => domain.all p
  | .existential => domain.any p

theorem Quantifier.eval_congr (k : Quantifier) {domain : List String} {p q : String → Bool}
    (h : ∀ e ∈ domain, p e = q e) : k.eval domain p = k.eval domain q := by
  cases k with
  | universal =>
      rw [eval, eval, Bool.eq_iff_iff, List.all_eq_true, List.all_eq_true]
      exact forall₂_congr fun e he => by rw [h e he]
  | existential =>
      rw [eval, eval, Bool.eq_iff_iff, List.any_eq_true, List.any_eq_true]
      exact exists_congr fun e => and_congr_right fun he => by rw [h e he]

/-- Meanings of all names over the elements of a domain. -/
structure Interpretation where
  domain : List String
  const : String → String
  app : String → List String → String
  rel : String → List String → Bool

/-- The interpretation with another meaning of a constant. -/
def Interpretation.withConst (I : Interpretation) (c e : String) : Interpretation :=
  { I with const := Function.update I.const c e }

/-! ## Terms -/

namespace Term

mutual

/-- The element that a term denotes, given those of all variables. -/
def denote (I : Interpretation) (v : String → String) : Term → String
  | const name => I.const name
  | var name => v name
  | app name ts => I.app name (denoteAll I v ts)
  | missing => ""

/-- The elements that terms denote. -/
def denoteAll (I : Interpretation) (v : String → String) : List Term → List String
  | [] => []
  | t :: ts => t.denote I v :: denoteAll I v ts

end

@[simp] theorem denoteAll_eq_map (I : Interpretation) (v : String → String) (ts : List Term) :
    denoteAll I v ts = ts.map (denote I v) := by
  induction ts with
  | nil => rfl
  | cons t ts ih => simp [denoteAll, ih]

/-- What a term denotes depends on the names that occur in it. -/
theorem denote_congr {I J : Interpretation} {v w : String → String} {t : Term} (ht : t.WellFormed)
    (happ : ∀ e ∈ t.functionNodes, I.app e.1 = J.app e.1) (hconst : ∀ c ∈ t.constantLeaves, I.const c = J.const c)
    (hvar : ∀ x ∈ t.variableLeaves, v x = w x) : t.denote I v = t.denote J w := by
  induction t with
  | const c => exact hconst c (by simp [constantLeaves])
  | var x => exact hvar x (by simp [variableLeaves])
  | app name ts ih =>
      simp only [constantLeaves, constantLeavesOf_eq_flatMap ht.args, List.mem_flatMap] at hconst
      simp only [variableLeaves, variableLeavesOf_eq_flatMap ht.args, List.mem_flatMap] at hvar
      simp only [functionNodes, functionNodesOf_eq_flatMap ht.args, List.forall_mem_cons,
        List.mem_flatMap] at happ
      have hargs : ts.map (denote I v) = ts.map (denote J w) :=
        List.map_congr_left fun t htmem => ih t htmem (ht.args t htmem)
          (fun e he => happ.2 e ⟨t, htmem, he⟩) (fun c hc => hconst c ⟨t, htmem, hc⟩)
          fun x hx => hvar x ⟨t, htmem, hx⟩
      rw [denote, denote, denoteAll_eq_map, denoteAll_eq_map, hargs, happ.1]
  | missing => rfl

/-- Terms denote elements, if constants, variables and values of functions do. -/
theorem denote_mem {I : Interpretation} {v : String → String} {t : Term} (ht : t.WellFormed)
    (hconst : ∀ c, I.const c ∈ I.domain) (happ : ∀ name es, I.app name es ∈ I.domain)
    (hvar : ∀ x, v x ∈ I.domain) : t.denote I v ∈ I.domain := by
  cases t with
  | const c => exact hconst c
  | var x => exact hvar x
  | app name ts => exact happ name _
  | missing => exact ht.elim

end Term

/-! ## Formulas -/

namespace Formula

/-- The truth value of a formula, given the elements that all variables denote. -/
def truth (I : Interpretation) (v : String → String) : Formula → Bool
  | equal l r => decide (l.denote I v = r.denote I v)
  | rel name ts => I.rel name (ts.map (Term.denote I v))
  | neg f => !f.truth I v
  | bin op l r => op.eval (l.truth I v) (r.truth I v)
  | quant k x f => k.eval I.domain fun e => f.truth I (Function.update v x e)
  | bare _ => false

section Truth

variable {I : Interpretation} {v : String → String} {x : String} {f l r : Formula}

theorem truth_imp : (imp l r).truth I v = true ↔ (l.truth I v = true → r.truth I v = true) := by
  rw [truth, Connective.eval]
  cases l.truth I v <;> simp

theorem truth_conj : (conj l r).truth I v = true ↔ l.truth I v = true ∧ r.truth I v = true := by
  rw [truth, Connective.eval, Bool.and_eq_true]

theorem truth_forAll : (forAll x f).truth I v = true ↔
    ∀ e ∈ I.domain, f.truth I (Function.update v x e) = true := by
  rw [truth, Quantifier.eval, List.all_eq_true]

theorem truth_exist : (exist x f).truth I v = true ↔
    ∃ e ∈ I.domain, f.truth I (Function.update v x e) = true := by
  rw [truth, Quantifier.eval, List.any_eq_true]

end Truth

/-- Truth depends on the names that occur in a formula, and on its free variables. -/
theorem truth_congr {I J : Interpretation} {v w : String → String} {f : Formula}
    (hf : f.WellFormed) (hdomain : I.domain = J.domain)
    (happ : ∀ e ∈ f.functionNodes, I.app e.1 = J.app e.1)
    (hrel : ∀ e ∈ f.relationNodes, I.rel e.1 = J.rel e.1)
    (hconst : ∀ c ∈ f.constantNames, I.const c = J.const c)
    (hfree : ∀ x ∈ f.freeNames, v x = w x) : f.truth I v = f.truth J w := by
  induction f generalizing v w with
  | equal l r =>
      simp only [mem_functionNodes_equal] at happ
      simp only [mem_constantNames_equal] at hconst
      simp only [mem_freeNames_equal] at hfree
      have hl : l.denote I v = l.denote J w :=
        Term.denote_congr hf.1 (fun e he => happ e (.inl he)) (fun c hc => hconst c (.inl hc))
          fun x hx => hfree x (.inl hx)
      have hr : r.denote I v = r.denote J w :=
        Term.denote_congr hf.2 (fun e he => happ e (.inr he)) (fun c hc => hconst c (.inr hc))
          fun x hx => hfree x (.inr hx)
      rw [truth, truth, hl, hr]
  | rel name ts =>
      simp only [mem_functionNodes_rel] at happ
      simp only [mem_constantNames_rel] at hconst
      simp only [freeNames_rel hf, List.mem_flatMap] at hfree
      have hargs : ts.map (Term.denote I v) = ts.map (Term.denote J w) :=
        List.map_congr_left fun t ht => Term.denote_congr (hf.2 t ht) (fun e he => happ e ⟨t, ht, he⟩)
          (fun c hc => hconst c ⟨t, ht, hc⟩) fun x hx => hfree x ⟨t, ht, hx⟩
      have hname : I.rel name = J.rel name := hrel (name, ts.length) (List.mem_singleton.2 rfl)
      rw [truth, truth, hargs, hname]
  | neg f ih => rw [truth, truth, ih hf happ hrel hconst hfree]
  | bin op l r ihl ihr =>
      simp only [mem_functionNodes_bin] at happ
      simp only [relationNodes, List.mem_append] at hrel
      simp only [mem_constantNames_bin] at hconst
      simp only [freeNames_bin, List.mem_append] at hfree
      rw [truth, truth,
        ihl hf.1 (fun e he => happ e (.inl he)) (fun e he => hrel e (.inl he))
          (fun c hc => hconst c (.inl hc)) fun x hx => hfree x (.inl hx),
        ihr hf.2 (fun e he => happ e (.inr he)) (fun e he => hrel e (.inr he))
          (fun c hc => hconst c (.inr hc)) fun x hx => hfree x (.inr hx)]
  | quant k x f ih =>
      rw [truth, truth, hdomain]
      congr 1
      funext e
      refine ih hf.2 happ hrel hconst fun y hy => ?_
      by_cases hyx : y = x
      · rw [hyx, Function.update_self, Function.update_self]
      · rw [Function.update_of_ne hyx, Function.update_of_ne hyx]
        exact hfree y (mem_freeNames_quant.2 ⟨hy, hyx⟩)
  | bare t => rfl

/-- The value of a variable that is not free does not matter. -/
theorem truth_update_of_notMem {I : Interpretation} {v : String → String} {f : Formula} {x e : String}
    (hf : f.WellFormed) (hx : x ∉ f.freeNames) :
    f.truth I (Function.update v x e) = f.truth I v :=
  truth_congr hf rfl (fun _ _ => rfl) (fun _ _ => rfl) (fun _ _ => rfl) fun _ hy =>
    Function.update_of_ne (ne_of_mem_of_not_mem hy hx) e v

end Formula

/-! ## Models -/

namespace Model

/-- All tuples of a length over a domain. -/
def tuples (domain : List String) : Nat → List (List String)
  | 0 => [[]]
  | n + 1 => domain.flatMap fun e => (tuples domain n).map (e :: ·)

theorem length_tuples (domain : List String) (n : Nat) :
    (tuples domain n).length = domain.length ^ n := by
  induction n with
  | zero => rfl
  | succ n ih =>
      simp only [tuples, List.length_flatMap, List.length_map, ih, List.map_const',
        List.sum_replicate_nat]
      rw [Nat.pow_succ, Nat.mul_comm]

theorem mem_tuples {domain es : List String} {n : Nat} :
    es ∈ tuples domain n ↔ es.length = n ∧ ∀ e ∈ es, e ∈ domain := by
  induction n generalizing es with
  | zero =>
      cases es with
      | nil => simp [tuples]
      | cons e es => simp [tuples]
  | succ n ih =>
      cases es with
      | nil => simp [tuples]
      | cons e es => simp [tuples, ih, and_left_comm]

/-- A table that lists as many different tuples as there are lists every tuple. -/
theorem find?_isSome_of_length {domain : List String} {n : Nat} {t : List (List String × String)}
    (honce : (Table.keys t).Nodup) (hlength : t.length = domain.length ^ n)
    (hkeys : ∀ e ∈ t, e.1.length = n ∧ ∀ a ∈ e.1, a ∈ domain) {es : List String}
    (hes : es ∈ tuples domain n) : (Table.find? t es).isSome = true := by
  have hsubset : Table.keys t ⊆ tuples domain n := by
    intro k hk
    obtain ⟨e, he, rfl⟩ := List.mem_map.1 hk
    exact mem_tuples.2 (hkeys e he)
  have hle : (tuples domain n).length ≤ (Table.keys t).length := by
    rw [length_tuples, Table.keys, List.length_map, hlength]
  have hperm : (Table.keys t).Perm (tuples domain n) :=
    (List.subperm_of_subset honce hsubset).perm_of_length_le hle
  exact Table.find?_isSome.2 (hperm.mem_iff.2 hes)

/-- The tuples of a relation. -/
def rows (m : Model) (name : String) : List (List String) :=
  (Table.find? m.relations name).getD []

/-- A model that can be made of its own parts, with tables of functions that list every tuple once. -/
structure WellFormed (m : Model) : Prop where
  made : make m.domain m.constants m.relations m.functions = .ok m
  once : ∀ f ∈ m.functions, (Table.keys f.2).Nodup

theorem checkRelation_eq_ok {domain : List String} {r : String × List (List String)} {u : Unit} :
    checkRelation domain r = .ok u ↔ requireName isRelation r.1 = .ok () ∧
      (∀ t ∈ r.2, some t.length = tupleLength? r.2) ∧ ∀ t ∈ r.2, t ⊆ domain := by
  simp only [checkRelation, bind_eq_ok, require_eq_ok, List.all_eq_true, decide_eq_true_eq,
    subset_eq_true, exists_const]
  constructor
  · rintro ⟨_, h⟩
    exact h
  · exact fun h => ⟨(), h⟩

/-- The number of arguments of a relation is the length that all its tuples have. -/
theorem tupleLength?_eq_some {tuples : List (List String)} {n : Nat} (hlength : ∀ row ∈ tuples, row.length = n)
    (hne : tuples ≠ []) : tupleLength? tuples = some n := by
  obtain ⟨row, rest, rfl⟩ := List.exists_cons_of_ne_nil hne
  rw [tupleLength?, List.head?_cons, Option.map_some, hlength row List.mem_cons_self]

/-- What making a model requires of the table of a function: entries of one length, as many as there are tuples,
and elements. -/
theorem checkFunction_eq_ok {domain : List String} {f : String × List (List String × String)} {u : Unit} :
    checkFunction domain f = .ok u ↔ isFunction f.1 = true ∧ ∃ n, 0 < n ∧
      f.2.head?.map (fun e => e.1.length) = some n ∧ f.2.length = domain.length ^ n ∧
        ∀ e ∈ f.2, (e.1.length = n ∧ ∀ a ∈ e.1, a ∈ domain) ∧ e.2 ∈ domain := by
  obtain ⟨name, t⟩ := f
  have hname : requireName isFunction name = .ok () ↔ isFunction name = true := requireName_eq_ok rfl
  cases t with
  | nil => simp [checkFunction, bind_eq_ok]
  | cons first t =>
      simp only [checkFunction, bind_eq_ok, hname, require_eq_ok, decide_eq_true_eq, Nat.pow_eq,
        List.all_eq_true, Bool.and_eq_true, subset_eq_true, List.contains_iff_mem, exists_const,
        List.head?_cons, Option.map_some, Option.some.injEq]
      constructor
      · rintro ⟨hname, hpos, hlength, hall⟩
        exact ⟨hname, _, hpos, rfl, hlength, hall⟩
      · rintro ⟨hname, _, hpos, rfl, hlength, hall⟩
        exact ⟨hname, hpos, hlength, hall⟩

/-- What making a model requires of its parts. -/
theorem make_eq_ok {domain : List String} {constants : List (String × String)}
    {relations : List (String × List (List String))}
    {functions : List (String × List (List String × String))} {m : Model} :
    make domain constants relations functions = .ok m ↔
      (∀ c ∈ constants, (requireName isConstant c.1 = .ok ()) ∧ c.2 ∈ sortedSet domain) ∧
        (∀ r ∈ relations.map fun r => (r.1, sortedRows r.2),
          checkRelation (sortedSet domain) r = .ok ()) ∧
        (∀ f ∈ functions, checkFunction (sortedSet domain) f = .ok ()) ∧
        m = ⟨sortedSet domain, constants, relations.map fun r => (r.1, sortedRows r.2), functions⟩ := by
  unfold make
  simp only [bind_eq_ok, forM_eq_ok, require_eq_ok, List.contains_iff_mem, pure_eq_ok]
  constructor
  · rintro ⟨_, hc, _, hr, _, hf, rfl⟩
    refine ⟨fun c hcmem => ?_, hr, hf, rfl⟩
    obtain ⟨_, hname, hmem⟩ := hc c hcmem
    exact ⟨hname, hmem⟩
  · rintro ⟨hc, hr, hf, rfl⟩
    exact ⟨(), fun c hcmem => ⟨(), hc c hcmem⟩, (), hr, (), hf, rfl⟩

/-- A model that was made can be made of its own parts. -/
theorem wellFormed_of_make {domain : List String} {constants : List (String × String)}
    {relations : List (String × List (List String))}
    {functions : List (String × List (List String × String))} {m : Model}
    (h : make domain constants relations functions = .ok m)
    (honce : ∀ f ∈ functions, (Table.keys f.2).Nodup) : m.WellFormed := by
  obtain ⟨hconstants, hrelations, hfunctions, rfl⟩ := make_eq_ok.1 h
  have hsorted : (relations.map fun r => (r.1, sortedRows r.2)).map
      (fun r => (r.1, sortedRows r.2)) = relations.map fun r => (r.1, sortedRows r.2) := by
    rw [List.map_map]
    exact List.map_congr_left fun r _ => by simp [sortedRows_sortedRows]
  refine ⟨make_eq_ok.2 ?_, honce⟩
  dsimp only
  rw [sortedSet_sortedSet, hsorted]
  exact ⟨hconstants, hrelations, hfunctions, rfl⟩

namespace WellFormed

variable {m : Model} (hm : m.WellFormed)
include hm

theorem domain_eq : sortedSet m.domain = m.domain :=
  (congrArg Model.domain (make_eq_ok.1 hm.made).2.2.2).symm

theorem relations_eq : m.relations.map (fun r => (r.1, sortedRows r.2)) = m.relations :=
  (congrArg Model.relations (make_eq_ok.1 hm.made).2.2.2).symm

/-- The parts of a model pass the checks over its own domain. -/
theorem checked : (∀ c ∈ m.constants, requireName isConstant c.1 = .ok () ∧ c.2 ∈ m.domain) ∧
    (∀ r ∈ m.relations, checkRelation m.domain r = .ok ()) ∧
      ∀ f ∈ m.functions, checkFunction m.domain f = .ok () := by
  obtain ⟨hconstants, hrelations, hfunctions, -⟩ := make_eq_ok.1 hm.made
  rw [hm.relations_eq] at hrelations
  rw [hm.domain_eq] at hconstants hrelations hfunctions
  exact ⟨hconstants, hrelations, hfunctions⟩

theorem constant_mem {c e : String} (h : Table.find? m.constants c = some e) : e ∈ m.domain :=
  (hm.checked.1 _ (Table.mem_of_find?_eq_some h)).2

/-- The table of a function has entries of one length, as many as there are tuples, and elements. -/
theorem table_of_mem {f : String × List (List String × String)} (hf : f ∈ m.functions) :
    isFunction f.1 = true ∧ ∃ n, f.2.head?.map (fun e => e.1.length) = some n ∧
      f.2.length = m.domain.length ^ n ∧
        ∀ e ∈ f.2, (e.1.length = n ∧ ∀ a ∈ e.1, a ∈ m.domain) ∧ e.2 ∈ m.domain := by
  obtain ⟨hname, n, -, htable⟩ := checkFunction_eq_ok.1 (hm.checked.2.2 f hf)
  exact ⟨hname, n, htable⟩

/-- The table of a function lists tuples of its length, as many as there are, and elements. -/
theorem function_table {name : String} {t : List (List String × String)}
    (ht : Table.find? m.functions name = some t) :
    ∃ n, m.functionArity? name = some n ∧ t.length = m.domain.length ^ n ∧
      ∀ e ∈ t, (e.1.length = n ∧ ∀ a ∈ e.1, a ∈ m.domain) ∧ e.2 ∈ m.domain := by
  obtain ⟨-, n, hn, htable⟩ := hm.table_of_mem (Table.mem_of_find?_eq_some ht)
  exact ⟨n, by rw [functionArity?, ht]; exact hn, htable⟩

/-- A function gives every tuple of its length an element. -/
theorem find?_function {name : String} {n : Nat} {es : List String}
    (harity : m.functionArity? name = some n) (hes : es ∈ tuples m.domain n) :
    ∃ t e, Table.find? m.functions name = some t ∧ Table.find? t es = some e ∧ e ∈ m.domain := by
  obtain ⟨t, ht, -⟩ := Option.bind_eq_some_iff.1 harity
  obtain ⟨n', harity', hlength, hall⟩ := hm.function_table ht
  obtain rfl : n = n' := Option.some.inj (harity.symm.trans harity')
  have hsome : (Table.find? t es).isSome = true :=
    find?_isSome_of_length (hm.once _ (Table.mem_of_find?_eq_some ht)) hlength
      (fun e he => (hall e he).1) hes
  obtain ⟨e, he⟩ := Option.isSome_iff_exists.1 hsome
  exact ⟨t, e, ht, he, (hall _ (Table.mem_of_find?_eq_some he)).2⟩

/-- The tuples of a relation are in ascending order, of one length, and consist of elements. -/
theorem rows_made (name : String) : sortedRows (m.rows name) = m.rows name ∧
    (∀ row ∈ m.rows name, some row.length = m.relationArity? name) ∧
      ∀ row ∈ m.rows name, row ⊆ m.domain := by
  rw [rows, relationArity?]
  cases hrows : Table.find? m.relations name with
  | none => exact ⟨by simp [sortedRows], by simp, by simp⟩
  | some rows =>
      obtain ⟨-, hlength, hdomain⟩ :=
        checkRelation_eq_ok.1 (hm.checked.2.1 _ (Table.mem_of_find?_eq_some hrows))
      refine ⟨?_, hlength, hdomain⟩
      have hfind := Table.find?_map m.relations sortedRows name
      rw [hm.relations_eq, hrows, Option.map_some, Option.some.injEq] at hfind
      exact hfind.symm

/-- The tuples of a relation with a number of arguments are of that length. -/
theorem mem_tuples_of_mem_rows {name : String} {n : Nat} {row : List String}
    (hn : ∀ k, m.relationArity? name = some k → k = n) (hrow : row ∈ m.rows name) :
    row ∈ tuples m.domain n := by
  obtain ⟨-, hlength, hdomain⟩ := hm.rows_made name
  exact mem_tuples.2 ⟨hn _ (hlength row hrow).symm, hdomain row hrow⟩

end WellFormed

/-- The element that stands for what a model does not give. -/
def anyElement (m : Model) : String :=
  m.domain.headD ""

/-- A model as an interpretation of all names. -/
def interpretation (m : Model) : Interpretation where
  domain := m.domain
  const c := (Table.find? m.constants c).getD m.anyElement
  app name es := ((Table.find? m.functions name).bind fun t => Table.find? t es).getD m.anyElement
  rel name es := ((Table.find? m.relations name).getD []).contains es

@[simp] theorem interpretation_domain (m : Model) : m.interpretation.domain = m.domain := rfl

theorem interpretation_app (m : Model) (name : String) (es : List String) :
    m.interpretation.app name es =
      ((Table.find? m.functions name).bind fun t => Table.find? t es).getD m.anyElement := rfl

theorem interpretation_rel {m : Model} {name : String} {es : List String} :
    m.interpretation.rel name es = true ↔ es ∈ m.rows name :=
  List.contains_iff_mem

/-- An assignment as a valuation of all variables. -/
def valuation (m : Model) (a : Assignment) (x : String) : String :=
  (Table.find? a x).getD m.anyElement

theorem valuation_put (m : Model) (a : Assignment) (x e : String) :
    m.valuation (Table.put a x e) = Function.update (m.valuation a) x e := by
  funext y
  rw [valuation, Table.find?_put]
  by_cases hyx : y = x
  · rw [if_pos hyx.symm, hyx, Function.update_self]
    rfl
  · rw [if_neg (Ne.symm hyx), Function.update_of_ne hyx]
    rfl

section Elements

variable {m : Model} (hdomain : m.domain ≠ [])
include hdomain

theorem anyElement_mem : m.anyElement ∈ m.domain := by
  rw [anyElement]
  cases h : m.domain with
  | nil => exact absurd h hdomain
  | cons e es => simp

theorem valuation_mem {a : Assignment} (ha : ∀ e ∈ a, e.2 ∈ m.domain) (x : String) :
    m.valuation a x ∈ m.domain := by
  unfold valuation
  cases h : Table.find? a x with
  | none => exact anyElement_mem hdomain
  | some e => exact ha _ (Table.mem_of_find?_eq_some h)

/-- In a model with elements every well-formed term denotes one, whether its names have meanings
or not. -/
theorem denote_interpretation_mem (hm : m.WellFormed) {a : Assignment}
    (ha : ∀ e ∈ a, e.2 ∈ m.domain) {t : Term} (ht : t.WellFormed) :
    t.denote m.interpretation (m.valuation a) ∈ m.domain := by
  refine Term.denote_mem ht (fun c => ?_) (fun name es => ?_) (valuation_mem hdomain ha)
  · change (Table.find? m.constants c).getD m.anyElement ∈ m.domain
    cases h : Table.find? m.constants c with
    | none => exact anyElement_mem hdomain
    | some e => exact hm.constant_mem h
  · rw [interpretation_app, interpretation_domain]
    cases h : (Table.find? m.functions name).bind fun t => Table.find? t es with
    | none => exact anyElement_mem hdomain
    | some e =>
        obtain ⟨t, ht, he⟩ := Option.bind_eq_some_iff.1 h
        obtain ⟨_, _, _, hall⟩ := hm.function_table ht
        exact (hall _ (Table.mem_of_find?_eq_some he)).2

end Elements

/-! ## Evaluation -/

/-- A model gives meanings to the names of a formula. A relation without tuples has any number of
arguments. -/
structure Interprets (m : Model) (f : Formula) : Prop where
  constants : ∀ c ∈ f.constantNames, Table.hasKey m.constants c = true
  functions : ∀ e ∈ f.functionNodes, m.functionArity? e.1 = some e.2
  relations : ∀ e ∈ f.relationNodes, Table.hasKey m.relations e.1 = true ∧
    ∀ n, m.relationArity? e.1 = some n → n = e.2

/-- Meanings for the names of two formulas are meanings for those of their combination. -/
theorem interprets_bin {m : Model} {op : Connective} {l r : Formula} :
    m.Interprets (.bin op l r) ↔ m.Interprets l ∧ m.Interprets r := by
  constructor
  · rintro ⟨hc, hf, hr⟩
    simp only [Formula.mem_constantNames_bin, Formula.mem_functionNodes_bin, Formula.relationNodes,
      List.mem_append] at hc hf hr
    exact ⟨⟨fun c h => hc c (.inl h), fun e h => hf e (.inl h), fun e h => hr e (.inl h)⟩,
      ⟨fun c h => hc c (.inr h), fun e h => hf e (.inr h), fun e h => hr e (.inr h)⟩⟩
  · rintro ⟨hl, hr⟩
    refine ⟨fun c hc => ?_, fun e he => ?_, fun e he => ?_⟩
    · exact (Formula.mem_constantNames_bin.1 hc).elim (hl.constants c) (hr.constants c)
    · exact (Formula.mem_functionNodes_bin.1 he).elim (hl.functions e) (hr.functions e)
    · exact (List.mem_append.1 he).elim (hl.relations e) (hr.relations e)

theorem checkTermNames_eq_ok {m : Model} {constants : List String} {functions : List (String × Nat)}
    {u : Unit} : m.checkTermNames constants functions = .ok u ↔
      (∀ c ∈ constants, Table.hasKey m.constants c = true) ∧
        ∀ e ∈ functions, m.functionArity? e.1 = some e.2 := by
  simp [checkTermNames, bind_eq_ok]

theorem checkNames_eq_ok {m : Model} {f : Formula} (hf : f.WellFormed) {u : Unit} :
    m.checkNames f = .ok u ↔ m.Interprets f := by
  simp only [checkNames, hf.named_eq_ok, ok_bind, bind_eq_ok, checkTermNames_eq_ok, require_eq_ok,
    List.all_eq_true, Bool.and_eq_true, Formula.mem_constants hf, Formula.mem_functions hf,
    Formula.mem_relations]
  constructor
  · rintro ⟨-, ⟨hc, hf⟩, hr⟩
    refine ⟨hc, hf, fun e he => ⟨(hr e he).1, fun n hn => ?_⟩⟩
    have harity := (hr e he).2
    rw [hn] at harity
    exact of_decide_eq_true harity
  · rintro ⟨hc, hf, hr⟩
    refine ⟨(), ⟨hc, hf⟩, fun e he => ⟨(hr e he).1, ?_⟩⟩
    cases hn : m.relationArity? e.1 with
    | none => rfl
    | some n => exact decide_eq_true ((hr e he).2 n hn)

/-- Only what has meanings has a truth value. -/
theorem interprets_of_evaluate {m : Model} {f : Formula} (hf : f.WellFormed) {a : Assignment} {b : Bool}
    (h : m.evaluate f a = .ok b) : m.Interprets f := by
  obtain ⟨u, hnames, -⟩ := bind_eq_ok.1 h
  exact (checkNames_eq_ok hf).1 hnames

theorem termValues_eq_ok {m : Model} {a : Assignment} {ts : List Term} {d : Term → String}
    (h : ∀ t ∈ ts, m.termValue a t = .ok (d t)) : m.termValues a ts = .ok (ts.map d) := by
  induction ts with
  | nil => rfl
  | cons t ts ih =>
      rw [termValues, h t List.mem_cons_self, ok_bind,
        ih fun s hs => h s (List.mem_cons_of_mem t hs)]
      rfl

theorem forEvery_eq_ok {p : String → Outcome Bool} {q : String → Bool} {es : List String}
    (h : ∀ e ∈ es, p e = .ok (q e)) : forEvery p es = .ok (es.all q) := by
  induction es with
  | nil => rfl
  | cons e es ih =>
      rw [forEvery, h e List.mem_cons_self, ok_bind, List.all_cons,
        ih fun e' he' => h e' (List.mem_cons_of_mem e he')]
      cases q e <;> rfl

theorem forSome_eq_ok {p : String → Outcome Bool} {q : String → Bool} {es : List String}
    (h : ∀ e ∈ es, p e = .ok (q e)) : forSome p es = .ok (es.any q) := by
  induction es with
  | nil => rfl
  | cons e es ih =>
      rw [forSome, h e List.mem_cons_self, ok_bind, List.any_cons,
        ih fun e' he' => h e' (List.mem_cons_of_mem e he')]
      cases q e <;> rfl

theorem find?_eq_some_getD {κ α : Type} [DecidableEq κ] {t : List (κ × α)} {k : κ} (default : α)
    (h : Table.hasKey t k = true) : Table.find? t k = some ((Table.find? t k).getD default) := by
  obtain ⟨a, ha⟩ := Option.isSome_iff_exists.1 h
  rw [ha]
  rfl

theorem valuation_mem_of_hasKey {m : Model} {a : Assignment} (ha : ∀ e ∈ a, e.2 ∈ m.domain) {x : String}
    (hx : Table.hasKey a x = true) : m.valuation a x ∈ m.domain :=
  ha _ (Table.mem_of_find?_eq_some (find?_eq_some_getD m.anyElement hx))

namespace WellFormed

variable {m : Model} (hm : m.WellFormed)
include hm

theorem interpretation_const_mem {c : String} (hc : Table.hasKey m.constants c = true) :
    m.interpretation.const c ∈ m.domain :=
  hm.constant_mem (find?_eq_some_getD m.anyElement hc)

theorem interpretation_app_mem {name : String} {n : Nat} {es : List String}
    (harity : m.functionArity? name = some n) (hes : es ∈ tuples m.domain n) :
    m.interpretation.app name es ∈ m.domain := by
  obtain ⟨t, e, ht, he, hmem⟩ := hm.find?_function harity hes
  rw [interpretation_app, ht, Option.bind_some, he]
  exact hmem

end WellFormed

section Evaluation

variable {m : Model} (hm : m.WellFormed) {a : Assignment} (ha : ∀ e ∈ a, e.2 ∈ m.domain)
include hm ha

/-- A term whose names have meanings has a value, the element that it denotes. -/
theorem termValue_eq_ok {t : Term} (ht : t.WellFormed)
    (hconst : ∀ c ∈ t.constantLeaves, Table.hasKey m.constants c = true)
    (hfun : ∀ e ∈ t.functionNodes, m.functionArity? e.1 = some e.2)
    (hvar : ∀ x ∈ t.variableLeaves, Table.hasKey a x = true) :
    m.termValue a t = .ok (t.denote m.interpretation (m.valuation a)) ∧
      t.denote m.interpretation (m.valuation a) ∈ m.domain := by
  induction t with
  | const c =>
      have hc := find?_eq_some_getD m.anyElement (hconst c (by simp [Term.constantLeaves]))
      rw [termValue, hc]
      exact ⟨rfl, hm.constant_mem hc⟩
  | var x =>
      have hx := find?_eq_some_getD m.anyElement (hvar x (by simp [Term.variableLeaves]))
      rw [termValue, hx]
      exact ⟨rfl, ha _ (Table.mem_of_find?_eq_some hx)⟩
  | app name ts ih =>
      simp only [Term.constantLeaves, Term.constantLeavesOf_eq_flatMap ht.args,
        List.mem_flatMap] at hconst
      simp only [Term.variableLeaves, Term.variableLeavesOf_eq_flatMap ht.args,
        List.mem_flatMap] at hvar
      simp only [Term.functionNodes, Term.functionNodesOf_eq_flatMap ht.args, List.mem_cons,
        List.mem_flatMap] at hfun
      have hargs : ∀ t ∈ ts, m.termValue a t = .ok (t.denote m.interpretation (m.valuation a)) ∧
          t.denote m.interpretation (m.valuation a) ∈ m.domain := fun t htmem =>
        ih t htmem (ht.args t htmem) (fun c hc => hconst c ⟨t, htmem, hc⟩)
          (fun e he => hfun e (.inr ⟨t, htmem, he⟩)) fun x hx => hvar x ⟨t, htmem, hx⟩
      have htuple : ts.map (Term.denote m.interpretation (m.valuation a)) ∈
          tuples m.domain ts.length := by
        refine mem_tuples.2 ⟨List.length_map _, fun e he => ?_⟩
        obtain ⟨t, htmem, rfl⟩ := List.mem_map.1 he
        exact (hargs t htmem).2
      obtain ⟨table, e, htable, he, hemem⟩ := hm.find?_function (hfun _ (.inl rfl)) htuple
      have hdenote : (Term.app name ts).denote m.interpretation (m.valuation a) = e := by
        rw [Term.denote, Term.denoteAll_eq_map, interpretation_app, htable, Option.bind_some, he]
        rfl
      rw [termValue, termValues_eq_ok fun t htmem => (hargs t htmem).1, ok_bind, htable, hdenote]
      exact ⟨by rw [Failure.orElse, ok_bind, he]; rfl, hemem⟩
  | missing => exact ht.elim

/-- A formula whose names have meanings and whose free variables have elements has its truth value. -/
theorem formulaValue_eq_ok {f : Formula} (hf : f.WellFormed) (hnames : m.Interprets f)
    (hfree : ∀ x ∈ f.freeNames, Table.hasKey a x = true) :
    m.formulaValue a f = .ok (f.truth m.interpretation (m.valuation a)) := by
  induction f generalizing a with
  | equal l r =>
      have hc := hnames.constants
      have hfn := hnames.functions
      simp only [Formula.mem_constantNames_equal] at hc
      simp only [Formula.mem_functionNodes_equal] at hfn
      simp only [Formula.mem_freeNames_equal] at hfree
      have hl := (termValue_eq_ok hm ha hf.1 (fun c h => hc c (.inl h)) (fun e h => hfn e (.inl h))
        fun x h => hfree x (.inl h)).1
      have hr := (termValue_eq_ok hm ha hf.2 (fun c h => hc c (.inr h)) (fun e h => hfn e (.inr h))
        fun x h => hfree x (.inr h)).1
      rw [formulaValue, hl, ok_bind, hr, ok_bind]
      rfl
  | rel name ts =>
      have hc := hnames.constants
      have hfn := hnames.functions
      simp only [Formula.mem_constantNames_rel] at hc
      simp only [Formula.mem_functionNodes_rel] at hfn
      simp only [Formula.freeNames_rel hf, List.mem_flatMap] at hfree
      have hargs : ∀ t ∈ ts, m.termValue a t = .ok (t.denote m.interpretation (m.valuation a)) :=
        fun t ht => (termValue_eq_ok hm ha (hf.2 t ht) (fun c h => hc c ⟨t, ht, h⟩)
          (fun e h => hfn e ⟨t, ht, h⟩) fun x h => hfree x ⟨t, ht, h⟩).1
      have hkey := (hnames.relations (name, ts.length) (by simp [Formula.relationNodes])).1
      rw [formulaValue, termValues_eq_ok hargs, ok_bind, find?_eq_some_getD [] hkey]
      rfl
  | neg f ih =>
      rw [formulaValue, ih ha hf ⟨hnames.constants, hnames.functions, hnames.relations⟩ hfree]
      rfl
  | bin op l r ihl ihr =>
      have hnames' := interprets_bin.1 hnames
      simp only [Formula.freeNames_bin, List.mem_append] at hfree
      rw [formulaValue, ihl ha hf.1 hnames'.1 fun x h => hfree x (.inl h), ok_bind,
        ihr ha hf.2 hnames'.2 fun x h => hfree x (.inr h)]
      rfl
  | quant k x f ih =>
      -- the element for the variable replaces what was assigned to it before
      have hbody : ∀ e ∈ m.domain, m.formulaValue (Table.put a x e) f =
          .ok (f.truth m.interpretation (Function.update (m.valuation a) x e)) := by
        intro e he
        have hput : ∀ p ∈ Table.put a x e, p.2 ∈ m.domain := by
          intro p hp
          rcases Table.mem_put hp with rfl | hp
          · exact he
          · exact ha p hp
        have hcovered : ∀ y ∈ f.freeNames, Table.hasKey (Table.put a x e) y = true := by
          intro y hy
          rw [Table.hasKey_put]
          by_cases hyx : y = x
          · exact .inl hyx.symm
          · exact .inr (hfree y (Formula.mem_freeNames_quant.2 ⟨hy, hyx⟩))
        rw [ih hput hf.2 ⟨hnames.constants, hnames.functions, hnames.relations⟩ hcovered,
          valuation_put]
      cases k with
      | universal => rw [formulaValue, forEvery_eq_ok hbody]; rfl
      | existential => rw [formulaValue, forSome_eq_ok hbody]; rfl
  | bare t => exact hf.elim

/-- Evaluation of a formula answers with its truth value. -/
theorem evaluate_eq_ok {f : Formula} (hf : f.WellFormed) (hnames : m.checkNames f = .ok ())
    (hcovered : ∀ x ∈ f.freeVariables, Table.hasKey a x = true) :
    m.evaluate f a = .ok (f.truth m.interpretation (m.valuation a)) := by
  have hcheck : require (f.freeVariables.all (Table.hasKey a)) .covered = .ok () :=
    require_eq_ok.2 (List.all_eq_true.2 hcovered)
  rw [evaluate, hnames, ok_bind, hcheck, ok_bind]
  exact formulaValue_eq_ok hm ha hf ((checkNames_eq_ok hf).1 hnames) fun x hx =>
    hcovered x (Formula.mem_freeVariables.2 hx)

/-- Evaluation of a term answers with the element that it denotes, one of the domain. -/
theorem evaluateTerm_eq_ok {t : Term} (ht : t.WellFormed)
    (hnames : m.checkTermNames t.constants t.functions = .ok ())
    (hcovered : ∀ x ∈ t.vars, Table.hasKey a x = true) :
    m.evaluateTerm t a = .ok (t.denote m.interpretation (m.valuation a)) ∧
      t.denote m.interpretation (m.valuation a) ∈ m.domain := by
  have hcheck : require (t.vars.all (Table.hasKey a)) .covered = .ok () :=
    require_eq_ok.2 (List.all_eq_true.2 hcovered)
  rw [evaluateTerm, ht.given_eq_ok, ok_bind, hnames, ok_bind, hcheck, ok_bind]
  obtain ⟨hc, hf⟩ := checkTermNames_eq_ok.1 hnames
  exact termValue_eq_ok hm ha ht (fun c h => hc c (Term.mem_constants.2 h))
    (fun e h => hf e (mem_sortedSignature.2 h)) fun x h => hcovered x (Term.mem_vars.2 h)

end Evaluation

end Model

end FormalLogic.Predicate
