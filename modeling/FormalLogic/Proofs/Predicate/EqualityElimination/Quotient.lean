import FormalLogic.Proofs.Predicate.EqualityElimination.Classes
import FormalLogic.Proofs.Predicate.Satisfaction
import Mathlib

/-!
# The model of the classes

If sameness is an equivalence that the other relations respect, a model is turned into one of its classes, each
with its least element for a representative (`Model.quotient`). A formula is true of representatives in the new
model exactly if it is true in the old one with sameness in place of equality (`Model.sameToEquality_collapses`).
-/

namespace FormalLogic.Predicate.Model

/-- The model that has one element of each class. -/
def quotient (m : Model) : Model where
  domain := m.domain.filter fun e => decide (m.leastSame e = e)
  constants := m.constants.map fun k => (k.1, m.leastSame k.2)
  relations := (Table.erase m.relations sameName).map fun r =>
    (r.1, sortedRows (r.2.map (List.map m.leastSame)))
  functions := []

section Names

variable {m : Model} {name : String}

theorem find?_quotient_relations (hname : name ≠ sameName) : Table.find? m.quotient.relations name =
    (Table.find? m.relations name).map fun rows => sortedRows (rows.map (List.map m.leastSame)) := by
  have hmap := Table.find?_map (Table.erase m.relations sameName)
    (fun rows => sortedRows (rows.map (List.map m.leastSame))) name
  rw [Table.find?_erase, Function.update_of_ne hname] at hmap
  exact hmap

theorem mem_rows_quotient (hname : name ≠ sameName) {row : List String} :
    row ∈ m.quotient.rows name ↔ ∃ es ∈ m.rows name, es.map m.leastSame = row := by
  rw [rows, rows, find?_quotient_relations hname]
  cases Table.find? m.relations name with
  | none => simp
  | some rows => rw [Option.map_some, Option.getD_some, mem_sortedRows, List.mem_map, Option.getD_some]

end Names

section Quotient

variable {m : Model} (hm : m.WellFormed) (hsame : m.SameEquivalence)
include hm hsame

theorem leastSame_mem {e : String} (he : e ∈ m.domain) : m.leastSame e ∈ m.domain :=
  (hm.same_mem (leastSame_spec hm hsame he).1).1

theorem mem_quotient_domain {x : String} :
    x ∈ m.quotient.domain ↔ ∃ e ∈ m.domain, m.leastSame e = x := by
  rw [quotient, List.mem_filter, decide_eq_true_iff]
  constructor
  · rintro ⟨hx, hleast⟩
    exact ⟨x, hx, hleast⟩
  · rintro ⟨e, he, rfl⟩
    have hmem := leastSame_mem hm hsame he
    exact ⟨hmem, (same_iff_leastSame hm hsame hmem he).1 (leastSame_spec hm hsame he).1⟩

/-- After all pairs, the least elements represent the others and stand for the classes. -/
theorem exists_classes : ∃ c : Classes, ({} : Classes).joinAll (m.rows sameName) = .ok c ∧
    (∀ e ∈ m.domain, c.representative e = .ok (m.leastSame e)) ∧ sortedSet c.classes = m.quotient.domain := by
  have hrows : Classes.Ascending m.leastSame ([] ++ m.rows sameName) := ascending_rows hm hsame
  obtain ⟨c, hjoinAll, htracks⟩ := (Classes.tracks_nil m.leastSame).joinAll hrows
  refine ⟨c, hjoinAll, fun e he => ?_, ?_⟩
  · have hmem : [m.leastSame e, e] ∈ m.rows sameName := (leastSame_spec hm hsame he).1
    rw [Classes.representative, htracks.chosen, List.nil_append, if_pos hmem]
    rfl
  · have hascending : m.domain.Pairwise (· < ·) := hm.domain_eq ▸ pairwise_sortedSet m.domain
    refine sortedSet_eq (hascending.filter _) fun x => ?_
    rw [htracks.classes, List.nil_append, quotient, List.mem_filter, decide_eq_true_iff, and_comm]
    exact and_congr_left fun _ => ⟨fun h => (hm.same_mem h).1, hsame.refl x⟩

/-- Representatives of elements make up a relation of the classes, with the same number of arguments. -/
theorem checkRelation_quotient {r : String × List (List String)} (hr : checkRelation m.domain r = .ok ()) :
    checkRelation m.quotient.domain (r.1, sortedRows (r.2.map (List.map m.leastSame))) = .ok () := by
  obtain ⟨hname, hlength, hdomain⟩ := checkRelation_eq_ok.1 hr
  have hrow : ∀ row ∈ sortedRows (r.2.map (List.map m.leastSame)),
      ∃ es ∈ r.2, es.map m.leastSame = row := fun row hrow => List.mem_map.1 (mem_sortedRows.1 hrow)
  refine checkRelation_eq_ok.2 ⟨hname, fun row hmem => ?_, fun row hmem => ?_⟩
  · obtain ⟨es, hes, rfl⟩ := hrow row hmem
    have hsame : ∀ row ∈ sortedRows (r.2.map (List.map m.leastSame)), row.length = es.length := by
      intro row hmem
      obtain ⟨ds, hds, rfl⟩ := hrow row hmem
      rw [List.length_map]
      exact Option.some.inj ((hlength ds hds).trans (hlength es hes).symm)
    rw [tupleLength?_eq_some hsame (List.ne_nil_of_mem hmem), List.length_map]
  · obtain ⟨es, hes, rfl⟩ := hrow row hmem
    intro x hx
    obtain ⟨e, he, rfl⟩ := List.mem_map.1 hx
    exact (mem_quotient_domain hm hsame).2 ⟨e, hdomain es hes he, rfl⟩

/-- Making the model of the classes goes well, if there are elements. -/
theorem sameToEquality_eq_ok (hfunctions : m.functions = []) (hdomain : m.domain ≠ []) :
    m.sameToEquality = .ok m.quotient := by
  obtain ⟨e, es, hes⟩ := List.exists_cons_of_ne_nil hdomain
  have harity : m.relationArity? sameName = some 2 :=
    ((hm.rows_made sameName).2.1 _ (hsame.refl e (hes ▸ List.mem_cons_self))).symm
  obtain ⟨c, hjoinAll, hrepresentative, hclasses⟩ := exists_classes hm hsame
  obtain ⟨hconstants, hrelations, -⟩ := hm.checked
  have hothers : ∀ r ∈ Table.erase m.relations sameName, checkRelation m.domain r = .ok () := fun r hr =>
    hrelations r (List.mem_of_mem_filter hr)
  have hconstantsRun : (m.constants.mapM fun k => do return (k.1, ← c.representative k.2)) =
      .ok m.quotient.constants := by
    refine mapM_eq_ok_map fun k hk => ?_
    rw [hrepresentative _ (hconstants k hk).2]
    rfl
  have hrelationsRun : ((Table.erase m.relations sameName).mapM fun r => do
      return (r.1, ← r.2.mapM fun t => t.mapM c.representative) :
        Outcome (List (String × List (List String)))) = .ok ((Table.erase m.relations sameName).map fun r => (r.1, r.2.map (List.map m.leastSame))) := by
    refine mapM_eq_ok_map fun r hr => ?_
    have hrows := (checkRelation_eq_ok.1 (hothers r hr)).2.2
    have hrun : (r.2.mapM fun t => t.mapM c.representative) = .ok (r.2.map (List.map m.leastSame)) :=
      mapM_eq_ok_map fun t ht => mapM_eq_ok_map fun e he => hrepresentative e (hrows t ht he)
    rw [hrun]
    rfl
  have hmake : make c.classes m.quotient.constants
      ((Table.erase m.relations sameName).map fun r => (r.1, r.2.map (List.map m.leastSame))) [] =
      .ok m.quotient := by
    have hmap : ((Table.erase m.relations sameName).map fun r => (r.1, r.2.map (List.map m.leastSame))).map
        (fun r => (r.1, sortedRows r.2)) = m.quotient.relations := List.map_map
    rw [make_eq_ok, hclasses, hmap]
    refine ⟨List.forall_mem_map.2 fun k hk => ?_, List.forall_mem_map.2 fun r hr => ?_, by simp, rfl⟩
    · obtain ⟨hname, hmem⟩ := hconstants k hk
      exact ⟨hname, (mem_quotient_domain hm hsame).2 ⟨k.2, hmem, rfl⟩⟩
    · exact checkRelation_quotient hm hsame (hothers r hr)
  have hfind : (Table.find? m.relations sameName).getD [] = m.rows sameName := rfl
  have herase : (m.relations.filter fun r => decide (r.1 ≠ sameName)) = Table.erase m.relations sameName := rfl
  rw [sameToEquality, harity, hfunctions, hfind, hjoinAll]
  simp only [decide_true, require_true, ok_bind, List.isEmpty_nil, hconstantsRun, herase, hrelationsRun, hmake]

/-- The model of the classes is a model. -/
theorem quotient_wellFormed (hfunctions : m.functions = []) (hdomain : m.domain ≠ []) :
    m.quotient.WellFormed := by
  have hrun := sameToEquality_eq_ok hm hsame hfunctions hdomain
  rw [sameToEquality] at hrun
  simp only [bind_eq_ok] at hrun
  obtain ⟨_, -, _, -, c, -, constants, -, relations, -, hmake⟩ := hrun
  exact wellFormed_of_make hmake (by simp)

/-! ## Truth of representatives -/

/-- Tuples of elements with equal representatives are the same one by one. -/
theorem forall₂_same_of_map_eq {ds es : List String} (hds : ∀ d ∈ ds, d ∈ m.domain)
    (hes : ∀ e ∈ es, e ∈ m.domain) (h : ds.map m.leastSame = es.map m.leastSame) :
    List.Forall₂ m.Same ds es := by
  induction ds generalizing es with
  | nil =>
      rw [List.map_eq_nil_iff.1 h.symm]
      exact .nil
  | cons d ds ih =>
      cases es with
      | nil => cases h
      | cons e es =>
          obtain ⟨hd, hds⟩ := List.forall_mem_cons.1 hds
          obtain ⟨he, hes⟩ := List.forall_mem_cons.1 hes
          obtain ⟨hhead, htail⟩ := List.cons.inj h
          exact .cons ((same_iff_leastSame hm hsame hd he).2 hhead) (ih hds hes htail)

variable (hfunctions : m.functions = []) {f : Formula} (hnames : m.Interprets f)
  (hother : ∀ e ∈ f.relationNodes, e.1 ≠ sameName)
include hfunctions hnames hother

omit hm hsame hother in
/-- A formula with meanings in a model without functions has none. -/
theorem functionNodes_eq_nil : f.functionNodes = [] := by
  refine List.eq_nil_iff_forall_not_mem.2 fun e he => ?_
  have harity := hnames.functions e he
  rw [functionArity?, hfunctions] at harity
  cases harity

/-- The names of a formula mean in the model of the classes what they meant before. -/
theorem collapses_quotient (hrespects : ∀ name, name ≠ sameName → m.RespectsSame name) :
    m.interpretation.Collapses m.quotient.interpretation m.leastSame f.constantNames f.functionNodes
      f.relationNodes where
  domain _ := mem_quotient_domain hm hsame
  same d hd e he := interpretation_rel.trans (same_iff_leastSame hm hsame hd he)
  constants := by
    intro c hc
    obtain ⟨e, he⟩ := Option.isSome_iff_exists.1 (hnames.constants c hc)
    have hconst : m.interpretation.const c = e := by
      change (Table.find? m.constants c).getD m.anyElement = e
      rw [he, Option.getD_some]
    have hconst' : m.quotient.interpretation.const c = m.leastSame e := by
      change (Table.find? m.quotient.constants c).getD m.quotient.anyElement = m.leastSame e
      rw [quotient, Table.find?_map, he, Option.map_some, Option.getD_some]
    rw [hconst, hconst']
    exact ⟨hm.constant_mem he, rfl⟩
  functions := by simp [functionNodes_eq_nil hfunctions hnames]
  relations := by
    intro e he es hes
    have hname := hother e he
    rw [Bool.eq_iff_iff, interpretation_rel, interpretation_rel, mem_rows_quotient hname]
    constructor
    · rintro ⟨ds, hds, heq⟩
      have hdomain := (mem_tuples.1 (hm.mem_tuples_of_mem_rows (hnames.relations e he).2 hds)).2
      exact hrespects e.1 hname ds hds es
        (forall₂_same_of_map_eq hm hsame hdomain (mem_tuples.1 hes).2 heq)
    · exact fun h => ⟨es, h, rfl⟩

omit hsame in
theorem interprets_quotient : m.quotient.Interprets f where
  constants := by
    intro c hc
    rw [Table.hasKey, quotient, Table.find?_map, Option.isSome_map]
    exact hnames.constants c hc
  functions := by simp [functionNodes_eq_nil hfunctions hnames]
  relations := by
    intro e he
    obtain ⟨hkey, harity⟩ := hnames.relations e he
    have hname := hother e he
    refine ⟨?_, fun n hn => ?_⟩
    · rw [Table.hasKey, find?_quotient_relations hname, Option.isSome_map]
      exact hkey
    · -- a tuple of representatives is as long as one of elements
      obtain ⟨rows, hrows, hlength⟩ := Option.bind_eq_some_iff.1 hn
      obtain ⟨row, hrow, rfl⟩ := Option.map_eq_some_iff.1 hlength
      have hmem : row ∈ m.quotient.rows e.1 := by
        rw [Model.rows, hrows]
        exact List.mem_of_head? hrow
      obtain ⟨es, hes, rfl⟩ := (mem_rows_quotient hname).1 hmem
      rw [List.length_map]
      exact harity _ ((hm.rows_made e.1).2.1 es hes).symm

variable (hrespects : ∀ name, name ≠ sameName → m.RespectsSame name) (hf : f.WellFormed)
include hrespects hf

/-- A formula holds in the model of the classes exactly if it holds with sameness in place of equality. -/
theorem holds_quotient : m.quotient.Holds f ↔ m.Holds f.equalityToSame := by
  have hcollapses := collapses_quotient hm hsame hfunctions hnames hother hrespects
  constructor
  · intro h v hv
    have hfree : ∀ x ∈ f.freeNames, v x ∈ m.domain := fun x hx =>
      hv x ((Formula.mem_freeNames_equalityToSame hf).2 hx)
    rw [← Formula.truth_equalityToSame hf hcollapses hfree]
    exact h _ fun x hx => (mem_quotient_domain hm hsame).2 ⟨v x, hfree x hx, rfl⟩
  · intro h w hw
    -- representatives are elements that represent themselves
    have hfree : ∀ x ∈ f.freeNames, w x ∈ m.domain ∧ m.leastSame (w x) = w x := by
      intro x hx
      simpa [quotient] using hw x hx
    have hself : f.truth m.quotient.interpretation w =
        f.truth m.quotient.interpretation (m.leastSame ∘ w) :=
      Formula.truth_congr hf rfl (fun _ _ => rfl) (fun _ _ => rfl) (fun _ _ => rfl) fun x hx =>
        (hfree x hx).2.symm
    rw [hself, Formula.truth_equalityToSame hf hcollapses fun x hx => (hfree x hx).1]
    exact h w fun x hx => (hfree x ((Formula.mem_freeNames_equalityToSame hf).1 hx)).1

/-- Evaluation answers in both models, and with the same truth value. -/
theorem evaluate_quotient (hdomain : m.domain ≠ []) {a : Assignment} (ha : ∀ e ∈ a, e.2 ∈ m.domain)
    (hcovered : ∀ x ∈ f.freeNames, Table.hasKey a x = true) :
    ∃ b, m.quotient.evaluate f (a.map fun e => (e.1, m.leastSame e.2)) = .ok b ∧
      m.evaluate f.equalityToSame a = .ok b := by
  have hcollapses := collapses_quotient hm hsame hfunctions hnames hother hrespects
  have hquotient := quotient_wellFormed hm hsame hfunctions hdomain
  have hrepresentatives : ∀ e ∈ a.map fun e => (e.1, m.leastSame e.2), e.2 ∈ m.quotient.domain :=
    List.forall_mem_map.2 fun e he => (mem_quotient_domain hm hsame).2 ⟨e.2, ha e he, rfl⟩
  have hfree : ∀ x ∈ f.freeNames, m.valuation a x ∈ m.domain := fun x hx =>
    valuation_mem_of_hasKey ha (hcovered x hx)
  have hvaluation : ∀ x ∈ f.freeNames,
      m.quotient.valuation (a.map fun e => (e.1, m.leastSame e.2)) x = m.leastSame (m.valuation a x) := by
    intro x hx
    obtain ⟨e, he⟩ := Option.isSome_iff_exists.1 (hcovered x hx)
    rw [valuation, valuation, Table.find?_map, he, Option.map_some, Option.getD_some, Option.getD_some]
  refine ⟨f.equalityToSame.truth m.interpretation (m.valuation a), ?_, ?_⟩
  · rw [evaluate_eq_ok hquotient hrepresentatives hf
      ((checkNames_eq_ok hf).2 (interprets_quotient hm hfunctions hnames hother)) fun x hx => ?_,
      ← Formula.truth_equalityToSame hf hcollapses hfree]
    · exact congrArg _ (Formula.truth_congr hf rfl (fun _ _ => rfl) (fun _ _ => rfl) (fun _ _ => rfl)
        hvaluation)
    · rw [Table.hasKey, Table.find?_map, Option.isSome_map]
      exact hcovered x (Formula.mem_freeVariables.1 hx)
  · refine evaluate_eq_ok hm ha hf.equalityToSame ((checkNames_eq_ok hf.equalityToSame).2
      (hnames.equalityToSame ⟨hsame.meaning, hsame.binary⟩)) fun x hx => hcovered x ?_
    exact (Formula.mem_freeNames_equalityToSame hf).1 (Formula.mem_freeVariables.1 hx)

/-- Whether the formula holds is answered in both models, and with the same answer. -/
theorem isModelOf_quotient (hdomain : m.domain ≠ []) :
    ∃ b, m.quotient.isModelOf [f] = .ok b ∧ m.isModelOf [f.equalityToSame] = .ok b := by
  obtain ⟨b, hb, hholds⟩ := isModelOf_eq_ok (quotient_wellFormed hm hsame hfunctions hdomain)
    (List.forall_mem_singleton.2 ⟨hf, interprets_quotient hm hfunctions hnames hother⟩)
  obtain ⟨b', hb', hholds'⟩ := isModelOf_eq_ok hm (List.forall_mem_singleton.2
    ⟨hf.equalityToSame, hnames.equalityToSame ⟨hsame.meaning, hsame.binary⟩⟩)
  rw [List.forall_mem_singleton] at hholds hholds'
  have heq : b = b' := by
    rw [Bool.eq_iff_iff, hholds, hholds']
    exact holds_quotient hm hsame hfunctions hnames hother hrespects hf
  exact ⟨b, hb, heq ▸ hb'⟩

end Quotient

/-- A model with elements and without functions, in which sameness is an equivalence that all other relations
respect, is turned into a model of the classes. Its elements are the least ones of each class. Formulas over the
names of the model, other than sameness, have the truth value there, under representatives, that they have in
the model with sameness in place of equality; and they hold there exactly if they hold in the model. -/
theorem sameToEquality_collapses {m : Model} (hm : m.WellFormed) (hfunctions : m.functions = [])
    (hdomain : m.domain ≠ []) (hsame : m.SameEquivalence)
    (hrespects : ∀ name, name ≠ sameName → m.RespectsSame name) :
    ∃ (q : Model) (rep : String → String), m.sameToEquality = .ok q ∧
      (∀ e ∈ m.domain, m.Same (rep e) e ∧ ∀ d, m.Same d e → rep e ≤ d) ∧
      (∀ d ∈ m.domain, ∀ e ∈ m.domain, (m.Same d e ↔ rep d = rep e)) ∧
      (∀ x, x ∈ q.domain ↔ ∃ e ∈ m.domain, rep e = x) ∧
      ∀ f : Formula, f.WellFormed → (∀ r ∈ f.relations, r.1 ≠ sameName) → m.checkNames f = .ok () →
        (∀ a : Assignment, (∀ e ∈ a, e.2 ∈ m.domain) → (∀ x ∈ f.freeVariables, Table.hasKey a x = true) →
          ∃ b, q.evaluate f (a.map fun e => (e.1, rep e.2)) = .ok b ∧
            m.evaluate f.equalityToSame a = .ok b) ∧
        ∃ b, q.isModelOf [f] = .ok b ∧ m.isModelOf [f.equalityToSame] = .ok b := by
  refine ⟨m.quotient, m.leastSame, sameToEquality_eq_ok hm hsame hfunctions hdomain,
    fun e he => leastSame_spec hm hsame he, fun d hd e he => same_iff_leastSame hm hsame hd he,
    fun x => mem_quotient_domain hm hsame, fun f hf hother hnames => ?_⟩
  have hnames := (checkNames_eq_ok hf).1 hnames
  have hother : ∀ e ∈ f.relationNodes, e.1 ≠ sameName := fun e he =>
    hother e (Formula.mem_relations.2 he)
  refine ⟨fun a ha hcovered => ?_, ?_⟩
  · exact evaluate_quotient hm hsame hfunctions hnames hother hrespects hf hdomain ha fun x hx =>
      hcovered x (Formula.mem_freeVariables.2 hx)
  · exact isModelOf_quotient hm hsame hfunctions hnames hother hrespects hf hdomain

/-- Two of three elements are the same. A constant for the greater one is equal to the least in the model of the
classes. -/
theorem sameToEquality_collapses_two_classes :
    let m : Model := ⟨["0", "1", "2"], [("c", "1")], [("R", [["0", "2"], ["1", "2"]]),
      ("SAME", [["0", "0"], ["0", "1"], ["1", "0"], ["1", "1"], ["2", "2"]])], []⟩
    let f : Formula := .exist "x" (.conj (.equal (.var "x") (.const "c")) (.rel "R" [.var "x", .var "y"]))
    m.WellFormed ∧ m.SameEquivalence ∧ (∀ name, name ≠ sameName → m.RespectsSame name) ∧
      ∃ (q : Model) (rep : String → String), m.sameToEquality = .ok q ∧ rep "1" = rep "0" ∧
        rep "2" ≠ rep "0" ∧ q.evaluate f [("y", rep "2")] = .ok true ∧
          m.evaluate f.equalityToSame [("y", "2")] = .ok true := by
  intro m f
  have hm : m.WellFormed := ⟨by cbv, by decide⟩
  have harity : m.relationArity? sameName = some 2 := rfl
  have hsame : m.SameEquivalence :=
    ⟨rfl, fun n hn => Option.some.inj (hn.symm.trans harity), by decide, by decide, by decide⟩
  have hrespects : ∀ name, name ≠ sameName → m.RespectsSame name := by
    intro name hname
    by_cases hR : name = "R"
    · have harity : m.relationArity? name = some 2 := by rw [hR]; rfl
      rw [hm.respectsSame_iff fun k hk => Option.some.inj (hk.symm.trans harity), hR]
      decide
    · have hSAME : ¬ "SAME" = name := Ne.symm hname
      have hrows : m.rows name = [] := by simp [rows, m, Ne.symm hR, hSAME]
      rw [RespectsSame, hrows]
      exact fun ds hds => absurd hds List.not_mem_nil
  obtain ⟨q, rep, hq, -, hrep, -, htruth⟩ := sameToEquality_collapses hm rfl (by decide) hsame hrespects
  have hf : f.WellFormed := by decide
  have hother : ∀ r ∈ f.relationNodes, r.1 ≠ sameName := by decide
  have hfree : ∀ x ∈ f.freeNames, Table.hasKey [("y", "2")] x = true := by decide
  obtain ⟨b, hb, hb'⟩ := (htruth f hf (fun r hr => hother r (Formula.mem_relations.1 hr)) (by cbv)).1
    [("y", "2")] (by decide) fun x hx => hfree x (Formula.mem_freeVariables.1 hx)
  have htrue : m.evaluate f.equalityToSame [("y", "2")] = .ok true := by cbv
  rw [Except.ok.inj (hb'.symm.trans htrue)] at hb
  exact ⟨hm, hsame, hrespects, q, rep, hq, (hrep "1" (by decide) "0" (by decide)).1 (by decide),
    fun h => absurd ((hrep "2" (by decide) "0" (by decide)).2 h) (by decide), hb, htrue⟩

/-- Without elements, sameness has no pairs and hence no number of places, so there is no model of the classes. -/
theorem sameToEquality_empty :
    let m : Model := ⟨[], [], [("SAME", [])], []⟩
    m.WellFormed ∧ m.functions = [] ∧ m.SameEquivalence ∧
      (∀ name, name ≠ sameName → m.RespectsSame name) ∧ m.sameToEquality = .error (.unmet .shape) := by
  intro m
  have harity : m.relationArity? sameName = none := rfl
  refine ⟨⟨by cbv, by decide⟩, rfl, ⟨rfl, by simp [harity], by decide, by decide, by decide⟩, ?_, by cbv⟩
  intro name _ ds hds
  have hrows : m.rows name = [] := by
    by_cases hname : "SAME" = name
    · simp [rows, m, hname]
    · simp [rows, m, hname]
  rw [hrows] at hds
  exact absurd hds List.not_mem_nil

end FormalLogic.Predicate.Model
