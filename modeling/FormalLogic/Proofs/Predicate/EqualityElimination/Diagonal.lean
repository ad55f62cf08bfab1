import FormalLogic.Proofs.Predicate.EqualityElimination.Sameness
import Mathlib

/-!
# Sameness as equality

A model without sameness is given one, the relation of every element to itself (`Model.withDiagonal`). No two
elements are collapsed by it, so every formula keeps its truth value when the relation is put for equality
(`Model.addSame_evaluate`). Functions stay, and there may be no elements at all.
-/

namespace FormalLogic.Predicate.Model

/-- The pairs of equal elements. -/
def diagonal (m : Model) : List (List String) :=
  sortedRows (m.domain.map fun e => [e, e])

/-- The model in which sameness is equality. -/
def withDiagonal (m : Model) : Model :=
  { m with relations := m.relations ++ [(sameName, m.diagonal)] }

@[simp] theorem withDiagonal_domain (m : Model) : m.withDiagonal.domain = m.domain := rfl

section Relations

variable {m : Model}

theorem mem_diagonal {row : List String} : row ∈ m.diagonal ↔ ∃ e ∈ m.domain, [e, e] = row := by
  rw [diagonal, mem_sortedRows, List.mem_map]

theorem length_of_mem_diagonal {row : List String} (hrow : row ∈ m.diagonal) : row.length = 2 := by
  obtain ⟨e, -, rfl⟩ := mem_diagonal.1 hrow
  rfl

theorem pair_mem_diagonal {d e : String} : [d, e] ∈ m.diagonal ↔ d ∈ m.domain ∧ d = e := by
  rw [mem_diagonal]
  constructor
  · rintro ⟨x, hx, hpair⟩
    obtain ⟨rfl, htail⟩ := List.cons.inj hpair
    exact ⟨hx, (List.cons.inj htail).1⟩
  · rintro ⟨hd, rfl⟩
    exact ⟨d, hd, rfl⟩

/-- The pairs of equal elements make up a relation, also where there are none. -/
theorem checkRelation_diagonal : checkRelation m.domain (sameName, m.diagonal) = .ok () := by
  have hname : isRelation sameName = true := by decide
  refine checkRelation_eq_ok.2 ⟨(requireName_eq_ok rfl).2 hname, fun row hrow => ?_, fun row hrow => ?_⟩
  · have hlength : tupleLength? m.diagonal = some 2 :=
      tupleLength?_eq_some (fun _ => length_of_mem_diagonal) (List.ne_nil_of_mem hrow)
    rw [hlength, length_of_mem_diagonal hrow]
  · obtain ⟨e, he, rfl⟩ := mem_diagonal.1 hrow
    simp [he]

/-- Other relations are found as before. -/
theorem find?_withDiagonal {name : String} (hname : name ≠ sameName) :
    Table.find? m.withDiagonal.relations name = Table.find? m.relations name := by
  rw [withDiagonal, Table.find?_append, Table.find?_cons, if_neg hname.symm, Table.find?_nil, Option.or_none]

variable (hnew : Table.hasKey m.relations sameName = false)
include hnew

theorem find?_withDiagonal_sameName : Table.find? m.withDiagonal.relations sameName = some m.diagonal := by
  have hnone : Table.find? m.relations sameName = none := by simpa [Table.hasKey] using hnew
  rw [withDiagonal, Table.find?_append, hnone, Option.none_or, Table.find?_cons, if_pos rfl]

/-- Elements are the same exactly if they are equal. -/
theorem same_withDiagonal {d e : String} : m.withDiagonal.Same d e ↔ d ∈ m.domain ∧ d = e := by
  rw [Same, rows, find?_withDiagonal_sameName hnew, Option.getD_some, pair_mem_diagonal]

/-- Sameness has a meaning, and it relates two elements if it has a number of arguments at all. -/
theorem meaning_withDiagonal : Table.hasKey m.withDiagonal.relations sameName = true ∧
    ∀ n, m.withDiagonal.relationArity? sameName = some n → n = 2 := by
  rw [Table.hasKey, relationArity?, find?_withDiagonal_sameName hnew]
  refine ⟨rfl, fun n hn => ?_⟩
  obtain ⟨row, hrow, rfl⟩ := Option.map_eq_some_iff.1 hn
  exact length_of_mem_diagonal (List.mem_of_head? hrow)

end Relations

section Truth

variable {m : Model} (hm : m.WellFormed) (hnew : Table.hasKey m.relations sameName = false)
include hm hnew

/-- Adding sameness to a model goes well if the name is free. -/
theorem addSame_eq_ok : m.addSame = .ok m.withDiagonal := by
  obtain ⟨hconstants, hrelations, hfunctions⟩ := hm.checked
  have hmap : (m.relations ++ [(sameName, m.domain.map fun e => [e, e])]).map
      (fun r => (r.1, sortedRows r.2)) = m.withDiagonal.relations := by
    rw [List.map_append, hm.relations_eq]
    rfl
  rw [addSame, hnew, Bool.not_false, require_true, ok_bind, make_eq_ok, hmap, hm.domain_eq]
  exact ⟨hconstants, List.forall_mem_append.2 ⟨hrelations, List.forall_mem_singleton.2 checkRelation_diagonal⟩,
    hfunctions, rfl⟩

theorem withDiagonal_wellFormed : m.withDiagonal.WellFormed := by
  have hrun := addSame_eq_ok hm hnew
  rw [addSame, hnew, Bool.not_false, require_true, ok_bind] at hrun
  exact wellFormed_of_make hrun hm.once

variable {f : Formula} (hnames : m.Interprets f) (hother : ∀ e ∈ f.relationNodes, e.1 ≠ sameName)
include hnames hother

omit hm hnew in
/-- The names of a formula have meanings as before. -/
theorem interprets_withDiagonal : m.withDiagonal.Interprets f where
  constants := hnames.constants
  functions := hnames.functions
  relations := by
    intro e he
    rw [Table.hasKey, relationArity?, find?_withDiagonal (hother e he)]
    exact hnames.relations e he

/-- Every element represents itself alone. -/
theorem collapses_withDiagonal : m.withDiagonal.interpretation.Collapses m.interpretation id f.constantNames
    f.functionNodes f.relationNodes where
  domain := by simp
  same := by
    intro d hd e _
    rw [interpretation_rel]
    exact (same_withDiagonal hnew).trans (and_iff_right hd)
  constants := by
    intro c hc
    exact ⟨hm.interpretation_const_mem (hnames.constants c hc), rfl⟩
  functions := by
    intro e he es hes
    rw [List.map_id]
    exact ⟨hm.interpretation_app_mem (hnames.functions e he) hes, rfl⟩
  relations := by
    intro e he es _
    rw [List.map_id, Bool.eq_iff_iff, interpretation_rel, interpretation_rel, rows, rows,
      find?_withDiagonal (hother e he)]

/-- Evaluation answers in both models, and with the same truth value. -/
theorem evaluate_withDiagonal (hf : f.WellFormed) {a : Assignment} (ha : ∀ e ∈ a, e.2 ∈ m.domain)
    (hcovered : ∀ x ∈ f.freeNames, Table.hasKey a x = true) :
    ∃ b, m.withDiagonal.evaluate f.equalityToSame a = .ok b ∧ m.evaluate f a = .ok b := by
  have hfree : ∀ x ∈ f.freeNames, m.valuation a x ∈ m.domain := fun x hx =>
    valuation_mem_of_hasKey ha (hcovered x hx)
  have htruth : f.truth m.interpretation (m.valuation a) =
      f.equalityToSame.truth m.withDiagonal.interpretation (m.valuation a) :=
    Formula.truth_equalityToSame hf (collapses_withDiagonal hm hnew hnames hother) hfree
  have hmeanings : m.withDiagonal.checkNames f.equalityToSame = .ok () :=
    (checkNames_eq_ok hf.equalityToSame).2
      ((interprets_withDiagonal hnames hother).equalityToSame (meaning_withDiagonal hnew))
  refine ⟨f.truth m.interpretation (m.valuation a), ?_, ?_⟩
  · rw [htruth]
    refine evaluate_eq_ok (withDiagonal_wellFormed hm hnew) ha hf.equalityToSame hmeanings fun x hx =>
      hcovered x ?_
    exact (Formula.mem_freeNames_equalityToSame hf).1 (Formula.mem_freeVariables.1 hx)
  · exact evaluate_eq_ok hm ha hf ((checkNames_eq_ok hf).2 hnames) fun x hx =>
      hcovered x (Formula.mem_freeVariables.1 hx)

end Truth

/-- A model without sameness is given one that holds of equal elements only, and keeps its elements. A formula
over the names of the model has a truth value there with sameness in place of equality, under every assignment
of its free variables, and it is the one that it has in the model itself. -/
theorem addSame_evaluate {m : Model} (hm : m.WellFormed) (hnew : Table.hasKey m.relations sameName = false) :
    ∃ m', m.addSame = .ok m' ∧ m'.domain = m.domain ∧ (∀ d e, m'.Same d e ↔ d ∈ m.domain ∧ d = e) ∧
      ∀ f : Formula, f.WellFormed → (∀ r ∈ f.relations, r.1 ≠ sameName) → m.checkNames f = .ok () →
        f.equalityToSame.isEqualityFree = true ∧ ∀ a : Assignment, (∀ e ∈ a, e.2 ∈ m.domain) →
          (∀ x ∈ f.freeVariables, Table.hasKey a x = true) →
            ∃ b, m'.evaluate f.equalityToSame a = .ok b ∧ m.evaluate f a = .ok b := by
  refine ⟨m.withDiagonal, addSame_eq_ok hm hnew, rfl, fun d e => same_withDiagonal hnew,
    fun f hf hother hnames => ⟨f.isEqualityFree_equalityToSame, fun a ha hcovered => ?_⟩⟩
  exact evaluate_withDiagonal hm hnew ((checkNames_eq_ok hf).1 hnames)
    (fun e he => hother e (Formula.mem_relations.2 he)) hf ha fun x hx =>
      hcovered x (Formula.mem_freeVariables.2 hx)

/-- A function swaps two elements, of which one has a property. An equality under a quantifier tells whether the
element that is taken to a given one has it. -/
theorem addSame_evaluate_swap :
    let m : Model := ⟨["0", "1"], [("c", "0")], [("R", [["0"]])], [("f", [(["0"], "1"), (["1"], "0")])]⟩
    let f : Formula := .forAll "x" (.imp (.equal (.app "f" [.var "x"]) (.var "y")) (.rel "R" [.var "x"]))
    m.WellFormed ∧ Table.hasKey m.relations sameName = false ∧
      ∃ m', m.addSame = .ok m' ∧ m'.evaluate f.equalityToSame [("y", "1")] = .ok true ∧
        m'.evaluate f.equalityToSame [("y", "0")] = .ok false := by
  intro m f
  have hm : m.WellFormed := ⟨by cbv, by decide⟩
  have hnew : Table.hasKey m.relations sameName = false := rfl
  obtain ⟨m', hm', -, -, hevaluate⟩ := addSame_evaluate hm hnew
  have hf : f.WellFormed := by decide
  have hother : ∀ r ∈ f.relationNodes, r.1 ≠ sameName := by decide
  have hfree : ∀ x ∈ f.freeNames, x = "y" := by decide
  have hall := (hevaluate f hf (fun r hr => hother r (Formula.mem_relations.1 hr)) (by cbv)).2
  have hassigned : ∀ e : String, ∀ x ∈ f.freeVariables, Table.hasKey [("y", e)] x = true := by
    intro e x hx
    rw [hfree x (Formula.mem_freeVariables.1 hx)]
    rfl
  obtain ⟨b, hb, hb'⟩ := hall [("y", "1")] (by decide) (hassigned "1")
  obtain ⟨c, hc, hc'⟩ := hall [("y", "0")] (by decide) (hassigned "0")
  have htrue : m.evaluate f [("y", "1")] = .ok true := by cbv
  have hfalse : m.evaluate f [("y", "0")] = .ok false := by cbv
  rw [Except.ok.inj (hb'.symm.trans htrue)] at hb
  rw [Except.ok.inj (hc'.symm.trans hfalse)] at hc
  exact ⟨hm, hnew, m', hm', hb, hc⟩

end FormalLogic.Predicate.Model
