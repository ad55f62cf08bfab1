import FormalLogic.Predicate.Axioms
import FormalLogic.Proofs.Predicate.Instantiation
import Mathlib

/-!
# Soundness of the axioms

Each of the basic axioms is true as a schematic formula, whatever its relations mean (`truth_basic`). An
instance is true because the schematic formula is, under the meanings that the instance gives to the
names (`evaluate_basic_instance`). The check for captured variables is weaker than that needs: a variable
that is free in the formula for a relation can be bound by a quantifier of the axiom, and a variable of an
argument by a quantifier of that formula. The former is enough for a false instance
(`evaluate_captured_instance`).
-/

namespace FormalLogic.Predicate.Axioms

open Formula (truth_imp truth_conj truth_forAll truth_exist)

/-! ## Schematic formulas -/

section Schematic

variable {I : Interpretation} {v : String → String}

/-- The schematic relation holds of the schematic variable. -/
theorem truth_r_x (e : String) : (r x).truth I (Function.update v "x" e) = I.rel "R" [e] := by
  simp [r, x, Formula.truth, Term.denote]

theorem truth_r_const (name : String) : (r (.const name)).truth I v = I.rel "R" [I.const name] :=
  rfl

theorem truth_q : q.truth I v = I.rel "Q" [] := rfl

/-- The basic axioms are true as schematic formulas. -/
theorem truth_basic {s : Schema} (hs : s ∈ basic)
    (hconst : ∀ c, isConstant c = true → I.const c ∈ I.domain) : s.formula.truth I v = true := by
  simp only [basic, List.mem_cons, List.not_mem_nil, or_false] at hs
  rcases hs with rfl | rfl | rfl | rfl | rfl | rfl
  · -- the constant denotes an element
    refine truth_imp.2 fun hall => ?_
    have h := truth_forAll.1 hall (I.const "c") (hconst "c" rfl)
    rwa [truth_r_x] at h
  · refine truth_imp.2 fun hc => truth_exist.2 ⟨I.const "c", hconst "c" rfl, ?_⟩
    rwa [truth_r_x]
  · refine truth_imp.2 fun hall => truth_imp.2 fun hq => truth_forAll.2 fun e he => ?_
    exact truth_imp.1 (truth_forAll.1 hall e he) hq
  · refine truth_imp.2 fun h => ?_
    obtain ⟨hall, hsome⟩ := truth_conj.1 h
    obtain ⟨e, he, hr⟩ := truth_exist.1 hsome
    have hq := truth_imp.1 (truth_forAll.1 hall e he) hr
    rwa [truth_q] at hq ⊢
  · exact decide_eq_true rfl
  · refine truth_imp.2 fun heq => truth_imp.2 fun hc => ?_
    have heq : I.const "c" = I.const "d" := of_decide_eq_true heq
    rw [d, truth_r_const, ← heq]
    exact hc

/-- The basic axioms have formulas of the kind that instances are made of: names of the right
categories, relations of one argument at most, and only its own variable below a quantifier. -/
theorem basic_schematic {s : Schema} (hs : s ∈ basic) : s.formula.WellFormed ∧
    (∀ e ∈ s.formula.relationNodes, e.2 ≤ 1) ∧ s.formula.ScopesClosed := by
  simp only [basic, List.mem_cons, List.not_mem_nil, or_false] at hs
  rcases hs with rfl | rfl | rfl | rfl | rfl | rfl
  all_goals exact ⟨by decide, by decide, by decide⟩

end Schematic

/-! ## Instances -/

/-- The interpretation in which the names of a schema mean what is put in their place. -/
def meaningOf (m : Instances) (I : Interpretation) (v : String → String) : Interpretation where
  domain := I.domain
  const c := ((Table.find? (Instances.terms m) c).getD (.const c)).denote I v
  app := I.app
  rel name es :=
    match Table.find? (Instances.relations m) name with
    | none => I.rel name es
    | some f =>
      match es with
      | [] => f.truth I v
      | e :: _ => f.truth (I.withConst hole e) v

/-- An instance of a basic axiom is true in every model that gives meanings to its names, if no
quantifier of the axiom binds a variable that is free in the formula for a relation, and if no argument
that is put into such a formula has a variable that is bound around its place by a quantifier other than
the innermost. -/
theorem evaluate_basic_instance {s : Schema} (hs : s ∈ basic) {m : Instances}
    (hm : Instances.Proper m) {g : Formula} (hg : s.instantiate m = .ok g) (hpresent : g ≠ .missing)
    (hbinders : ∀ x ∈ s.formula.binders, ∀ e ∈ Instances.relations m,
      Formula.boundName (Table.find? (Instances.terms m)) x ∉ e.2.freeNames)
    (houter : ∀ i ∈ s.formula.argumentInsertions (Table.find? (Instances.terms m))
      (Table.find? (Instances.relations m)), ∀ x ∈ i.2.tail, x ∉ i.1.variableLeaves)
    {M : Model} (hM : M.WellFormed) (hdomain : M.domain ≠ []) (hnames : M.checkNames g = .ok ())
    {a : Assignment} (ha : ∀ e ∈ a, e.2 ∈ M.domain)
    (hcovered : ∀ x ∈ g.freeVariables, Table.hasKey a x = true) : M.evaluate g a = .ok true := by
  obtain ⟨hf, harity, hclosed⟩ := basic_schematic hs
  have harity : ∀ e ∈ s.formula.relationNodes,
      (Table.find? (Instances.relations m) e.1).isSome = true → e.2 ≤ 1 := fun e he _ => harity e he
  obtain ⟨-, hinnermost, rfl⟩ := (Schema.instantiate_eq_ok hm hf harity hpresent).1 hg
  have hwf := Formula.inst_wellFormed hm hf harity
  -- the truth of the instance is that of the axiom as a schematic formula
  have htruth := @Formula.truth_inst m hm s.formula hf harity hclosed hbinders
    (fun i hi => Formula.notMem_of_head?_of_tail (hinnermost i hi) (houter i hi))
    M.interpretation (meaningOf m M.interpretation (M.valuation a)) (M.valuation a)
    (fun x => ((Table.find? (Instances.terms m) x).getD (.var x)).denote M.interpretation
      (M.valuation a))
    rfl rfl (fun name hname => by funext es; simp [meaningOf, hname])
    (fun name φ hφ => by simp [meaningOf, hφ]) (fun _ _ => rfl) fun _ _ => rfl
  have hconst : ∀ c, isConstant c = true →
      (meaningOf m M.interpretation (M.valuation a)).const c ∈ M.domain := by
    intro c hc
    refine Model.denote_interpretation_mem hdomain hM ha ?_
    cases ht : Table.find? (Instances.terms m) c with
    | none => exact hc
    | some t => exact Instances.terms_wellFormed hm _ (Table.mem_of_find?_eq_some ht)
  rw [Model.evaluate_eq_ok hM ha hwf hnames hcovered, htruth, truth_basic hs hconst]

/-- In place of the constant of universal instantiation a term with a variable is put, below a
quantifier that binds another variable. -/
theorem evaluate_basic_instance_universal :
    let m : Instances := [("R", .formula (.exist "y" (.rel "S" [.const hole, .var "y"]))),
      ("x", .text "w"), ("c", .term (.app "f" [.var "u"]))]
    let g : Formula := .imp (.forAll "w" (.exist "y" (.rel "S" [.var "w", .var "y"])))
      (.exist "y" (.rel "S" [.app "f" [.var "u"], .var "y"]))
    let M : Model := ⟨["0", "1"], [], [("S", [["0", "1"], ["1", "1"]])],
      [("f", [(["0"], "1"), (["1"], "0")])]⟩
    let a : Assignment := [("u", "1")]
    universalInstantiation.instantiate m = .ok g ∧ M.evaluate g a = .ok true := by
  intro m g M a
  have hg : universalInstantiation.instantiate m = .ok g := by decide
  have hM : M.WellFormed := ⟨by cbv, by decide⟩
  have hfree : ∀ x ∈ g.freeNames, Table.hasKey a x = true := by decide
  exact ⟨hg, evaluate_basic_instance (by decide) (by decide) hg (by decide) (by decide) (by decide)
    hM (by decide) (by cbv) (by decide) fun x hx => hfree x (Formula.mem_freeVariables.1 hx)⟩

/-- A variable that is free in the formulas for the relations is bound by the quantifier of the axiom.
The instance says that what is true of one element is true of all. -/
theorem evaluate_captured_instance :
    let m : Instances := [("Q", .formula (.rel "T" [.var "x"])),
      ("R", .formula (.rel "T" [.const hole])), ("x", .text "x")]
    let g : Formula := .imp (.forAll "x" (.imp (.rel "T" [.var "x"]) (.rel "T" [.var "x"])))
      (.imp (.rel "T" [.var "x"]) (.forAll "x" (.rel "T" [.var "x"])))
    let M : Model := ⟨["0", "1"], [], [("T", [["0"]])], []⟩
    let a : Assignment := [("x", "0")]
    universalSimplification.instantiate m = .ok g ∧ M.WellFormed ∧ M.evaluate g a = .ok false := by
  intro m g M a
  exact ⟨by decide, ⟨by cbv, by decide⟩, by cbv⟩

end FormalLogic.Predicate.Axioms
