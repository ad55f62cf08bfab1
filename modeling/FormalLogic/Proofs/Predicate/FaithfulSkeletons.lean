import FormalLogic.Proofs.Predicate.Semantics
import FormalLogic.Proofs.Predicate.Skeleton
import Mathlib

/-!
# Faithful skeletons

Nothing is lost in a skeleton. With its parts it gives back the formula
(`Formula.ofSkeletonPart_skeletonBy`), and the values of the parts in a model decide that of the formula
(`Model.formulaValue_eq_ok_iff`), just as they decide that of the skeleton (`Formula.evaluate_skeletonBy`).
The main statement is `Formula.skeleton_faithful`.
-/

namespace FormalLogic

/-- A name of the supply is a variable of propositional logic. -/
theorem Propositional.isVariable_name (n : Nat) :
    Propositional.isVariable (FreshNames.name "z" n) = true := by
  have hdigits : (Nat.toDigits 10 n).all Text.isDigit = true := List.all_eq_true.2 fun c hc =>
    Text.isDigit_of_isDigit (Nat.isDigit_of_mem_toDigits (by decide) (by decide) hc)
  rw [isVariable, FreshNames.toList_name]
  exact hdigits

namespace Predicate

namespace Formula

variable {f g : Formula} {m : Parts} {name : Formula → String}

/-! ## Parts -/

/-- The operators that stand outside of the outermost parts, from left to right. -/
def outerOperators : Formula → List String
  | neg f => "~" :: f.outerOperators
  | bin op l r => l.outerOperators ++ op.symbol :: r.outerOperators
  | _ => []

theorem WellFormed.of_mem_outermostParts (hf : f.WellFormed) (hg : g ∈ f.outermostParts) :
    g.WellFormed := by
  induction f with
  | neg f ih => exact ih hf hg
  | bin op l r ihl ihr => exact (List.mem_append.1 hg).elim (ihl hf.1) (ihr hf.2)
  | _ => exact List.mem_singleton.1 hg ▸ hf

theorem freeNames_subset_of_mem_outermostParts (hg : g ∈ f.outermostParts) :
    g.freeNames ⊆ f.freeNames := by
  induction f with
  | neg f ih => exact ih hg
  | bin op l r ihl ihr =>
      rcases List.mem_append.1 hg with hg | hg
      · exact List.subset_append_of_subset_left _ (ihl hg)
      · exact List.subset_append_of_subset_right _ (ihr hg)
  | _ => exact List.mem_singleton.1 hg ▸ List.Subset.refl _

/-! ## Skeletons and their parts -/

theorem leafVariables_skeletonBy : (f.skeletonBy name).leafVariables = f.outermostParts.map name := by
  induction f with
  | neg f ih => exact ih
  | bin op l r ihl ihr =>
      rw [outermostParts, List.map_append, ← ihl, ← ihr]
      rfl
  | _ => rfl

theorem operatorSymbols_skeletonBy : (f.skeletonBy name).operatorSymbols = f.outerOperators := by
  induction f with
  | neg f ih => exact congrArg _ ih
  | bin op l r ihl ihr =>
      rw [outerOperators, ← ihl, ← ihr]
      cases op <;> rfl
  | _ => rfl

theorem isMissing_skeletonBy : (f.skeletonBy name).isMissing = false := by
  cases f <;> rfl

section Names

variable (hname : ∀ g ∈ f.outermostParts, Table.find? m (name g) = some g)
include hname

/-- Parts that the names lead back to make up the formula again. -/
theorem ofSkeletonPart_skeletonBy (hf : f.WellFormed) :
    ofSkeletonPart m (f.skeletonBy name) = .ok f := by
  induction f with
  | neg f ih =>
      have hf : f.WellFormed := hf
      rw [skeletonBy, ofSkeletonPart, ih hname hf, ok_bind, hf.present_eq_ok]
      rfl
  | bin op l r ihl ihr =>
      have hop : Connective.ofPropositional? op.toPropositional = some op := by cases op <;> rfl
      have hl := ihl (fun g hg => hname g (List.mem_append_left _ hg)) hf.1
      have hr := ihr (fun g hg => hname g (List.mem_append_right _ hg)) hf.2
      rw [skeletonBy, ofSkeletonPart, hop]
      simp only [hl, hr, ok_bind, hf.1.present_eq_ok, hf.2.present_eq_ok]
      rfl
  | _ =>
      exact congrArg (fun part : Option Formula => Except.ok (part.getD missing))
        (hname _ List.mem_cons_self)

/-- With the values of the parts for their names the skeleton has the value of the formula. -/
theorem evaluate_skeletonBy (w : Formula → Bool) :
    (f.skeletonBy name).evaluate (m.map fun e => (e.1, w e.2)) = .ok (f.evalParts w) := by
  have hcovered : (f.skeletonBy name).leafVariables ⊆ Table.keys (m.map fun e => (e.1, w e.2)) := by
    rw [leafVariables_skeletonBy, Table.keys, List.map_map]
    refine List.forall_mem_map.2 fun g hg => ?_
    exact List.mem_map.2 ⟨_, Table.mem_of_find?_eq_some (hname g hg), rfl⟩
  rw [Propositional.Formula.evaluate_of_subset isMissing_skeletonBy hcovered, eval_skeletonBy]
  refine congrArg _ (evalParts_congr_outermost fun g hg => ?_)
  rw [Propositional.Valuation.value, Table.find?_map, hname g hg]
  rfl

/-- If there are no other parts, and each has one name, the parts are those with the names. -/
theorem find?_part_eq_some (hparts : (m.map Prod.snd).Nodup)
    (hmem : ∀ g ∈ m.map Prod.snd, g ∈ f.outermostParts) {x : String} :
    Table.find? m x = some g ↔ g ∈ f.outermostParts ∧ name g = x := by
  constructor
  · intro hx
    have hx := Table.mem_of_find?_eq_some hx
    have hg := hmem g (List.mem_map_of_mem hx)
    have hsame := List.inj_on_of_nodup_map hparts (Table.mem_of_find?_eq_some (hname g hg)) hx rfl
    exact ⟨hg, congrArg Prod.fst hsame⟩
  · rintro ⟨hg, rfl⟩
    exact hname g hg

end Names

theorem checkParts_eq_ok (hm : ∀ x ∈ Table.keys m, Propositional.isVariable x = true) :
    checkParts m = .ok () := by
  refine forM_eq_ok.2 fun e he => ?_
  have hvariable := hm e.1 (List.mem_map_of_mem he)
  have hne : e.1.isEmpty = false := by
    refine Bool.eq_false_iff.2 fun hempty => ?_
    rw [String.isEmpty_iff.1 hempty] at hvariable
    cases hvariable
  rw [Propositional.checkVariable, hne]
  simp [hvariable]

end Formula

/-! ## Values of parts -/

namespace Model

variable {M : Model} {a : Assignment} {f g : Formula} {b : Bool}

theorem Interprets.of_mem_outermostParts (h : M.Interprets f) (hg : g ∈ f.outermostParts) :
    M.Interprets g := by
  induction f with
  | neg f ih => exact ih ⟨h.constants, h.functions, h.relations⟩ hg
  | bin op l r ihl ihr =>
      obtain ⟨hl, hr⟩ := interprets_bin.1 h
      exact (List.mem_append.1 hg).elim (ihl hl) (ihr hr)
  | _ => exact List.mem_singleton.1 hg ▸ h

/-- The truth value of a part, false where it has none. -/
def partValue (M : Model) (a : Assignment) (g : Formula) : Bool :=
  (M.formulaValue a g).toOption.getD false

/-- A formula has a value exactly when all its outermost parts have one, and these determine it. -/
theorem formulaValue_eq_ok_iff : M.formulaValue a f = .ok b ↔
    (∀ g ∈ f.outermostParts, M.formulaValue a g = .ok (M.partValue a g)) ∧
      f.evalParts (M.partValue a) = b := by
  have hpart : ∀ {h b}, M.formulaValue a h = .ok b ↔
      (∀ g ∈ [h], M.formulaValue a g = .ok (M.partValue a g)) ∧ M.partValue a h = b := by
    intro h b
    rw [List.forall_mem_singleton, partValue]
    cases M.formulaValue a h <;> simp [Except.toOption]
  induction f generalizing b with
  | neg f ih =>
      simp only [formulaValue, bind_eq_ok, pure_eq_ok, ih, Formula.outermostParts, Formula.evalParts]
      constructor
      · rintro ⟨c, ⟨hparts, rfl⟩, rfl⟩
        exact ⟨hparts, rfl⟩
      · rintro ⟨hparts, rfl⟩
        exact ⟨_, ⟨hparts, rfl⟩, rfl⟩
  | bin op l r ihl ihr =>
      simp only [formulaValue, bind_eq_ok, pure_eq_ok, ihl, ihr, Formula.outermostParts,
        Formula.evalParts, List.forall_mem_append]
      constructor
      · rintro ⟨c, ⟨hl, rfl⟩, d, ⟨hr, rfl⟩, rfl⟩
        exact ⟨⟨hl, hr⟩, rfl⟩
      · rintro ⟨⟨hl, hr⟩, rfl⟩
        exact ⟨_, ⟨hl, rfl⟩, _, ⟨hr, rfl⟩, rfl⟩
  | _ => exact hpart

/-- A formula that is evaluated has all its outermost parts evaluated, and their values determine it. -/
theorem evaluate_parts (hf : f.WellFormed) (h : M.evaluate f a = .ok b) :
    (∀ g ∈ f.outermostParts, M.evaluate g a = .ok (M.partValue a g)) ∧
      f.evalParts (M.partValue a) = b := by
  have hnames := interprets_of_evaluate hf h
  obtain ⟨_, -, h⟩ := bind_eq_ok.1 h
  obtain ⟨_, hcovered, h⟩ := bind_eq_ok.1 h
  obtain ⟨hparts, hvalue⟩ := formulaValue_eq_ok_iff.1 h
  refine ⟨fun g hg => ?_, hvalue⟩
  have hgcovered : require (g.freeVariables.all (Table.hasKey a)) .covered = .ok () := by
    refine require_eq_ok.2 (List.all_eq_true.2 fun x hx => ?_)
    refine List.all_eq_true.1 (require_eq_ok.1 hcovered) x ?_
    rw [Formula.mem_freeVariables] at hx ⊢
    exact Formula.freeNames_subset_of_mem_outermostParts hg hx
  have hgnames : M.checkNames g = .ok () :=
    (checkNames_eq_ok (hf.of_mem_outermostParts hg)).2 (hnames.of_mem_outermostParts hg)
  rw [evaluate, hgnames, ok_bind, hgcovered, ok_bind, hparts g hg]

end Model

/-! ## Faithfulness -/

namespace Formula

variable {f : Formula}

/-- The skeleton of a formula and its parts give back the formula. The skeleton has the operators of the
formula outside of the outermost parts, and its variables are those of the parts. Different parts have
different variables, and a part has the same one in all its places. Where the formula is evaluated, so are
its parts, and with their values for the variables the skeleton has the value of the formula. -/
theorem skeleton_faithful (hf : f.WellFormed) (s : FreshNames) :
    ∃ sk m s', f.skeleton.run s = ((sk, m), s') ∧ ofSkeleton m sk = .ok f ∧
      sk.operatorSymbols = f.outerOperators ∧ (∀ x, x ∈ sk.vars ↔ x ∈ Table.keys m) ∧
      (Table.keys m).Nodup ∧ (m.map Prod.snd).Nodup ∧
      (∃ name : Formula → String, sk = f.skeletonBy name ∧
        ∀ x g, Table.find? m x = some g ↔ g ∈ f.outermostParts ∧ name g = x) ∧
      ∀ (M : Model) (a : Assignment) (b : Bool), M.evaluate f a = .ok b →
        ∃ w : Formula → Bool, (∀ e ∈ m, M.evaluate e.2 a = .ok (w e.2)) ∧
          sk.evaluate (m.map fun e => (e.1, w e.2)) = .ok b ∧ (sk.isTautology = true → b = true) := by
  obtain ⟨name, hskeleton, hname⟩ := exists_name_skeleton f s
  have hmeets := meets_skeleton f s
  refine ⟨(f.skeleton.run s).1.1, (f.skeleton.run s).1.2, (f.skeleton.run s).2, rfl, ?_⟩
  rw [hskeleton]
  generalize (f.skeleton.run s).1.2 = m at hname hmeets
  have hmem : ∀ g ∈ m.map Prod.snd, g ∈ f.outermostParts := fun g hg => ((hmeets.mem_iff g).1 hg).1
  have hfind : ∀ x g, Table.find? m x = some g ↔ g ∈ f.outermostParts ∧ name g = x :=
    fun x g => find?_part_eq_some hname hmeets.nodup hmem
  refine ⟨?_, operatorSymbols_skeletonBy, fun x => ?_, hmeets.drawn.nodup, hmeets.nodup,
    ⟨name, rfl, hfind⟩, fun M a b hvalue => ?_⟩
  · have hkeys : ∀ x ∈ Table.keys m, Propositional.isVariable x = true := by
      intro x hx
      obtain ⟨n, -, -, rfl⟩ := hmeets.drawn.between x hx
      exact Propositional.isVariable_name n
    rw [ofSkeleton, checkParts_eq_ok hkeys, ok_bind]
    exact ofSkeletonPart_skeletonBy hname hf
  · rw [Propositional.Formula.mem_vars, leafVariables_skeletonBy, List.mem_map, ← Table.find?_isSome,
      Option.isSome_iff_exists]
    simp only [hfind]
  · obtain ⟨hparts, rfl⟩ := Model.evaluate_parts hf hvalue
    have hevaluate := evaluate_skeletonBy hname (M.partValue a)
    refine ⟨M.partValue a, fun e he => hparts _ (hmem _ (List.mem_map_of_mem he)), hevaluate, ?_⟩
    intro htautology
    rw [← (Propositional.Formula.evaluate_eq_ok.1 hevaluate).2.2]
    exact Propositional.Formula.isTautology_iff.1 htautology _

/-- `((R(x)|Ay[R(y)])->(~R(x)|(R(c)->Ay[R(y)])))`, where two of the three parts stand on both sides, is true
of `1` where `R` holds of nothing else. -/
theorem skeleton_faithful_shared :
    let R (t : Term) : Formula := .rel "R" [t]
    let every : Formula := .forAll "y" (R (.var "y"))
    let f : Formula := .imp (.disj (R (.var "x")) every)
      (.disj (.neg (R (.var "x"))) (.imp (R (.const "c")) every))
    let M : Model := ⟨["0", "1"], [("c", "0")], [("R", [["1"]])], []⟩
    ∃ sk m s', f.skeleton.run ⟨7, 0⟩ = ((sk, m), s') ∧ ofSkeleton m sk = .ok f ∧
      sk.operatorSymbols = ["|", "->", "~", "|", "->"] ∧ (∀ x, x ∈ sk.vars ↔ x ∈ Table.keys m) ∧
      (m.map Prod.snd).Nodup ∧ ∃ w : Formula → Bool,
        (∀ e ∈ m, M.evaluate e.2 [("x", "1")] = .ok (w e.2)) ∧
          sk.evaluate (m.map fun e => (e.1, w e.2)) = .ok true := by
  intro R every f M
  have hvalue : M.evaluate f [("x", "1")] = .ok true := by cbv
  obtain ⟨sk, m, s', hrun, hof, hoperators, hvars, -, hparts, -, hvalues⟩ :=
    skeleton_faithful (f := f) (by decide) ⟨7, 0⟩
  obtain ⟨w, hw, hskeleton, -⟩ := hvalues M [("x", "1")] true hvalue
  exact ⟨sk, m, s', hrun, hof, hoperators, hvars, hparts, w, hw, hskeleton⟩

end Formula

end Predicate

end FormalLogic
