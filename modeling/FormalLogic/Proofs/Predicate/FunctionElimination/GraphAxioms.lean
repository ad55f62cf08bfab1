import FormalLogic.Proofs.Predicate.FunctionElimination.Graphs
import FormalLogic.Proofs.Predicate.Satisfaction
import FormalLogic.Proofs.Predicate.QuantifierBlocks

/-!
# What is said of graphs

With a relation in place of a function come two sentences: that there is a value for all arguments, and that
there is only one. The arguments are the variables `z3, z4, …`, and the value in the first sentence is a
variable that was drawn from the same supply. If it is not one of the arguments, both sentences hold of the
graph of every function. If it is, then its quantifier binds the argument too, and the first sentence says
that the function has a value equal to that argument (`Model.holds_graphAxioms`).
-/

namespace FormalLogic.Predicate

namespace Formula

/-! ## The variables of the arguments -/

theorem graphArguments_eq (n : Nat) : graphArguments n = numbered "z" 3 n :=
  numbered_eq "z" 3 n

theorem name_mem_graphArguments {n k : Nat} :
    FreshNames.name "z" k ∈ graphArguments n ↔ 3 ≤ k ∧ k < n + 3 := by
  rw [graphArguments_eq, numbered, List.mem_map_of_injective (FreshNames.name_injective "z"),
    List.mem_range'_1, Nat.add_comm 3 n]

theorem nodup_graphArguments (n : Nat) : (graphArguments n).Nodup := by
  rw [graphArguments_eq]
  exact nodup_numbered "z" 3 n

theorem length_graphArguments (n : Nat) : (graphArguments n).length = n := by
  rw [graphArguments_eq, length_numbered]

theorem isVariable_graphArguments {n : Nat} : ∀ x ∈ graphArguments n, isVariable x = true := by
  intro x hx
  rw [graphArguments_eq] at hx
  obtain ⟨k, -, rfl⟩ := List.mem_map.1 hx
  exact isVariable_name k

theorem map_graphArguments_mem {domain : List String} {n : Nat} {w : String → String}
    (hw : ∀ x ∈ graphArguments n, w x ∈ domain) :
    (graphArguments n).map w ∈ Model.tuples domain n :=
  Model.mem_tuples.2 ⟨by rw [List.length_map, length_graphArguments], List.forall_mem_map.2 hw⟩

/-- Giving another value to an argument changes one place of the tuple. -/
theorem map_update_graphArguments (w : String → String) (n i : Nat) (e : String) :
    (graphArguments n).map (Function.update w (FreshNames.name "z" (i + 3)) e) =
      ((graphArguments n).map w).set i e := by
  rw [graphArguments_eq, numbered]
  refine List.ext_getElem (by simp) fun j hj hj' => ?_
  simp only [List.getElem_map, List.getElem_set, List.getElem_range', Nat.one_mul]
  by_cases hij : i = j
  · rw [if_pos hij, hij, Nat.add_comm 3 j, Function.update_self]
  · have hne : FreshNames.name "z" (3 + j) ≠ FreshNames.name "z" (i + 3) := fun h => by
      have := FreshNames.name_injective "z" h
      omega
    rw [if_neg hij, Function.update_of_ne hne]

/-! ## The two sentences -/

/-- A variable is the value of the function of a step, under the name of the graph. -/
def valueAtom (step : CompiledStep) (x : String) : Formula :=
  rel (graphName step.function) (.var x :: (graphArguments step.args.length).map Term.var)

/-- There is a value for all arguments. -/
def existenceAxiom (step : CompiledStep) : Formula :=
  forAllOf (graphArguments step.args.length) (exist step.target (valueAtom step step.target))

/-- There is no more than one value for all arguments. -/
def uniquenessAxiom (step : CompiledStep) : Formula :=
  forAllOf (graphArguments step.args.length) (forAll "z1" (forAll "z2"
    (imp (conj (valueAtom step "z1") (valueAtom step "z2")) (equal (.var "z1") (.var "z2")))))

theorem forall_mem_graphAxioms {step : CompiledStep} {p : Formula → Prop} :
    (∀ f ∈ graphAxioms step, p f) ↔ p (existenceAxiom step) ∧ p (uniquenessAxiom step) := by
  change (∀ f ∈ [existenceAxiom step, uniquenessAxiom step], p f) ↔ _
  rw [List.forall_mem_cons, List.forall_mem_singleton]

theorem valueAtom_wellFormed {step : CompiledStep} (hname : isFunction step.function = true) {x : String}
    (hx : isVariable x = true) : (valueAtom step x).WellFormed := by
  refine ⟨isRelation_graphName hname, List.forall_mem_cons.2 ⟨hx, fun t ht => ?_⟩⟩
  obtain ⟨y, hy, rfl⟩ := List.mem_map.1 ht
  exact isVariable_graphArguments y hy

theorem graphAxioms_wellFormed {step : CompiledStep} (hname : isFunction step.function = true)
    (htarget : isVariable step.target = true) : ∀ f ∈ graphAxioms step, f.WellFormed := by
  have h1 : isVariable "z1" = true := by decide
  have h2 : isVariable "z2" = true := by decide
  have hatom : ∀ {x}, isVariable x = true → (valueAtom step x).WellFormed := valueAtom_wellFormed hname
  refine forall_mem_graphAxioms.2 ⟨?_, ?_⟩
  · exact forAllOf_wellFormed isVariable_graphArguments ⟨htarget, hatom htarget⟩
  · exact forAllOf_wellFormed isVariable_graphArguments ⟨h1, h2, ⟨hatom h1, hatom h2⟩, h1, h2⟩

/-- All terms of the two sentences are variables. -/
theorem terms_graphAxioms {step : CompiledStep} :
    ∀ f ∈ graphAxioms step, ∀ t ∈ f.terms, ∃ x, t = .var x := by
  have hatom : ∀ x, ∀ t ∈ (valueAtom step x).terms, ∃ y, t = .var y := by
    intro x t ht
    rcases List.mem_cons.1 ht with rfl | ht
    · exact ⟨x, rfl⟩
    · obtain ⟨y, -, rfl⟩ := List.mem_map.1 ht
      exact ⟨y, rfl⟩
  refine forall_mem_graphAxioms.2 ⟨?_, ?_⟩
  · rw [existenceAxiom, terms_forAllOf]
    exact hatom _
  · rw [uniquenessAxiom, terms_forAllOf]
    refine List.forall_mem_append.2 ⟨List.forall_mem_append.2 ⟨hatom _, hatom _⟩, ?_⟩
    simp [terms]

theorem functionNodes_graphAxioms {step : CompiledStep} :
    ∀ f ∈ graphAxioms step, f.functionNodes = [] := by
  refine fun f hf => List.flatMap_eq_nil_iff.2 fun t ht => ?_
  obtain ⟨x, rfl⟩ := terms_graphAxioms f hf t ht
  rfl

theorem constantNames_graphAxioms {step : CompiledStep} :
    ∀ f ∈ graphAxioms step, f.constantNames = [] := by
  refine fun f hf => List.flatMap_eq_nil_iff.2 fun t ht => ?_
  obtain ⟨x, rfl⟩ := terms_graphAxioms f hf t ht
  rfl

theorem relationNodes_graphAxioms {step : CompiledStep} : ∀ f ∈ graphAxioms step,
    ∀ e ∈ f.relationNodes, e = (graphName step.function, step.args.length + 1) := by
  have hatom : ∀ x, (valueAtom step x).relationNodes =
      [(graphName step.function, step.args.length + 1)] := by
    intro x
    rw [valueAtom, relationNodes, List.length_cons, List.length_map, length_graphArguments]
  refine forall_mem_graphAxioms.2 ⟨?_, ?_⟩
  · rw [existenceAxiom, relationNodes_forAllOf]
    simp [relationNodes, hatom]
  · rw [uniquenessAxiom, relationNodes_forAllOf]
    simp [relationNodes, hatom]

end Formula

/-! ## Truth -/

/-- A function has, for all values of its other arguments, a value that equals the argument at a place. -/
def Interpretation.FixedAt (I : Interpretation) (function : String) (n i : Nat) : Prop :=
  ∀ es ∈ Model.tuples I.domain n, ∃ a ∈ I.domain, I.app function (es.set i a) = a

namespace Formula

variable {I J : Interpretation} {step : CompiledStep}
  (hIJ : I.Graphed J [] [(step.function, step.args.length)])
include hIJ

theorem truth_valueAtom {w : String → String} {x : String}
    (hw : ∀ y ∈ graphArguments step.args.length, w y ∈ I.domain) :
    (valueAtom step x).truth J w = true ↔
      I.app step.function ((graphArguments step.args.length).map w) = w x := by
  obtain ⟨-, hgraph⟩ := hIJ.functions _ List.mem_cons_self _ (map_graphArguments_mem hw)
  rw [valueAtom, truth, List.map_cons, List.map_map, @eq_comm _ _ (w x)]
  exact hgraph (w x)

theorem truth_existenceAxiom {v : String → String} :
    (existenceAxiom step).truth J v = true ↔ ∀ w : String → String,
      (∀ x, x ∉ graphArguments step.args.length → w x = v x) →
      (∀ x ∈ graphArguments step.args.length, w x ∈ I.domain) → ∃ a ∈ I.domain,
        I.app step.function
          ((graphArguments step.args.length).map (Function.update w step.target a)) = a := by
  rw [existenceAxiom, truth_forAllOf, hIJ.domain]
  refine forall₃_congr fun w _ hw => ?_
  rw [truth_exist, hIJ.domain]
  refine exists_congr fun a => and_congr_right fun ha => ?_
  rw [truth_valueAtom hIJ, Function.update_self]
  intro y hy
  by_cases hyt : y = step.target
  · rw [hyt, Function.update_self]
    exact ha
  · rw [Function.update_of_ne hyt]
    exact hw y hy

/-- There is a value, if the variable for it is none of those for the arguments. -/
theorem truth_existenceAxiom_of_notMem (h : step.target ∉ graphArguments step.args.length)
    (v : String → String) : (existenceAxiom step).truth J v = true := by
  refine (truth_existenceAxiom hIJ).2 fun w _ hw => ?_
  refine ⟨_, (hIJ.functions _ List.mem_cons_self _ (map_graphArguments_mem hw)).1, ?_⟩
  refine congrArg _ (List.map_congr_left fun y hy => ?_)
  exact Function.update_of_ne (ne_of_mem_of_not_mem hy h) _ w

/-- The value has to be the argument whose variable it shares. -/
theorem truth_existenceAxiom_iff {i : Nat} (htarget : step.target = FreshNames.name "z" (i + 3))
    {v : String → String} :
    (existenceAxiom step).truth J v = true ↔ I.FixedAt step.function step.args.length i := by
  simp only [truth_existenceAxiom hIJ, htarget, map_update_graphArguments]
  constructor
  · intro h es hes
    obtain ⟨hlength, hdomain⟩ := Model.mem_tuples.1 hes
    obtain ⟨w, rfl, hw⟩ := exists_map_eq (nodup_graphArguments step.args.length)
      (hlength.trans (length_graphArguments _).symm) v
    exact h w hw (List.forall_mem_map.1 hdomain)
  · intro h w _ hw
    exact h _ (map_graphArguments_mem hw)

theorem truth_uniquenessAxiom (v : String → String) : (uniquenessAxiom step).truth J v = true := by
  have hnotMem : "z1" ∉ graphArguments step.args.length ∧ "z2" ∉ graphArguments step.args.length := by
    refine ⟨fun h => ?_, fun h => ?_⟩
    · have := (name_mem_graphArguments (k := 1)).1 h
      omega
    · have := (name_mem_graphArguments (k := 2)).1 h
      omega
  rw [uniquenessAxiom, truth_forAllOf, hIJ.domain]
  intro w _ hw
  simp only [truth_forAll, truth_imp, truth_conj]
  rintro a - b -
  have hsame : ∀ y ∈ graphArguments step.args.length,
      Function.update (Function.update w "z1" a) "z2" b y = w y := fun y hy => by
    rw [Function.update_of_ne (ne_of_mem_of_not_mem hy hnotMem.2),
      Function.update_of_ne (ne_of_mem_of_not_mem hy hnotMem.1)]
  have hin : ∀ y ∈ graphArguments step.args.length,
      Function.update (Function.update w "z1" a) "z2" b y ∈ I.domain := fun y hy =>
    hsame y hy ▸ hw y hy
  rw [truth_valueAtom hIJ hin, truth_valueAtom hIJ hin]
  rintro ⟨h1, h2⟩
  simpa [truth, Term.denote] using h1.symm.trans h2

end Formula

/-! ## Models -/

namespace Model

variable {m : Model} (hm : m.WellFormed) {step : CompiledStep}
  (harity : m.functionArity? step.function = some step.args.length)
  (hfree : Table.hasKey m.relations (graphName step.function) = false)
include hm harity hfree

theorem interprets_graphAxioms : ∀ f ∈ Formula.graphAxioms step, m.graphs.Interprets f := by
  intro f hf
  obtain ⟨hkey, hn⟩ := hm.relationArity?_graphs hfree harity
  refine ⟨by simp [Formula.constantNames_graphAxioms f hf],
    by simp [Formula.functionNodes_graphAxioms f hf], fun e he => ?_⟩
  rw [Formula.relationNodes_graphAxioms f hf e he]
  exact ⟨hkey, fun n hn' => Option.some.inj (hn'.symm.trans hn)⟩

/-- The sentences about the graph of a function hold, but for a value that has to be an argument. -/
theorem holds_graphAxioms {k : Nat} (htarget : step.target = FreshNames.name "z" k) :
    (∀ f ∈ Formula.graphAxioms step, m.graphs.Holds f) ↔ ∀ i < step.args.length, k = i + 3 →
      m.interpretation.FixedAt step.function step.args.length i := by
  have hIJ : m.interpretation.Graphed m.graphs.interpretation []
      [(step.function, step.args.length)] :=
    hm.graphed (by simp) (List.forall_mem_singleton.2 ⟨harity, hfree⟩)
  have hunique : m.graphs.Holds (Formula.uniquenessAxiom step) := fun v _ =>
    Formula.truth_uniquenessAxiom hIJ v
  rw [Formula.forall_mem_graphAxioms, and_iff_left hunique]
  constructor
  · rintro h i hi rfl es hes
    -- there are arguments, so an element is there for every variable
    obtain ⟨hlength, hdomain⟩ := mem_tuples.1 hes
    obtain ⟨e, rest, rfl⟩ := List.exists_cons_of_length_pos (hlength ▸ Nat.zero_lt_of_lt hi)
    have htruth := h (fun _ => e) fun _ _ => hdomain e List.mem_cons_self
    exact (Formula.truth_existenceAxiom_iff hIJ htarget).1 htruth _ hes
  · intro h v _
    by_cases hmem : step.target ∈ Formula.graphArguments step.args.length
    · obtain ⟨hlow, hhigh⟩ := Formula.name_mem_graphArguments.1 (htarget ▸ hmem)
      obtain ⟨i, rfl⟩ := Nat.exists_eq_add_of_le' hlow
      have hi : i < step.args.length := by omega
      exact (Formula.truth_existenceAxiom_iff hIJ htarget).2 (h i hi rfl)
    · exact Formula.truth_existenceAxiom_of_notMem hIJ hmem v

end Model

end FormalLogic.Predicate
