import FormalLogic.Proofs.Predicate.Satisfaction
import Mathlib

/-!
# Evaluation is total

Evaluating a formula checks its names and free variables once, at the start, and then looks up whatever it
meets. Here it is compared with the more careful evaluation that makes these checks again for every part,
under the assignment that holds there (`Model.checkedFormulaValue`). The two agree on every well-formed formula,
because what passes the check as a whole passes it part by part: a quantifier gives an element to the one variable
that its body has more.

Outcomes depend on the entries for the free variables only, failures included (`Model.evaluate_congr`). So it
does not matter what else is in an assignment, and for elements at the free variables evaluation answers with the
truth value in the sense of Tarski (`Model.evaluate_total`).
-/

namespace FormalLogic.Predicate

/-! ## Truth -/

namespace Formula

/-- The truth of a formula, given the elements that all variables denote. -/
def IsTrue (I : Interpretation) (v : String → String) : Formula → Prop
  | equal l r => l.denote I v = r.denote I v
  | rel name ts => I.rel name (ts.map (Term.denote I v)) = true
  | neg f => ¬ f.IsTrue I v
  | bin .and l r => l.IsTrue I v ∧ r.IsTrue I v
  | bin .or l r => l.IsTrue I v ∨ r.IsTrue I v
  | bin .implies l r => l.IsTrue I v → r.IsTrue I v
  | quant .universal x f => ∀ e ∈ I.domain, f.IsTrue I (Function.update v x e)
  | quant .existential x f => ∃ e ∈ I.domain, f.IsTrue I (Function.update v x e)
  | bare _ => False

/-- The truth value of a formula says whether it is true. -/
theorem truth_eq_true {I : Interpretation} {v : String → String} {f : Formula} :
    f.truth I v = true ↔ f.IsTrue I v := by
  induction f generalizing v with
  | equal l r => exact decide_eq_true_iff
  | rel name ts => exact Iff.rfl
  | neg f ih =>
      rw [truth, IsTrue, ← ih, Bool.not_eq_true', Bool.not_eq_true]
  | bin op l r ihl ihr =>
      cases op with
      | and => rw [truth_conj, ihl, ihr, IsTrue]
      | or => rw [truth, Connective.eval, Bool.or_eq_true, ihl, ihr, IsTrue]
      | implies => rw [truth_imp, ihl, ihr, IsTrue]
  | quant k x f ih =>
      cases k with
      | universal =>
          rw [truth_forAll, IsTrue]
          exact forall₂_congr fun e _ => ih
      | existential =>
          rw [truth_exist, IsTrue]
          exact exists_congr fun e => and_congr_right fun _ => ih
  | bare t => simp [truth, IsTrue]

end Formula

namespace Model

variable {m : Model} {a a' : Assignment}

/-! ## Outcomes depend on free variables -/

theorem termValues_congr {ts : List Term} (h : ∀ t ∈ ts, m.termValue a t = m.termValue a' t) :
    m.termValues a ts = m.termValues a' ts := by
  induction ts with
  | nil => rfl
  | cons t ts ih =>
      obtain ⟨ht, hts⟩ := List.forall_mem_cons.1 h
      rw [termValues, termValues, ht, ih hts]

/-- The value of a term, or its failure, depends on the entries for its variables. -/
theorem termValue_congr {t : Term} (ht : t.WellFormed)
    (h : ∀ x ∈ t.variableLeaves, Table.find? a x = Table.find? a' x) :
    m.termValue a t = m.termValue a' t := by
  induction t with
  | const c => rfl
  | var x => rw [termValue, termValue, h x List.mem_cons_self]
  | app name ts ih =>
      simp only [Term.variableLeaves, Term.variableLeavesOf_eq_flatMap ht.args, List.mem_flatMap] at h
      have hargs : m.termValues a ts = m.termValues a' ts :=
        termValues_congr fun t htmem => ih t htmem (ht.args t htmem) fun x hx => h x ⟨t, htmem, hx⟩
      rw [termValue, termValue, hargs]
  | missing => rfl

/-- The truth value of a formula, or its failure, depends on the entries for its free variables. -/
theorem formulaValue_congr {f : Formula} (hf : f.WellFormed)
    (h : ∀ x ∈ f.freeNames, Table.find? a x = Table.find? a' x) :
    m.formulaValue a f = m.formulaValue a' f := by
  induction f generalizing a a' with
  | equal l r =>
      simp only [Formula.mem_freeNames_equal] at h
      have hl : m.termValue a l = m.termValue a' l := termValue_congr hf.1 fun x hx => h x (.inl hx)
      have hr : m.termValue a r = m.termValue a' r := termValue_congr hf.2 fun x hx => h x (.inr hx)
      rw [formulaValue, formulaValue, hl, hr]
  | rel name ts =>
      simp only [Formula.freeNames_rel hf, List.mem_flatMap] at h
      have hargs : m.termValues a ts = m.termValues a' ts :=
        termValues_congr fun t ht => termValue_congr (hf.2 t ht) fun x hx => h x ⟨t, ht, hx⟩
      rw [formulaValue, formulaValue, hargs]
  | neg f ih => rw [formulaValue, formulaValue, ih hf h]
  | bin op l r ihl ihr =>
      simp only [Formula.freeNames_bin, List.mem_append] at h
      rw [formulaValue, formulaValue, ihl hf.1 fun x hx => h x (.inl hx), ihr hf.2 fun x hx => h x (.inr hx)]
  | quant k x f ih =>
      -- both assignments give the bound variable the same element
      have hbody : (fun e => m.formulaValue (Table.put a x e) f) =
          fun e => m.formulaValue (Table.put a' x e) f := by
        funext e
        apply ih hf.2
        intro y hy
        rw [Table.find?_put, Table.find?_put]
        by_cases hxy : x = y
        · rw [if_pos hxy, if_pos hxy]
        · rw [if_neg hxy, if_neg hxy]
          exact h y (Formula.mem_freeNames_quant.2 ⟨hy, Ne.symm hxy⟩)
      cases k with
      | universal => rw [formulaValue, formulaValue, hbody]
      | existential => rw [formulaValue, formulaValue, hbody]
  | bare t => rfl

/-! ## Checks -/

/-- Requires that the names of a term have meanings and its variables have entries. -/
def checkTerm (m : Model) (a : Assignment) (t : Term) : Outcome Unit := do
  m.checkTermNames t.constants t.functions
  require (t.vars.all (Table.hasKey a)) .covered

/-- Requires that the names of a formula have meanings and its free variables have entries. -/
def checkFormula (m : Model) (a : Assignment) (f : Formula) : Outcome Unit := do
  m.checkNames f
  require (f.freeVariables.all (Table.hasKey a)) .covered

theorem checkTerm_eq_ok {t : Term} {u : Unit} : m.checkTerm a t = .ok u ↔
    (∀ c ∈ t.constantLeaves, Table.hasKey m.constants c = true) ∧
      (∀ e ∈ t.functionNodes, m.functionArity? e.1 = some e.2) ∧
        ∀ x ∈ t.variableLeaves, Table.hasKey a x = true := by
  simp only [checkTerm, bind_eq_ok, checkTermNames_eq_ok, require_eq_ok, List.all_eq_true, exists_const,
    Term.mem_constants, Term.mem_vars, Term.functions, mem_sortedSignature, and_assoc]

theorem checkFormula_eq_ok {f : Formula} (hf : f.WellFormed) {u : Unit} : m.checkFormula a f = .ok u ↔
    m.Interprets f ∧ ∀ x ∈ f.freeNames, Table.hasKey a x = true := by
  simp only [checkFormula, bind_eq_ok, checkNames_eq_ok hf, require_eq_ok, List.all_eq_true, exists_const,
    Formula.mem_freeVariables]

theorem evaluateTerm_eq_bind {t : Term} (ht : t.WellFormed) :
    m.evaluateTerm t a = (m.checkTerm a t >>= fun _ => m.termValue a t) := by
  rw [evaluateTerm, ht.given_eq_ok, ok_bind, checkTerm, bind_assoc]

theorem evaluate_eq_bind (m : Model) (f : Formula) (a : Assignment) :
    m.evaluate f a = (m.checkFormula a f >>= fun _ => m.formulaValue a f) := by
  rw [evaluate, checkFormula, bind_assoc]

/-- The outcome of evaluating a formula depends on the entries for its free variables. -/
theorem evaluate_congr {f : Formula} (hf : f.WellFormed)
    (h : ∀ x ∈ f.freeVariables, Table.find? a x = Table.find? a' x) : m.evaluate f a = m.evaluate f a' := by
  have hkeys : f.freeVariables.all (Table.hasKey a) = f.freeVariables.all (Table.hasKey a') := by
    rw [Bool.eq_iff_iff, List.all_eq_true, List.all_eq_true]
    exact forall₂_congr fun x hx => by rw [Table.hasKey, Table.hasKey, h x hx]
  have hvalue : m.formulaValue a f = m.formulaValue a' f :=
    formulaValue_congr hf fun x hx => h x (Formula.mem_freeVariables.2 hx)
  rw [evaluate, evaluate, hkeys, hvalue]

/-! ### Parts -/

theorem checkTerm_of_mem {name : String} {ts : List Term} {u : Unit} (hts : (Term.app name ts).WellFormed)
    (h : m.checkTerm a (.app name ts) = .ok u) : ∀ t ∈ ts, m.checkTerm a t = .ok () := by
  intro t ht
  rw [checkTerm_eq_ok] at h ⊢
  simp only [Term.constantLeaves, Term.functionNodes, Term.variableLeaves,
    Term.constantLeavesOf_eq_flatMap hts.args, Term.functionNodesOf_eq_flatMap hts.args,
    Term.variableLeavesOf_eq_flatMap hts.args, List.forall_mem_cons, List.mem_flatMap] at h
  exact ⟨fun c hc => h.1 c ⟨t, ht, hc⟩, fun e he => h.2.1.2 e ⟨t, ht, he⟩, fun x hx => h.2.2 x ⟨t, ht, hx⟩⟩

theorem checkTerm_of_equal {l r : Term} {u : Unit} (hf : (Formula.equal l r).WellFormed)
    (h : m.checkFormula a (.equal l r) = .ok u) : m.checkTerm a l = .ok () ∧ m.checkTerm a r = .ok () := by
  obtain ⟨hnames, hfree⟩ := (checkFormula_eq_ok hf).1 h
  have hconstants := hnames.constants
  have hfunctions := hnames.functions
  simp only [Formula.mem_constantNames_equal] at hconstants
  simp only [Formula.mem_functionNodes_equal] at hfunctions
  simp only [Formula.mem_freeNames_equal] at hfree
  rw [checkTerm_eq_ok, checkTerm_eq_ok]
  exact ⟨⟨fun c hc => hconstants c (.inl hc), fun e he => hfunctions e (.inl he), fun x hx => hfree x (.inl hx)⟩,
    fun c hc => hconstants c (.inr hc), fun e he => hfunctions e (.inr he), fun x hx => hfree x (.inr hx)⟩

theorem checkTerm_of_rel {name : String} {ts : List Term} {u : Unit} (hf : (Formula.rel name ts).WellFormed)
    (h : m.checkFormula a (.rel name ts) = .ok u) : ∀ t ∈ ts, m.checkTerm a t = .ok () := by
  obtain ⟨hnames, hfree⟩ := (checkFormula_eq_ok hf).1 h
  have hconstants := hnames.constants
  have hfunctions := hnames.functions
  simp only [Formula.mem_constantNames_rel] at hconstants
  simp only [Formula.mem_functionNodes_rel] at hfunctions
  simp only [Formula.freeNames_rel hf, List.mem_flatMap] at hfree
  intro t ht
  rw [checkTerm_eq_ok]
  exact ⟨fun c hc => hconstants c ⟨t, ht, hc⟩, fun e he => hfunctions e ⟨t, ht, he⟩,
    fun x hx => hfree x ⟨t, ht, hx⟩⟩

theorem checkFormula_of_neg {f : Formula} {u : Unit} (hf : (Formula.neg f).WellFormed)
    (h : m.checkFormula a (.neg f) = .ok u) : m.checkFormula a f = .ok () := by
  have hoperand : f.WellFormed := hf
  obtain ⟨hnames, hfree⟩ := (checkFormula_eq_ok hf).1 h
  exact (checkFormula_eq_ok hoperand).2 ⟨⟨hnames.constants, hnames.functions, hnames.relations⟩, hfree⟩

theorem checkFormula_of_bin {op : Connective} {l r : Formula} {u : Unit}
    (hf : (Formula.bin op l r).WellFormed) (h : m.checkFormula a (.bin op l r) = .ok u) :
    m.checkFormula a l = .ok () ∧ m.checkFormula a r = .ok () := by
  obtain ⟨hnames, hfree⟩ := (checkFormula_eq_ok hf).1 h
  obtain ⟨hl, hr⟩ := interprets_bin.1 hnames
  simp only [Formula.freeNames_bin, List.mem_append] at hfree
  rw [checkFormula_eq_ok hf.1, checkFormula_eq_ok hf.2]
  exact ⟨⟨hl, fun x hx => hfree x (.inl hx)⟩, hr, fun x hx => hfree x (.inr hx)⟩

/-- The body of a quantification is checked with an element for the variable that may be free in it. -/
theorem checkFormula_of_quant {k : Quantifier} {x : String} {f : Formula} {u : Unit}
    (hf : (Formula.quant k x f).WellFormed) (h : m.checkFormula a (.quant k x f) = .ok u) (e : String) :
    m.checkFormula (Table.put a x e) f = .ok () := by
  obtain ⟨hnames, hfree⟩ := (checkFormula_eq_ok hf).1 h
  refine (checkFormula_eq_ok hf.2).2 ⟨⟨hnames.constants, hnames.functions, hnames.relations⟩, fun y hy => ?_⟩
  rw [Table.hasKey_put]
  by_cases hxy : x = y
  · exact .inl hxy
  · exact .inr (hfree y (Formula.mem_freeNames_quant.2 ⟨hy, Ne.symm hxy⟩))

/-! ## Evaluation that checks every part -/

mutual

/-- The value of a term, where every part is checked before it is looked up. -/
def checkedTermValue (m : Model) (a : Assignment) : Term → Outcome String
  | .const name => do
    m.checkTerm a (.const name)
    Failure.unknownKey.orElse (Table.find? m.constants name)
  | .var name => do
    m.checkTerm a (.var name)
    Failure.unknownKey.orElse (Table.find? a name)
  | .app name ts => do
    m.checkTerm a (.app name ts)
    let values ← m.checkedTermValues a ts
    let table ← Failure.unknownKey.orElse (Table.find? m.functions name)
    Failure.unknownKey.orElse (Table.find? table values)
  | .missing => .error .absent

/-- The values of terms, where every part is checked before it is looked up. -/
def checkedTermValues (m : Model) (a : Assignment) : List Term → Outcome (List String)
  | [] => .ok []
  | t :: ts => do
    let v ← m.checkedTermValue a t
    return v :: (← m.checkedTermValues a ts)

end

/-- The truth value of a formula, where every part is checked before it is evaluated. -/
def checkedFormulaValue (m : Model) (a : Assignment) : Formula → Outcome Bool
  | .equal l r => do
    m.checkFormula a (.equal l r)
    let v ← m.checkedTermValue a l
    return decide (v = (← m.checkedTermValue a r))
  | .rel name ts => do
    m.checkFormula a (.rel name ts)
    let values ← m.checkedTermValues a ts
    let tuples ← Failure.unknownKey.orElse (Table.find? m.relations name)
    return tuples.contains values
  | .neg f => do
    m.checkFormula a (.neg f)
    return !(← m.checkedFormulaValue a f)
  | .bin op l r => do
    m.checkFormula a (.bin op l r)
    let v ← m.checkedFormulaValue a l
    return op.eval v (← m.checkedFormulaValue a r)
  | .quant .universal x f => do
    m.checkFormula a (.quant .universal x f)
    forEvery (fun e => m.checkedFormulaValue (Table.put a x e) f) m.domain
  | .quant .existential x f => do
    m.checkFormula a (.quant .existential x f)
    forSome (fun e => m.checkedFormulaValue (Table.put a x e) f) m.domain
  | .bare _ => .error .absent

theorem checkedTermValues_eq {ts : List Term} (h : ∀ t ∈ ts, m.checkedTermValue a t = m.termValue a t) :
    m.checkedTermValues a ts = m.termValues a ts := by
  induction ts with
  | nil => rfl
  | cons t ts ih =>
      obtain ⟨ht, hts⟩ := List.forall_mem_cons.1 h
      rw [checkedTermValues, termValues, ht, ih hts]

/-- A term whose parts are all checked evaluates as it does with one check. -/
theorem checkedTermValue_eq {t : Term} (ht : t.WellFormed) :
    m.checkedTermValue a t = m.evaluateTerm t a := by
  rw [evaluateTerm_eq_bind ht]
  induction t with
  | const c => rfl
  | var x => rfl
  | app name ts ih =>
      rw [checkedTermValue, termValue]
      cases hcheck : m.checkTerm a (.app name ts) with
      | error e => rfl
      | ok u =>
          have hargs : ∀ t ∈ ts, m.checkedTermValue a t = m.termValue a t := by
            intro t htmem
            rw [ih t htmem (ht.args t htmem), checkTerm_of_mem ht hcheck t htmem, ok_bind]
          rw [checkedTermValues_eq hargs]
  | missing => exact ht.elim

theorem checkedTermValue_of_checkTerm {t : Term} (ht : t.WellFormed) (h : m.checkTerm a t = .ok ()) :
    m.checkedTermValue a t = m.termValue a t := by
  rw [checkedTermValue_eq ht, evaluateTerm_eq_bind ht, h, ok_bind]

/-- A formula whose parts are all checked evaluates as it does with one check. -/
theorem checkedFormulaValue_eq {f : Formula} (hf : f.WellFormed) :
    m.checkedFormulaValue a f = m.evaluate f a := by
  rw [evaluate_eq_bind]
  induction f generalizing a with
  | equal l r =>
      rw [checkedFormulaValue, formulaValue]
      cases hcheck : m.checkFormula a (.equal l r) with
      | error e => rfl
      | ok u =>
          obtain ⟨hl, hr⟩ := checkTerm_of_equal hf hcheck
          rw [checkedTermValue_of_checkTerm hf.1 hl, checkedTermValue_of_checkTerm hf.2 hr]
  | rel name ts =>
      rw [checkedFormulaValue, formulaValue]
      cases hcheck : m.checkFormula a (.rel name ts) with
      | error e => rfl
      | ok u =>
          have hargs := checkTerm_of_rel hf hcheck
          rw [checkedTermValues_eq fun t ht => checkedTermValue_of_checkTerm (hf.2 t ht) (hargs t ht)]
  | neg f ih =>
      rw [checkedFormulaValue, formulaValue, ih hf]
      cases hcheck : m.checkFormula a (.neg f) with
      | error e => rfl
      | ok u =>
          rw [checkFormula_of_neg hf hcheck]
          rfl
  | bin op l r ihl ihr =>
      rw [checkedFormulaValue, formulaValue, ihl hf.1, ihr hf.2]
      cases hcheck : m.checkFormula a (.bin op l r) with
      | error e => rfl
      | ok u =>
          obtain ⟨hl, hr⟩ := checkFormula_of_bin hf hcheck
          rw [hl, hr]
          rfl
  | quant k x f ih =>
      cases hcheck : m.checkFormula a (.quant k x f) with
      | error e =>
          cases k with
          | universal =>
              rw [checkedFormulaValue, hcheck]
              rfl
          | existential =>
              rw [checkedFormulaValue, hcheck]
              rfl
      | ok u =>
          have hbody : (fun e => m.checkedFormulaValue (Table.put a x e) f) =
              fun e => m.formulaValue (Table.put a x e) f := by
            funext e
            rw [ih hf.2, checkFormula_of_quant hf hcheck e, ok_bind]
          cases k with
          | universal => rw [checkedFormulaValue, formulaValue, hcheck, hbody]
          | existential => rw [checkedFormulaValue, formulaValue, hcheck, hbody]
  | bare t => exact hf.elim

/-! ## Totality -/

/-- Where some variables have elements, an assignment of elements has the same entries for them. -/
theorem exists_assignment_of_elements {xs : List String}
    (ha : ∀ x ∈ xs, ∃ e ∈ m.domain, Table.find? a x = some e) :
    ∃ a₀ : Assignment, (∀ x ∈ xs, Table.find? a₀ x = Table.find? a x) ∧ ∀ e ∈ a₀, e.2 ∈ m.domain := by
  have hentry : ∀ x ∈ xs, Table.find? a x = some (m.valuation a x) ∧ m.valuation a x ∈ m.domain := by
    intro x hx
    obtain ⟨e, hmem, he⟩ := ha x hx
    rw [valuation, he]
    exact ⟨rfl, hmem⟩
  refine ⟨xs.map fun x => (x, m.valuation a x), fun x hx => ?_, ?_⟩
  · rw [find?_map_self hx, (hentry x hx).1]
  · exact List.forall_mem_map.2 fun x hx => (hentry x hx).2

/-- A term with meanings for its names and elements for its variables has a value, which is an element. -/
theorem exists_termValue (hm : m.WellFormed) {t : Term} (ht : t.WellFormed)
    (hconst : ∀ c ∈ t.constantLeaves, Table.hasKey m.constants c = true)
    (hfun : ∀ e ∈ t.functionNodes, m.functionArity? e.1 = some e.2)
    (ha : ∀ x ∈ t.variableLeaves, ∃ e ∈ m.domain, Table.find? a x = some e) :
    ∃ e ∈ m.domain, m.termValue a t = .ok e := by
  obtain ⟨a₀, hfind, helements⟩ := exists_assignment_of_elements ha
  have hvar : ∀ x ∈ t.variableLeaves, Table.hasKey a₀ x = true := by
    intro x hx
    obtain ⟨e, -, he⟩ := ha x hx
    rw [Table.hasKey, hfind x hx, he, Option.isSome_some]
  obtain ⟨hvalue, hmem⟩ := termValue_eq_ok hm helements ht hconst hfun hvar
  exact ⟨_, hmem, (termValue_congr ht fun x hx => (hfind x hx).symm).trans hvalue⟩

/-- In a model with meanings for the names of a formula, an assignment of elements to its free variables leads to
an answer, also if every part is checked anew. The answer is the truth value of the formula, and every assignment with
the same entries for the free variables leads to it. -/
theorem evaluate_total {m : Model} (hm : m.WellFormed) {f : Formula} (hf : f.WellFormed) (hnames : m.Interprets f)
    {a : Assignment} (ha : ∀ x ∈ f.freeVariables, ∃ e ∈ m.domain, Table.find? a x = some e) :
    ∃ b, m.evaluate f a = .ok b ∧ m.checkedFormulaValue a f = .ok b ∧
      (∀ v, (∀ x ∈ f.freeVariables, Table.find? a x = some (v x)) →
        (b = true ↔ f.IsTrue m.interpretation v)) ∧
      ∀ a', (∀ x ∈ f.freeVariables, Table.find? a' x = Table.find? a x) → m.evaluate f a' = .ok b := by
  obtain ⟨a₀, hfind, helements⟩ := exists_assignment_of_elements ha
  have hcovered : ∀ x ∈ f.freeVariables, Table.hasKey a₀ x = true := by
    intro x hx
    obtain ⟨e, -, he⟩ := ha x hx
    rw [Table.hasKey, hfind x hx, he, Option.isSome_some]
  have hvalue : m.evaluate f a = .ok (f.truth m.interpretation (m.valuation a₀)) := by
    rw [← evaluate_eq_ok hm helements hf ((checkNames_eq_ok hf).2 hnames) hcovered]
    exact evaluate_congr hf fun x hx => (hfind x hx).symm
  refine ⟨_, hvalue, (checkedFormulaValue_eq hf).trans hvalue, fun v hv => ?_, fun a' ha' => ?_⟩
  · have htruth : f.truth m.interpretation (m.valuation a₀) = f.truth m.interpretation v := by
      apply Formula.truth_congr hf rfl (fun _ _ => rfl) (fun _ _ => rfl) (fun _ _ => rfl)
      intro x hx
      have hx := Formula.mem_freeVariables.2 hx
      rw [valuation, hfind x hx, hv x hx, Option.getD_some]
    rw [htruth, Formula.truth_eq_true]
  · exact (evaluate_congr hf ha').trans hvalue

/-- A variable that is both free and bound, a function, a relation without tuples in two numbers of arguments, and
an entry that is no element. -/
theorem evaluate_total_free_and_bound :
    let m : Model := ⟨["0", "1"], [("a", "0")], [("Q", []), ("R", [["0", "1"]])],
      [("s", [(["0"], "1"), (["1"], "0")])]⟩
    let f : Formula := .conj (.rel "R" [.var "x", .app "s" [.var "x"]])
      (.forAll "x" (.imp (.disj (.rel "Q" [.var "x"]) (.rel "Q" [.var "x", .var "y"]))
        (.equal (.var "x") (.const "a"))))
    m.WellFormed ∧ f.freeVariables = ["x", "y"] ∧
      ∃ b, m.evaluate f [("x", "0"), ("y", "1"), ("w", "outside")] = .ok b ∧
        m.checkedFormulaValue [("x", "0"), ("y", "1"), ("w", "outside")] f = .ok b ∧
          m.evaluate f [("y", "1"), ("x", "0")] = .ok b ∧
            (b = true ↔ f.IsTrue m.interpretation fun x => if x = "x" then "0" else "1") := by
  intro m f
  have hm : m.WellFormed := ⟨by cbv, by decide⟩
  have hf : f.WellFormed := by decide
  have hfree : f.freeVariables = ["x", "y"] := by cbv
  have hnames : m.Interprets f := (checkNames_eq_ok hf).1 (by cbv)
  have ha : ∀ x ∈ f.freeVariables,
      ∃ e ∈ m.domain, Table.find? [("x", "0"), ("y", "1"), ("w", "outside")] x = some e := by
    rw [hfree]
    decide
  obtain ⟨b, hb, hchecked, htrue, hagree⟩ := evaluate_total hm hf hnames ha
  refine ⟨hm, hfree, b, hb, hchecked, hagree _ ?_, htrue _ ?_⟩
  · rw [hfree]
    decide
  · rw [hfree]
    decide

end Model

end FormalLogic.Predicate
