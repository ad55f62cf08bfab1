import FormalLogic.Proofs.Propositional.Decision
import FormalLogic.Proofs.Propositional.IndirectProof

/-!
# Every tautology is proved

The prover turns a tautology in implication and negation into a proof of it. Two inductions show that
it always succeeds. By induction over the formula, from the literals of a valuation a formula is
proved where it is true, and its negation where it is false (`Formula.exists_proveIn`). By induction
over the variables left open, the proofs from either value of a variable are merged into one that does
not depend on it (`Formula.exists_proveByCases`).

All proofs on the way are by the basic rules (`Proof.Basic`), so the merging steps, which demand equal
rules and assumptions, never fail.
-/

namespace FormalLogic.Propositional

open Formula Axioms

/-! ## The formulas that the prover knows -/

/-- Whether a formula is built from variables by negation and implication. -/
def Formula.IsImplicational : Formula → Prop
  | var x => isVariable x = true
  | const _ => False
  | neg f => f.IsImplicational
  | bin op l r => op = .implies ∧ l.IsImplicational ∧ r.IsImplicational
  | missing => False

theorem Formula.IsImplicational.isMissing_eq_false {f : Formula} (hf : f.IsImplicational) :
    f.isMissing = false := by
  cases f with
  | missing => exact hf.elim
  | _ => rfl

/-- The prover lets pass exactly these of the well-formed formulas. -/
theorem Formula.isImplicational_iff {f : Formula} :
    f.IsImplicational ↔ f.WellFormed Connective.all ∧ f.operatorSymbols ⊆ provableOperators := by
  induction f with
  | var x => simp [IsImplicational, WellFormed, operatorSymbols]
  | const b => cases b <;> simp [IsImplicational, operatorSymbols, constText, provableOperators]
  | neg f ih => simp [IsImplicational, WellFormed, operatorSymbols, ih, provableOperators]
  | bin op l r ihl ihr =>
      have hop : op.symbol ∈ provableOperators ↔ op = .implies := by
        cases op <;> decide
      simp only [IsImplicational, WellFormed, operatorSymbols, ihl, ihr, List.append_subset,
        List.cons_subset, hop]
      constructor
      · rintro ⟨rfl, ⟨hl, hlops⟩, hr, hrops⟩
        exact ⟨⟨by decide, hl, hr⟩, hlops, rfl, hrops⟩
      · rintro ⟨⟨-, hl, hr⟩, hlops, rfl, hrops⟩
        exact ⟨rfl, ⟨hl, hlops⟩, hr, hrops⟩
  | missing => simp [IsImplicational, WellFormed]

theorem Formula.IsImplicational.requireProvable_eq_ok {f : Formula} (hf : f.IsImplicational) :
    f.requireProvable = .ok () := by
  rw [requireProvable, given_eq_self hf.isMissing_eq_false, ok_bind, require_eq_ok, subset_eq_true]
  intro x hx
  exact (isImplicational_iff.1 hf).2 (mem_operators.1 hx)

/-! ## Literals of a valuation -/

/-- A formula where it is true, its negation where it is false. -/
def Formula.signed (m : Valuation) (f : Formula) : Formula :=
  if f.eval m.value then f else neg f

theorem Formula.signed_of_true {m : Valuation} {f : Formula} (h : f.eval m.value = true) :
    f.signed m = f :=
  if_pos h

theorem Formula.signed_of_false {m : Valuation} {f : Formula} (h : f.eval m.value = false) :
    f.signed m = neg f :=
  if_neg (by simp [h])

theorem Formula.isMissing_signed {m : Valuation} {f : Formula} (hf : f.isMissing = false) :
    (f.signed m).isMissing = false := by
  rw [signed]
  split
  · exact hf
  · rfl

namespace Valuation

theorem mem_formulas {m : Valuation} {x : String} (hx : x ∈ Table.keys m) :
    (var x).signed m ∈ m.formulas :=
  List.mem_map.2 ⟨x, mem_sortedSet.2 hx, rfl⟩

theorem value_concat_of_mem {m : Valuation} {x y : String} (b : Bool) (hy : y ∈ Table.keys m) :
    value (m ++ [(x, b)]) y = m.value y := by
  obtain ⟨c, hc⟩ := Option.isSome_iff_exists.1 (Table.find?_isSome.2 hy)
  rw [value, value, Table.find?_append, hc, Option.some_or]

theorem value_concat_self {m : Valuation} {x : String} (b : Bool) (hx : x ∉ Table.keys m) :
    value (m ++ [(x, b)]) x = b := by
  have hnone : Table.find? m x = none := by
    rw [← Option.not_isSome_iff_eq_none, Table.find?_isSome]
    exact hx
  simp [value, Table.find?_append, hnone]

theorem sortedSet_keys_concat {m : Valuation} {x : String} (b : Bool)
    (hx : (sortedSet (Table.keys m) ++ [x]).Pairwise (· < ·)) :
    sortedSet (Table.keys (m ++ [(x, b)])) = sortedSet (Table.keys m) ++ [x] := by
  refine sortedSet_eq hx fun y => ?_
  simp [Table.keys, mem_sortedSet]

/-- Giving a value to a variable behind all others adds a literal behind all others. -/
theorem formulas_concat {m : Valuation} {x : String} (b : Bool)
    (hx : (sortedSet (Table.keys m) ++ [x]).Pairwise (· < ·)) :
    (m ++ [(x, b)]).formulas = m.formulas ++ [if b then var x else neg (var x)] := by
  have hnew : x ∉ Table.keys m := by
    intro hmem
    have hlt := (List.pairwise_append.1 hx).2.2 x (mem_sortedSet.2 hmem) x List.mem_cons_self
    exact lt_irrefl x hlt
  rw [formulas, sortedSet_keys_concat b hx, List.map_append, List.map_singleton,
    value_concat_self b hnew, formulas]
  congr 1
  refine List.map_congr_left fun y hy => ?_
  rw [value_concat_of_mem b (mem_sortedSet.1 hy)]

end Valuation

/-! ## Proofs by the basic rules -/

theorem eraseDups_basic : basic.eraseDups = basic := by decide

theorem addRules_of_subset {rules more : List InferenceRule} (h : more ⊆ rules) :
    addRules rules more = rules := by
  have hnone : (more.filter fun r => !rules.contains r) = [] := by
    rw [List.filter_eq_nil_iff]
    intro r hr
    simp [h hr]
  rw [addRules, hnone, List.append_nil]

namespace Proof

/-- A proof that derives the conclusion from the assumptions by the basic rules. -/
structure Basic (pf : Proof) (assumptions : List Formula) (conclusion : Formula) : Prop
    extends pf.Establishes assumptions conclusion where
  rules_eq : pf.rules = basic

section Basic

variable {pf pf' : Proof} {as : List Formula} {a b c : Formula} {r : InferenceRule}

theorem Basic.mem_rules (h : pf.Basic as a) (hr : r ∈ basic) : r ∈ pf.rules :=
  h.rules_eq ▸ hr

theorem Basic.sameSet_rules (h : pf.Basic as a) {bs : List Formula} (h' : pf'.Basic bs b) :
    sameSet pf.rules pf'.rules = true := by
  rw [h.rules_eq, h'.rules_eq]
  decide

theorem Basic.eraseDups_rules (h : pf.Basic as a) (hr : r ∈ basic) :
    (pf.rules ++ [r]).eraseDups = basic := by
  rw [h.rules_eq, eraseDups_append_of_subset (by simpa using hr), eraseDups_basic]

theorem Basic.corollary (h : pf.Basic as a) (hb : b.isMissing = false) (hr : r ∈ basic)
    (hspec : (schema (imp a b)).isSpecializationOf r = .ok true) :
    ∃ q, pf.corollary b r = .ok q ∧ q.Basic as b := by
  have hMP := h.mem_rules (r := MP) (by decide)
  obtain ⟨q, hq, hestablishes, hrules⟩ := h.toEstablishes.corollary hMP hb hspec
  exact ⟨q, hq, hestablishes, hrules.trans (h.eraseDups_rules hr)⟩

theorem Basic.combine (h : pf.Basic as a) (h' : pf'.Basic as b) (hc : c.isMissing = false)
    (hr : r ∈ basic) (hspec : (schema (imp a (imp b c))).isSpecializationOf r = .ok true) :
    ∃ q, pf.combine pf' c r = .ok q ∧ q.Basic as c := by
  have hMP := h.mem_rules (r := MP) (by decide)
  obtain ⟨q, hq, hestablishes, hrules⟩ :=
    h.toEstablishes.combine h'.toEstablishes (h.sameSet_rules h') hMP hc hspec
  exact ⟨q, hq, hestablishes, hrules.trans (h.eraseDups_rules hr)⟩

/-- Proofs from `a` and from its negation are merged into one that needs neither. -/
theorem Basic.reduceAssumption (h : pf.Basic (as ++ [a]) c) (h' : pf'.Basic (as ++ [neg a]) c)
    (ha : a.isMissing = false) : ∃ q, pf.reduceAssumption pf' = .ok q ∧ q.Basic as c := by
  have haxioms : ∀ r ∈ pf.rules, r = MP ∨ r.isMissing = false ∧ r.assumptions = [] := by
    rw [h.rules_eq]
    decide
  obtain ⟨q, hq, hestablishes, hrules⟩ :=
    h.toEstablishes.reduceAssumption h'.toEstablishes ha (h.sameSet_rules h') haxioms
  refine ⟨q, hq, hestablishes, ?_⟩
  rw [hrules, h.rules_eq, addRules_of_subset (by decide), eraseDups_basic]

/-- An assumption is proved by itself. -/
theorem basic_ofValuation {m : Valuation} {f : Formula} (hf : f ∈ m.formulas)
    (hpresent : f.isMissing = false) : (ofValuation m f).Basic m.formulas f := by
  have hline : Derivation m.formulas basic [.assumed f] :=
    derivation_concat.2 ⟨derivation_nil, follows_assumed hf hpresent⟩
  exact ⟨establishes_make hline (by simp [Shows]), eraseDups_basic⟩

/-- From a formula or its negation results the negation or the double negation. -/
theorem Basic.denied {m : Valuation} {f : Formula} (h : pf.Basic as (f.signed m))
    (hf : f.isMissing = false) (hm : f.leafVariables ⊆ Table.keys m) :
    ∃ q, pf.denied f m = .ok q ∧ q.Basic as ((neg f).signed m) := by
  rw [Proof.denied, evaluate_of_subset hf hm, ok_bind]
  cases heval : f.eval m.value with
  | true =>
      rw [signed_of_true heval] at h
      rw [signed_of_false (by simp [eval, heval]), if_pos rfl]
      exact h.corollary rfl (by decide) (isSpecializationOf_schema (imp p (neg (neg p))) f f f)
  | false =>
      rw [signed_of_false heval] at h
      rw [signed_of_true (by simp [eval, heval]), if_neg Bool.false_ne_true]
      exact ⟨pf, rfl, h⟩

end Basic

end Proof

/-! ## Proofs from a valuation -/

/-- From the literals of a valuation a formula is proved where it is true, and its negation where it is
false. -/
theorem Formula.exists_proveIn {m : Valuation} {f : Formula} (hf : f.IsImplicational)
    (hm : f.leafVariables ⊆ Table.keys m) :
    ∃ pf, f.proveIn m = .ok pf ∧ pf.Basic m.formulas (f.signed m) := by
  induction f with
  | var x =>
      have hbasic := Proof.basic_ofValuation (Valuation.mem_formulas (hm List.mem_cons_self))
        (isMissing_signed (f := var x) rfl)
      refine ⟨_, ?_, hbasic⟩
      rw [proveIn, evaluate_of_subset rfl hm, ok_bind, signed]
      split
      · rfl
      · rfl
  | const b => exact hf.elim
  | missing => exact hf.elim
  | neg f ih =>
      have hf' : f.IsImplicational := hf
      obtain ⟨pf, hpf, hbasic⟩ := ih hf' hm
      rw [proveIn, hpf, ok_bind]
      exact hbasic.denied hf'.isMissing_eq_false hm
  | bin op l r ihl ihr =>
      obtain ⟨rfl, hl, hr⟩ := hf
      obtain ⟨hml, hmr⟩ := List.append_subset.1 hm
      obtain ⟨pfl, hpfl, hbl⟩ := ihl hl hml
      obtain ⟨pfr, hpfr, hbr⟩ := ihr hr hmr
      rw [proveIn, evaluate_of_subset rfl hm, ok_bind, evaluate_of_subset hl.isMissing_eq_false hml,
        hpfl, hpfr]
      cases hleft : l.eval m.value with
      | false =>
          -- what is false implies everything
          have heval : (imp l r).eval m.value = true := by simp [eval, Connective.eval, hleft]
          obtain ⟨denied, hdenied, hbasic⟩ := hbl.denied hl.isMissing_eq_false hml
          rw [signed_of_true (by simp [eval, hleft])] at hbasic
          rw [heval, if_pos rfl, ok_bind, if_neg Bool.false_ne_true, ok_bind, hdenied, ok_bind,
            signed_of_true heval]
          exact hbasic.corollary rfl (by decide)
            (isSpecializationOf_schema (imp (neg p) (imp p q)) l r l)
      | true =>
          rw [signed_of_true hleft] at hbl
          cases hright : r.eval m.value with
          | true =>
              -- what is true is implied by everything
              have heval : (imp l r).eval m.value = true := by simp [eval, Connective.eval, hright]
              rw [signed_of_true hright] at hbr
              rw [heval, if_pos rfl, ok_bind, if_pos rfl, ok_bind, signed_of_true heval]
              exact hbr.corollary rfl (by decide)
                (isSpecializationOf_schema (imp q (imp p q)) l r l)
          | false =>
              -- what is true does not imply what is false
              have heval : (imp l r).eval m.value = false := by
                simp [eval, Connective.eval, hleft, hright]
              obtain ⟨denied, hdenied, hbasic⟩ := hbr.denied hr.isMissing_eq_false hmr
              rw [signed_of_true (by simp [eval, hright])] at hbasic
              rw [heval, if_neg Bool.false_ne_true, ok_bind, ok_bind, hdenied, ok_bind,
                signed_of_false heval]
              exact hbl.combine hbasic rfl (by decide)
                (isSpecializationOf_schema (imp p (imp (neg q) (neg (imp p q)))) l r l)

/-! ## Elimination of variables -/

/-- A tautology is proved from a valuation by cases on the variables behind those that have a value. -/
theorem Formula.exists_proveByCases {f : Formula} (hf : f.IsImplicational)
    (htrue : ∀ v, f.eval v = true) {m : Valuation} {xs : List String}
    (hvars : f.leafVariables ⊆ Table.keys m ++ xs)
    (hxs : (sortedSet (Table.keys m) ++ xs).Pairwise (· < ·)) :
    ∃ pf, f.proveByCases m xs = .ok pf ∧ pf.Basic m.formulas f := by
  induction xs generalizing m with
  | nil =>
      rw [List.append_nil] at hvars
      obtain ⟨pf, hpf, hbasic⟩ := exists_proveIn hf hvars
      rw [signed_of_true (htrue m.value)] at hbasic
      exact ⟨pf, hpf, hbasic⟩
  | cons x xs ih =>
      rw [List.append_cons] at hxs
      have hx := (List.pairwise_append.1 hxs).1
      have hcases : ∀ b, ∃ pf, f.proveByCases (m ++ [(x, b)]) xs = .ok pf ∧
          pf.Basic (m.formulas ++ [if b then var x else neg (var x)]) f := by
        intro b
        rw [← Valuation.formulas_concat b hx]
        refine ih ?_ ?_
        · simpa [Table.keys] using hvars
        · rw [Valuation.sortedSet_keys_concat b hx]
          exact hxs
      obtain ⟨affirmation, haffirmation, htrue⟩ := hcases true
      obtain ⟨negation, hnegation, hfalse⟩ := hcases false
      rw [proveByCases, haffirmation, ok_bind, hnegation, ok_bind]
      exact htrue.reduceAssumption hfalse rfl

/-! ## The tautology theorem -/

/-- The tautology theorem. For a tautology in implication and negation, and a valuation of its first
variables, the prover answers with a proof that the checker accepts. It is a proof of the formula from
the literals of the valuation by the nine basic rules. -/
theorem Formula.proveTautologyFrom_isValid {f : Formula} (hf : f.IsImplicational)
    (htautology : f.isTautology = true) {m : Valuation}
    (hm : ∀ x, x ∈ Table.keys m ↔ x ∈ f.vars.take m.length) :
    ∃ pf, f.proveTautologyFrom (m.map fun e => (e.1, .truth e.2)) = .ok pf ∧
      pf.isValid = .ok true ∧ pf.statement = .rule m.formulas f ∧ pf.rules = basic := by
  have hsorted : f.vars.Pairwise (· < ·) := pairwise_sortedSet _
  have hkeys : sortedSet (Table.keys m) = f.vars.take m.length :=
    sortedSet_eq (hsorted.sublist (List.take_sublist _ _)) hm
  have hvariables : ∀ x ∈ Table.keys m, isVariable x = true := by
    intro x hx
    exact (isImplicational_iff.1 hf).1.isVariable x
      (mem_vars.1 (List.mem_of_mem_take ((hm x).1 hx)))
  have hvars : f.leafVariables ⊆ Table.keys m ++ f.vars.drop m.length := by
    intro x hx
    rw [← mem_vars, ← List.take_append_drop m.length f.vars, List.mem_append, ← hm] at hx
    exact List.mem_append.2 hx
  have hxs : (sortedSet (Table.keys m) ++ f.vars.drop m.length).Pairwise (· < ·) := by
    rw [hkeys, List.take_append_drop]
    exact hsorted
  obtain ⟨pf, hpf, hbasic⟩ :=
    exists_proveByCases hf (isTautology_iff.1 htautology) hvars hxs
  refine ⟨pf, ?_, hbasic.isValid, hbasic.statement_eq, hbasic.rules_eq⟩
  rw [proveTautologyFrom, given_eq_self hf.isMissing_eq_false, ok_bind, htautology, require_true,
    ok_bind, hf.requireProvable_eq_ok, ok_bind, Mark.toValuation_map_truth hvariables, ok_bind,
    hkeys, decide_eq_true rfl, require_true, ok_bind, hpf]

/-- Peirce's law is proved from the falsity of `p`. -/
theorem Formula.proveTautologyFrom_isValid_peirce :
    let f := imp (imp (imp p q) p) p
    f.isTautology = true ∧ ∃ pf, f.proveTautologyFrom [("p", .truth false)] = .ok pf ∧
      pf.isValid = .ok true ∧ pf.statement = .rule [neg p] f ∧ pf.rules = basic := by
  intro f
  have htautology : f.isTautology = true := by
    rw [isTautology_iff]
    intro v
    cases hp : v "p" <;> cases hq : v "q" <;> simp [f, eval, Connective.eval, hp, hq]
  have hp : isVariable "p" = true := by decide
  have hq : isVariable "q" = true := by decide
  have hf : f.IsImplicational := ⟨rfl, ⟨rfl, ⟨rfl, hp, hq⟩, hp⟩, hp⟩
  have hvars : f.vars = ["p", "q"] := by
    refine sortedSet_eq (by decide) fun x => ?_
    simp only [f, leafVariables, List.mem_append, List.mem_cons, List.not_mem_nil]
    grind
  have hformulas : Valuation.formulas [("p", false)] = [neg p] := by
    have hkeys : sortedSet (Table.keys [("p", false)]) = ["p"] :=
      sortedSet_eq (by decide) (by simp [Table.keys])
    rw [Valuation.formulas, hkeys]
    rfl
  rw [← hformulas]
  refine ⟨htautology, proveTautologyFrom_isValid (m := [("p", false)]) hf htautology ?_⟩
  rw [hvars]
  simp [Table.keys]

/-! ## The formula or its negation -/

/-- In a valuation of at least its variables, a formula in implication and negation is proved if it is true
there, and its negation if it is false: the prover answers with a proof that the checker accepts, from the
literals of the valuation by the nine basic rules. -/
theorem Formula.proveInModel_isValid {f : Formula} (hf : f.IsImplicational) {m : Valuation}
    (hkeys : ∀ x ∈ Table.keys m, isVariable x = true) (hvars : f.leafVariables ⊆ Table.keys m) :
    ∃ value pf, f.evaluate m = .ok value ∧
      f.proveInModel (m.map fun e => (e.1, .truth e.2)) = .ok pf ∧ pf.isValid = .ok true ∧
      pf.statement = .rule m.formulas (if value then f else neg f) ∧ pf.rules = basic := by
  obtain ⟨pf, hpf, hbasic⟩ := exists_proveIn hf hvars
  refine ⟨f.eval m.value, pf, evaluate_of_subset hf.isMissing_eq_false hvars, ?_, hbasic.isValid,
    hbasic.statement_eq, hbasic.rules_eq⟩
  rw [proveInModel, hf.requireProvable_eq_ok, ok_bind, Mark.toValuation_map_truth hkeys, ok_bind, hpf]

/-- A false implication, in a valuation that is not in order and has one variable more. -/
theorem Formula.proveInModel_isValid_false :
    let f := imp (neg p) q
    let m : Valuation := [("q", false), ("r", true), ("p", false)]
    f.evaluate m = .ok false ∧ ∃ pf, f.proveInModel (m.map fun e => (e.1, .truth e.2)) = .ok pf ∧
      pf.isValid = .ok true ∧ pf.statement = .rule [neg p, neg q, r] (neg f) ∧ pf.rules = basic := by
  intro f m
  have hp : isVariable "p" = true := by decide
  have hq : isVariable "q" = true := by decide
  have hkeys : ∀ x ∈ Table.keys m, isVariable x = true := by
    simp only [m, Table.keys, List.map_cons, List.map_nil, List.forall_mem_cons]
    exact ⟨hq, by decide, hp, by simp⟩
  have hvars : f.leafVariables ⊆ Table.keys m := by
    simp [f, m, leafVariables, Table.keys]
  have hformulas : m.formulas = [neg p, neg q, r] := by
    have hsorted : sortedSet (Table.keys m) = ["p", "q", "r"] := by
      refine sortedSet_eq (by decide) fun x => ?_
      simp only [m, Table.keys, List.map_cons, List.map_nil, List.mem_cons, List.not_mem_nil]
      grind
    rw [Valuation.formulas, hsorted]
    rfl
  have heval : f.evaluate m = .ok false := evaluate_of_subset rfl hvars
  obtain ⟨value, pf, hvalue, hrun, hvalid, hstatement, hrules⟩ :=
    proveInModel_isValid (f := f) ⟨rfl, hp, hq⟩ hkeys hvars
  obtain rfl : value = false := Except.ok.inj (hvalue.symm.trans heval)
  rw [hformulas] at hstatement
  exact ⟨heval, pf, hrun, hvalid, hstatement, hrules⟩

end FormalLogic.Propositional
