import FormalLogic.Propositional.Deduction
import FormalLogic.Proofs.Table
import FormalLogic.Proofs.Propositional.Derivation

/-!
# Proofs from proofs establish what they should

A proof that establishes `a` is turned into one of `b` by an axiom and modus ponens
(`Derivation.detach`), and two proofs are combined by an axiom and modus ponens twice
(`Derivation.detachTwice`). The deduction theorem goes through the lines of a proof; what it keeps is
that every line so far stands behind the implication from the assumption (`Discharged`).
-/

namespace FormalLogic.Propositional

open Formula Axioms

/-! ## Instances of axioms -/

/-- Puts formulas in the places of `p`, `q` and `r`. -/
def inPlaces (f g h : Formula) (x : String) : Formula :=
  if x = "p" then f else if x = "q" then g else h

/-- Every instance of an axiom is a specialization of it. -/
theorem isSpecializationOf_schema (φ f g h : Formula) :
    (schema (φ.subst (inPlaces f g h))).isSpecializationOf (schema φ) = .ok true :=
  InferenceRule.isSpecializationOf_subst rfl fun hne => absurd rfl hne

/-! ## Detachment -/

section Detachment

variable {as : List Formula} {rules : List InferenceRule} {lines : List Line}

/-- An implication that holds by a rule, and what it implies. -/
theorem Derivation.detach (h : Derivation as rules lines) (hMP : MP ∈ rules) {r : InferenceRule}
    (hr : r ∈ rules) {i : Nat} {f g : Formula} (hf : Shows lines i f) (hg : g.isMissing = false)
    (hspec : (schema (imp f g)).isSpecializationOf r = .ok true) :
    Derivation as rules
      (lines ++ [.inferred (imp f g) r [], .inferred g MP [(i : Int), (lines.length : Int)]]) := by
  have himp : Derivation as rules (lines ++ [.inferred (imp f g) r []]) :=
    derivation_concat.2 ⟨h, follows_schema hr rfl hspec⟩
  rw [List.append_cons]
  refine derivation_concat.2 ⟨himp, ?_⟩
  exact follows_modusPonens hMP (hf.append _) (shows_length_concat lines _) (h.present hf) hg

/-- An implication with two antecedents that holds by a rule, and what it implies. -/
theorem Derivation.detachTwice (h : Derivation as rules lines) (hMP : MP ∈ rules)
    {r : InferenceRule} (hr : r ∈ rules) {i j : Nat} {f g c : Formula} (hf : Shows lines i f)
    (hg : Shows lines j g) (hc : c.isMissing = false)
    (hspec : (schema (imp f (imp g c))).isSpecializationOf r = .ok true) :
    Derivation as rules
      (lines ++ [.inferred (imp f (imp g c)) r [],
        .inferred (imp g c) MP [(i : Int), (lines.length : Int)],
        .inferred c MP [(j : Int), (lines.length : Int) + 1]]) := by
  have hfirst := h.detach hMP hr hf rfl hspec
  rw [show ∀ l₁ l₂ l₃ : Line, lines ++ [l₁, l₂, l₃] = (lines ++ [l₁, l₂]) ++ [l₃] by simp]
  refine derivation_concat.2 ⟨hfirst, ?_⟩
  have hsecond : Shows (lines ++ [.inferred (imp f (imp g c)) r [],
      .inferred (imp g c) MP [(i : Int), (lines.length : Int)]]) (lines.length + 1) (imp g c) := by
    simp [Shows]
  exact follows_modusPonens hMP (hg.append _) hsecond (h.present hg) hc

end Detachment

namespace Proof

/-! ## Checks -/

theorem requireValid_eq_ok {pf : Proof} {u : Unit} :
    pf.requireValid = .ok u ↔ pf.isValid = .ok true := by
  rw [requireValid, bind_eq_ok]
  simp

theorem requirePresent_eq_ok {fs : List Formula} {u : Unit} :
    requirePresent fs = .ok u ↔ ∀ f ∈ fs, f.isMissing = false := by
  simp [requirePresent]

theorem requireSameContext_eq_ok {pf pf' : Proof} {u : Unit} :
    requireSameContext pf pf' = .ok u ↔
      pf.statement.assumptions = pf'.statement.assumptions ∧ sameSet pf.rules pf'.rules = true := by
  rw [requireSameContext, bind_eq_ok]
  simp

/-- The rules of a proof are axioms, next to modus ponens. -/
theorem requireAxioms_eq_ok {pf : Proof} {u : Unit} :
    pf.requireAxioms = .ok u ↔
      ∀ r ∈ pf.rules, r = MP ∨ r.isMissing = false ∧ r.assumptions = [] := by
  rw [requireAxioms, forM_eq_ok]
  refine forall₂_congr fun r _ => ?_
  by_cases hr : r = MP
  · simp [hr]
  · simp [hr, bind_eq_ok, InferenceRule.given_eq_ok]

/-! ## Consequences -/

theorem implication_eq_ok {pf : Proof} {b f : Formula} :
    pf.implication b = .ok f ↔ pf.isValid = .ok true ∧
      pf.statement.conclusion.isMissing = false ∧ b.isMissing = false ∧
      imp pf.statement.conclusion b = f := by
  simp [implication, bind_eq_ok, map_eq_ok, requireValid_eq_ok, requirePresent_eq_ok, and_assoc]

theorem jointImplication_eq_ok {pf pf' : Proof} {c f : Formula} :
    jointImplication pf pf' c = .ok f ↔ pf.isValid = .ok true ∧ pf'.isValid = .ok true ∧
      (pf.statement.assumptions = pf'.statement.assumptions ∧ sameSet pf.rules pf'.rules = true) ∧
      pf.statement.conclusion.isMissing = false ∧ pf'.statement.conclusion.isMissing = false ∧
      c.isMissing = false ∧ imp pf.statement.conclusion (imp pf'.statement.conclusion c) = f := by
  simp [jointImplication, bind_eq_ok, map_eq_ok, requireValid_eq_ok, requirePresent_eq_ok,
    requireSameContext_eq_ok, and_assoc]

theorem Establishes.lastAssumption {pf : Proof} {as : List Formula} {a c : Formula}
    (h : pf.Establishes (as ++ [a]) c) : pf.lastAssumption = .ok (as, a) := by
  rw [Proof.lastAssumption, h.statement_eq]
  simp [InferenceRule.assumptions]

/-- The position of the last line. -/
theorem Establishes.natCast_length_sub_one {pf : Proof} {as : List Formula} {c : Formula}
    (h : pf.Establishes as c) :
    ((pf.lines.length - 1 : Nat) : Int) = (pf.lines.length : Int) - 1 := by
  have := h.ends.lt_length
  omega

/-- A consequence is written behind the given proof: the implication by the rule, and modus ponens. -/
theorem Establishes.corollary_eq_ok {pf : Proof} {as : List Formula} {a b : Formula}
    {r : InferenceRule} (h : pf.Establishes as a) (hb : b.isMissing = false)
    (hspec : (schema (imp a b)).isSpecializationOf r = .ok true) :
    pf.corollary b r = .ok (make (.rule as b) (pf.rules ++ [r])
      (pf.lines ++ [.inferred (imp a b) r [],
        .inferred b MP [((pf.lines.length - 1 : Nat) : Int), (pf.lines.length : Int)]])) := by
  have himp : pf.implication b = .ok (imp a b) := by
    rw [implication_eq_ok, h.statement_eq]
    exact ⟨h.isValid, h.present, hb, rfl⟩
  rw [Proof.corollary, himp, ok_bind, hspec, ok_bind, require_true, ok_bind, h.statement_eq,
    h.natCast_length_sub_one]
  rfl

/-- From a proof of `a` results one of `b`, if `a` implies `b` by the rule. -/
theorem Establishes.corollary {pf : Proof} {as : List Formula} {a b : Formula} {r : InferenceRule}
    (h : pf.Establishes as a) (hMP : MP ∈ pf.rules) (hb : b.isMissing = false)
    (hspec : (schema (imp a b)).isSpecializationOf r = .ok true) :
    ∃ q, pf.corollary b r = .ok q ∧ q.Establishes as b ∧ q.rules = (pf.rules ++ [r]).eraseDups := by
  have hlines : Derivation as (pf.rules ++ [r]) pf.lines :=
    h.derivation.mono (List.Subset.refl as) (List.subset_append_left _ _)
  have hdetached := hlines.detach (List.mem_append_left _ hMP) List.mem_concat_self h.ends hb hspec
  exact ⟨_, h.corollary_eq_ok hb hspec, establishes_make hdetached (by simp [Shows]), rfl⟩

/-- Two proofs from the same assumptions are put behind each other. -/
theorem Establishes.append {pf pf' : Proof} {as : List Formula} {a b : Formula}
    (h : pf.Establishes as a) (h' : pf'.Establishes as b)
    (hrules : sameSet pf.rules pf'.rules = true) :
    Derivation as pf.rules (pf.lines ++ pf'.lines.map (Line.shift pf.lines.length)) :=
  h.derivation.append (h'.derivation.mono (List.Subset.refl as) (sameSet_eq_true.1 hrules).2)

/-- Proofs are combined behind each other: the implication by the rule, and modus ponens twice, on the
last line of the first and of the second part. -/
theorem Establishes.combine_eq_ok {pf pf' : Proof} {as : List Formula} {a b c : Formula}
    {r : InferenceRule} (h : pf.Establishes as a) (h' : pf'.Establishes as b)
    (hrules : sameSet pf.rules pf'.rules = true) (hc : c.isMissing = false)
    (hspec : (schema (imp a (imp b c))).isSpecializationOf r = .ok true) :
    let lines := pf.lines ++ pf'.lines.map (Line.shift pf.lines.length)
    pf.combine pf' c r = .ok (make (.rule as c) (pf.rules ++ [r])
      (lines ++ [.inferred (imp a (imp b c)) r [],
        .inferred (imp b c) MP [((pf.lines.length - 1 : Nat) : Int), (lines.length : Int)],
        .inferred c MP
          [((pf.lines.length + (pf'.lines.length - 1) : Nat) : Int), (lines.length : Int) + 1]])) := by
  intro lines
  have himp : jointImplication pf pf' c = .ok (imp a (imp b c)) := by
    rw [jointImplication_eq_ok, h.statement_eq, h'.statement_eq]
    exact ⟨h.isValid, h'.isValid, ⟨rfl, hrules⟩, h.present, h'.present, hc, rfl⟩
  have hlength : (lines.length : Int) = pf.lines.length + pf'.lines.length := by
    rw [List.length_append, List.length_map, Int.natCast_add]
  rw [Proof.combine, himp, ok_bind, hspec, ok_bind, require_true, ok_bind, h.statement_eq,
    h'.statement_eq, h.natCast_length_sub_one, Int.natCast_add, h'.natCast_length_sub_one,
    ← Int.add_sub_assoc, hlength]
  rfl

/-- From proofs of `a` and `b` results one of `c`, if `a` and then `b` imply `c` by the rule. -/
theorem Establishes.combine {pf pf' : Proof} {as : List Formula} {a b c : Formula}
    {r : InferenceRule} (h : pf.Establishes as a) (h' : pf'.Establishes as b)
    (hrules : sameSet pf.rules pf'.rules = true) (hMP : MP ∈ pf.rules) (hc : c.isMissing = false)
    (hspec : (schema (imp a (imp b c))).isSpecializationOf r = .ok true) :
    ∃ q, pf.combine pf' c r = .ok q ∧ q.Establishes as c ∧
      q.rules = (pf.rules ++ [r]).eraseDups := by
  have hlines : Derivation as (pf.rules ++ [r])
      (pf.lines ++ pf'.lines.map (Line.shift pf.lines.length)) :=
    (h.append h' hrules).mono (List.Subset.refl as) (List.subset_append_left _ _)
  have hdetached := hlines.detachTwice (List.mem_append_left _ hMP) List.mem_concat_self
    (h.ends.append _) (h'.ends.shift pf.lines _) hc hspec
  exact ⟨_, h.combine_eq_ok h' hrules hc hspec, establishes_make hdetached (by simp [Shows]), rfl⟩

/-! ## The deduction theorem -/

/-- What is kept when the assumption `a` is discharged line by line: the lines written so far are a
derivation without it, and every line of the given proof so far stands there behind the implication
from `a`, the last one on the last line. -/
structure Discharged (a : Formula) (as : List Formula) (rules : List InferenceRule)
    (done : List Line) (d : Discharge) : Prop where
  derivation : Derivation as rules d.lines
  length_places : d.places.length = done.length
  placed : ∀ k f, Shows done k f → ∃ n : Nat, d.places[k]? = some (n : Int) ∧ Shows d.lines n (imp a f)
  ends : ∀ f, Shows done (done.length - 1) f → Shows d.lines (d.lines.length - 1) (imp a f)

section Discharge

variable {a : Formula} {as : List Formula} {rules rules' : List InferenceRule}
variable {done : List Line} {d : Discharge} {l : Line}

theorem discharged_nil : Discharged a as rules [] {} := by
  refine ⟨derivation_nil, rfl, ?_, ?_⟩
  · intro k f hk
    simp [Shows] at hk
  · intro f hf
    simp [Shows] at hf

/-- Further lines that end in the implication from `a` to the next line discharge it there. -/
theorem Discharged.append (h : Discharged a as rules done d) {more : List Line}
    (hmore : Derivation as rules (d.lines ++ more))
    (hlast : more.getLast?.map Line.formula = some (imp a l.formula)) :
    Discharged a as rules (done ++ [l]) (d.append more) := by
  obtain ⟨hpos, hgoal⟩ := shows_append_getLast d.lines hlast
  refine ⟨hmore, ?_, ?_, ?_⟩
  · simp [Discharge.append, h.length_places]
  · intro k f hk
    rcases shows_concat.1 hk with hk | ⟨rfl, rfl⟩
    · obtain ⟨n, hn, hf⟩ := h.placed k f hk
      refine ⟨n, ?_, hf.append more⟩
      have hlt : k < d.places.length := (List.getElem?_eq_some_iff.1 hn).1
      rw [Discharge.append, List.getElem?_append_left hlt, hn]
    · refine ⟨d.lines.length + more.length - 1, ?_, hgoal⟩
      rw [Discharge.append, ← h.length_places, List.getElem?_concat_length, Option.some.injEq]
      omega
  · intro f hf
    rw [List.length_append, List.length_singleton, Nat.add_sub_cancel] at hf
    rcases shows_concat.1 hf with hf | ⟨-, rfl⟩
    · exact absurd hf.lt_length (lt_irrefl _)
    · rw [Discharge.append, List.length_append]
      exact hgoal

/-! One line is discharged in one of three ways. -/

theorem dischargeLine_self (hl : l.formula = a) :
    dischargeLine a d l = .ok (d.append [.inferred (imp a a) I0 []]) := by
  rw [dischargeLine, if_pos hl]
  rfl

theorem dischargeLine_weakened (hl : l.formula ≠ a) (hrule : l.rule ≠ MP) :
    dischargeLine a d l = .ok (d.append (dischargeLine.weakened a l d.lines.length)) := by
  obtain ⟨f, inference⟩ := l
  rw [dischargeLine, if_neg hl]
  cases inference with
  | none => rfl
  | some inf =>
      have hMP : inf.rule ≠ MP := hrule
      simp only
      rw [if_neg hMP]
      rfl

theorem dischargeLine_modusPonens {f g : Formula} {i j minor major : Nat} (hf : f ≠ a)
    (hminor : d.places[i]? = some (minor : Int)) (hmajor : d.places[j]? = some (major : Int))
    (hg : Shows d.lines minor (imp a g)) (hgf : Shows d.lines major (imp a (imp g f))) :
    dischargeLine a d (.inferred f MP [i, j]) = .ok (d.append
      [.inferred (imp (imp a (imp g f)) (imp (imp a g) (imp a f))) D [],
        .inferred (imp (imp a g) (imp a f)) MP [(major : Int), (d.lines.length : Int)],
        .inferred (imp a f) MP [(minor : Int), (d.lines.length : Int) + 1]]) := by
  obtain ⟨antecedent, hantecedent, hg⟩ := shows_iff.1 hg
  obtain ⟨implication, himplication, hgf⟩ := shows_iff.1 hgf
  have hfirst : fetch [(i : Int), (j : Int)] 0 = .ok (i : Int) := rfl
  have hsecond : fetch [(i : Int), (j : Int)] 1 = .ok (j : Int) := rfl
  rw [dischargeLine, Line.formula_inferred, if_neg hf]
  simp only [Line.inferred, if_true, hfirst, hsecond, ok_bind, fetch_natCast_eq_ok.2 hmajor,
    fetch_natCast_eq_ok.2 himplication, fetch_natCast_eq_ok.2 hminor,
    fetch_natCast_eq_ok.2 hantecedent, hg, hgf]
  rfl

/-- A line other than `a` that does not follow by modus ponens depends neither on `a` nor on the lines
before it. -/
theorem follows_of_independent {earlier : List Line} (hl : Follows (as ++ [a]) rules earlier l)
    (haxioms : ∀ r ∈ rules, r = MP ∨ r.assumptions = []) (hself : l.formula ≠ a)
    (hrule : l.rule ≠ MP) (earlier' : List Line) : Follows as rules earlier' l := by
  refine ⟨hl.present, ?_⟩
  obtain ⟨f, inference⟩ := l
  cases inference with
  | none =>
      have hf : f ∈ as ++ [a] := hl.justified
      exact (List.mem_append.1 hf).resolve_right fun hfa => hself (List.mem_singleton.1 hfa)
  | some inf =>
      obtain ⟨r, premises⟩ := inf
      obtain ⟨hr, ks, hks, fs, hfs, hspec⟩ := hl.justified
      -- a rule without assumptions has no lines to cite
      have hassumptions := (haxioms r hr).resolve_left hrule
      obtain rfl := Follows.premises_eq_nil hl hassumptions
      obtain rfl := List.map_eq_nil_iff.1 hks.symm
      obtain rfl := List.forall₂_nil_left_iff.1 hfs
      exact ⟨hr, [], rfl, [], .nil, hspec⟩

/-- Discharging one more line keeps what is to be kept. -/
theorem Discharged.dischargeLine (h : Discharged a as rules' done d)
    (hl : Follows (as ++ [a]) rules done l) (hrules : rules ⊆ rules')
    (haxioms : ∀ r ∈ rules, r = MP ∨ r.assumptions = []) (hadded : [I0, I1, D, MP] ⊆ rules') :
    ∃ d', dischargeLine a d l = .ok d' ∧ Discharged a as rules' (done ++ [l]) d' := by
  simp only [List.cons_subset, List.nil_subset, and_true] at hadded
  obtain ⟨hI0, hI1, hD, hMP⟩ := hadded
  by_cases hself : l.formula = a
  · -- the assumption itself
    refine ⟨_, dischargeLine_self hself, h.append ?_ (by rw [hself]; rfl)⟩
    exact derivation_concat.2
      ⟨h.derivation, follows_schema hI0 rfl (isSpecializationOf_schema (imp p p) a a a)⟩
  by_cases hrule : l.rule = MP
  · -- modus ponens on the implications from `a` to the cited lines
    obtain ⟨f, inference⟩ := l
    cases inference with
    | none => simp [Line.rule, MP] at hrule
    | some inf =>
        obtain ⟨r, premises⟩ := inf
        obtain rfl : r = MP := hrule
        obtain ⟨i, j, g, rfl, hi, hj⟩ := Follows.modusPonens_inversion hl
        obtain ⟨minor, hminor, hg⟩ := h.placed i g hi
        obtain ⟨major, hmajor, hgf⟩ := h.placed j (imp g f) hj
        refine ⟨_, dischargeLine_modusPonens hself hminor hmajor hg hgf, h.append ?_ rfl⟩
        exact h.derivation.detachTwice hMP hD hgf hg rfl
          (isSpecializationOf_schema (imp (imp p (imp q r)) (imp (imp p q) (imp p r))) a g f)
  · -- a line that does not depend on `a`
    refine ⟨_, dischargeLine_weakened hself hrule, h.append ?_ rfl⟩
    have hl' : Follows as rules' d.lines l :=
      (follows_of_independent hl haxioms hself hrule d.lines).mono (List.Subset.refl as) hrules
    have hlines : Derivation as rules' (d.lines ++ [l]) := derivation_concat.2 ⟨h.derivation, hl'⟩
    have hdetached := hlines.detach hMP hI1 (shows_length_concat d.lines l) (g := imp a l.formula) rfl
      (isSpecializationOf_schema (imp q (imp p q)) a l.formula a)
    rw [List.length_append, List.append_assoc] at hdetached
    exact hdetached

/-- Discharging the rest of a derivation. -/
theorem Discharged.foldlM {rest : List Line} (h : Discharged a as rules' done d)
    (hlines : Derivation (as ++ [a]) rules (done ++ rest)) (hrules : rules ⊆ rules')
    (haxioms : ∀ r ∈ rules, r = MP ∨ r.assumptions = [])
    (hadded : [I0, I1, D, MP] ⊆ rules') :
    ∃ d', rest.foldlM (Proof.dischargeLine a) d = .ok d' ∧ Discharged a as rules' (done ++ rest) d' := by
  -- every step moves one line from the rest to those that are done
  induction rest generalizing done d with
  | nil => exact ⟨d, rfl, by rwa [List.append_nil]⟩
  | cons l rest ih =>
      have hl : Follows (as ++ [a]) rules done l := by
        have := hlines done.length l (by simp)
        rwa [List.take_left] at this
      obtain ⟨d₁, hd₁, h₁⟩ := h.dischargeLine hl hrules haxioms hadded
      rw [List.append_cons done l rest] at hlines ⊢
      obtain ⟨d₂, hd₂, h₂⟩ := ih h₁ hlines
      exact ⟨d₂, by rw [List.foldlM_cons, hd₁, ok_bind, hd₂], h₂⟩

theorem mem_addRules {rules more : List InferenceRule} {r : InferenceRule} :
    r ∈ addRules rules more ↔ r ∈ rules ∨ r ∈ more := by
  by_cases hr : r ∈ rules
  · simp [addRules, hr]
  · simp [addRules, hr]

/-- The deduction theorem: from a proof whose last assumption is `a` results one of the implication
from `a`, without that assumption. -/
theorem Establishes.removeAssumption {pf : Proof} {c : Formula} (h : pf.Establishes (as ++ [a]) c)
    (ha : a.isMissing = false)
    (haxioms : ∀ r ∈ pf.rules, r = MP ∨ r.isMissing = false ∧ r.assumptions = []) :
    ∃ q, pf.removeAssumption = .ok q ∧ q.Establishes as (imp a c) ∧
      q.rules = (addRules pf.rules [I0, I1, D, MP]).eraseDups := by
  have hpresent : requirePresent (a :: c :: pf.lines.map Line.formula) = .ok () := by
    rw [requirePresent_eq_ok]
    simp only [List.forall_mem_cons, List.forall_mem_map]
    exact ⟨ha, h.present, fun l hl => ((establishes_iff.1 h).2.2 l hl).1⟩
  have hdischarged : Discharged a as (addRules pf.rules [I0, I1, D, MP]) [] {} := discharged_nil
  obtain ⟨d, hd, hdone⟩ := hdischarged.foldlM h.derivation
    (fun r hr => mem_addRules.2 (.inl hr)) (fun r hr => (haxioms r hr).imp_right And.right)
    (fun r hr => mem_addRules.2 (.inr hr))
  rw [List.nil_append] at hdone
  refine ⟨_, ?_, establishes_make hdone.derivation (hdone.ends c h.ends), rfl⟩
  have hvalid : pf.requireValid = .ok () := requireValid_eq_ok.2 h.isValid
  have hrequired : pf.requireAxioms = .ok () := requireAxioms_eq_ok.2 haxioms
  rw [Proof.removeAssumption, hvalid, ok_bind, h.lastAssumption, ok_bind, h.conclusion_eq]
  dsimp only
  rw [hrequired, ok_bind, hpresent, ok_bind, hd, ok_bind]
  rfl

end Discharge

/-- The deduction theorem for accepted proofs. If the citations of an accepted proof with an assumption
count from the front, and all its rules are axioms next to modus ponens, then discharging its last
assumption answers with an accepted proof of the implication from it, from the other assumptions and by
the same rules and those of implication. -/
theorem removeAssumption_isValid {pf : Proof} (hvalid : pf.isValid = .ok true)
    (hfront : ∀ l ∈ pf.lines, ∀ j ∈ l.cited, 0 ≤ j) (hcomplete : pf.complete = .ok pf)
    (hassumption : pf.statement.assumptions ≠ [])
    (haxioms : ∀ r ∈ pf.rules, r = MP ∨ r.isMissing = false ∧ r.assumptions = []) :
    ∃ q, pf.removeAssumption = .ok q ∧ q.isValid = .ok true ∧
      q.statement.assumptions = pf.statement.assumptions.dropLast ∧
      q.statement.conclusion =
        imp (pf.statement.assumptions.getLast hassumption) pf.statement.conclusion ∧
      q.rules.Nodup ∧ ∀ r, r ∈ q.rules ↔ r ∈ pf.rules ∨ r ∈ [MP, I0, I1, D] := by
  have hestablishes := establishes_of_isValid hvalid hfront hcomplete
  have hlast := List.dropLast_concat_getLast hassumption
  have hpresent : (pf.statement.assumptions.getLast hassumption).isMissing = false :=
    (InferenceRule.isComplete_iff.1 (complete_eq_ok.1 hcomplete).1).2.1 _ (List.getLast_mem hassumption)
  rw [← hlast] at hestablishes
  obtain ⟨q, hq, hdischarged, hrules⟩ := hestablishes.removeAssumption hpresent haxioms
  refine ⟨q, hq, hdischarged.isValid, ?_, hdischarged.conclusion_eq, ?_, fun r => ?_⟩
  · rw [hdischarged.statement_eq]
    rfl
  · rw [hrules]
    exact nodup_eraseDups _
  · rw [hrules, List.mem_eraseDups, mem_addRules]
    refine or_congr_right ?_
    simp only [List.mem_cons, List.not_mem_nil, or_false]
    tauto

/-- An assumption that is used twice, and a line that is derived and equal to it, are discharged. -/
theorem removeAssumption_isValid_repeated :
    let pf := make (.rule [p, imp p (imp q p), q, p] (imp q p)) [MP, I1]
      [.assumed p, .assumed (imp p (imp q p)), .inferred (imp q p) MP [0, 1], .assumed q,
        .inferred p MP [3, 2], .inferred (imp p (imp q p)) I1 [], .inferred (imp q p) MP [4, 5]]
    pf.isValid = .ok true ∧ ∃ r, pf.removeAssumption = .ok r ∧ r.isValid = .ok true ∧
      r.statement = .rule [p, imp p (imp q p), q] (imp p (imp q p)) := by
  intro pf
  have hvalid : pf.isValid = .ok true := by decide
  obtain ⟨r, hr, hrvalid, has, hc, -⟩ :=
    removeAssumption_isValid hvalid (by decide) (by decide) (by decide) (by decide)
  refine ⟨hvalid, r, hr, hrvalid, ?_⟩
  cases hrule : r.statement with
  | missing =>
      rw [hrule] at hc
      cases hc
  | rule as c =>
      rw [hrule] at has hc
      rw [show as = _ from has, show c = _ from hc]
      rfl

end Proof

end FormalLogic.Propositional
