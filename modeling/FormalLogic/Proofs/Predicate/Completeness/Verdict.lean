import Mathlib
import FormalLogic.Proofs.Predicate.Completeness.DescribedModel
import FormalLogic.Proofs.Predicate.Proving

/-!
# Model or contradiction

Either all sentences of a closed set hold in the model that they describe, or one without quantifiers does
not. In the second case the set contains, for each primitive part of that sentence, the part or its
negation, whichever holds (`holds_literal`), and these refute it by propositional logic alone
(`ensures_contradiction`). This takes sentences without functions and equalities.

The described model says nothing of a relation that no sentence asserts by itself, not even that it is
empty. A set with such a relation may get no verdict, and gets a model in no case
(`modelOrContradiction_right`).
-/

namespace FormalLogic.Predicate

/-! ## Truth from primitive parts -/

namespace Formula

theorem evalParts_truth (I : Interpretation) (v : String → String) (f : Formula) :
    f.evalParts (truth I v) = f.truth I v := by
  induction f with
  | neg f ih => rw [evalParts, ih, truth]
  | bin op l r ihl ihr => rw [evalParts, ihl, ihr, truth]
  | _ => rfl

/-- A formula without quantifiers and equalities is a matter of its primitive parts. -/
theorem evalParts_congr {f : Formula} (hf : f.WellFormed) (hfree : f.isQuantifierFree = true)
    (hequality : f.isEqualityFree = true) {w w' : Formula → Bool}
    (h : ∀ p ∈ Sentences.primitivesOf f, w p = w' p) : f.evalParts w = f.evalParts w' := by
  induction f with
  | equal l r => cases hequality
  | rel n ts => exact h _ (List.mem_singleton.2 rfl)
  | neg f ih => rw [evalParts, evalParts, ih hf hfree hequality h]
  | bin op l r ihl ihr =>
      obtain ⟨hfreel, hfreer⟩ := Bool.and_eq_true_iff.1 hfree
      obtain ⟨hequalityl, hequalityr⟩ := Bool.and_eq_true_iff.1 hequality
      rw [evalParts, evalParts, ihl hf.1 hfreel hequalityl fun p hp => h p (List.mem_append_left _ hp),
        ihr hf.2 hfreer hequalityr fun p hp => h p (List.mem_append_right _ hp)]
  | quant k x f ih => cases hfree
  | bare t => exact hf.elim

end Formula

namespace Sentences

variable {S : List Formula} {m : Model} {f p q : Formula} {s : FreshNames}

/-- What a set says of a primitive sentence. -/
def literal (S : List Formula) (p : Formula) : Formula :=
  if S.contains p then p else .neg p

/-- Truth values that make a literal true agree on its primitive sentence. -/
theorem eq_of_literal {w w' : Formula → Bool} (hp : ∃ n ts, p = .rel n ts)
    (hw : (literal S p).evalParts w = true) (hw' : (literal S p).evalParts w' = true) : w p = w' p := by
  obtain ⟨n, ts, rfl⟩ := hp
  by_cases hmem : S.contains (.rel n ts) = true
  · rw [literal, if_pos hmem] at hw hw'
    exact hw.trans hw'.symm
  · rw [literal, if_neg hmem, Formula.evalParts, Bool.not_eq_true'] at hw hw'
    exact hw.trans hw'.symm

section Literals

variable (hS : Closed S) (hfunctions : ∀ f ∈ S, f.functionNodes = [])
include hS hfunctions

/-- A closed set decides the primitive parts of its sentences. -/
theorem literal_mem (hf : f ∈ S) (hp : p ∈ primitivesOf f) : literal S p ∈ S := by
  obtain ⟨n, ts, rfl⟩ := exists_rel_of_mem_primitivesOf hp
  obtain ⟨cs, rfl, hcs, hr⟩ := exists_constants hS hfunctions hf hp
  by_cases hmem : .rel n (cs.map Term.const) ∈ S
  · rwa [literal, if_pos (List.contains_iff_mem.2 hmem)]
  · rw [literal, if_neg (mt List.contains_iff_mem.1 hmem)]
    exact (hS.decided f hf _ hr cs rfl hcs).resolve_left hmem

theorem holds_literal (hm : Describes S m) (hf : f ∈ S) (hp : p ∈ primitivesOf f) :
    holds m (literal S p) = true := by
  obtain ⟨n, ts, rfl⟩ := exists_rel_of_mem_primitivesOf hp
  obtain ⟨cs, rfl, hcs, -⟩ := exists_constants hS hfunctions hf hp
  have hholds := hm.holds_rel hS hfunctions (n := n) hcs
  by_cases hmem : .rel n (cs.map Term.const) ∈ S
  · rw [literal, if_pos (List.contains_iff_mem.2 hmem)]
    exact hholds.2 hmem
  · rw [literal, if_neg (mt List.contains_iff_mem.1 hmem), holds, Formula.truth, Bool.not_eq_true',
      Bool.eq_false_iff]
    exact mt hholds.1 hmem

end Literals

/-! ## The contradiction -/

/-- A proof of a sentence without quantifiers and its negation. The only assumptions that its lines are
instances of are sentences of the set. -/
structure Refutes (S : List Formula) (pf : Proof) : Prop where
  conclusion : ∃ q ∈ S, q.isQuantifierFree = true ∧ pf.conclusion = .conj (.neg q) q
  concludes : pf.concludes = true
  justified : Justified False pf.assumptions pf.lines
  assumed : ∀ f schema m, .assumption f schema m ∈ pf.lines → f ∈ S ∧ schema = .ofFormula f

/-- A line that is no instance of an assumption, or is a sentence of the set. -/
def RestsOn (S : List Formula) (l : Line) : Prop :=
  ∀ f schema m, l = .assumption f schema m → f ∈ S ∧ schema = .ofFormula f

theorem primitiveParts_eq_ok [SetOrder Formula] (hq : q.WellFormed) (hfree : q.isQuantifierFree = true) :
    primitiveParts q = .ok (SetOrder.list (primitivesOf q)) := by
  rw [primitiveParts, hq.given_eq_ok, ok_bind, hfree, require_true]
  rfl

/-- The steps of a contradiction: the sentence, the literals of its primitive parts, and what they imply
by propositional logic. -/
def refutation [SetOrder Int] (S : List Formula) (q : Formula) (parts : List Formula) : Proving Int := do
  let affirmed ← Proving.assumption q
  let lines ← parts.mapM fun p => Proving.assumption (literal S p)
  let denied ← Proving.tautologicalConsequence (Formula.neg q) lines
  Proving.tautologicalConsequence (Formula.conj (.neg q) q) [affirmed, denied]

theorem contradiction_eq [SetOrder Int] [SetOrder Formula] (S : List Formula) (q : Formula) :
    contradiction S q = (do
      let parts ← primitiveParts q
      Prover.prove ((S ++ [q]).map Schema.ofFormula) (refutation S q parts)) := by
  have hliteral : ∀ p, Instance.ofFormula (literal S p) =
      if S.contains p then Instance.ofFormula p else Instance.ofFormula (.neg p) := by
    intro p
    rw [literal, apply_ite Instance.ofFormula]
  unfold contradiction refutation
  simp only [hliteral]

/-- Only sentences of the set are assumed. -/
theorem writes_refutation [SetOrder Int] {parts : List Formula} (hq : q ∈ S)
    (hparts : ∀ p ∈ parts, literal S p ∈ S) :
    (refutation S q parts).Writes (RestsOn S) := by
  have hsentence : ∀ f ∈ S, RestsOn S (.assumption f (.ofFormula f) []) := by
    rintro f hf _ _ _ ⟨rfl, rfl, rfl⟩
    exact ⟨hf, rfl⟩
  have hmp : ∀ f i j, RestsOn S (.mp f i j) := fun _ _ _ _ _ _ h => nomatch h
  have htautology : ∀ f, RestsOn S (.tautology f) := fun _ _ _ _ h => nomatch h
  refine (Proving.writes_assumption (hsentence q hq)).bind fun _ => ?_
  refine (Proving.writes_mapM fun p hp => Proving.writes_assumption (hsentence _ (hparts p hp))).bind
    fun _ => ?_
  exact (Proving.writes_tautologicalConsequence hmp htautology _ _).bind fun _ =>
    Proving.writes_tautologicalConsequence hmp htautology _ _

section Refutation

variable (hS : Closed S) (hfunctions : ∀ f ∈ S, f.functionNodes = []) (hm : Describes S m) (hq : q ∈ S)
  (hfree : q.isQuantifierFree = true) (hequality : q.isEqualityFree = true)
  (hfalse : holds m q = false)
include hS hfunctions hm hq hfree hequality hfalse

/-- What makes the literals true makes the sentence false, as in the described model. -/
theorem evalParts_eq_false {w : Formula → Bool}
    (hw : ∀ p ∈ primitivesOf q, (literal S p).evalParts w = true) : q.evalParts w = false := by
  have hagree : ∀ p ∈ primitivesOf q, w p = holds m p := fun p hp =>
    eq_of_literal (exists_rel_of_mem_primitivesOf hp) (hw p hp)
      ((Formula.evalParts_truth _ _ _).trans (holds_literal hS hfunctions hm hq hp))
  calc q.evalParts w = q.evalParts (holds m) :=
        Formula.evalParts_congr (hS.wellFormed q hq) hfree hequality hagree
    _ = holds m q := Formula.evalParts_truth _ _ q
    _ = false := hfalse

theorem adds_refutation [SetOrder Int] {p : Prover} (hp : ∀ f ∈ S, .ofFormula f ∈ p.assumptions)
    {parts : List Formula} (hparts : ∀ f, f ∈ parts ↔ f ∈ primitivesOf q) :
    Proving.Adds False p s (refutation S q parts) (.conj (.neg q) q) := by
  have hassume : ∀ f ∈ S, ∀ p', p.Derives False p' →
      Proving.Adds False p' s (Proving.assumption (.ofFormula f)) f := by
    intro f hf p' hderives
    refine Proving.adds_assumption ?_ (Schema.instantiate_ofFormula (hS.wellFormed f hf))
    rw [hderives.assumptions]
    exact hp f hf
  have hliteral : ∀ f ∈ parts, literal S f ∈ S := fun f hf =>
    literal_mem hS hfunctions hq ((hparts f).1 hf)
  refine (hassume q hq p (.refl False p)).bind fun affirmed p₁ hd₁ haffirmed => ?_
  refine Proving.ensures_bind (Proving.ensures_mapM fun f hf p' hd' =>
    hassume (literal S f) (hliteral f hf) p' (hd₁.trans hd')) ?_
  rintro lines p₂ s hd₂ ⟨rfl, hlines⟩
  refine (Proving.adds_tautologicalConsequence rfl (fun i hi => ?_) fun w hw => ?_).bind
    fun denied p₃ hd₃ hdenied => ?_
  · obtain ⟨f, hf, hshows⟩ := exists_right_of_forall₂ hlines i hi
    exact ⟨_, hshows, (hS.wellFormed _ (hliteral f hf)).isBare_eq_false⟩
  · have hfalse := evalParts_eq_false hS hfunctions hm hq hfree hequality hfalse fun f hf => by
      obtain ⟨i, hi, hshows⟩ := exists_left_of_forall₂ hlines f ((hparts f).2 hf)
      exact hw i hi _ hshows
    rw [Formula.evalParts, hfalse]
    rfl
  have haffirmed := haffirmed.shows.mono (hd₂.trans hd₃)
  refine Proving.adds_tautologicalConsequence rfl ?_ fun w hw => ?_
  · simp only [List.forall_mem_cons, List.not_mem_nil, false_implies, implies_true, and_true]
    exact ⟨⟨q, haffirmed, (hS.wellFormed q hq).isBare_eq_false⟩, _, hdenied.shows, rfl⟩
  · have hq := hw affirmed (by simp) q haffirmed
    have hneg := hw denied (by simp) _ hdenied.shows
    exact Bool.and_eq_true_iff.2 ⟨hneg, hq⟩

/-- A sentence that is false in the described model is refuted by the literals of its primitive parts. -/
theorem ensures_contradiction [SetOrder Int] [SetOrder Formula] :
    Fallible.Ensures s (contradiction S q) fun pf _ => Refutes S pf := by
  have hparts : ∀ f, f ∈ SetOrder.list (primitivesOf q) ↔ f ∈ primitivesOf q :=
    fun _ => SetOrder.mem_list
  have hassumptions : ∀ f ∈ S, .ofFormula f ∈
      (Prover.ofAssumptions ((S ++ [q]).map Schema.ofFormula) false).assumptions := by
    intro f hf
    refine List.mem_eraseDups.2 (List.mem_append_right _ (List.mem_map_of_mem ?_))
    exact List.mem_append_left _ hf
  rw [contradiction_eq]
  refine Fallible.ensures_lift_bind (primitiveParts_eq_ok (hS.wellFormed q hq) hfree) ?_
  refine (Prover.ensures_prove (adds_refutation hS hfunctions hm hq hfree hequality hfalse hassumptions
    hparts) (writes_refutation hq fun f hf =>
      literal_mem hS hfunctions hq ((hparts f).1 hf))).imp ?_
  rintro pf _ ⟨-, hproves⟩
  exact ⟨⟨q, hq, hfree, hproves.conclusion⟩, hproves.concludes, hproves.justified,
    fun f schema m hl => hproves.lines _ hl f schema m rfl⟩

end Refutation

/-! ## Sentences that do not hold -/

theorem firstFalse_eq_none {fs : List Formula} :
    firstFalse m fs = .ok none ↔ ∀ f ∈ fs, m.evaluate f [] = .ok true := by
  induction fs with
  | nil => simp [firstFalse]
  | cons f fs ih =>
      rw [firstFalse, bind_eq_ok, List.forall_mem_cons, ← ih]
      constructor
      · rintro ⟨b, hb, hrest⟩
        cases b with
        | true => exact ⟨hb, hrest⟩
        | false => cases hrest
      · rintro ⟨hf, hrest⟩
        exact ⟨true, hf, hrest⟩

theorem mem_of_firstFalse {fs : List Formula} (h : firstFalse m fs = .ok (some f)) :
    f ∈ fs ∧ m.evaluate f [] = .ok false := by
  induction fs with
  | nil => cases h
  | cons g fs ih =>
      rw [firstFalse] at h
      obtain ⟨b, hb, h⟩ := bind_eq_ok.1 h
      cases b with
      | true =>
          obtain ⟨hf, hfalse⟩ := ih h
          exact ⟨List.mem_cons_of_mem g hf, hfalse⟩
      | false =>
          cases h
          exact ⟨List.mem_cons_self, hb⟩

theorem exists_firstFalse {fs : List Formula} {v : Formula → Bool}
    (h : ∀ f ∈ fs, m.evaluate f [] = .ok (v f)) : ∃ r, firstFalse m fs = .ok r := by
  induction fs with
  | nil => exact ⟨none, rfl⟩
  | cons f fs ih =>
      obtain ⟨hf, hfs⟩ := List.forall_mem_cons.1 h
      rw [firstFalse, hf, ok_bind]
      split
      · exact ih hfs
      · exact ⟨some f, rfl⟩

/-- From a sentence that does not hold one gets to one without quantifiers. -/
theorem Closed.exists_unsatisfied (hS : Closed S) (hm : ConstantModel S m) {elements : List String}
    (helements : ∀ c, c ∈ elements ↔ c ∈ m.domain) (hf : f ∈ S) (hnames : m.Interprets f)
    (hfalse : holds m f = false) :
    ∃ q ∈ S, (if f.isQuantifierFree then .ok (some f) else unsatisfied S m elements f : Outcome _) =
      .ok (some q) ∧ q.isQuantifierFree = true ∧ holds m q = false := by
  split
  · next hfree => exact ⟨f, hf, rfl, hfree, hfalse⟩
  · obtain ⟨q, hq, hdescend, hfree, -, hqfalse⟩ :=
      hS.exists_descend hm helements hf le_rfl hnames hfalse
    exact ⟨q, hq, hdescend, hfree, hqfalse⟩

/-- In a model on the constants of a closed set, where each of them stands for itself, the search from a
false sentence of the set finds a false sentence of the set without quantifiers, whatever the order in which
the elements of the model are tried. -/
theorem exists_unsatisfied_quantifierFree (hS : ∀ f ∈ S, f.WellFormed) (hclosed : isClosed S = .ok true)
    (hm : m.WellFormed) (hdomain : ∀ c, c ∈ m.domain ↔ c ∈ constants S)
    (hself : ∀ c ∈ constants S, Table.find? m.constants c = some c) (hf : f ∈ S)
    (hfalse : m.evaluate f [] = .ok false) (elements : List String)
    (helements : ∀ c, c ∈ elements ↔ c ∈ m.domain) :
    ∃ q ∈ S, unsatisfied S m elements f = .ok (some q) ∧ q.isQuantifierFree = true ∧
      q.freeVariables = [] ∧ m.evaluate q [] = .ok false := by
  have hclosed := (isClosed_eq_true hS).1 hclosed
  have hmodel : ConstantModel S m := ⟨hm, hdomain, hself⟩
  have hnames := Model.interprets_of_evaluate (hS f hf) hfalse
  rw [hmodel.evaluate_eq_ok (hS f hf) (hclosed.sentence f hf) hnames] at hfalse
  obtain ⟨q, hq, hdescend, hfree, hqnames, hqfalse⟩ :=
    hclosed.exists_descend hmodel helements hf le_rfl hnames (Except.ok.inj hfalse)
  have hsentence := hclosed.sentence q hq
  refine ⟨q, hq, hdescend, hfree, List.isEmpty_iff.1 (isEmpty_freeVariables.2 hsentence), ?_⟩
  rw [hmodel.evaluate_eq_ok (hS q hq) hsentence hqnames, hqfalse]

/-- Everything has a successor: `a` has `b`, and `b` has both. -/
def successors : List Formula :=
  let R (s t : Term) : Formula := .rel "R" [s, t]
  let a := Term.const "a"
  let b := Term.const "b"
  let y := Term.var "y"
  [.quant .universal "x" (.quant .existential "y" (R (.var "x") y)), .quant .existential "y" (R a y),
    .quant .existential "y" (R b y), R a b, R b a, .neg (R a a), R b b]

/-- Only `a` has a successor. -/
def oneSuccessor : Model :=
  ⟨["a", "b"], [("a", "a"), ("b", "b")], [("R", [["a", "b"]])], []⟩

/-- The elements are tried in descending order. -/
theorem exists_unsatisfied_quantifierFree_successors :
    isClosed successors = .ok true ∧ constants successors = oneSuccessor.domain ∧
      ∃ q ∈ successors, unsatisfied successors oneSuccessor ["b", "a"]
          (.quant .universal "x" (.quant .existential "y" (.rel "R" [.var "x", .var "y"]))) =
            .ok (some q) ∧
        q.isQuantifierFree = true ∧ q.freeVariables = [] ∧ oneSuccessor.evaluate q [] = .ok false := by
  have hclosed : isClosed successors = .ok true := by cbv
  have hconstants : constants successors = oneSuccessor.domain := by cbv
  refine ⟨hclosed, hconstants, ?_⟩
  refine exists_unsatisfied_quantifierFree (by decide) hclosed ⟨by cbv, by decide⟩ (fun c => ?_) ?_
    List.mem_cons_self (by cbv) ["b", "a"] fun c => ?_
  · rw [hconstants]
  · rw [hconstants]
    decide
  · exact (List.Perm.swap "a" "b" []).mem_iff

/-! ## The verdict -/

/-- A model in which all sentences hold, or a contradiction from them. -/
def Verdict.Right (S : List Formula) : Verdict → Prop
  | .model m => ∀ f ∈ S, m.evaluate f [] = .ok true
  | .contradiction pf => Refutes S pf

/-- Sentences whose relations are all asserted have truth values in the model that they describe. -/
theorem exists_described_of_grounded (hS : Closed S) (hfunctions : ∀ f ∈ S, f.functionNodes = [])
    (hgrounded : Grounded S) :
    ∃ m r, describedModel S = .ok m ∧ firstFalse m S = .ok r := by
  obtain ⟨m, hm⟩ := exists_describedModel hS hfunctions hgrounded
  have hdescribes := describes_of_describedModel hm
  obtain ⟨r, hr⟩ := exists_firstFalse fun f hf =>
    hdescribes.evaluate_eq_ok (hS.wellFormed f hf) (hS.sentence f hf)
      ((hdescribes.interprets_iff hS.wellFormed hf (hfunctions f hf)).2 (hgrounded f hf))
  exact ⟨m, r, hm, hr⟩

section Verdict

variable [SetOrder Int] [SetOrder String] [SetOrder Formula] {v : Verdict} {s' : FreshNames}

/-- A verdict is reached only through the described model and the truth values of sentences in it. -/
theorem exists_described_of_run (h : (modelOrContradiction S).run.run s = (.ok v, s')) :
    ∃ m r, describedModel S = .ok m ∧ firstFalse m S = .ok r := by
  obtain ⟨b, -, h⟩ := Fallible.lift_bind_eq_ok h
  obtain ⟨-, -, h⟩ := Fallible.lift_bind_eq_ok h
  obtain ⟨m, hm, h⟩ := Fallible.lift_bind_eq_ok h
  obtain ⟨r, hr, -⟩ := Fallible.lift_bind_eq_ok h
  exact ⟨m, r, hm, hr⟩

variable (hS : Closed S) (hfunctions : ∀ f ∈ S, f.functionNodes = [])
include hS hfunctions

/-- Once truth values are found, the verdict follows and is right. -/
theorem ensures_verdict (hequality : ∀ f ∈ S, f.isEqualityFree = true) {r : Option Formula}
    (hm : describedModel S = .ok m) (hr : firstFalse m S = .ok r) :
    Fallible.Ensures s (modelOrContradiction S) fun v _ =>
      v.Right S ∧ ∀ m', v = .model m' → Grounded S := by
  have hdescribes := describes_of_describedModel hm
  refine Fallible.ensures_lift_bind ((isClosed_eq_true hS.wellFormed).2 hS) ?_
  refine Fallible.ensures_lift_bind (a := ()) rfl ?_
  refine Fallible.ensures_lift_bind hm (Fallible.ensures_lift_bind hr ?_)
  cases r with
  | none =>
      have hall := firstFalse_eq_none.1 hr
      refine ⟨.model m, s, rfl, hall, fun _ _ f hf => ?_⟩
      have hnames := Model.interprets_of_evaluate (hS.wellFormed f hf) (hall f hf)
      exact (hdescribes.interprets_iff hS.wellFormed hf (hfunctions f hf)).1 hnames
  | some f =>
      obtain ⟨hf, hvalue⟩ := mem_of_firstFalse hr
      have hnames := Model.interprets_of_evaluate (hS.wellFormed f hf) hvalue
      have hfalse : holds m f = false := by
        rw [hdescribes.evaluate_eq_ok (hS.wellFormed f hf) (hS.sentence f hf) hnames] at hvalue
        exact Except.ok.inj hvalue
      obtain ⟨q, hq, hfind, hfree, hqfalse⟩ :=
        hS.exists_unsatisfied hdescribes.toConstantModel (fun _ => SetOrder.mem_list) hf hnames hfalse
      refine Fallible.ensures_lift_bind hfind (Fallible.ensures_bind (ensures_contradiction hS hfunctions
        hdescribes hq hfree (hequality q hq) hqfalse) ?_)
      exact fun pf s' hpf => ⟨.contradiction pf, s', rfl, hpf, nofun⟩

end Verdict

/-- In whichever order sets are gone through, a closed set without functions and equalities whose relations
are all asserted gets a verdict. Any verdict is right: a model has all sentences true, and a contradiction
is proved from them. Where a relation is not asserted, the verdict is no model. -/
theorem modelOrContradiction_right [SetOrder Int] [SetOrder String] [SetOrder Formula]
    (hS : ∀ f ∈ S, f.WellFormed) (hfunctions : ∀ f ∈ S, f.functionNodes = [])
    (hequality : ∀ f ∈ S, f.isEqualityFree = true)
    (hclosed : isClosed S = .ok true) (s : FreshNames) :
    (Grounded S → ∃ v s', (modelOrContradiction S).run.run s = (.ok v, s')) ∧
      ∀ v s', (modelOrContradiction S).run.run s = (.ok v, s') →
        v.Right S ∧ ∀ m, v = .model m → Grounded S := by
  have hclosed := (isClosed_eq_true hS).1 hclosed
  constructor
  · intro hgrounded
    obtain ⟨m, r, hm, hr⟩ := exists_described_of_grounded hclosed hfunctions hgrounded
    obtain ⟨v, s', hrun, -⟩ := ensures_verdict (s := s) hclosed hfunctions hequality hm hr
    exact ⟨v, s', hrun⟩
  · intro v s' hrun
    obtain ⟨m, r, hm, hr⟩ := exists_described_of_run hrun
    obtain ⟨v', s'', hrun', hright⟩ := ensures_verdict (s := s) hclosed hfunctions hequality hm hr
    cases hrun.symm.trans hrun'
    exact hright

/-- Some `x` has `(Q(x,x)|~Q(a,b))`, which `a` witnesses, but `Q` is irreflexive and `Q(a,b)`. -/
def contradictory : List Formula :=
  let Q (s t : Term) : Formula := .rel "Q" [s, t]
  [.quant .existential "x" (.disj (Q (.var "x") (.var "x")) (.neg (Q (.const "a") (.const "b")))),
    .disj (Q (.const "a") (.const "a")) (.neg (Q (.const "a") (.const "b"))),
    .quant .universal "x" (.neg (Q (.var "x") (.var "x"))), .neg (Q (.const "a") (.const "a")),
    .neg (Q (.const "b") (.const "b")), Q (.const "a") (.const "b"), Q (.const "b") (.const "a")]

theorem modelOrContradiction_right_contradictory :
    let _ := SetOrder.ascendingPositions
    let _ := SetOrder.ascendingNames
    let _ := ascendingTexts
    isClosed contradictory = .ok true ∧ Grounded contradictory ∧
      ∃ v s', (modelOrContradiction contradictory).run.run ⟨0, 0⟩ = (.ok v, s') ∧
        v.Right contradictory := by
  intro _ _ _
  have hclosed : isClosed contradictory = .ok true := by cbv
  have hgrounded : Grounded contradictory := by decide
  obtain ⟨hanswers, hright⟩ :=
    modelOrContradiction_right (by decide) (by decide) (by decide) hclosed ⟨0, 0⟩
  obtain ⟨v, s', hrun⟩ := hanswers hgrounded
  exact ⟨hclosed, hgrounded, v, s', hrun, (hright v s' hrun).1⟩

/-- The one sentence `~R(a)`, which asserts no relation. -/
def unasserted : List Formula :=
  [.neg (.rel "R" [.const "a"])]

/-- A closed set without functions and equalities that has a model and gets no verdict: in the model that
it describes its relation has no meaning. -/
theorem modelOrContradiction_unasserted :
    (∀ f ∈ unasserted, f.WellFormed ∧ f.functionNodes = [] ∧ f.isEqualityFree = true) ∧
      isClosed unasserted = .ok true ∧
      (∃ m : Model, ∀ f ∈ unasserted, m.evaluate f [] = .ok true) ∧
      ∀ [SetOrder Int] [SetOrder String] [SetOrder Formula] (s : FreshNames),
        (modelOrContradiction unasserted).run.run s = (.error (.unmet .meaning), s) := by
  refine ⟨by decide, by cbv, ⟨⟨["a"], [("a", "a")], [("R", [])], []⟩, ?_⟩, fun s => by cbv⟩
  exact List.forall_mem_singleton.2 (by cbv)

end Sentences

end FormalLogic.Predicate
