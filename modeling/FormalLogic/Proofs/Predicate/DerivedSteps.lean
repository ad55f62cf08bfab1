import FormalLogic.Proofs.Predicate.Abstraction
import FormalLogic.Proofs.Predicate.Axioms
import FormalLogic.Proofs.Predicate.Proving
import FormalLogic.Proofs.Predicate.Reading
import Mathlib

/-!
# Derived steps of a prover

A derived step takes instances of the basic axioms and puts them together with lines that are there by
generalization, modus ponens and tautologies. Whether it is a derivation depends on the instances that it
names: each axiom is instantiated here once (`Axioms.instantiate_basic`), and each step is shown to add
justified lines, the last of which is what was asked for (`DerivedStep.adds_steps`). The steps for
equalities use one another, the chain of equalities is an induction over its links (`Proving.adds_chain`).

Universal instantiation passes its term on as a text, which is read back (`Term.parse_text`). That is why
the names of the term must be legible.
-/

namespace FormalLogic.Predicate

/-! ## Instances of the basic axioms -/

theorem Term.checkAllowed_nil {t : Term} (ht : t.WellFormed) : t.checkAllowed [] = .ok () :=
  (checkAllowed_eq_ok ht (by simp)).2 (by simp)

theorem Instance.ofTerm_eq {t : Term} (ht : t.WellFormed) : Instance.ofTerm t = .term t := by
  rw [ofTerm, ht.isMissing_eq_false, if_neg Bool.false_ne_true]

namespace Axioms

/-- An axiom has the instance by terms and formulas for its names, unless a variable is captured where an
argument is put into a formula. -/
theorem instantiate_basic {s : Schema} (hs : s ∈ basic) {m : Instances} (hm : Instances.Proper m)
    (hkeys : ∀ e ∈ m, e.1 ∈ s.templates)
    (hplaces : ∀ i ∈ s.formula.argumentInsertions (Table.find? (Instances.terms m))
      (Table.find? (Instances.relations m)), ∀ x ∈ i.1.variableLeaves, i.2.head? ≠ some x) :
    s.instantiate m = .ok (s.formula.inst (Table.find? (Instances.terms m))
      (Table.find? (Instances.relations m))) := by
  obtain ⟨hf, harity, -⟩ := basic_schematic hs
  have harity : ∀ e ∈ s.formula.relationNodes,
      (Table.find? (Instances.relations m) e.1).isSome = true → e.2 ≤ 1 := fun e he _ => harity e he
  refine (Schema.instantiate_eq_ok hm hf harity ?_).2 ⟨hkeys, hplaces, rfl⟩
  intro hmissing
  have hwf := Formula.inst_wellFormed hm hf harity
  rw [hmissing] at hwf
  exact hwf.elim

/-- The names of the axioms are of the categories of what is put in their place. -/
theorem basic_names : isVariable "x" = true ∧ isConstant "c" = true ∧ isConstant "d" = true ∧
    isRelation "R" = true ∧ isRelation "Q" = true := by
  decide

section Quantified

variable {x : String} {f g : Formula} (hf : f.WellFormed) (hx : isVariable x = true)
  (hhole : hole ∉ f.constantNames)
include hf hx hhole

/-- What holds of all holds of a term, if the term can be put in place of the variable. -/
theorem instantiate_universalInstantiation {t : Term} (ht : t.WellFormed)
    (hplaces : ∀ i ∈ f.insertions (Table.find? [(x, t)]) [], ∀ y ∈ i.1.variableLeaves,
      i.2.head? ≠ some y) :
    let m : Instances := [("x", .text x), ("R", .formula (f.abstraction x)), ("c", .term t)]
    Instances.Proper m ∧ universalInstantiation.instantiate m =
      .ok (.imp (.forAll x f) (f.subst (Table.find? [(x, t)]))) := by
  intro m
  have hm : Instances.Proper m := by
    simp [m, Instances.Proper, Instance.Suits, basic_names, hx, ht, Formula.abstraction_wellFormed hf]
  have hterms : Instances.terms m = [("x", .var x), ("c", t)] := rfl
  have hrelations : Instances.relations m = [("R", f.abstraction x)] := rfl
  have hvar := Formula.head?_ne_of_mem_insertions_abstraction hf hhole (.inl (Eq.refl x))
  have hterm : ∀ i ∈ (f.abstraction x).insertions (Table.find? [(hole, t)]) [],
      ∀ y ∈ i.1.variableLeaves, i.2.head? ≠ some y := fun i hi =>
    hplaces i (Formula.mem_insertions_of_abstraction hf hhole hi)
  have hf' : f.subst (Table.find? [(x, .var x)]) = f := Formula.renamed_self hf hx
  refine ⟨hm, (instantiate_basic (by decide) hm (by simp [m, universalInstantiation]) ?_).trans ?_⟩
  · simp only [hterms, hrelations, universalInstantiation, Formula.argumentInsertions, r, Axioms.x, c,
      Term.subst, Table.find?_cons, String.reduceEq, if_true, if_false, Option.getD_some,
      List.forall_mem_append]
    exact ⟨hvar, hterm⟩
  · simp [hterms, hrelations, universalInstantiation, Formula.inst, r, Axioms.x, c, Term.subst,
      Term.text, Formula.boundName, Formula.subst_abstraction hf hx hhole, hf']

/-- A formula that each instance implies follows from some instance. -/
theorem instantiate_existentialSimplification (hg : g.WellFormed) :
    let m : Instances := [("x", .text x), ("R", .formula (f.abstraction x)), ("Q", .formula g)]
    Instances.Proper m ∧ existentialSimplification.instantiate m =
      .ok (.imp (.conj (.forAll x (.imp f g)) (.exist x f)) g) := by
  intro m
  have hm : Instances.Proper m := by
    simp [m, Instances.Proper, Instance.Suits, basic_names, hx, hg, Formula.abstraction_wellFormed hf]
  have hterms : Instances.terms m = [("x", .var x)] := rfl
  have hrelations : Instances.relations m = [("R", f.abstraction x), ("Q", g)] := rfl
  have hvar := Formula.head?_ne_of_mem_insertions_abstraction hf hhole (.inl (Eq.refl x))
  have hf' : f.subst (Table.find? [(x, .var x)]) = f := Formula.renamed_self hf hx
  refine ⟨hm, (instantiate_basic (by decide) hm (by simp [m, existentialSimplification]) ?_).trans ?_⟩
  · simp only [hterms, hrelations, existentialSimplification, Formula.argumentInsertions, r, q, Axioms.x,
      Term.subst, Table.find?_cons, if_true, Option.getD_some, List.append_nil, List.forall_mem_append]
    exact ⟨hvar, hvar⟩
  · simp [hterms, hrelations, existentialSimplification, Formula.inst, r, q, Axioms.x, Term.subst,
      Term.text, Formula.boundName, Formula.subst_abstraction hf hx hhole, hf']

/-- A formula that implies each instance implies all of them. -/
theorem instantiate_universalSimplification (hg : g.WellFormed) :
    let m : Instances := [("Q", .formula g), ("R", .formula (f.abstraction x)), ("x", .text x)]
    Instances.Proper m ∧ universalSimplification.instantiate m =
      .ok (.imp (.forAll x (.imp g f)) (.imp g (.forAll x f))) := by
  intro m
  have hm : Instances.Proper m := by
    simp [m, Instances.Proper, Instance.Suits, basic_names, hx, hg, Formula.abstraction_wellFormed hf]
  have hterms : Instances.terms m = [("x", .var x)] := rfl
  have hrelations : Instances.relations m = [("Q", g), ("R", f.abstraction x)] := rfl
  have hvar := Formula.head?_ne_of_mem_insertions_abstraction hf hhole (.inl (Eq.refl x))
  have hf' : f.subst (Table.find? [(x, .var x)]) = f := Formula.renamed_self hf hx
  refine ⟨hm, (instantiate_basic (by decide) hm (by simp [m, universalSimplification]) ?_).trans ?_⟩
  · simp only [hterms, hrelations, universalSimplification, Formula.argumentInsertions, r, q, Axioms.x,
      Term.subst, Table.find?_cons, String.reduceEq, if_true, if_false, Option.getD_some,
      List.nil_append, List.forall_mem_append]
    exact ⟨hvar, hvar⟩
  · simp [hterms, hrelations, universalSimplification, Formula.inst, r, q, Axioms.x, Term.subst,
      Term.text, Formula.boundName, Formula.subst_abstraction hf hx hhole, hf']

end Quantified

section Equalities

variable {s t : Term} (hs : s.WellFormed)
include hs

theorem instantiate_reflexivity :
    let m : Instances := [("c", .term s)]
    Instances.Proper m ∧ reflexivity.instantiate m = .ok (.equal s s) := by
  intro m
  have hm : Instances.Proper m := by simp [m, Instances.Proper, Instance.Suits, basic_names, hs]
  have hterms : Instances.terms m = [("c", s)] := rfl
  refine ⟨hm, (instantiate_basic (by decide) hm (by simp [m, reflexivity]) ?_).trans ?_⟩
  · simp [reflexivity, Formula.argumentInsertions]
  · simp [hterms, reflexivity, Formula.inst, c, Term.subst]

/-- Equals can be put for equals in an equality. -/
theorem instantiate_meaningOfEquality (ht : t.WellFormed) {l r : Term} (hl : l.WellFormed)
    (hr : r.WellFormed) :
    let m : Instances := [("c", .term s), ("d", .term t), ("R", .formula (.equal l r))]
    Instances.Proper m ∧ meaningOfEquality.instantiate m = .ok (.imp (.equal s t)
      (.imp ((Formula.equal l r).subst (Table.find? [(hole, s)]))
        ((Formula.equal l r).subst (Table.find? [(hole, t)])))) := by
  intro m
  have hm : Instances.Proper m := by
    simp [m, Instances.Proper, Instance.Suits, basic_names, hs, ht, Formula.WellFormed, hl, hr]
  have hterms : Instances.terms m = [("c", s), ("d", t)] := rfl
  have hrelations : Instances.relations m = [("R", .equal l r)] := rfl
  -- no quantifier is around the places of the underscore
  have hplaces : ∀ u : Term, ∀ i ∈ (Formula.equal l r).insertions (Table.find? [(hole, u)]) [],
      ∀ y ∈ i.1.variableLeaves, i.2.head? ≠ some y := by
    intro u i hi y _
    rw [Formula.snd_of_mem_insertions_atomic rfl hi]
    simp
  refine ⟨hm, (instantiate_basic (by decide) hm (by simp [m, meaningOfEquality]) ?_).trans ?_⟩
  · simp only [hterms, hrelations, meaningOfEquality, Formula.argumentInsertions, Axioms.r, c, d,
      Term.subst, Table.find?_cons, String.reduceEq, if_true, if_false, Option.getD_some,
      List.nil_append, List.forall_mem_append]
    exact ⟨hplaces s, hplaces t⟩
  · simp [hterms, hrelations, meaningOfEquality, Formula.inst, Axioms.r, c, d, Term.subst]

end Equalities

end Axioms

/-! ## Steps -/

namespace Prover

/-- The prover may use the basic axioms. -/
def Based (p : Prover) : Prop :=
  Axioms.basic ⊆ p.assumptions

theorem based_ofAssumptions (assumptions : List Schema) (talkative : Bool) :
    (ofAssumptions assumptions talkative).Based :=
  fun _ hs => List.mem_eraseDups.2 (List.mem_append_left _ hs)

theorem Derives.based {general : Prop} {p p' : Prover} (h : p.Derives general p') (hp : p.Based) :
    p'.Based := by
  rw [Based, h.assumptions]
  exact hp

end Prover

namespace Proving

variable {general : Prop} {p : Prover} {s : FreshNames} {f : Instance} {g h : Formula} {i j : Int}
  {t : Instance} {u : Term}

/-- What lines imply by propositional logic alone is derived from them, in whichever order they are
cited. -/
theorem adds_consequence [SetOrder Int] {is : List Int} (cited : List Formula)
    (his : List.Forall₂ (fun i h => p.Shows i h) is cited) (hcited : ∀ h ∈ cited, h.isBare = false)
    (hg : g.isMissing = false)
    (himplies : ∀ w, (∀ h ∈ cited, h.evalParts w = true) → g.evalParts w = true) :
    Adds general p s (tautologicalConsequence (.ofFormula g) is) g := by
  refine adds_tautologicalConsequence hg (fun i hi => ?_) fun w hw => himplies w fun h hh => ?_
  · obtain ⟨h, hh, hi⟩ := exists_right_of_forall₂ his i hi
    exact ⟨h, hi, hcited h hh⟩
  · obtain ⟨i, hi, hshows⟩ := exists_left_of_forall₂ his h hh
    exact hw i hi h hshows

/-- The text of a term that stands for a constant is read. -/
theorem readInstances_universal {x : String} {f : Formula} (hx : isVariable x = true) (hu : u.WellFormed)
    (hlegible : u.Legible) :
    readInstances [("x", .text x), ("R", .formula f), ("c", .text u.text)] =
      .ok [("x", .text x), ("R", .formula f), ("c", .term u)] := by
  obtain ⟨hvar, hconst, -, hrel, -⟩ := Axioms.basic_names
  have hxname : requireName isVariable x = .ok () := (requireName_eq_ok rfl).2 hx
  rw [readInstances, mapM_eq_ok]
  refine .cons ?_ (.cons ?_ (.cons ?_ .nil))
  · simp [checkName_eq_ok rfl hvar, Instance.requireVariable, hxname]
  · simp [checkName_of_name rfl hrel isVariable, hrel, Instance.isFormula,
      Bool.eq_false_iff.1 (Bool.or_eq_false_iff.1 (isReplaceable_eq_false hrel)).1,
      Bool.eq_false_iff.1 (Bool.or_eq_false_iff.1 (isReplaceable_eq_false hrel)).2]
  · simp [checkName_of_name rfl hconst isVariable, hconst, isVariable_eq_false hconst,
      Term.parse_text hu hlegible]

section Quantified

variable {x : String} {body : Formula} (hp : p.Based) (hbody : body.WellFormed)
  (hx : isVariable x = true) (hhole : hole ∉ body.constantNames)
include hp hbody hx hhole

/-- An instance of a universal line: the axiom is instantiated with the text of the term. -/
theorem adds_universalInstance (hu : u.WellFormed) (hlegible : u.Legible) (hf : f.toFormula = .ok g)
    (ht : t.toTerm = .ok u) (hi : p.Shows i (.forAll x body))
    (hg : body.substitute [(x, u)] [] = .ok g) : Adds general p s (universalInstance f i t) g := by
  obtain ⟨hplaces, rfl⟩ :=
    (Formula.substitute_variables_eq_ok hbody (List.forall_mem_singleton.2 ⟨hx, hu⟩)).1 hg
  obtain ⟨hm, hinstance⟩ := Axioms.instantiate_universalInstantiation hbody hx hhole hu hplaces
  refine ensures_lift_bind hf ((looks_formulaBefore hi).bind (ensures_lift_bind ht ?_))
  refine ensures_lift_bind hg (ensures_lift_bind (a := ()) (require_eq_ok.2 (decide_eq_true rfl)) ?_)
  refine ensures_lift_bind (Formula.abstracted_eq_ok hbody hx) ?_
  rw [Instance.ofFormula_eq (Formula.abstraction_wellFormed hbody)]
  refine (adds_instanceOf_read (hp (by decide)) (readInstances_universal hx hu hlegible)
    (instances_eq_ok hm).2 hinstance).bind fun axiomLine p' hderives haxiom => ?_
  exact adds_modusPonens (hi.mono hderives) haxiom.shows

/-- What follows from every instance of an existential line: the conditional is generalized, and the axiom
is instantiated with its two sides. -/
theorem adds_existentialConsequence [SetOrder Int] (hgeneral : general) (hg : g.WellFormed)
    (hf : f.toFormula = .ok g) (hi : p.Shows i (.exist x body)) (hfree : x ∉ g.freeNames)
    (hj : p.Shows j (.imp body g)) : Adds general p s (existentialConsequence f i j) g := by
  obtain ⟨hm, hinstance⟩ := Axioms.instantiate_existentialSimplification hbody hx hhole hg
  have hnotFree : (!g.freeVariables.contains x) = true := by
    simpa [Formula.mem_freeVariables] using hfree
  refine ensures_lift_bind hf ((looks_formulaBefore hi).bind ?_)
  refine ensures_lift_bind hg.proper_eq_ok (ensures_lift_bind (a := ()) (require_eq_ok.2 hnotFree) ?_)
  refine (looks_formulaBefore hj).bind ?_
  refine ensures_lift_bind (a := ()) (require_eq_ok.2 (decide_eq_true rfl)) ?_
  refine (adds_generalization hgeneral hj).bind fun step p₁ hd₁ hstep => ?_
  refine (looks_of_shows hstep.shows).bind ((looks_of_shows (hi.mono hd₁)).bind ?_)
  refine ensures_lift_bind (Formula.abstracted_eq_ok hbody hx) ?_
  rw [Instance.ofFormula_eq (Formula.abstraction_wellFormed hbody), Instance.ofFormula_eq hg]
  refine (adds_instanceOf (hd₁.based hp (by decide)) hm hinstance).bind
    fun axiomLine p₂ hd₂ haxiom => ?_
  rw [← Instance.ofFormula_eq hg]
  refine adds_consequence [.exist x body, .forAll x (.imp body g),
    .imp (.conj (.forAll x (.imp body g)) (.exist x body)) g]
    (.cons (hi.mono (hd₁.trans hd₂)) (.cons (hstep.shows.mono hd₂) (.cons haxiom.shows .nil)))
    (by simp [Formula.isBare]) hg.isMissing_eq_false fun w hw => ?_
  simp only [List.forall_mem_cons, Formula.evalParts_imp] at hw
  obtain ⟨hexist, hall, himp, -⟩ := hw
  exact himp (Bool.and_eq_true_iff.2 ⟨hall, hexist⟩)

end Quantified

/-! ### Equalities -/

section Equalities

variable {a b c l r : Term} (hp : p.Based)
include hp

/-- Everything equals itself. -/
theorem adds_reflexivity (hl : l.WellFormed) :
    Adds general p s (instanceOf (.ofFormula (.equal l l)) Axioms.reflexivity [("c", .ofTerm l)])
      (.equal l l) := by
  obtain ⟨hm, hinstance⟩ := Axioms.instantiate_reflexivity hl
  rw [Instance.ofTerm_eq hl]
  exact adds_instanceOf (hp (by decide)) hm hinstance

/-- In an equality whose right side has no underscore, equals are put for equals on the left side. -/
theorem adds_meaningOfEquality (ha : a.WellFormed) (hb : b.WellFormed) (hl : l.WellFormed)
    (hr : r.WellFormed) (hhole : hole ∉ r.constantLeaves) :
    Adds general p s (instanceOf
      (.ofFormula (.imp (.equal a b) (.imp (.equal (l.subst (Table.find? [(hole, a)])) r)
        (.equal (l.subst (Table.find? [(hole, b)])) r))))
      Axioms.meaningOfEquality [("c", .ofTerm a), ("d", .ofTerm b), ("R", .ofFormula (.equal l r))])
      (.imp (.equal a b) (.imp (.equal (l.subst (Table.find? [(hole, a)])) r)
        (.equal (l.subst (Table.find? [(hole, b)])) r))) := by
  obtain ⟨hm, hinstance⟩ := Axioms.instantiate_meaningOfEquality ha hb hl hr
  rw [Formula.subst, Formula.subst, Term.subst_hole_eq_self hr hhole,
    Term.subst_hole_eq_self hr hhole] at hinstance
  rw [Instance.ofTerm_eq ha, Instance.ofTerm_eq hb]
  exact adds_instanceOf (hp (by decide)) hm hinstance

/-- The sides of an equality are exchanged: the left side is put for itself in `l=l`. -/
theorem adds_flippedEquality [SetOrder Int] (hl : l.WellFormed) (hr : r.WellFormed) (hhole : hole ∉ l.constantLeaves)
    (hf : f.toFormula = .ok (.equal r l)) (hi : p.Shows i (.equal l r)) :
    Adds general p s (flippedEquality f i) (.equal r l) := by
  refine ensures_lift_bind hf (ensures_lift_bind (a := (r, l)) rfl ((looks_formulaBefore hi).bind ?_))
  refine ensures_lift_bind (a := ()) (require_eq_ok.2 (decide_eq_true rfl)) ?_
  refine (adds_reflexivity hp hl).bind fun same p₁ hd₁ hsame => ?_
  refine ensures_lift_bind (Term.checkAllowed_nil hl) ?_
  refine (adds_meaningOfEquality (l := .const hole) (hd₁.based hp) hl hr rfl hl hhole).bind
    fun put p₂ hd₂ hput => ?_
  refine adds_consequence [.equal l r, .equal l l, .imp (.equal l r) (.imp (.equal l l) (.equal r l))]
    (.cons (hi.mono (hd₁.trans hd₂)) (.cons (hsame.shows.mono hd₂) (.cons hput.shows .nil)))
    (by simp [Formula.isBare]) rfl fun w hw => ?_
  simp only [List.forall_mem_cons, Formula.evalParts_imp] at hw
  obtain ⟨hgiven, hsame, himp, -⟩ := hw
  exact himp hgiven hsame

/-- Equals are put for the underscore of a term. The axiom gives the equality with its sides exchanged. -/
theorem adds_substitutedEquality [SetOrder Int] (ha : a.WellFormed) (hb : b.WellFormed) (hu : u.WellFormed)
    (hhole : hole ∉ a.constantLeaves ∧ hole ∉ b.constantLeaves) (ht : t.toTerm = .ok u)
    (hl : u.substitute [(hole, a)] [] = .ok l) (hr : u.substitute [(hole, b)] [] = .ok r)
    (hf : f.toFormula = .ok (.equal l r)) (hi : p.Shows i (.equal a b)) :
    Adds general p s (substitutedEquality f i t) (.equal l r) := by
  have hsubst : ∀ v : Term, v.WellFormed →
      u.substitute [(hole, v)] [] = .ok (u.subst (Table.find? [(hole, v)])) := fun v hv =>
    Term.substitute_nil_eq_ok hu (List.forall_mem_singleton.2 hv)
      (List.forall_mem_singleton.2 (by decide : isReplaceable hole = true))
  obtain rfl := Except.ok.inj ((hsubst a ha).symm.trans hl)
  obtain rfl := Except.ok.inj ((hsubst b hb).symm.trans hr)
  have hwf : ∀ v : Term, v.WellFormed → (u.subst (Table.find? [(hole, v)])).WellFormed := fun v hv =>
    hu.subst fun _ _ => Formula.wellFormed_of_find?_single hv
  have hlwf := hwf a ha
  have hrwf := hwf b hb
  have hlhole := Term.hole_notMem_subst hu ha hhole.1
  have hrhole := Term.hole_notMem_subst hu hb hhole.2
  refine ensures_lift_bind hf (ensures_lift_bind (a := (_, _)) rfl ((looks_formulaBefore hi).bind ?_))
  refine ensures_lift_bind (a := (a, b)) rfl (ensures_lift_bind ht ?_)
  refine ensures_lift_bind hl (ensures_lift_bind hr ?_)
  refine ensures_lift_bind (a := ()) (require_eq_ok.2 (decide_eq_true rfl)) ?_
  refine (adds_meaningOfEquality hp ha hb hu hlwf hlhole).bind fun put p₁ hd₁ hput => ?_
  refine (adds_reflexivity (hd₁.based hp) hlwf).bind fun same p₂ hd₂ hsame => ?_
  generalize u.subst (Table.find? [(hole, a)]) = l at *
  generalize u.subst (Table.find? [(hole, b)]) = r at *
  refine (adds_consequence [.equal a b, .imp (.equal a b) (.imp (.equal l l) (.equal r l)), .equal l l]
    (.cons (hi.mono (hd₁.trans hd₂)) (.cons (hput.shows.mono hd₂) (.cons hsame.shows .nil)))
    (by simp [Formula.isBare]) rfl fun w hw => ?_).bind fun flipped p₃ hd₃ hflipped => ?_
  · simp only [List.forall_mem_cons, Formula.evalParts_imp] at hw
    obtain ⟨hgiven, himp, hsame, -⟩ := hw
    exact himp hgiven hsame
  · exact adds_flippedEquality (hd₃.based (hd₂.based (hd₁.based hp))) hrwf hlwf hrhole
      (Instance.toFormula_ofFormula _) hflipped.shows

/-- Two equalities, the second of which begins where the first ends. -/
theorem adds_chainTwo [SetOrder Int] (ha : a.WellFormed) (hb : b.WellFormed) (hc : c.WellFormed)
    (hhole : hole ∉ a.constantLeaves ∧ hole ∉ c.constantLeaves) (hi : p.Shows i (.equal a b))
    (hj : p.Shows j (.equal b c)) : Adds general p s (chainTwo i j) (.equal a c) := by
  refine (looks_formulaBefore hi).bind (ensures_lift_bind (a := (a, b)) rfl ?_)
  refine (looks_formulaBefore hj).bind (ensures_lift_bind (a := (b, c)) rfl ?_)
  refine ensures_lift_bind (a := ()) (require_eq_ok.2 (decide_eq_true rfl)) ?_
  refine (adds_flippedEquality hp ha hb hhole.1 (Instance.toFormula_ofFormula _) hi).bind
    fun flipped p₁ hd₁ hflipped => ?_
  refine ensures_lift_bind (Term.checkAllowed_nil hc) ?_
  refine (adds_meaningOfEquality (l := .const hole) (hd₁.based hp) hb ha rfl hc hhole.2).bind
    fun put p₂ hd₂ hput => ?_
  refine adds_consequence [.equal b a, .equal b c, .imp (.equal b a) (.imp (.equal b c) (.equal a c))]
    (.cons (hflipped.shows.mono hd₂) (.cons (hj.mono (hd₁.trans hd₂)) (.cons hput.shows .nil)))
    (by simp [Formula.isBare]) rfl fun w hw => ?_
  simp only [List.forall_mem_cons, Formula.evalParts_imp] at hw
  obtain ⟨hflipped, hsecond, himp, -⟩ := hw
  exact himp hflipped hsecond

end Equalities

end Proving

/-! ### Chains of equalities -/

/-- Lines are equalities from one term to another, each beginning where the one before ends. -/
def Prover.Linked (p : Prover) (a : Term) : List Int → Term → Prop
  | [], b => a = b
  | i :: is, b => ∃ c, p.Shows i (.equal a c) ∧ p.Linked c is b

/-- The formula of a line is well-formed and has no underscore. -/
def Line.Plain (l : Line) : Prop :=
  l.formula.WellFormed ∧ hole ∉ l.formula.constants

theorem Line.Plain.hole_notMem {l : Line} (h : l.Plain) : hole ∉ l.formula.constantNames :=
  fun hmem => h.2 ((Formula.mem_constants h.1).2 hmem)

/-- The formulas of all lines are well-formed and have no underscore. -/
def Prover.Plain (p : Prover) : Prop :=
  ∀ l ∈ p.lines, l.Plain

theorem Prover.Plain.of_shows {p : Prover} (h : p.Plain) {i : Int} {g : Formula} (hi : p.Shows i g) :
    g.WellFormed ∧ hole ∉ g.constantNames := by
  obtain ⟨a, l, -, ha, rfl⟩ := hi
  have hl := h l (List.mem_of_getElem? ha)
  exact ⟨hl.1, hl.hole_notMem⟩

namespace Proving

variable {general : Prop} {p p' : Prover} {s : FreshNames} {a b c : Term} {i : Int} {is : List Int}

/-- The chain is followed to its end. -/
theorem looks_followEqualities (h : p.Linked a is b) : Looks p (followEqualities a is) b := by
  induction is generalizing a with
  | nil =>
      obtain rfl := h
      exact fun s => rfl
  | cons i is ih =>
      obtain ⟨c, hi, his⟩ := h
      refine (looks_formulaBefore hi).andThen ((looks_lift (a := (a, c)) rfl).andThen ?_)
      exact (looks_lift (a := ()) (require_eq_ok.2 (decide_eq_true rfl))).andThen (ih his)

/-- The chain is taken up link by link. The last line is the equality so far, once there are two links. -/
theorem adds_chain [SetOrder Int] (hp : p.Based) (hplain : p.Plain) (hlinked : p.Linked b is c)
    (hderives : p.Derives general p') (ha : a.WellFormed ∧ hole ∉ a.constantLeaves) (hb : b.WellFormed)
    (hi : p'.Shows i (.equal a b)) (hends : is = [] → p'.Ends i (.equal a b)) :
    Adds general p' s (is.foldlM chainTwo i) (.equal a c) := by
  induction is generalizing b i p' with
  | nil =>
      obtain rfl := hlinked
      exact ensures_pure ⟨rfl, hends rfl⟩
  | cons j is ih =>
      obtain ⟨d, hj, his⟩ := hlinked
      obtain ⟨hwf, hhole⟩ := hplain.of_shows hj
      simp only [Formula.mem_constantNames_equal, not_or] at hhole
      rw [List.foldlM_cons]
      refine (adds_chainTwo (hderives.based hp) ha.1 hb hwf.2 ⟨ha.2, hhole.2⟩ hi
        (hj.mono hderives)).bind fun k p'' hderives' hk => ?_
      exact ih his (hderives.trans hderives') hwf.2 hk.shows fun _ => hk

/-- Equalities that link one term to another: the first of them is a line, and each further one is chained
to it. -/
theorem adds_chainedEquality [SetOrder Int] {f : Instance} (hp : p.Based) (hplain : p.Plain)
    (hf : f.toFormula = .ok (.equal a b)) (hlength : 2 ≤ is.length) (hlinked : p.Linked a is b) :
    Adds general p s (chainedEquality f is) (.equal a b) := by
  refine ensures_lift_bind hf (ensures_lift_bind (a := (a, b)) rfl ?_)
  refine ensures_lift_bind (a := ()) (require_eq_ok.2 (decide_eq_true hlength)) ?_
  refine (looks_followEqualities hlinked).bind ?_
  refine ensures_lift_bind (a := ()) (require_eq_ok.2 (decide_eq_true rfl)) ?_
  cases is with
  | nil => simp at hlength
  | cons i is =>
      obtain ⟨c, hi, his⟩ := hlinked
      obtain ⟨hwf, hhole⟩ := hplain.of_shows hi
      simp only [Formula.mem_constantNames_equal, not_or] at hhole
      refine adds_chain hp hplain his (.refl general p) ⟨hwf.1, hhole.1⟩ hwf.2 hi ?_
      rintro rfl
      simp at hlength

end Proving

/-! ## All derived steps -/

/-- A call of a derived step: the formula that is asked for, with the lines that it comes from. -/
inductive DerivedStep
  | universalInstance (f : Instance) (i : Nat) (t : Instance)
  | existentialConsequence (f : Instance) (i j : Nat)
  | flippedEquality (f : Instance) (i : Nat)
  | substitutedEquality (f : Instance) (i : Nat) (t : Instance)
  | chainedEquality (f : Instance) (is : List Nat)
  | citedProof (f : Instance) (pf : Proof)

namespace DerivedStep

/-- The steps that a call makes. -/
def steps [SetOrder Int] : DerivedStep → Proving Int
  | universalInstance f i t => Proving.universalInstance f i t
  | existentialConsequence f i j => Proving.existentialConsequence f i j
  | flippedEquality f i => Proving.flippedEquality f i
  | substitutedEquality f i t => Proving.substitutedEquality f i t
  | chainedEquality f is => Proving.chainedEquality f (is.map Nat.cast)
  | citedProof f pf => Proving.appendProof f pf

/-- The formula that a call asks for. -/
def asked : DerivedStep → Outcome Formula
  | universalInstance f _ _ => f.toFormula
  | existentialConsequence f _ _ => f.toFormula
  | flippedEquality f _ => f.toFormula
  | substitutedEquality f _ _ => f.toFormula
  | chainedEquality f _ => f.toFormula
  | citedProof f _ => f.toFormula

/-- What a call requires at its start, if it asks for a formula. -/
def Applies (p : Prover) (g : Formula) : DerivedStep → Prop
  | universalInstance _ i t => ∃ x body u, p.Shows i (.forAll x body) ∧ t.toTerm = .ok u ∧
      body.substitute [(x, u)] [] = .ok g
  | existentialConsequence _ i j => ∃ x body, p.Shows i (.exist x body) ∧ x ∉ g.freeVariables ∧
      p.Shows j (.imp body g)
  | flippedEquality _ i => ∃ l r, g = .equal r l ∧ p.Shows i (.equal l r)
  | substitutedEquality _ i t => ∃ a b u l r, p.Shows i (.equal a b) ∧ t.toTerm = .ok u ∧
      u.substitute [(hole, a)] [] = .ok l ∧ u.substitute [(hole, b)] [] = .ok r ∧ g = .equal l r
  | chainedEquality _ is => ∃ a b, g = .equal a b ∧ 2 ≤ is.length ∧ p.Linked a (is.map Nat.cast) b
  | citedProof _ pf => pf.conclusion = g ∧ pf.assumptions ⊆ p.assumptions

/-- What is given to a call is well-formed: its formula, its term, which is legible where its text is
used, and its proof, which has justified lines and ends with its conclusion. -/
def WellGiven (g : Formula) : DerivedStep → Prop
  | universalInstance _ _ t => ∀ u, t.toTerm = .ok u → u.WellFormed ∧ u.Legible
  | existentialConsequence _ _ _ => g.WellFormed
  | substitutedEquality _ _ t => ∀ u, t.toTerm = .ok u → u.WellFormed
  | citedProof _ pf => Justified True pf.assumptions pf.lines ∧ pf.concludes = true
  | _ => True

/-- Every derived step adds lines, the last of which is what was asked for. -/
theorem adds_steps [SetOrder Int] {p : Prover} (hp : p.Based) (hplain : p.Plain) {step : DerivedStep} {g : Formula}
    (hasked : step.asked = .ok g) (happlies : step.Applies p g) (hgiven : step.WellGiven g)
    (s : FreshNames) : Proving.Adds True p s step.steps g := by
  cases step with
  | universalInstance f i t =>
      obtain ⟨x, body, u, hi, ht, hg⟩ := happlies
      obtain ⟨hu, hlegible⟩ := hgiven u ht
      obtain ⟨⟨hx, hbody⟩, hhole⟩ := hplain.of_shows hi
      exact Proving.adds_universalInstance hp hbody hx hhole hu hlegible hasked ht hi hg
  | existentialConsequence f i j =>
      obtain ⟨x, body, hi, hfree, hj⟩ := happlies
      obtain ⟨⟨hx, hbody⟩, hhole⟩ := hplain.of_shows hi
      exact Proving.adds_existentialConsequence hp hbody hx hhole trivial hgiven hasked hi
        (fun h => hfree (Formula.mem_freeVariables.2 h)) hj
  | flippedEquality f i =>
      obtain ⟨l, r, rfl, hi⟩ := happlies
      obtain ⟨hwf, hhole⟩ := hplain.of_shows hi
      simp only [Formula.mem_constantNames_equal, not_or] at hhole
      exact Proving.adds_flippedEquality hp hwf.1 hwf.2 hhole.1 hasked hi
  | substitutedEquality f i t =>
      obtain ⟨a, b, u, l, r, hi, ht, hl, hr, rfl⟩ := happlies
      obtain ⟨hwf, hhole⟩ := hplain.of_shows hi
      simp only [Formula.mem_constantNames_equal, not_or] at hhole
      exact Proving.adds_substitutedEquality hp hwf.1 hwf.2 (hgiven u ht) hhole ht hl hr hasked hi
  | chainedEquality f is =>
      obtain ⟨a, b, rfl, hlength, hlinked⟩ := happlies
      exact Proving.adds_chainedEquality hp hplain hasked (by rwa [List.length_map]) hlinked
  | citedProof f pf =>
      obtain ⟨rfl, hsubset⟩ := happlies
      obtain ⟨hjustified, hconcludes⟩ := hgiven
      obtain ⟨ls, l, hlines, hl⟩ := Proof.concludes_eq_true.1 hconcludes
      exact Proving.adds_appendProof hsubset hjustified hlines hl hasked

/-- A derived step whose requirements are met answers with the position of the last line, which is what was
asked for. The lines that were there stay, the new ones are behind them, and all of them are justified. -/
theorem steps_justified [SetOrder Int] {p : Prover} (hp : p.Based)
    (hjustified : Justified True p.assumptions p.lines) (hplain : p.Plain) {step : DerivedStep}
    {g : Formula} (hasked : step.asked = .ok g) (happlies : step.Applies p g)
    (hgiven : step.WellGiven g) (s : FreshNames) :
    ∃ p' new, (step.steps.run.run p).run s = ((.ok (p'.lines.length - 1), p'), s) ∧
      p'.lines = p.lines ++ new ∧ p'.lines.getLast?.map Line.formula = some g ∧
      p'.assumptions = p.assumptions ∧ Justified True p'.assumptions p'.lines := by
  obtain ⟨i, p', s', hrun, hderives, rfl, ls, l, hlines, rfl, rfl⟩ :=
    adds_steps hp hplain hasked happlies hgiven s
  obtain ⟨new, hnew⟩ := hderives.lines
  refine ⟨p', new, ?_, hnew.symm, ?_, hderives.assumptions, hderives.justified hjustified⟩
  · rw [hrun, hlines]
    simp
  · rw [hlines, List.getLast?_concat]
    rfl

/-- A term with a variable and a constant is put below a quantifier of another variable. The term is given
as a text. -/
theorem steps_justified_universal :
    let _ := SetOrder.ascendingPositions
    let given : Formula := .forAll "x" (.exist "y" (.equal (.app "f" [.var "x"]) (.var "y")))
    let p : Prover := ⟨Prover.withAxioms [.ofFormula given], [.assumption given (.ofFormula given) []],
      false, ""⟩
    let g : Formula := .exist "y" (.equal (.app "f" [.app "h" [.var "w", .const "c1"]]) (.var "y"))
    let step := universalInstance (.formula g) 0 (.text "h(w,c1)")
    step.asked = .ok g ∧ step.Applies p g ∧
      ∃ p' new, (step.steps.run.run p).run ⟨0, 0⟩ = ((.ok (p'.lines.length - 1), p'), ⟨0, 0⟩) ∧
        p'.lines = p.lines ++ new ∧ p'.lines.getLast?.map Line.formula = some g ∧
        p'.assumptions = p.assumptions ∧ Justified True p'.assumptions p'.lines := by
  intro _ given p g step
  have hasked : step.asked = .ok g := rfl
  have hterm : (Instance.text "h(w,c1)").toTerm = .ok (.app "h" [.var "w", .const "c1"]) := by
    have htext : "h(w,c1)" = (Term.app "h" [.var "w", .const "c1"]).text := by cbv
    rw [htext]
    exact Term.parse_text (by decide) (by decide)
  have happlies : step.Applies p g :=
    ⟨"x", _, _, ⟨0, _, rfl, rfl, rfl⟩, hterm, by decide⟩
  have hgiven : step.WellGiven g := by
    intro u hu
    obtain rfl := Except.ok.inj (hterm.symm.trans hu)
    exact ⟨by decide, by decide⟩
  have hbased : p.Based := Prover.based_ofAssumptions [.ofFormula given] false
  have hjustified : Justified True p.assumptions p.lines := by
    intro k l hl
    cases k with
    | zero =>
      obtain rfl := Option.some.inj hl
      exact ⟨List.mem_eraseDups.2 (List.mem_append_right _ List.mem_cons_self), by decide⟩
    | succ k => cases hl
  have hplain : p.Plain := by
    refine List.forall_mem_singleton.2 ⟨by decide, fun h => ?_⟩
    rw [Formula.mem_constants (by decide)] at h
    exact absurd h (by decide)
  exact ⟨hasked, happlies, steps_justified hbased hjustified hplain hasked happlies hgiven ⟨0, 0⟩⟩

end DerivedStep

end FormalLogic.Predicate
