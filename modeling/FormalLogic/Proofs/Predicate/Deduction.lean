import FormalLogic.Predicate.Deduction
import FormalLogic.Proofs.Predicate.DerivedSteps

/-!
# The deduction theorem for predicate proofs

Discharging an assumption goes through the lines of a proof and adds, for each of them, steps that end with
the conditional from the assumption to the line. What is kept along the way is that the conditionals of all
lines so far were derived, at the places that are looked up when a later line cites them
(`adds_dischargeLines`). There is one lemma for each kind of line. A generalization is the kind that needs
the assumption not to have the variable free: the conditional is generalized, and an instance of the axiom
moves the quantifier behind the assumption.

The main statement is `Proof.discharge_justified`.
-/

namespace FormalLogic.Predicate

/-! ## Instances of assumptions -/

/-- Instances that were checked are read as they are. -/
theorem readInstances_of_checkInstances {m : Instances} (h : checkInstances m = .ok ()) :
    readInstances m = .ok m := by
  rw [checkInstances, forM_eq_ok] at h
  rw [readInstances, mapM_eq_ok, List.forall₂_same]
  rintro ⟨key, i⟩ he
  obtain ⟨isVar, hvar, hi⟩ := bind_eq_ok.1 (h _ he)
  rw [hvar, ok_bind]
  cases isVar with
  | true => exact bind_eq_ok.2 ⟨(), hi, rfl⟩
  | false =>
      rw [if_neg Bool.false_ne_true] at hi ⊢
      split at hi
      · next hconst =>
          have hterm := require_eq_ok.1 hi
          rw [if_pos hconst]
          cases i with
          | term t => rfl
          | _ => cases hterm
      · next hconst =>
          obtain ⟨_, hrel, hi⟩ := bind_eq_ok.1 hi
          have hformula := require_eq_ok.1 hi
          rw [if_neg hconst]
          refine bind_eq_ok.2 ⟨(), hrel, ?_⟩
          cases i with
          | formula f => rfl
          | _ => cases hformula

/-- A schema without templates has only its formula for an instance. -/
theorem Schema.eq_of_instantiate_ofFormula {f g : Formula} {m : Instances} (hf : f.WellFormed)
    (hg : g.isMissing = false) (h : (Schema.ofFormula f).instantiate m = .ok g) : g = f := by
  cases m with
  | nil => exact (Except.ok.inj ((instantiate_ofFormula hf).symm.trans h)).symm
  | cons e m =>
      obtain ⟨key, i⟩ := e
      have hnone : (Schema.ofFormula f).instantiate ((key, i) :: m) = .ok .missing := rfl
      rw [← Except.ok.inj (hnone.symm.trans h)] at hg
      cases hg

namespace Proof

/-- What is asked of a proof whose assumption is discharged. The assumption is one of its assumptions and
no schema with templates, no line generalizes a variable that is free in it, and the lines, which were made
from instances that suit the names in their place, are justified. -/
structure Dischargeable (pf : Proof) (given : Formula) : Prop where
  axioms : Axioms.basic ⊆ pf.assumptions
  assumed : .ofFormula given ∈ pf.assumptions
  templates : ∀ s ∈ pf.assumptions, s.formula = given → s.templates = []
  wellFormed : given.WellFormed
  notGeneralized : ∀ x f i, .ug (.forAll x f) i ∈ pf.lines → x ∉ given.freeVariables
  plain : ∀ l ∈ pf.lines, l.Plain
  instances : ∀ f s m, .assumption f s m ∈ pf.lines → checkInstances m = .ok ()
  justified : Justified True pf.assumptions pf.lines
  concludes : pf.concludes = true

variable {pf : Proof} {given : Formula}

namespace Dischargeable

/-- The axioms remain, because they have templates. -/
theorem mem_withAxioms (h : pf.Dischargeable given) {s : Schema} :
    s ∈ Prover.withAxioms (pf.remaining given) ↔ s ∈ pf.assumptions ∧ s ≠ .ofFormula given := by
  have hformula : ∀ s ∈ pf.assumptions, s ≠ .ofFormula given ↔ s.formula ≠ given := by
    intro s hs
    refine not_congr ⟨fun hs => by rw [hs]; rfl, fun hf => ?_⟩
    have htemplates := h.templates s hs hf
    obtain ⟨f, templates⟩ := s
    subst hf htemplates
    rfl
  rw [Prover.withAxioms, List.mem_eraseDups, List.mem_append, remaining, List.mem_filter,
    decide_eq_true_eq]
  constructor
  · rintro (hs | ⟨hs, hf⟩)
    · have htemplates : ∀ s ∈ Axioms.basic, s.templates ≠ [] := by decide
      refine ⟨h.axioms hs, fun heq => htemplates s hs ?_⟩
      rw [heq]
      rfl
    · exact ⟨hs, (hformula s hs).2 hf⟩
  · rintro ⟨hs, hne⟩
    exact .inr ⟨hs, (hformula s hs).1 hne⟩

theorem checkDischarge_eq_ok (h : pf.Dischargeable given) : pf.checkDischarge given = .ok () := by
  rw [checkDischarge, bind_eq_ok]
  refine ⟨(), require_eq_ok.2 h.concludes, bind_eq_ok.2 ⟨(), ?_, bind_eq_ok.2 ⟨(), ?_, ?_⟩⟩⟩
  · exact require_eq_ok.2 (List.contains_iff_mem.2 h.assumed)
  · exact require_eq_ok.2 (subset_eq_true.2 h.axioms)
  · refine forM_eq_ok.2 fun l hl => ?_
    cases l with
    | ug f i =>
        obtain ⟨k, hk⟩ := List.mem_iff_getElem?.1 hl
        obtain ⟨-, -, -, la, x, -, rfl⟩ := h.justified k _ hk
        have hx := h.notGeneralized x _ i hl
        simp [boundVariable, h.wellFormed.proper_eq_ok, hx]
    | _ => rfl

end Dischargeable

/-! ## Conditionals for lines -/

section Lines

open Proving

/-- The conditionals for some lines were derived, at the given places. -/
def Conditionals (given : Formula) (p : Prover) (places : List Int) (done : List Line) : Prop :=
  List.Forall₂ (fun i l => p.Shows i (.imp given l.formula)) places done

theorem Conditionals.mono {p p' : Prover} {places : List Int} {done : List Line}
    (h : Conditionals given p places done) (hderives : p.Derives True p') :
    Conditionals given p' places done :=
  h.imp fun _ _ hi => hi.mono hderives

/-- A line before the present one is looked up, and its conditional is found. -/
theorem Conditionals.place_eq_ok {p : Prover} {places : List Int} {done rest : List Line} {a : Nat}
    {l : Line} (h : Conditionals given p places done) (ha : a < done.length)
    (hl : (done ++ rest)[a]? = some l) : ∃ i,
      Failure.unknownKey.orElse (if 0 ≤ (a : Int) then places[(a : Int).toNat]? else none) = .ok i ∧
        p.Shows i (.imp given l.formula) := by
  rw [List.getElem?_append_left ha] at hl
  obtain ⟨ha', hl⟩ := List.getElem?_eq_some_iff.1 hl
  have hplaces : a < places.length := by rwa [h.length_eq]
  refine ⟨places[a], ?_, by rw [← hl]; exact h.get hplaces ha'⟩
  rw [if_pos (Int.natCast_nonneg a), Int.toNat_natCast, List.getElem?_eq_getElem hplaces]
  rfl

variable [SetOrder Int] {p : Prover} {s : FreshNames} {places : List Int} {done rest : List Line}
  {l : Line}

/-- The given assumption implies itself; an instance of another one is added and weakened. -/
theorem adds_discharge_assumption (h : pf.Dischargeable given)
    (hp : p.assumptions = Prover.withAxioms (pf.remaining given)) {f : Formula} {schema : Schema}
    {m : Instances} (hl : .assumption f schema m ∈ pf.lines) :
    Adds True p s (dischargeLine given places (.assumption f schema m)) (.imp given f) := by
  obtain ⟨k, hk⟩ := List.mem_iff_getElem?.1 hl
  obtain ⟨hschema, hinstance⟩ := h.justified k _ hk
  have hf : f.WellFormed := (h.plain _ hl).1
  refine ensures_lift_bind h.wellFormed.present_eq_ok (ensures_lift_bind hf.present_eq_ok ?_)
  dsimp only
  split
  · next heq =>
      subst heq
      exact adds_tautology fun w => Formula.evalParts_imp.2 id
  · next hne =>
      have hremains : schema ∈ p.assumptions := by
        rw [hp, h.mem_withAxioms]
        refine ⟨hschema, ?_⟩
        rintro rfl
        exact hne (Schema.eq_of_instantiate_ofFormula h.wellFormed hf.isMissing_eq_false hinstance)
      have hchecked := h.instances f schema m hl
      refine (adds_instanceOf_read hremains (readInstances_of_checkInstances hchecked) hchecked
        hinstance).bind fun line p₁ hd₁ hline => ?_
      refine ensures_lift_bind (a := ()) (require_eq_ok.2 (by rw [hf.isBare_eq_false]; rfl)) ?_
      refine (adds_tautology fun w => ?_).bind fun weakening p₂ hd₂ hweakening =>
        adds_modusPonens (hline.shows.mono hd₂) hweakening.shows
      simp only [Formula.evalParts_imp]
      exact fun hf _ => hf

theorem adds_discharge_tautology (h : pf.Dischargeable given) {f : Formula}
    (hl : .tautology f ∈ pf.lines) :
    Adds True p s (dischargeLine given places (.tautology f)) (.imp given f) := by
  obtain ⟨k, hk⟩ := List.mem_iff_getElem?.1 hl
  have hf : ∀ w, f.evalParts w = true := Formula.hasTautologicalSkeleton_iff.1 (h.justified k _ hk s)
  refine ensures_lift_bind h.wellFormed.present_eq_ok
    (ensures_lift_bind (h.plain _ hl).1.present_eq_ok (adds_tautology fun w => ?_))
  exact Formula.evalParts_imp.2 fun _ => hf w

/-- From the conditionals of the two lines that a line follows from, its own follows. -/
theorem adds_discharge_mp (h : pf.Dischargeable given) (hplaces : Conditionals given p places done)
    {f : Formula} {i j : Int} (hlines : pf.lines = done ++ .mp f i j :: rest) :
    Adds True p s (dischargeLine given places (.mp f i j)) (.imp given f) := by
  have hk : pf.lines[done.length]? = some (.mp f i j) := by rw [hlines]; simp
  obtain ⟨a, c, ⟨rfl, ha⟩, ⟨rfl, hc⟩, la, lc, hla, hlc, hf⟩ := h.justified _ _ hk
  rw [hlines] at hla hlc
  obtain ⟨ia, hia, hshowsa⟩ := hplaces.place_eq_ok ha hla
  obtain ⟨ic, hic, hshowsc⟩ := hplaces.place_eq_ok hc hlc
  refine ensures_lift_bind h.wellFormed.present_eq_ok
    (ensures_lift_bind (h.plain _ (List.mem_of_getElem? hk)).1.present_eq_ok ?_)
  refine ensures_lift_bind hia (ensures_lift_bind hic ?_)
  refine adds_consequence [.imp given la.formula, .imp given lc.formula]
    (.cons hshowsa (.cons hshowsc .nil)) (by simp [Formula.isBare]) rfl fun w hw => ?_
  simp only [hf, List.forall_mem_cons, Formula.evalParts_imp] at hw
  obtain ⟨hantecedent, hconditional, -⟩ := hw
  exact Formula.evalParts_imp.2 fun hgiven => hconditional hgiven (hantecedent hgiven)

/-- The conditional of the line is generalized, and the quantifier is moved behind the assumption. -/
theorem adds_discharge_ug (h : pf.Dischargeable given) (hp : p.Based)
    (hplaces : Conditionals given p places done) {f : Formula} {i : Int}
    (hlines : pf.lines = done ++ .ug f i :: rest) :
    Adds True p s (dischargeLine given places (.ug f i)) (.imp given f) := by
  have hk : pf.lines[done.length]? = some (.ug f i) := by rw [hlines]; simp
  obtain ⟨-, a, ⟨rfl, ha⟩, la, x, hla, rfl⟩ := h.justified _ _ hk
  have hplain := h.plain _ (List.mem_of_getElem? hk)
  obtain ⟨hx, hbody⟩ := hplain.1
  obtain ⟨hm, hinstance⟩ :=
    Axioms.instantiate_universalSimplification hbody hx hplain.hole_notMem h.wellFormed
  rw [hlines] at hla
  obtain ⟨ia, hia, hshows⟩ := hplaces.place_eq_ok ha hla
  refine ensures_lift_bind h.wellFormed.present_eq_ok (ensures_lift_bind hplain.1.present_eq_ok ?_)
  refine ensures_lift_bind hia ((looks_of_shows hshows).bind ?_)
  refine (adds_generalization trivial hshows).bind fun line p₁ hd₁ hline => ?_
  refine ensures_lift_bind (Formula.abstracted_eq_ok hbody hx) ?_
  rw [Instance.ofFormula_eq (Formula.abstraction_wellFormed hbody), Instance.ofFormula_eq h.wellFormed]
  refine (adds_instanceOf (hd₁.based hp (by decide)) hm hinstance).bind
    fun axiomLine p₂ hd₂ haxiom => ?_
  exact adds_modusPonens (hline.shows.mono hd₂) haxiom.shows

/-! ## Conditionals for all lines -/

/-- The conditional of a line is derived from those of the lines before it. -/
theorem adds_dischargeLine (h : pf.Dischargeable given)
    (hp : p.assumptions = Prover.withAxioms (pf.remaining given))
    (hplaces : Conditionals given p places done) (hlines : pf.lines = done ++ l :: rest) :
    Adds True p s (dischargeLine given places l) (.imp given l.formula) := by
  have hl : l ∈ pf.lines := by simp [hlines]
  cases l with
  | assumption f schema m => exact adds_discharge_assumption h hp hl
  | mp f i j => exact adds_discharge_mp h hplaces hlines
  | ug f i =>
      have hbased : p.Based := by
        rw [Prover.Based, hp]
        exact Prover.based_ofAssumptions (pf.remaining given) false
      exact adds_discharge_ug h hbased hplaces hlines
  | tautology f => exact adds_discharge_tautology h hl

/-- The lines are taken one after the other. The last line of the prover is the conditional of the last one
that was dealt with. -/
theorem adds_dischargeLines (h : pf.Dischargeable given)
    (hp : p.assumptions = Prover.withAxioms (pf.remaining given))
    (hplaces : Conditionals given p places done)
    (hends : ∀ l, done.getLast? = some l → ∃ i, p.Ends i (.imp given l.formula))
    (hlines : pf.lines = done ++ rest) (hlast : pf.lines.getLast? = some l) :
    Adds True p s (dischargeLines given places rest) (.imp given l.formula) := by
  induction rest generalizing p places done with
  | nil =>
      rw [hlines, List.append_nil] at hlast
      obtain ⟨i, hi⟩ := hends l hlast
      refine ensures_get_bind (ensures_pure ⟨rfl, ?_⟩)
      obtain ⟨ls, l', hls, rfl, hl'⟩ := hi
      refine ⟨ls, l', hls, ?_, hl'⟩
      rw [hls, List.length_append, List.length_singleton]
      omega
  | cons l' rest ih =>
      refine (adds_dischargeLine h hp hplaces hlines).bind fun i p' hderives hi => ?_
      have hplaces' : Conditionals given p' (places ++ [i]) (done ++ [l']) :=
        List.rel_append (hplaces.mono hderives) (.cons hi.shows .nil)
      refine ih (hderives.assumptions.trans hp) hplaces' ?_ ?_
      · intro l'' hl''
        rw [List.getLast?_concat] at hl''
        obtain rfl := Option.some.inj hl''
        exact ⟨i, hi⟩
      · rw [hlines, List.append_assoc, List.singleton_append]

end Lines

/-- Discharging an assumption answers with a proof of the conditional from the assumption to the conclusion.
It has the other assumptions of the proof, and all its lines are justified. -/
theorem discharge_justified [SetOrder Int] (h : pf.Dischargeable given) (s : FreshNames) :
    ∃ pf', (pf.discharge given).run.run s = (.ok pf', s) ∧
      pf'.conclusion = .imp given pf.conclusion ∧ pf'.concludes = true ∧
      (∀ schema, schema ∈ pf'.assumptions ↔
        schema ∈ pf.assumptions ∧ schema ≠ .ofFormula given) ∧
      Justified True pf'.assumptions pf'.lines := by
  obtain ⟨ls, l, hlines, hl⟩ := concludes_eq_true.1 h.concludes
  have hlast : pf.lines.getLast? = some l := by rw [hlines, List.getLast?_concat]
  have hstart : Conditionals given (.ofAssumptions (pf.remaining given) false) [] [] := .nil
  obtain ⟨i, p, s', hrun, hderives, rfl, hends⟩ :=
    adds_dischargeLines (s := s) h rfl hstart (by simp) rfl hlast
  rw [hl] at hends
  refine ⟨.make p.assumptions (.imp given pf.conclusion) p.lines, ?_, rfl, hends.concludes_make, ?_,
    hderives.justified_make _⟩
  · have hcheck := h.checkDischarge_eq_ok
    have hprove := Prover.run_prove hrun hends
    rw [discharge, hcheck]
    exact hprove
  · intro schema
    rw [make, List.mem_eraseDups, hderives.assumptions]
    exact h.mem_withAxioms

/-- All kinds of lines occur: an assumption with a free variable is detached, generalized and weakened. -/
theorem discharge_justified_generalization :
    let _ := SetOrder.ascendingPositions
    let given : Formula := .rel "R" [.const "c"]
    let body : Formula := .rel "S" [.var "x"]
    let goal : Formula := .imp given (.forAll "x" body)
    let pf : Proof := .make (Axioms.basic ++ [.ofFormula given, .ofFormula (.imp given body)]) goal
      [.assumption given (.ofFormula given) [],
       .assumption (.imp given body) (.ofFormula (.imp given body)) [],
       .mp body 0 1,
       .ug (.forAll "x" body) 2,
       .tautology (.imp (.forAll "x" body) goal),
       .mp goal 3 4]
    pf.Dischargeable given ∧
      ∃ pf', (pf.discharge given).run.run ⟨0, 0⟩ = (.ok pf', ⟨0, 0⟩) ∧
        pf'.conclusion = .imp given goal ∧ pf'.concludes = true ∧
        (∀ schema, schema ∈ pf'.assumptions ↔
          schema ∈ pf.assumptions ∧ schema ≠ .ofFormula given) ∧
        Justified True pf'.assumptions pf'.lines := by
  intro _ given body goal pf
  have hassumptions : ∀ schema, schema ∈ pf.assumptions ↔
      schema ∈ Axioms.basic ++ [.ofFormula given, .ofFormula (.imp given body)] := fun schema =>
    List.mem_eraseDups
  have htautology : ∀ w, (Formula.imp (.forAll "x" body) goal).evalParts w = true := by
    intro w
    simp only [goal, Formula.evalParts_imp]
    exact fun hall _ => hall
  have hpf : pf.Dischargeable given := by
    constructor
    case axioms => exact fun schema hs => (hassumptions schema).2 (List.mem_append_left _ hs)
    case assumed => exact (hassumptions _).2 (by decide)
    case templates =>
      intro schema hs
      revert schema
      simp only [hassumptions]
      decide
    case wellFormed => decide
    case notGeneralized => exact fun x f i _ hx => absurd (Formula.mem_freeVariables.1 hx) List.not_mem_nil
    case plain =>
      have hlines : ∀ l ∈ pf.lines, l.formula.WellFormed ∧ hole ∉ l.formula.constantNames := by decide
      intro l hl
      obtain ⟨hwf, hhole⟩ := hlines l hl
      exact ⟨hwf, fun h => hhole ((Formula.mem_constants hwf).1 h)⟩
    case instances =>
      intro f schema m hl
      have hm : m = [] := by
        simp only [pf, make, List.mem_cons, List.not_mem_nil, Line.assumption.injEq, reduceCtorEq,
          or_false] at hl
        exact hl.elim (fun h => h.2.2) fun h => h.2.2
      rw [hm]
      rfl
    case justified =>
      intro k l hk
      rcases k with _ | _ | _ | _ | _ | _ | k
      · obtain rfl := Option.some.inj hk
        exact ⟨(hassumptions _).2 (by decide), by decide⟩
      · obtain rfl := Option.some.inj hk
        exact ⟨(hassumptions _).2 (by decide), by decide⟩
      · obtain rfl := Option.some.inj hk
        exact ⟨0, 1, ⟨rfl, by decide⟩, ⟨rfl, by decide⟩, _, _, rfl, rfl, rfl⟩
      · obtain rfl := Option.some.inj hk
        exact ⟨trivial, 2, ⟨rfl, by decide⟩, _, "x", rfl, rfl⟩
      · obtain rfl := Option.some.inj hk
        exact fun s => Formula.hasTautologicalSkeleton_iff.2 htautology
      · obtain rfl := Option.some.inj hk
        exact ⟨3, 4, ⟨rfl, by decide⟩, ⟨rfl, by decide⟩, _, _, rfl, rfl, rfl⟩
      · cases hk
    case concludes => decide
  exact ⟨hpf, discharge_justified hpf ⟨0, 0⟩⟩

end Proof

end FormalLogic.Predicate
