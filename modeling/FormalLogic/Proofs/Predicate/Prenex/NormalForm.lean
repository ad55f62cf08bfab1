import FormalLogic.Proofs.Predicate.Prenex.Renaming
import FormalLogic.Proofs.Predicate.Prenex.Pulling
import Mathlib

/-!
# Conversion to prenex normal form

A formula whose variables are named apart is converted from its parts upwards: the quantifiers of
converted operands are pulled out of a negation or of a connective, which captures nothing because no
variable is bound twice or both bound and free (`Prenex.ensures_ofUniqueNames`). Together with renaming
this converts every formula that has neither the underscore nor a variable of the supply
(`Prenex.ensures_normalForm`). The main statements are `Prenex.evaluate_normalForm`, that the result is in
prenex normal form and has the same value in every model, and `Prenex.justified_normalForm`, that the proof
of the equivalence is one.
-/

namespace FormalLogic.Predicate

namespace Formula

variable {f : Formula}

/-- Variables stay named apart if the formula binds the same ones and stays alike. -/
theorem Alike.hasUniqueNames {g : Formula} (h : Alike f g) (hbinders : g.binders = f.binders)
    (hf : f.hasUniqueNames = true) : g.hasUniqueNames = true := by
  obtain ⟨hnodup, hfree⟩ := hasUniqueNames_iff.1 hf
  refine hasUniqueNames_iff.2 ⟨hbinders ▸ hnodup, fun x hx hxfree => ?_⟩
  exact hfree x (hbinders ▸ hx) ((h.free x).1 hxfree)

end Formula

namespace Prenex

open Formula Proving

variable {f g l r : Formula} {op : Connective} {k : Quantifier} {x : String} {s s' : FreshNames}
  {c : Converted}

/-! ## Formulas whose variables are named apart -/

/-- What is said of a formula whose quantifiers were pulled out. -/
structure Pulled (f : Formula) (c : Converted) : Prop where
  proves : c.Proves f
  alike : f.Alike c.formula
  binders : c.formula.binders = f.binders
  prenex : ∃ ks g, g.isQuantifierFree = true ∧ c.formula = quantify ks g

/-- The parts of a converted formula: quantifiers, and what they stand in front of. -/
theorem Pulled.exists_quantify (h : Pulled f c) (hhole : hole ∉ f.constantNames) :
    ∃ ks g, c.formula = quantify ks g ∧ g.isQuantifierFree = true ∧ (quantify ks g).WellFormed ∧
      hole ∉ g.constantNames ∧ ks.map Prod.snd = f.binders := by
  obtain ⟨ks, g, hg, hformula⟩ := h.prenex
  refine ⟨ks, g, hformula, hg, hformula ▸ h.alike.wellFormed, fun hmem => ?_, ?_⟩
  · rw [← constantNames_quantify ks, ← hformula] at hmem
    exact hhole (h.alike.constants hmem)
  · rw [← h.binders, hformula, binders_quantify, binders_eq_nil hg, List.append_nil]

/-- Steps that derive an equivalence make up a conversion to what it says. -/
theorem pulled_convert {steps : Proving Formula} (ks : List (Quantifier × String)) (g : Formula)
    (hsteps : ∀ p : Prover, p.Moves → Proving.Ensures False p s steps fun g' p' s' =>
      (∃ i, p'.Ends i (.equivalence f g')) ∧ g' = quantify ks g ∧ s' = s)
    (hg : g.isQuantifierFree = true) (halike : f.Alike (quantify ks g))
    (hbinders : ks.map Prod.snd = f.binders) :
    Fallible.Ensures s (convert steps) fun c s' => Pulled f c ∧ s' = s := by
  refine (ensures_convert hsteps).imp ?_
  rintro c s' ⟨hproves, hc, hs⟩
  refine ⟨⟨hproves, hc ▸ halike, ?_, ks, g, hg, hc⟩, hs⟩
  rw [hc, binders_quantify, binders_eq_nil hg, List.append_nil, hbinders]

/-- The quantifiers in front of a converted formula are pulled out of its negation. -/
theorem pulled_neg [SetOrder Int] (hf : (Formula.neg f).WellFormed) (hhole : hole ∉ f.constantNames)
    (hunique : (Formula.neg f).hasUniqueNames = true)
    (ih : Fallible.Ensures s (ofUniqueNames f) fun c s' => Pulled f c ∧ s' = s) :
    Fallible.Ensures s (ofUniqueNames (.neg f)) fun c s' => Pulled (.neg f) c ∧ s' = s := by
  rw [ofUniqueNames]
  refine Fallible.ensures_lift_bind (checkUniqueNames_eq_ok hf hunique) ?_
  refine Fallible.ensures_bind ih ?_
  rintro inner s ⟨hinner, rfl⟩
  obtain ⟨ks, g, hformula, hg, hwf, hghole, hbinders⟩ := hinner.exists_quantify hhole
  obtain ⟨hks, hgwf⟩ := wellFormed_quantify.1 hwf
  have halike : (Formula.neg f).Alike (quantify (Passage.negation.turned ks) (.neg g)) :=
    (hformula ▸ hinner.alike).neg.trans
      (Passage.negation.alike_quantify [] (fun _ _ _ hf _ => .acrossNegation hf) hgwf hks (by simp))
  refine Fallible.ensures_lift_bind hinner.proves.sides_eq_ok ?_
  have hpull := Passage.pulls_negation.ensures_pull (.of_isQuantifierFree hg) hgwf hghole hks
    (fun _ _ => rfl) (s := s)
  rw [← hformula] at hpull
  refine Fallible.ensures_bind hpull ?_
  rintro pulled s ⟨hpulled, hpulledformula, rfl⟩
  refine pulled_convert _ (.neg g) (fun p hp => ?_) hg halike
    ((Passage.negation.map_snd_turned ks).trans hbinders)
  -- the negations are equivalent because the formulas are, and the pulled one is equivalent to the second
  rw [hinner.proves.conclusion]
  refine (adds_cite hp hinner.proves).bind fun line p₁ hd₁ hline => ?_
  refine (adds_tautology fun w => ?_).bind fun step p₂ hd₂ hstep => ?_
  · rw [evalParts_imp, evalParts_equivalence, evalParts_equivalence]
    exact congrArg _
  refine (adds_modusPonens (hline.shows.mono hd₂) hstep.shows).bind fun first p₃ hd₃ hfirst => ?_
  have hp₃ := (hd₁.trans (hd₂.trans hd₃)).moves hp
  refine (adds_cite hp₃ hpulled).bind fun second p₄ hd₄ hsecond => ?_
  exact (adds_trans (hfirst.shows.mono hd₄) hsecond.shows).bind
    fun i p₅ _ hends => ensures_pure ⟨⟨i, hends⟩, hpulledformula, rfl⟩

/-- Quantifiers are pulled out of both operands of a connective whose variables are named apart. -/
theorem ensures_acrossBoth [SetOrder Int] {ks js : List (Quantifier × String)} (hlfree : l.Unquantified)
    (hrfree : r.Unquantified) (hlhole : hole ∉ l.constantNames) (hrhole : hole ∉ r.constantNames)
    (hwf : (Formula.bin op (quantify ks l) (quantify js r)).WellFormed)
    (hunique : (Formula.bin op (quantify ks l) (quantify js r)).hasUniqueNames = true) :
    Fallible.Ensures s (acrossBoth (.bin op (quantify ks l) (quantify js r))) fun c s' =>
      c.Proves (.bin op (quantify ks l) (quantify js r)) ∧
        (Formula.bin op (quantify ks l) (quantify js r)).Alike c.formula ∧
          c.formula = quantify (ks.map (Prod.map (Axioms.leftQuantifier op) id))
            (quantify js (.bin op l r)) ∧ s' = s := by
  obtain ⟨hks, hjs⟩ := notMem_of_hasUniqueNames hunique
  have halike := alike_pullBoth op hwf.1 hwf.2 hlhole hrhole hks hjs
  refine (ensures_pullBoth hlfree hrfree hwf.1 hwf.2 hlhole hrhole hunique).imp ?_
  rintro c s' ⟨hproves, hformula, hs⟩
  exact ⟨hproves, hformula ▸ halike, hformula, hs⟩

/-- The quantifiers in front of converted operands are pulled out of a connective. -/
theorem pulled_bin [SetOrder Int] (hf : (Formula.bin op l r).WellFormed)
    (hhole : hole ∉ (Formula.bin op l r).constantNames)
    (hunique : (Formula.bin op l r).hasUniqueNames = true)
    (ihl : Fallible.Ensures s (ofUniqueNames l) fun c s' => Pulled l c ∧ s' = s)
    (ihr : Fallible.Ensures s (ofUniqueNames r) fun c s' => Pulled r c ∧ s' = s) :
    Fallible.Ensures s (ofUniqueNames (.bin op l r)) fun c s' => Pulled (.bin op l r) c ∧ s' = s := by
  rw [ofUniqueNames]
  refine Fallible.ensures_lift_bind (checkUniqueNames_eq_ok hf hunique) ?_
  refine Fallible.ensures_bind ihl ?_
  rintro left s ⟨hleft, rfl⟩
  refine Fallible.ensures_bind ihr ?_
  rintro right s ⟨hright, rfl⟩
  obtain ⟨hlhole, hrhole⟩ := not_or.1 (mt mem_constantNames_bin.2 hhole)
  obtain ⟨ks, l', hleftformula, hl', hl'wf, hl'hole, hks⟩ := hleft.exists_quantify hlhole
  obtain ⟨js, r', hrightformula, hr', hr'wf, hr'hole, hjs⟩ := hright.exists_quantify hrhole
  have hjoined : (Formula.bin op l r).Alike (.bin op left.formula right.formula) :=
    hleft.alike.bin op hright.alike
  -- the operands bind the same variables as before, so they are still named apart
  have hjoinedunique : (Formula.bin op left.formula right.formula).hasUniqueNames = true := by
    refine hjoined.hasUniqueNames ?_ hunique
    rw [Formula.binders, hleft.binders, hright.binders, Formula.binders]
  have hpull := @ensures_acrossBoth l' r' op s _ ks js (.of_isQuantifierFree hl')
    (.of_isQuantifierFree hr') hl'hole hr'hole ⟨hl'wf, hr'wf⟩
    (hleftformula ▸ hrightformula ▸ hjoinedunique)
  rw [← hleftformula, ← hrightformula] at hpull
  refine Fallible.ensures_bind hpull ?_
  rintro pulled s ⟨hpulled, hpulledalike, hpulledformula, rfl⟩
  rw [← quantify_append] at hpulledformula
  have hbinders : (ks.map (Prod.map (Axioms.leftQuantifier op) id) ++ js).map Prod.snd =
      (Formula.bin op l r).binders := by
    simp [hks, hjs, Formula.binders, Function.comp_def]
  refine pulled_convert _ (.bin op l' r') (fun p hp => ?_) (Bool.and_eq_true_iff.2 ⟨hl', hr'⟩)
    (hpulledformula ▸ hjoined.trans hpulledalike) hbinders
  refine (adds_cite hp hleft.proves).bind fun first p₁ hd₁ hfirst => ?_
  have hp₁ := hd₁.moves hp
  refine (adds_cite hp₁ hright.proves).bind fun second p₂ hd₂ hsecond => ?_
  refine (adds_equivalence [(l, left.formula), (r, right.formula)]
    (.cons (hfirst.shows.mono hd₂) (.cons hsecond.shows .nil)) fun w hw => ?_).bind
    fun third p₃ hd₃ hthird => ?_
  · rw [Formula.evalParts, Formula.evalParts, hw _ List.mem_cons_self,
      hw _ (List.mem_cons_of_mem _ List.mem_cons_self)]
  refine (adds_cite ((hd₂.trans hd₃).moves hp₁) hpulled).bind fun fourth p₄ hd₄ hfourth => ?_
  exact (adds_trans (hthird.shows.mono hd₄) hfourth.shows).bind
    fun i p₅ _ hends => ensures_pure ⟨⟨i, hends⟩, hpulledformula, rfl⟩

/-- A quantifier stays in front of a converted formula. -/
theorem pulled_quant [SetOrder Int] (hf : (Formula.quant k x f).WellFormed) (hhole : hole ∉ f.constantNames)
    (hunique : (Formula.quant k x f).hasUniqueNames = true)
    (ih : Fallible.Ensures s (ofUniqueNames f) fun c s' => Pulled f c ∧ s' = s) :
    Fallible.Ensures s (ofUniqueNames (.quant k x f)) fun c s' =>
      Pulled (.quant k x f) c ∧ s' = s := by
  rw [ofUniqueNames]
  refine Fallible.ensures_lift_bind (checkUniqueNames_eq_ok hf hunique) ?_
  refine Fallible.ensures_bind ih ?_
  rintro inner s ⟨hinner, rfl⟩
  obtain ⟨ks, g, hformula, hg, hwf, hghole, hbinders⟩ := hinner.exists_quantify hhole
  have hinnerhole : hole ∉ inner.formula.constantNames := by
    rwa [hformula, constantNames_quantify]
  refine pulled_convert ((k, x) :: ks) g (fun p hp => ?_) hg
    ((hformula ▸ hinner.alike).quant k hf.1) (congrArg (x :: ·) hbinders)
  refine (adds_cite hp hinner.proves).bind fun line p₁ hd₁ hline => ?_
  rw [hinner.proves.conclusion]
  refine ensures_bind (ensures_quantifyBoth hf.2 hinner.alike.wellFormed hf.1 hhole hinnerhole
    (hd₁.moves hp) hline.shows) ?_
  rintro ⟨i, _⟩ p₂ _ _ ⟨rfl, rfl, hends⟩
  exact ensures_lift_bind (sides_equivalence _ _)
    (ensures_pure ⟨⟨i, hends⟩, congrArg (Formula.quant k x) hformula, rfl⟩)

/-- Atomic formulas stay as they are. -/
theorem pulled_unchanged (hf : f.WellFormed) (hfree : f.isQuantifierFree = true) :
    Fallible.Ensures s (unchanged f) fun c s' => Pulled f c ∧ s' = s := by
  refine (ensures_unchanged f s).imp ?_
  rintro c _ ⟨hproves, rfl, rfl⟩
  exact ⟨⟨hproves, .refl hf, rfl, [], c.formula, hfree, rfl⟩, rfl⟩

/-- A formula whose variables are named apart is converted to prenex normal form. -/
theorem ensures_ofUniqueNames [SetOrder Int] (hf : f.WellFormed) (hhole : hole ∉ f.constantNames)
    (hunique : f.hasUniqueNames = true) (s : FreshNames) :
    Fallible.Ensures s (ofUniqueNames f) fun c s' => Pulled f c ∧ s' = s := by
  induction f with
  | equal t u =>
      exact Fallible.ensures_lift_bind (checkUniqueNames_eq_ok hf hunique) (pulled_unchanged hf rfl)
  | rel name ts =>
      exact Fallible.ensures_lift_bind (checkUniqueNames_eq_ok hf hunique) (pulled_unchanged hf rfl)
  | neg f ih => exact pulled_neg hf hhole hunique (ih hf hhole hunique)
  | bin op l r ihl ihr =>
      obtain ⟨hlhole, hrhole⟩ := not_or.1 (mt mem_constantNames_bin.2 hhole)
      exact pulled_bin hf hhole hunique (ihl hf.1 hlhole (hasUniqueNames_left hunique))
        (ihr hf.2 hrhole (hasUniqueNames_right hunique))
  | quant k x f ih =>
      exact pulled_quant hf hhole hunique (ih hf.2 hhole (hasUniqueNames_body hunique))
  | bare t => exact hf.elim

/-! ## All formulas -/

/-- Names that were drawn are apart from each other and from those of the formula. -/
theorem Renamed.hasUniqueNames (h : Renamed s f c s') (hf : f.Plain) :
    c.formula.hasUniqueNames = true := by
  refine hasUniqueNames_iff.2 ⟨h.drawn.nodup, fun x hx hxfree => ?_⟩
  obtain ⟨n, -, -, rfl⟩ := h.drawn.between x hx
  have hmem := freeNames_subset_variableNames f ((h.alike.free _).1 hxfree)
  exact hf.head?_ne _ hmem (head?_name n)

/-- Every formula without the underscore and variables of the supply is converted. -/
theorem ensures_normalForm [SetOrder Int] (hf : f.Plain) (s : FreshNames) :
    Fallible.Ensures s (normalForm f) fun c _ =>
      c.Proves f ∧ f.Alike c.formula ∧ c.formula.isPrenex = true := by
  rw [normalForm]
  refine Fallible.ensures_bind (ensures_rename hf s) fun renamed s₁ hrenamed => ?_
  have hhole : hole ∉ renamed.formula.constantNames :=
    fun h => hf.hole_notMem (hrenamed.alike.constants h)
  refine Fallible.ensures_bind (ensures_ofUniqueNames hrenamed.alike.wellFormed hhole
    (hrenamed.hasUniqueNames hf) s₁) ?_
  rintro pulled s₂ ⟨hpulled, -⟩
  have hprenex : pulled.formula.isPrenex = true := by
    obtain ⟨ks, g, hg, hformula⟩ := hpulled.prenex
    rw [hformula, isPrenex_quantify ks hg]
  refine (ensures_convert (f := f) (Q := fun g _ => g = pulled.formula) fun p hp => ?_).imp ?_
  · refine (adds_cite hp hrenamed.proves).bind fun first p₁ hd₁ hfirst => ?_
    refine (adds_cite (hd₁.moves hp) hpulled.proves).bind fun second p₂ hd₂ hsecond => ?_
    exact (adds_trans (hfirst.shows.mono hd₂) hsecond.shows).bind
      fun i p₃ _ hends => ensures_pure ⟨⟨i, hends⟩, rfl⟩
  · rintro c _ ⟨hproves, hc⟩
    exact ⟨hproves, hc ▸ hrenamed.alike.trans hpulled.alike, hc ▸ hprenex⟩

/-- The conversion of a formula to prenex normal form answers, whatever names were drawn before. The result
is in prenex normal form, has the same free variables, and has the same value in every model with an
element, under every assignment. -/
theorem evaluate_normalForm [SetOrder Int] (hf : f.WellFormed) (hhole : hole ∉ f.constants)
    (hz : ∀ x ∈ f.vars, x.toList.head? ≠ some 'z') (s : FreshNames) :
    ∃ c s', (normalForm f).run.run s = (.ok c, s') ∧ c.formula.isPrenex = true ∧
      c.formula.freeVariables = f.freeVariables ∧ c.proof.conclusion = .equivalence f c.formula ∧
      ∀ (m : Model) (a : Assignment), m.WellFormed → m.domain ≠ [] → m.checkNames f = .ok () →
        (∀ e ∈ a, e.2 ∈ m.domain) → (∀ x ∈ f.freeVariables, Table.hasKey a x = true) →
        ∃ b, m.evaluate f a = .ok b ∧ m.evaluate c.formula a = .ok b := by
  obtain ⟨c, s', hrun, hproves, halike, hprenex⟩ := ensures_normalForm (.of_vars hf hhole hz) s
  refine ⟨c, s', hrun, hprenex, halike.freeVariables_eq, hproves.conclusion, ?_⟩
  intro m a hm hdomain hnames ha hcovered
  exact halike.evaluate_eq hf hm hdomain hnames ha hcovered

/-- A variable that is bound twice and also free: the formula and the result are both false. -/
theorem evaluate_normalForm_bound_and_free :
    let _ := SetOrder.ascendingPositions
    let f : Formula := .imp (.forAll "x" (.rel "R" [.var "x", .var "y"]))
      (.conj (.rel "R" [.var "y", .var "x"]) (.neg (.exist "x" (.rel "R" [.var "x", .var "x"]))))
    let m : Model := ⟨["0", "1"], [], [("R", [["0", "1"], ["1", "1"]])], []⟩
    let a : Assignment := [("x", "0"), ("y", "1")]
    ∃ c s', (normalForm f).run.run ⟨3, 0⟩ = (.ok c, s') ∧ c.formula.isPrenex = true ∧
      c.formula.freeVariables = ["x", "y"] ∧ c.proof.conclusion = .equivalence f c.formula ∧
      m.evaluate f a = .ok false ∧ m.evaluate c.formula a = .ok false := by
  intro _ f m a
  have hmodel : m.WellFormed := ⟨by cbv, by decide⟩
  have hnames : m.checkNames f = .ok () := by cbv
  have hvalue : m.evaluate f a = .ok false := by cbv
  have hvars : ∀ x ∈ f.variableNames, x.toList.head? ≠ some 'z' := by decide
  have hconstants : hole ∉ f.constantNames := by decide
  have hfree : ∀ x ∈ f.freeNames, Table.hasKey a x = true := by decide
  have hwf : f.WellFormed := by decide
  obtain ⟨c, s', hrun, hprenex, hfreeVariables, hconclusion, hsame⟩ :=
    evaluate_normalForm hwf (fun h => hconstants ((mem_constants hwf).1 h))
      (fun x hx => hvars x (mem_vars.1 hx)) ⟨3, 0⟩
  obtain ⟨b, hb, hb'⟩ := hsame m a hmodel (by decide) hnames (by decide)
    fun x hx => hfree x (mem_freeVariables.1 hx)
  obtain rfl : false = b := Except.ok.inj (hvalue.symm.trans hb)
  exact ⟨c, s', hrun, hprenex, hfreeVariables.trans (by cbv), hconclusion, hb, hb'⟩

/-- The proof that comes with the conversion is a proof from the basic axioms and those that move
quantifiers: each of its lines is an instance of an assumption, follows from earlier lines by modus ponens,
or is a tautology, and the last one is the equivalence. -/
theorem justified_normalForm [SetOrder Int] (hf : f.WellFormed) (hhole : hole ∉ f.constants)
    (hz : ∀ x ∈ f.vars, x.toList.head? ≠ some 'z') (s : FreshNames) :
    ∃ c s', (normalForm f).run.run s = (.ok c, s') ∧
      (∀ schema, schema ∈ c.proof.assumptions ↔
        schema ∈ Axioms.basic ∨ schema ∈ Axioms.quantification) ∧
      Justified False c.proof.assumptions c.proof.lines ∧
      ∃ ls l, c.proof.lines = ls ++ [l] ∧ l.formula = .equivalence f c.formula := by
  obtain ⟨c, s', hrun, hproves, -⟩ := ensures_normalForm (.of_vars hf hhole hz) s
  obtain ⟨ls, l, hlines, hl⟩ := hproves.last
  exact ⟨c, s', hrun, hproves.assumptions, hproves.justified, ls, l, hlines,
    hl.trans hproves.conclusion⟩

/-- Quantifiers of the same variable on both sides of an implication, one of them below a negation. -/
theorem justified_normalForm_implication :
    let _ := SetOrder.ascendingPositions
    let f : Formula := .imp (.forAll "x" (.rel "R" [.var "x"]))
      (.neg (.exist "x" (.rel "R" [.app "f" [.var "x", .const "c"]])))
    ∃ c s', (normalForm f).run.run ⟨0, 0⟩ = (.ok c, s') ∧
      (∀ schema, schema ∈ c.proof.assumptions ↔
        schema ∈ Axioms.basic ∨ schema ∈ Axioms.quantification) ∧
      Justified False c.proof.assumptions c.proof.lines ∧
      ∃ ls l, c.proof.lines = ls ++ [l] ∧ l.formula = .equivalence f c.formula := by
  intro _ f
  have hwf : f.WellFormed := by decide
  have hconstants : hole ∉ f.constantNames := by decide
  have hvars : ∀ x ∈ f.variableNames, x.toList.head? ≠ some 'z' := by decide
  exact justified_normalForm hwf (fun h => hconstants ((mem_constants hwf).1 h))
    (fun x hx => hvars x (mem_vars.1 hx)) ⟨0, 0⟩

/-! ## Quantifiers of both operands -/

/-- Out of the operands of a connective whose variables are named apart all quantifiers are pulled, and no
name is drawn. Those of the left operand come first, turned over if it implies the right one. The result is
proved to be equivalent and has the same outcome in every model with an element. All formulas between, where
quantifiers in front of the operands are taken away, have their variables named apart too. -/
theorem acrossBoth_shape [SetOrder Int] (op : Connective) (ks js : List (Quantifier × String))
    (hl : ∀ k x g, l ≠ .quant k x g) (hr : ∀ k x g, r ≠ .quant k x g)
    (hwf : (Formula.bin op (quantify ks l) (quantify js r)).WellFormed)
    (hhole : hole ∉ (Formula.bin op (quantify ks l) (quantify js r)).constants)
    (hunique : (Formula.bin op (quantify ks l) (quantify js r)).hasUniqueNames = true) (s : FreshNames) :
    (∃ c, (acrossBoth (.bin op (quantify ks l) (quantify js r))).run.run s = (.ok c, s) ∧
      c.formula = quantify (ks.map fun e => (if op = .implies then e.1.dual else e.1, e.2))
        (quantify js (.bin op l r)) ∧
      c.proof.conclusion = .equivalence (.bin op (quantify ks l) (quantify js r)) c.formula ∧
      c.Proves (.bin op (quantify ks l) (quantify js r)) ∧
      ∀ (m : Model) (a : Assignment), m.WellFormed → m.domain ≠ [] → (∀ e ∈ a, e.2 ∈ m.domain) →
        m.evaluate c.formula a = m.evaluate (.bin op (quantify ks l) (quantify js r)) a) ∧
    ∀ ks' js', ks' <:+ ks → js' <:+ js →
      (Formula.bin op (quantify ks' l) (quantify js' r)).hasUniqueNames = true := by
  rw [mem_constants hwf, mem_constantNames_bin, constantNames_quantify, constantNames_quantify,
    not_or] at hhole
  obtain ⟨c, s', hrun, hproves, halike, hformula, rfl⟩ :=
    ensures_acrossBoth (s := s) (.of_ne hl) (.of_ne hr) hhole.1 hhole.2 hwf hunique
  refine ⟨⟨c, hrun, hformula, hproves.conclusion, hproves, fun m a hm hdomain ha => ?_⟩,
    fun ks' js' hks hjs => hasUniqueNames_stripped hks hjs hunique⟩
  refine halike.evaluate_congr hwf ?_ ?_ hm hdomain ha
  · simp only [hformula, terms_quantify, terms]
  · simp only [hformula, relationNodes_quantify, relationNodes]

/-- From `(Ax[Ey[R(x,y)]]->Ez[R(w,z)])` comes `Ex[Ay[Ez[(R(x,y)->R(w,z))]]]`. Both are true where only `0`
has a successor and `w` stands for `1`. -/
theorem acrossBoth_shape_implication :
    let _ := SetOrder.ascendingPositions
    let ks := [(Quantifier.universal, "x"), (.existential, "y")]
    let js := [(Quantifier.existential, "z")]
    let l : Formula := .rel "R" [.var "x", .var "y"]
    let r : Formula := .rel "R" [.var "w", .var "z"]
    let f : Formula := .imp (quantify ks l) (quantify js r)
    let m : Model := ⟨["0", "1"], [], [("R", [["0", "1"]])], []⟩
    ∃ c, (acrossBoth f).run.run ⟨0, 4⟩ = (.ok c, ⟨0, 4⟩) ∧
      c.formula = .quant .existential "x" (.quant .universal "y" (.quant .existential "z" (.imp l r))) ∧
      c.proof.conclusion = .equivalence f c.formula ∧
      m.evaluate f [("w", "1")] = .ok true ∧ m.evaluate c.formula [("w", "1")] = .ok true := by
  intro _ ks js l r f m
  have hmodel : m.WellFormed := ⟨by cbv, by decide⟩
  have hvalue : m.evaluate f [("w", "1")] = .ok true := by cbv
  have hwf : f.WellFormed := by decide
  have hconstants : hole ∉ f.constantNames := by decide
  obtain ⟨⟨c, hrun, hformula, hconclusion, -, hsame⟩, -⟩ :=
    acrossBoth_shape .implies ks js (l := l) (r := r) (by simp [l]) (by simp [r]) hwf
      (fun h => hconstants ((mem_constants hwf).1 h)) (by cbv) ⟨0, 4⟩
  exact ⟨c, hrun, hformula, hconclusion, hvalue,
    (hsame m [("w", "1")] hmodel (by decide) (by decide)).trans hvalue⟩

end Prenex

end FormalLogic.Predicate
