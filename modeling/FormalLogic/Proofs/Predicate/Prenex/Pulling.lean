import FormalLogic.Proofs.Predicate.Prenex.Conversion
import FormalLogic.Proofs.Predicate.Prenex.Equivalence

/-!
# Pulling quantifiers out

Quantifiers stand in front of an operand of a negation or of a connective (`Formula.quantify`). Each of
the three places of an operand is a passage to the front of the whole formula (`Passage`): an axiom moves
one quantifier through it, and may turn it over. From that one step it follows by induction what all
quantifiers in front of the operand become (`Passage.Pulls.ensures_pull`), and that the formula keeps its meaning
if none of them captures a variable (`Passage.alike_quantify`). Out of both operands of a connective the
quantifiers are pulled one operand after the other (`Prenex.ensures_pullBoth`).
-/

namespace FormalLogic.Predicate

namespace Formula

/-- Quantifiers in front of a formula, the first one outermost. -/
def quantify : List (Quantifier × String) → Formula → Formula
  | [], f => f
  | (k, x) :: ks, f => quant k x (quantify ks f)

variable {ks : List (Quantifier × String)} {f g : Formula}

theorem quantify_append (ks ks' : List (Quantifier × String)) (f : Formula) :
    quantify (ks ++ ks') f = quantify ks (quantify ks' f) := by
  induction ks with
  | nil => rfl
  | cons e ks ih => exact congrArg (quant e.1 e.2) ih

@[simp] theorem terms_quantify (ks : List (Quantifier × String)) (f : Formula) :
    (quantify ks f).terms = f.terms := by
  induction ks with
  | nil => rfl
  | cons e ks ih => exact ih

@[simp] theorem relationNodes_quantify (ks : List (Quantifier × String)) (f : Formula) :
    (quantify ks f).relationNodes = f.relationNodes := by
  induction ks with
  | nil => rfl
  | cons e ks ih => exact ih

@[simp] theorem constantNames_quantify (ks : List (Quantifier × String)) (f : Formula) :
    (quantify ks f).constantNames = f.constantNames := by
  rw [constantNames, terms_quantify, constantNames]

@[simp] theorem binders_quantify (ks : List (Quantifier × String)) (f : Formula) :
    (quantify ks f).binders = ks.map Prod.snd ++ f.binders := by
  induction ks with
  | nil => rfl
  | cons e ks ih => exact congrArg (e.2 :: ·) ih

theorem wellFormed_quantify : (quantify ks f).WellFormed ↔
    (∀ e ∈ ks, isVariable e.2 = true) ∧ f.WellFormed := by
  induction ks with
  | nil => simp [quantify]
  | cons e ks ih => rw [quantify, WellFormed, ih, List.forall_mem_cons, and_assoc]

theorem isPrenex_quantify (ks : List (Quantifier × String)) (hf : f.isQuantifierFree = true) :
    (quantify ks f).isPrenex = true := by
  induction ks with
  | nil =>
      cases f with
      | quant k x f => cases hf
      | _ => exact hf
  | cons e ks ih => exact ih

/-- A free variable of what quantifiers stand in front of is bound by them or stays free. -/
theorem mem_freeNames_quantify {y : String} (hy : y ∈ f.freeNames) :
    y ∈ (quantify ks f).freeNames ∨ y ∈ ks.map Prod.snd := by
  induction ks with
  | nil => exact .inl hy
  | cons e ks ih =>
      by_cases hye : y = e.2
      · exact .inr (hye ▸ List.mem_cons_self)
      · exact ih.imp (fun h => mem_freeNames_quant.2 ⟨h, hye⟩) (List.mem_cons_of_mem _)

theorem Alike.quantify (hks : ∀ e ∈ ks, isVariable e.2 = true) (h : Alike f g) :
    Alike (quantify ks f) (quantify ks g) := by
  induction ks with
  | nil => exact h
  | cons e ks ih =>
      obtain ⟨he, hks⟩ := List.forall_mem_cons.1 hks
      exact (ih hks).quant e.1 he

/-- No quantifier stands in front. -/
def Unquantified (f : Formula) : Prop :=
  Prenex.stripQuantifiers f = ([], f)

theorem Unquantified.of_ne (h : ∀ k x g, f ≠ quant k x g) : f.Unquantified := by
  cases f with
  | quant k x f => exact absurd rfl (h k x f)
  | _ => rfl

theorem Unquantified.of_isQuantifierFree (h : f.isQuantifierFree = true) : f.Unquantified := by
  cases f with
  | quant k x f => cases h
  | _ => rfl

theorem stripQuantifiers_quantify (ks : List (Quantifier × String)) (hf : f.Unquantified) :
    Prenex.stripQuantifiers (quantify ks f) = (ks, f) := by
  induction ks with
  | nil => exact hf
  | cons e ks ih => rw [quantify, Prenex.stripQuantifiers, ih]

/-! ## Variables that are named apart -/

variable {l r : Formula} {op : Connective} {k : Quantifier} {x : String} {seen seen' : List String}

theorem collectBound_eq_some : f.collectBound seen = some seen' ↔
    (f.binders.Nodup ∧ ∀ x ∈ f.binders, x ∉ seen) ∧ seen' = f.binders.reverse ++ seen := by
  induction f generalizing seen seen' with
  | equal l r => simp [collectBound, binders, eq_comm]
  | rel name ts => simp [collectBound, binders, eq_comm]
  | neg f ih => exact ih
  | bin op l r ihl ihr =>
      simp only [collectBound, binders, Option.bind_eq_some_iff, ihl, ihr, List.nodup_append,
        List.reverse_append, List.append_assoc]
      constructor
      · rintro ⟨_, ⟨⟨hl, hlseen⟩, rfl⟩, ⟨hr, hrseen⟩, rfl⟩
        refine ⟨⟨⟨hl, hr, fun x hx y hy hxy => ?_⟩, fun x hx => ?_⟩, rfl⟩
        · exact hrseen y hy (List.mem_append_left _ (List.mem_reverse.2 (hxy ▸ hx)))
        · rcases List.mem_append.1 hx with hx | hx
          · exact hlseen x hx
          · exact fun h => hrseen x hx (List.mem_append_right _ h)
      · rintro ⟨⟨⟨hl, hr, hlr⟩, hseen⟩, rfl⟩
        refine ⟨_, ⟨⟨hl, fun x hx => hseen x (List.mem_append_left _ hx)⟩, rfl⟩, ⟨hr, ?_⟩, rfl⟩
        intro x hx h
        rcases List.mem_append.1 h with h | h
        · exact hlr x (List.mem_reverse.1 h) x hx rfl
        · exact hseen x (List.mem_append_right _ hx) h
  | quant k x f ih =>
      rw [collectBound, binders, List.nodup_cons, List.forall_mem_cons, List.reverse_cons,
        List.append_assoc, List.singleton_append]
      by_cases hx : x ∈ seen
      · simp [hx]
      · rw [if_neg (by simpa using hx), ih]
        simp only [List.mem_cons, not_or]
        refine and_congr_left fun _ => ⟨fun h => ?_, fun h => ?_⟩
        · exact ⟨⟨fun hmem => (h.2 x hmem).1 rfl, h.1⟩, hx, fun y hy => (h.2 y hy).2⟩
        · exact ⟨h.1.2, fun y hy => ⟨fun hyx => h.1.1 (hyx ▸ hy), h.2.2 y hy⟩⟩
  | bare t => simp [collectBound, binders, eq_comm]

theorem hasUniqueNames_iff : f.hasUniqueNames = true ↔
    f.binders.Nodup ∧ ∀ x ∈ f.binders, x ∉ f.freeNames := by
  simp only [hasUniqueNames, Option.isSome_iff_exists, collectBound_eq_some, exists_and_left,
    exists_eq, and_true, mem_freeVariables]

/-- Variables of a part are named apart if those of the whole are, and whatever is free in the part is free
in the whole or bound outside the part. -/
theorem hasUniqueNames_of_part {g : Formula} (xs : List String)
    (hbinders : f.binders.Perm (xs ++ g.binders))
    (hfree : ∀ y ∈ g.freeNames, y ∈ xs ∨ y ∈ f.freeNames) (h : f.hasUniqueNames = true) :
    g.hasUniqueNames = true := by
  obtain ⟨hnodup, hapart⟩ := hasUniqueNames_iff.1 h
  obtain ⟨-, hnodup, hdisjoint⟩ := List.nodup_append.1 (hbinders.nodup_iff.1 hnodup)
  refine hasUniqueNames_iff.2 ⟨hnodup, fun y hy hyfree => ?_⟩
  rcases hfree y hyfree with hyxs | hyfree
  · exact hdisjoint y hyxs y hy rfl
  · exact hapart y (hbinders.mem_iff.2 (List.mem_append_right _ hy)) hyfree

theorem hasUniqueNames_left (h : (bin op l r).hasUniqueNames = true) : l.hasUniqueNames = true :=
  hasUniqueNames_of_part r.binders List.perm_append_comm (fun _ hy => .inr (List.mem_append_left _ hy)) h

theorem hasUniqueNames_right (h : (bin op l r).hasUniqueNames = true) : r.hasUniqueNames = true :=
  hasUniqueNames_of_part l.binders (.refl _) (fun _ hy => .inr (List.mem_append_right _ hy)) h

theorem hasUniqueNames_body (h : (quant k x f).hasUniqueNames = true) : f.hasUniqueNames = true := by
  refine hasUniqueNames_of_part [x] (.refl _) (fun y hy => ?_) h
  by_cases hyx : y = x
  · exact .inl (List.mem_singleton.2 hyx)
  · exact .inr (mem_freeNames_quant.2 ⟨hy, hyx⟩)

/-- Variables stay named apart when quantifiers in front of operands are taken away. -/
theorem hasUniqueNames_stripped {ks ks' js js' : List (Quantifier × String)} (hks : ks' <:+ ks)
    (hjs : js' <:+ js) (h : (bin op (quantify ks l) (quantify js r)).hasUniqueNames = true) :
    (bin op (quantify ks' l) (quantify js' r)).hasUniqueNames = true := by
  obtain ⟨is, rfl⟩ := hks
  obtain ⟨is', rfl⟩ := hjs
  refine hasUniqueNames_of_part (is.map Prod.snd ++ is'.map Prod.snd) ?_ (fun y hy => ?_) h
  · simp only [binders, binders_quantify, List.map_append, List.append_assoc]
    refine List.Perm.append_left _ ?_
    simpa only [List.append_assoc] using
      List.perm_append_comm_assoc (ks'.map Prod.snd ++ l.binders) (is'.map Prod.snd) _
  · rw [freeNames_bin, List.mem_append] at hy
    rw [freeNames_bin, List.mem_append, quantify_append, quantify_append, List.mem_append]
    rcases hy with hy | hy
    · exact (mem_freeNames_quantify hy).elim (fun hy => .inr (.inl hy)) fun hy => .inl (.inl hy)
    · exact (mem_freeNames_quantify hy).elim (fun hy => .inr (.inr hy)) fun hy => .inl (.inr hy)

/-- Quantifiers in front of operands whose variables are named apart capture nothing. -/
theorem notMem_of_hasUniqueNames {ks js : List (Quantifier × String)}
    (h : (bin op (quantify ks l) (quantify js r)).hasUniqueNames = true) :
    (∀ e ∈ ks, e.2 ∉ (quantify js r).freeNames) ∧ ∀ e ∈ js, e.2 ∉ l.freeNames := by
  obtain ⟨hnodup, hfree⟩ := hasUniqueNames_iff.1 h
  have hbound : ∀ {is : List (Quantifier × String)} {f : Formula} {y : String},
      y ∈ is.map Prod.snd → y ∈ (quantify is f).binders := fun hy => by
    rw [binders_quantify]
    exact List.mem_append_left _ hy
  refine ⟨fun e he hmem => ?_, fun e he hmem => ?_⟩
  · exact hfree e.2 (List.mem_append_left _ (hbound (List.mem_map_of_mem he)))
      (List.mem_append_right _ hmem)
  · have he := hbound (f := r) (List.mem_map_of_mem he)
    rcases mem_freeNames_quantify hmem with hmem | hmem
    · exact hfree e.2 (List.mem_append_right _ he) (List.mem_append_left _ hmem)
    · exact (List.nodup_append.1 hnodup).2.2 e.2 (hbound hmem) e.2 he rfl

end Formula

open Formula Proving Prenex

theorem Prenex.checkUniqueNames_eq_ok {f : Formula} (hf : f.WellFormed) (hunique : f.hasUniqueNames = true) :
    checkUniqueNames f = .ok () := by
  rw [checkUniqueNames, hf.named_eq_ok, ok_bind, hunique]
  rfl

/-! ## One operand -/

/-- A place of an operand from which quantifiers are pulled to the front: what stands around it, how a
quantifier turns on its way, the axiom that moves it, and with what the axiom is instantiated. -/
structure Passage where
  around : Formula → Formula
  turn : Quantifier → Quantifier
  moving : Quantifier → Schema
  instances : String → Formula → Instances
  moving_mem : ∀ k, moving k ∈ Axioms.quantification
  wellFormed : ∀ f, f.WellFormed → (around f).WellFormed
  hole_notMem : ∀ f, hole ∉ f.constantNames → hole ∉ (around f).constantNames
  moved : ∀ k x f, f.WellFormed → isVariable x = true → hole ∉ f.constantNames →
    Instances.Proper (instances x (f.abstraction x)) ∧
      (moving k).instantiate (instances x (f.abstraction x)) =
        .ok (.equivalence (around (.quant k x f)) (.quant (turn k) x (around f)))

namespace Passage

/-- A conversion pulls the quantifiers of an operand through a passage, one after the other, and first
makes a check at each of them. -/
structure Pulls [SetOrder Int] (P : Passage) (check : Formula → Outcome Unit)
    (pull : Formula → Fallible Converted) : Prop where
  quant : ∀ k x f, pull (.quant k x f) = do
    check (.quant k x f)
    let below ← pull f
    pullOver (P.around (.quant k x f)) (P.moving k) (P.instances x (← abstracted x f)) (P.turn k) x below
  unquantified : ∀ f, f.Unquantified → pull f = do
    check f
    unchanged (P.around f)

variable {f : Formula} {ks : List (Quantifier × String)} {s : FreshNames}

/-- What quantifiers become on their way. -/
def turned (P : Passage) (ks : List (Quantifier × String)) : List (Quantifier × String) :=
  ks.map (Prod.map P.turn id)

@[simp] theorem map_snd_turned (P : Passage) (ks : List (Quantifier × String)) :
    (P.turned ks).map Prod.snd = ks.map Prod.snd := by
  simp [turned, Function.comp_def]

theorem isVariable_turned (P : Passage) (hks : ∀ e ∈ ks, isVariable e.2 = true) :
    ∀ e ∈ P.turned ks, isVariable e.2 = true := by
  intro e' he'
  obtain ⟨e, he, rfl⟩ := List.mem_map.1 he'
  exact hks e he

/-- What quantifiers are pulled out to can be abstracted further. -/
theorem wellFormed_pulled (P : Passage) (hf : f.WellFormed) (hhole : hole ∉ f.constantNames)
    (hks : ∀ e ∈ ks, isVariable e.2 = true) :
    (quantify (P.turned ks) (P.around f)).WellFormed ∧
      hole ∉ (quantify (P.turned ks) (P.around f)).constantNames := by
  refine ⟨wellFormed_quantify.2 ⟨P.isVariable_turned hks, P.wellFormed f hf⟩, ?_⟩
  rw [constantNames_quantify]
  exact P.hole_notMem f hhole

/-- All quantifiers in front of an operand are pulled out, in their order, if each check is passed. -/
theorem Pulls.ensures_pull [SetOrder Int] {P : Passage} {check : Formula → Outcome Unit}
    {pull : Formula → Fallible Converted} (hpull : P.Pulls check pull) (hunquantified : f.Unquantified)
    (hf : f.WellFormed) (hhole : hole ∉ f.constantNames) (hks : ∀ e ∈ ks, isVariable e.2 = true)
    (hcheck : ∀ ks', ks' <:+ ks → check (quantify ks' f) = .ok ()) :
    Fallible.Ensures s (pull (quantify ks f)) fun c s' =>
      c.Proves (P.around (quantify ks f)) ∧
        c.formula = quantify (P.turned ks) (P.around f) ∧ s' = s := by
  induction ks with
  | nil =>
      rw [quantify, hpull.unquantified f hunquantified]
      exact Fallible.ensures_lift_bind (hcheck [] List.suffix_rfl) (ensures_unchanged (P.around f) s)
  | cons e ks ih =>
      obtain ⟨he, hks⟩ := List.forall_mem_cons.1 hks
      have hbody : (quantify ks f).WellFormed := wellFormed_quantify.2 ⟨hks, hf⟩
      have hbodyhole : hole ∉ (quantify ks f).constantNames := by rwa [constantNames_quantify]
      obtain ⟨hpulled, hpulledhole⟩ := P.wellFormed_pulled hf hhole hks
      -- the quantifiers below the outermost one come out first, then the axiom moves that one
      rw [quantify, hpull.quant]
      refine Fallible.ensures_lift_bind (hcheck (e :: ks) List.suffix_rfl) ?_
      refine Fallible.ensures_bind
        (ih hks fun ks' hks' => hcheck ks' (hks'.trans (List.suffix_cons e ks))) ?_
      rintro below _ ⟨hproves, hformula, rfl⟩
      refine Fallible.ensures_lift_bind (abstracted_eq_ok hbody he) ?_
      obtain ⟨hm, hmoved⟩ := P.moved e.1 e.2 _ hbody he hbodyhole
      exact ensures_pullOver (P.wellFormed _ hbody) hpulled he (P.hole_notMem _ hbodyhole)
        hpulledhole (P.moving_mem e.1) hm hmoved hproves hformula

/-- If each quantifier keeps the meaning on its way, all of them do. -/
theorem alike_quantify (P : Passage) (avoided : List String)
    (hstep : ∀ k x f, (Formula.quant k x f).WellFormed → x ∉ avoided →
      (P.around (.quant k x f)).Alike (.quant (P.turn k) x (P.around f)))
    (hf : f.WellFormed) (hks : ∀ e ∈ ks, isVariable e.2 = true) (havoided : ∀ e ∈ ks, e.2 ∉ avoided) :
    (P.around (quantify ks f)).Alike (quantify (P.turned ks) (P.around f)) := by
  induction ks with
  | nil => exact .refl (P.wellFormed f hf)
  | cons e ks ih =>
      obtain ⟨he, hks⟩ := List.forall_mem_cons.1 hks
      obtain ⟨heavoided, havoided⟩ := List.forall_mem_cons.1 havoided
      exact (hstep e.1 e.2 _ ⟨he, wellFormed_quantify.2 ⟨hks, hf⟩⟩ heavoided).trans
        ((ih hks havoided).quant _ he)

/-! ### Places of operands -/

section Places

variable {g : Formula} {x : String} (hf : f.WellFormed) (hx : isVariable x = true)
include hf hx

theorem operand_instances {m : Instances} (hm : m = [("R", .ofFormula f), ("x", .text x)]) :
    Instances.Proper m ∧ (∀ e ∈ m, e.1 ∈ ["R", "x"]) ∧ Instances.terms m = [("x", .var x)] ∧
      Instances.relations m = [("R", f)] := by
  have hnames : isRelation "R" = true ∧ isVariable "x" = true := by decide
  rw [Instance.ofFormula_eq hf] at hm
  subst hm
  simp [Instances.Proper, Instances.terms, Instances.relations, Instance.Suits, hnames, hf, hx]

theorem operands_instances (hg : g.WellFormed) {m : Instances}
    (hm : m = [("R", .ofFormula f), ("x", .text x), ("Q", .ofFormula g)]) :
    Instances.Proper m ∧ (∀ e ∈ m, e.1 ∈ ["Q", "R", "x"]) ∧
      Instances.terms m = [("x", .var x)] ∧ Instances.relations m = [("R", f), ("Q", g)] := by
  have hnames : isRelation "R" = true ∧ isRelation "Q" = true ∧ isVariable "x" = true := by decide
  rw [Instance.ofFormula_eq hf, Instance.ofFormula_eq hg] at hm
  subst hm
  simp [Instances.Proper, Instances.terms, Instances.relations, Instance.Suits, hnames, hf, hg, hx]

end Places

/-- Out of a negation. -/
def negation : Passage where
  around := .neg
  turn := Quantifier.dual
  moving := Axioms.acrossNegation
  instances x f := [("R", .ofFormula f), ("x", .text x)]
  moving_mem k := (Axioms.moving_mem .and k).1
  wellFormed _ hf := hf
  hole_notMem _ hhole := hhole
  moved k x f hf hx hhole := by
    obtain ⟨hm, hkeys, hterms, hrelations⟩ := operand_instances (abstraction_wellFormed hf) hx rfl
    exact ⟨hm, Axioms.instantiate_acrossNegation hm hf hx hhole hkeys hterms hrelations⟩

theorem pulls_negation [SetOrder Int] : negation.Pulls (fun _ => .ok ()) pullNegation where
  quant k x f := rfl
  unquantified f hf := by
    cases f with
    | quant k x f => cases hf
    | _ => rfl

/-- Out of the left operand of a connective. -/
def left (op : Connective) (r : Formula) (hr : r.WellFormed) (hrhole : hole ∉ r.constantNames) :
    Passage where
  around l := .bin op l r
  turn := Axioms.leftQuantifier op
  moving := Axioms.fromLeft op
  instances x f := [("R", .ofFormula f), ("x", .text x), ("Q", .ofFormula r)]
  moving_mem k := (Axioms.moving_mem op k).2.1
  wellFormed _ hl := ⟨hl, hr⟩
  hole_notMem l hhole := by simp [hhole, hrhole]
  moved k x f hf hx hhole := by
    obtain ⟨hm, hkeys, hterms, hrelations⟩ :=
      operands_instances (abstraction_wellFormed hf) hx hr rfl
    exact ⟨hm, Axioms.instantiate_fromLeft hm hf hx hhole hkeys hterms hrelations⟩

theorem pulls_left [SetOrder Int] (op : Connective) {r : Formula} (hr : r.WellFormed)
    (hrhole : hole ∉ r.constantNames) :
    (left op r hr hrhole).Pulls (fun l => checkUniqueNames (.bin op l r)) (pullLeft op r) where
  quant k x l := rfl
  unquantified l hl := by
    cases l with
    | quant k x l => cases hl
    | _ => rfl

/-- Out of the right operand of a connective. -/
def right (op : Connective) (l : Formula) (hl : l.WellFormed) (hlhole : hole ∉ l.constantNames) :
    Passage where
  around r := .bin op l r
  turn := id
  moving := Axioms.fromRight op
  instances x f := [("R", .ofFormula f), ("x", .text x), ("Q", .ofFormula l)]
  moving_mem k := (Axioms.moving_mem op k).2.2.1
  wellFormed _ hr := ⟨hl, hr⟩
  hole_notMem r hhole := by simp [hhole, hlhole]
  moved k x f hf hx hhole := by
    obtain ⟨hm, hkeys, hterms, hrelations⟩ :=
      operands_instances (abstraction_wellFormed hf) hx hl rfl
    exact ⟨hm, Axioms.instantiate_fromRight hm hf hx hhole hkeys hterms hrelations⟩

theorem pulls_right [SetOrder Int] (op : Connective) {l : Formula} (hl : l.WellFormed)
    (hlhole : hole ∉ l.constantNames) :
    (right op l hl hlhole).Pulls (fun r => checkUniqueNames (.bin op l r)) (pullRight op l) where
  quant k x r := rfl
  unquantified r hr := by
    cases r with
    | quant k x r => cases hr
    | _ => rfl

theorem turned_right (op : Connective) (l : Formula) (hl : l.WellFormed)
    (hlhole : hole ∉ l.constantNames) (ks : List (Quantifier × String)) :
    (right op l hl hlhole).turned ks = ks := by
  simp [turned, right]

end Passage

/-! ## Both operands -/

namespace Prenex

variable {op : Connective} {f g l r : Formula} {ks js : List (Quantifier × String)} {s : FreshNames}

/-- Quantifiers are put in front of both sides of an equivalence, one after the other. -/
theorem ensures_quantifyAll {p : Prover} (hp : p.Moves) (hf : f.WellFormed) (hg : g.WellFormed)
    (hfhole : hole ∉ f.constantNames) (hghole : hole ∉ g.constantNames)
    (hks : ∀ e ∈ ks, isVariable e.2 = true) {line : Int} (hline : p.Shows line (.equivalence f g)) :
    Proving.Ensures False p s (quantifyAll line (.equivalence f g) ks) fun i p' s' =>
      s' = s ∧ i.2 = .equivalence (quantify ks.reverse f) (quantify ks.reverse g) ∧
        p'.Shows i.1 i.2 := by
  induction ks generalizing p f g line with
  | nil => exact ensures_pure ⟨rfl, rfl, hline⟩
  | cons e ks ih =>
      obtain ⟨he, hks⟩ := List.forall_mem_cons.1 hks
      refine ensures_bind (ensures_quantifyBoth hf hg he hfhole hghole hp hline) ?_
      rintro ⟨i, _⟩ p' _ hderives ⟨rfl, rfl, hends⟩
      have hf' : (Formula.quant e.1 e.2 f).WellFormed := ⟨he, hf⟩
      have hg' : (Formula.quant e.1 e.2 g).WellFormed := ⟨he, hg⟩
      rw [List.reverse_cons, quantify_append, quantify_append]
      exact ih (hderives.moves hp) hf' hg' hfhole hghole hks hends.shows

/-- Quantifiers are pulled out of both operands of a connective, those of the left one come first. -/
theorem ensures_pullBoth [SetOrder Int] (hlfree : l.Unquantified) (hrfree : r.Unquantified)
    (hl : (quantify ks l).WellFormed) (hr : (quantify js r).WellFormed)
    (hlhole : hole ∉ l.constantNames) (hrhole : hole ∉ r.constantNames)
    (hunique : (Formula.bin op (quantify ks l) (quantify js r)).hasUniqueNames = true) :
    Fallible.Ensures s (pullBoth op (quantify ks l) (quantify js r)) fun c s' =>
      c.Proves (.bin op (quantify ks l) (quantify js r)) ∧
        c.formula = quantify (ks.map (Prod.map (Axioms.leftQuantifier op) id))
          (quantify js (.bin op l r)) ∧ s' = s := by
  obtain ⟨hks, hl'⟩ := wellFormed_quantify.1 hl
  obtain ⟨hjs, hr'⟩ := wellFormed_quantify.1 hr
  have hrhole' : hole ∉ (quantify js r).constantNames := by rwa [constantNames_quantify]
  let left := Passage.left op (quantify js r) hr hrhole'
  let right := Passage.right op l hl' hlhole
  have hright : right.turned js = js := Passage.turned_right op l hl' hlhole js
  -- whichever quantifiers are still in front, the variables are named apart
  have hcheckl : ∀ ks', ks' <:+ ks →
      checkUniqueNames (.bin op (quantify ks' l) (quantify js r)) = .ok () := fun ks' hks' =>
    checkUniqueNames_eq_ok ⟨wellFormed_quantify.2 ⟨fun e he => hks e (hks'.subset he), hl'⟩, hr⟩
      (hasUniqueNames_stripped hks' List.suffix_rfl hunique)
  have hcheckr : ∀ js', js' <:+ js → checkUniqueNames (.bin op l (quantify js' r)) = .ok () :=
    fun js' hjs' => checkUniqueNames_eq_ok
      ⟨hl', wellFormed_quantify.2 ⟨fun e he => hjs e (hjs'.subset he), hr'⟩⟩
      (hasUniqueNames_stripped (List.nil_suffix : [] <:+ ks) hjs' hunique)
  rw [pullBoth]
  refine Fallible.ensures_lift_bind (hcheckl ks List.suffix_rfl) ?_
  refine Fallible.ensures_bind
    ((Passage.pulls_left op hr hrhole').ensures_pull hlfree hl' hlhole hks hcheckl) ?_
  rintro c s ⟨hc, hcformula, rfl⟩
  have hstrip : stripQuantifiers c.formula = (left.turned ks, .bin op l (quantify js r)) := by
    rw [hcformula]
    exact stripQuantifiers_quantify _ rfl
  rw [hstrip]
  have hpullr := (Passage.pulls_right op hl' hlhole).ensures_pull hrfree hr' hrhole hjs hcheckr (s := s)
  cases ks with
  | nil =>
      -- nothing is pulled out of the left operand, so the right one is converted as it stands
      refine Fallible.ensures_bind hpullr ?_
      rintro c' s ⟨hc', hc'formula, rfl⟩
      rw [hright] at hc'formula
      refine ensures_convert (Q := fun g s' => g = quantify js (.bin op l r) ∧ s' = s) fun p hp => ?_
      refine (adds_cite hp hc).bind fun first p₁ hd₁ _ => ?_
      refine (adds_cite (hd₁.moves hp) hc').bind fun second p₂ _ hsecond => ?_
      exact ensures_pure ⟨⟨second, hsecond⟩, hc'formula, rfl⟩
  | cons e ks =>
      -- what is pulled out of the right operand goes below the quantifiers of the left one
      refine Fallible.ensures_bind hpullr ?_
      rintro c' s ⟨hc', hc'formula, rfl⟩
      obtain ⟨hpulled, hpulledhole⟩ := right.wellFormed_pulled hr' hrhole hjs
      rw [← hc'formula] at hpulled hpulledhole
      rw [hright] at hc'formula
      have hvars : ∀ e' ∈ (left.turned (e :: ks)).reverse, isVariable e'.2 = true :=
        fun e' he' => left.isVariable_turned hks e' (List.mem_reverse.1 he')
      refine ensures_convert (Q := fun g s' =>
        g = quantify (left.turned (e :: ks)) (quantify js (.bin op l r)) ∧ s' = s) fun p hp => ?_
      refine (adds_cite hp hc).bind fun first p₁ hd₁ hfirst => ?_
      have hp₁ := hd₁.moves hp
      refine (adds_cite hp₁ hc').bind fun second p₂ hd₂ hsecond => ?_
      rw [hc'.conclusion]
      refine ensures_bind (ensures_quantifyAll (hd₂.moves hp₁) (right.wellFormed _ hr) hpulled
        (right.hole_notMem _ hrhole') hpulledhole hvars hsecond.shows) ?_
      rintro ⟨last, _⟩ p₃ _ hd₃ ⟨rfl, rfl, hlast⟩
      rw [List.reverse_reverse] at hlast ⊢
      refine ensures_lift_bind (sides_equivalence _ _) ?_
      rw [hcformula] at hfirst
      exact (adds_trans (hfirst.shows.mono (hd₂.trans hd₃)) hlast).bind
        fun i p₄ _ hends => ensures_pure ⟨⟨i, hends⟩, congrArg _ hc'formula, rfl⟩

/-- Both operands keep their meaning if no quantifier of one captures a variable of the other. -/
theorem alike_pullBoth (op : Connective) (hl : (quantify ks l).WellFormed)
    (hr : (quantify js r).WellFormed)
    (hlhole : hole ∉ l.constantNames) (hrhole : hole ∉ r.constantNames)
    (hks : ∀ e ∈ ks, e.2 ∉ (quantify js r).freeNames) (hjs : ∀ e ∈ js, e.2 ∉ l.freeNames) :
    (Formula.bin op (quantify ks l) (quantify js r)).Alike
      (quantify (ks.map (Prod.map (Axioms.leftQuantifier op) id)) (quantify js (.bin op l r))) := by
  obtain ⟨hksvars, hl'⟩ := wellFormed_quantify.1 hl
  obtain ⟨hjsvars, hr'⟩ := wellFormed_quantify.1 hr
  have hrhole' : hole ∉ (quantify js r).constantNames := by rwa [constantNames_quantify]
  let left := Passage.left op (quantify js r) hr hrhole'
  let right := Passage.right op l hl' hlhole
  have houter : (left.around (quantify ks l)).Alike (quantify (left.turned ks) (left.around l)) :=
    left.alike_quantify _ (fun _ _ _ hf hx => .fromLeft op hf hr hx) hl' hksvars hks
  have hinner : (right.around (quantify js r)).Alike
      (quantify (right.turned js) (right.around r)) :=
    right.alike_quantify _ (fun _ _ _ hf hx => .fromRight op hl' hf hx) hr' hjsvars hjs
  have hright : right.turned js = js := Passage.turned_right op l hl' hlhole js
  rw [hright] at hinner
  exact houter.trans (hinner.quantify (left.isVariable_turned hksvars))

end Prenex

end FormalLogic.Predicate
