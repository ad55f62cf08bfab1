import FormalLogic.Proofs.Propositional.Inlining
import FormalLogic.Proofs.Propositional.Merging

/-!
# Inlining by a search that does not go back

The second way of inlining looks up what the lemma assumes among the lines that a use of the lemma cites, and
goes on where it found the last one. So it finds all of them exactly if they come in the order in which
they are cited, up to repetitions (`InOrder`). What it puts in place of a use is right then
(`Merging.inlinedLines_cases`), and so is the whole proof, if this holds of all uses. If it fails for one of
them, the search runs out of lines (`Merging.inline_of_suits`).
-/

namespace FormalLogic.Propositional

open Formula

/-! ## Formulas in order -/

/-- Formulas that are found one after the other among those available, by a search that goes on where it
has found the last one. -/
inductive InOrder : List Formula → List Formula → Prop
  | nil (available : List Formula) : InOrder available []
  | take {f : Formula} {available wanted : List Formula} (h : InOrder (f :: available) wanted) :
      InOrder (f :: available) (f :: wanted)
  | skip {g : Formula} {available wanted : List Formula} (h : InOrder available wanted) :
      InOrder (g :: available) wanted

section Order

variable {f g : Formula} {available wanted : List Formula}

theorem not_inOrder_nil : ¬ InOrder [] (f :: wanted) := by
  intro h
  cases h

theorem InOrder.of_cons (h : InOrder available (f :: wanted)) : InOrder available wanted := by
  induction available with
  | nil => cases h
  | cons g available ih =>
      cases h with
      | take h => exact h
      | skip h => exact .skip (ih h)

/-- A formula that is available first can as well be found there. -/
theorem inOrder_cons_self :
    InOrder (f :: available) (f :: wanted) ↔ InOrder (f :: available) wanted :=
  ⟨InOrder.of_cons, .take⟩

theorem inOrder_cons_of_ne (hne : g ≠ f) :
    InOrder (g :: available) (f :: wanted) ↔ InOrder available (f :: wanted) := by
  constructor
  · intro h
    cases h with
    | take => exact absurd rfl hne
    | skip h => exact h
  · exact .skip

theorem InOrder.map (h : InOrder available wanted) (g : Formula → Formula) :
    InOrder (available.map g) (wanted.map g) := by
  induction h with
  | nil => exact .nil _
  | take _ ih => exact .take ih
  | skip _ ih => exact .skip ih

end Order

/-- The formulas of the lines that are assumptions. -/
def assumedFormulas (lines : List Line) : List Formula :=
  (lines.filter Line.isAssumption).map Line.formula

theorem assumedFormulas_cons_of_none {l : Line} (lines : List Line) (h : l.inference = none) :
    assumedFormulas (l :: lines) = l.formula :: assumedFormulas lines := by
  simp [assumedFormulas, Line.isAssumption, h]

theorem assumedFormulas_cons_of_some {l : Line} {inf : Inference} (lines : List Line)
    (h : l.inference = some inf) : assumedFormulas (l :: lines) = assumedFormulas lines := by
  simp [assumedFormulas, Line.isAssumption, h]

theorem assumedFormulas_subst (σ : String → Formula) (lines : List Line) :
    assumedFormulas (lines.map (Line.subst σ)) = (assumedFormulas lines).map (Formula.subst σ) := by
  rw [assumedFormulas, List.filter_map, List.map_map, assumedFormulas, List.map_map]
  rfl

/-- What a proof assumes in its lines are assumptions of its statement. -/
theorem Derivation.assumedFormulas_subset {as : List Formula} {rules : List InferenceRule}
    {lines : List Line} (h : Derivation as rules lines) : assumedFormulas lines ⊆ as := by
  intro f hf
  obtain ⟨l, hl, rfl⟩ := List.mem_map.1 hf
  obtain ⟨hl, hassumption⟩ := List.mem_filter.1 hl
  obtain ⟨k, hk⟩ := List.getElem?_of_mem hl
  have hjustified := (h k l hk).justified
  rwa [Option.isNone_iff_eq_none.1 hassumption] at hjustified

/-! ## The lines of a lemma in the main proof -/

section Lines

variable {as bs : List Formula} {rules rules' : List InferenceRule}
variable {front done middle cited rest : List Line} {premises : List Int} {l m : Line} {main : Proof}

/-- A line of the front can be repeated. -/
theorem Inlined.again (h : Inlined as rules front done middle) (hm : m ∈ front)
    (hformula : m.formula = l.formula) : Inlined as rules front (done ++ [l]) (middle ++ [m]) := by
  obtain ⟨k, hk⟩ := List.getElem?_of_mem hm
  have hlt : k < front.length := (List.getElem?_eq_some_iff.1 hk).1
  have hfollows := h.derivation k m (by rw [List.getElem?_append_left hlt, hk])
  have hsame : m.mapPremises id = m := by simp [Line.mapPremises]
  refine h.concat (hsame ▸ hfollows.mapPremises (φ := id) (fun _ => rfl) fun j f hj => ?_) hformula ?_
  · exact (shows_take.1 hj).2
  · exact List.mem_map_of_mem (List.mem_append_left _ hm)

namespace Merging

/-- The search for a formula either finds it, and goes on among the cited lines from there on, or it
fails, and then the formula cannot be found in order. -/
theorem findCited_cases (f : Formula)
    (hcited : List.Forall₂ (fun j l => fetch main.lines j = .ok l) premises cited) :
    (∃ m premises' cited', findCited main f premises = .ok (m, premises') ∧ m.formula = f ∧ m ∈ cited ∧
        cited' ⊆ cited ∧ List.Forall₂ (fun j l => fetch main.lines j = .ok l) premises' cited' ∧
        ∀ fs, InOrder (cited.map Line.formula) (f :: fs) ↔ InOrder (cited'.map Line.formula) fs) ∨
      findCited main f premises = .error .outOfRange ∧
        ∀ fs, ¬ InOrder (cited.map Line.formula) (f :: fs) := by
  induction hcited with
  | nil => exact .inr ⟨rfl, fun _ => not_inOrder_nil⟩
  | @cons j l premises cited hj hcited ih =>
      rw [findCited, hj, ok_bind, List.map_cons]
      by_cases hl : l.formula = f
      · subst hl
        rw [if_pos rfl]
        exact .inl ⟨l, _, l :: cited, rfl, rfl, List.mem_cons_self, List.Subset.refl _, .cons hj hcited,
          fun _ => inOrder_cons_self⟩
      · rw [if_neg hl]
        rcases ih with ⟨m, premises', cited', hfind, hm, hmem, hsubset, hcited', horder⟩ | ⟨hfind, hnone⟩
        · exact .inl ⟨m, premises', cited', hfind, hm, List.mem_cons_of_mem l hmem,
            List.Subset.trans hsubset (List.subset_cons_self l cited), hcited',
            fun fs => (inOrder_cons_of_ne hl).trans (horder fs)⟩
        · exact .inr ⟨hfind, fun fs h => hnone fs ((inOrder_cons_of_ne hl).1 h)⟩

/-- The lines of the lemma are put in their place if what they assume is cited in order, and otherwise
the search runs out of lines. -/
theorem inlinedLines_cases (h : Inlined as rules front done middle)
    (hcited : List.Forall₂ (fun j l => fetch main.lines j = .ok l) premises cited) (hfront : cited ⊆ front)
    (hrest : Derivation bs rules' (done ++ rest)) (hrules : rules' ⊆ rules) :
    InOrder (cited.map Line.formula) (assumedFormulas rest) ∧
        (∃ more, inlinedLines main front.length premises rest = .ok more ∧
          Inlined as rules front (done ++ rest) (middle ++ more)) ∨
      ¬ InOrder (cited.map Line.formula) (assumedFormulas rest) ∧
        inlinedLines main front.length premises rest = .error .outOfRange := by
  induction rest generalizing done middle premises cited with
  | nil => exact .inl ⟨.nil _, [], rfl, by simpa using h⟩
  | cons l rest ih =>
      have hl : Follows bs rules' done l := by
        have := hrest done.length l (by simp)
        rwa [List.take_left] at this
      rw [List.append_cons done l rest] at hrest ⊢
      rw [inlinedLines]
      cases hinf : l.inference with
      | none =>
          rw [assumedFormulas_cons_of_none rest hinf, Line.isAssumption, hinf, Option.isNone_none,
            if_pos rfl]
          rcases findCited_cases l.formula hcited with
            ⟨m, premises', cited', hfind, hm, hmem, hsubset, hcited', horder⟩ | ⟨hfind, hnone⟩
          · rw [hfind, ok_bind, horder]
            rcases ih (h.again (hfront hmem) hm) hcited' (List.Subset.trans hsubset hfront) hrest with
              ⟨hin, more, hmore, hinlined⟩ | ⟨hout, hmore⟩
            · refine .inl ⟨hin, m :: more, ?_, by rwa [List.append_cons middle]⟩
              dsimp only
              rw [hmore]
              rfl
            · refine .inr ⟨hout, ?_⟩
              dsimp only
              rw [hmore]
              rfl
          · rw [hfind]
            exact .inr ⟨hnone _, rfl⟩
      | some inf =>
          rw [assumedFormulas_cons_of_some rest hinf, Line.isAssumption, hinf, Option.isNone_some,
            if_neg Bool.false_ne_true]
          rcases ih (h.shift hl hinf hrules) hcited hfront hrest with
            ⟨hin, more, hmore, hinlined⟩ | ⟨hout, hmore⟩
          · refine .inl ⟨hin, _ :: more, ?_, by rwa [List.append_cons middle]⟩
            rw [hmore]
            rfl
          · refine .inr ⟨hout, ?_⟩
            rw [hmore]
            rfl

end Merging

end Lines

/-! ## One use of the lemma -/

namespace Merging

/-- A proof that the second checker accepts, which consists of formulas, and whose citations count from the
front. -/
structure Accepted (d : Dialect) (pf : Proof) : Prop where
  isValid : isValid pf = .ok true
  wellFormed : pf.WellFormed d
  rules : ∀ r ∈ pf.rules, r.WellFormed d
  front : ∀ l ∈ pf.lines, ∀ j ∈ l.cited, 0 ≤ j

theorem Accepted.establishes {d : Dialect} {pf : Proof} (h : Accepted d pf) :
    pf.Establishes pf.statement.assumptions pf.statement.conclusion :=
  h.wellFormed.establishes ((isValid_eq_true h.wellFormed.lines h.rules).1 h.isValid).1 h.front

theorem Accepted.startsClosed {d : Dialect} {pf : Proof} (h : Accepted d pf) :
    ∀ l ∈ pf.lines, startsClosed l.rule.assumptions = false :=
  ((isValid_eq_true h.wellFormed.lines h.rules).1 h.isValid).2

/-- A lemma suits a special rule if it can be specialized to it such that its lines assume the
assumptions of the special rule in order. -/
def Suits (lem : Proof) (special : InferenceRule) : Prop :=
  ∃ σ : String → Formula, lem.statement.subst σ = special ∧
    InOrder special.assumptions ((assumedFormulas lem.lines).map (Formula.subst σ))

/-- The line at a position follows by a lemma, and the cited lines lead to it by a special rule. -/
def Uses (pf lem : Proof) (k : Nat) (special : InferenceRule) : Prop :=
  ∃ l, pf.lines[k]? = some l ∧ l.rule = lem.statement ∧ pf.ruleForLine k = .ok special

section Use

variable {pf lem : Proof} {k : Nat} {special special' : InferenceRule} {σ : String → Formula}

theorem Uses.eq (h : Uses pf lem k special) (h' : Uses pf lem k special') : special = special' := by
  obtain ⟨-, -, -, h⟩ := h
  obtain ⟨-, -, -, h'⟩ := h'
  exact Except.ok.inj (h.symm.trans h')

/-- A lemma whose lines assume the assumptions of its statement in order suits whatever it is specialized
to. -/
theorem suits_subst (h : InOrder lem.statement.assumptions (assumedFormulas lem.lines))
    (σ : String → Formula) : Suits lem (lem.statement.subst σ) := by
  refine ⟨σ, rfl, ?_⟩
  rw [InferenceRule.assumptions_subst]
  exact h.map _

/-- It does not matter how the lemma is specialized to a rule. -/
theorem suits_iff (hassumed : assumedFormulas lem.lines ⊆ lem.statement.assumptions)
    (hσ : lem.statement.subst σ = special) : Suits lem special ↔
      InOrder special.assumptions ((assumedFormulas lem.lines).map (Formula.subst σ)) := by
  constructor
  · rintro ⟨τ, hτ, horder⟩
    have heq : lem.statement.assumptions.map (Formula.subst σ) =
        lem.statement.assumptions.map (Formula.subst τ) := by
      rw [← InferenceRule.assumptions_subst, ← InferenceRule.assumptions_subst, hσ, hτ]
    have hagree : ∀ f ∈ assumedFormulas lem.lines, f.subst σ = f.subst τ :=
      fun f hf => List.map_inj_left.1 heq f (hassumed hf)
    rwa [List.map_congr_left hagree]
  · exact fun horder => ⟨σ, hσ, horder⟩

end Use

/-- The lines behind a position. -/
theorem mapM_fetch_integers (front rest : List Line) (l : Line) :
    ((integers ((front.length : Int) + 1) (front ++ l :: rest).length).mapM
      fun i => fetch (front ++ l :: rest) i) = .ok rest := by
  have hcount : (((front ++ l :: rest).length : Int) - ((front.length : Int) + 1)).toNat = rest.length := by
    simp only [List.length_append, List.length_cons]
    omega
  rw [integers, hcount, mapM_eq_ok, List.forall₂_map_left_iff, List.forall₂_iff_get]
  refine ⟨List.length_range, fun k hk _ => ?_⟩
  have hplace : ((front.length : Int) + 1) + (k : Int) = ((front.length + 1 + k : Nat) : Int) := by omega
  simp only [List.get_eq_getElem, List.getElem_range]
  have hbehind : front.length + 1 + k - front.length = k + 1 := by omega
  rw [hplace, fetch_natCast_eq_ok, List.getElem?_append_right (by omega), hbehind,
    List.getElem?_cons_succ]
  exact List.getElem?_eq_getElem _

/-- What inlining one use of a lemma answers with, once the lemma has been specialized. -/
theorem inlineOnce_eq {main lem special : Proof} {front rest cited : List Line} {l : Line}
    {premises : List Int} (hlem : isValid lem = .ok true) (hmain : main.lines = front ++ l :: rest)
    (hl : l.inference = some ⟨lem.statement, premises⟩)
    (hcited : List.Forall₂ (fun j l => fetch main.lines j = .ok l) premises cited)
    (hspecial : specialize lem (.rule (cited.map Line.formula) l.formula) = .ok special) :
    inlineOnce main front.length lem = (do
      let middle ← inlinedLines main front.length premises special.lines
      return Proof.make main.statement (main.rules ++ lem.rules) (front ++ middle ++
        rest.map (Line.shiftFrom front.length ((lem.lines.length : Int) - 1)))) := by
  have hplace : main.lines[front.length]? = some l := by simp [hmain]
  have hfetch : fetch main.lines (front.length : Int) = .ok l := fetch_natCast_eq_ok.2 hplace
  have hrule : l.rule = lem.statement := by simp [Line.rule, hl]
  have hruleForLine := (Proof.ruleForLine_eq_ok hplace hl).2 ⟨cited, hcited, rfl⟩
  have hafter := mapM_fetch_integers front rest l
  rw [← hmain] at hafter
  rw [inlineOnce, hfetch, ok_bind, decide_eq_true hrule, require_true, ok_bind, hlem, ok_bind,
    require_true, ok_bind, hruleForLine, ok_bind, hspecial, ok_bind, hl]
  dsimp only [Option.map_some, Option.getD_some]
  rw [hafter]
  simp only [ok_bind, Int.toNat_natCast, hmain, List.take_left]

section Use

variable {d : Dialect} {pf lem : Proof} {as : List Formula} {c : Formula} {front rest : List Line} {l : Line}

/-- A line that uses a lemma is replaced by lines that can stand in its place if the lemma suits it, and
otherwise it is not replaced. -/
theorem inlineOnce_cases (h : Proof.Inlining d lem as c front (l :: rest) pf) (hlem : Accepted d lem)
    (hl : l.rule = lem.statement) (hopen : startsClosed lem.statement.assumptions = false) :
    ∃ special, Uses pf lem front.length special ∧
      (Suits lem special ∧ (∃ middle, inlineOnce pf front.length lem =
          .ok (Proof.make pf.statement (pf.rules ++ lem.rules) (front ++ middle ++
            rest.map (Line.shiftFrom front.length ((lem.lines.length : Int) - 1)))) ∧
          Replacement d as (lem.statement :: (pf.rules ++ lem.rules).eraseDups) lem front l middle) ∨
        ¬ Suits lem special ∧ inlineOnce pf front.length lem = .error .outOfRange) := by
  have hestablishes := hlem.establishes
  have hstatement : lem.statement.WellFormed d :=
    hlem.wellFormed.statement_wellFormed hestablishes.isValid
  obtain ⟨premises, cited, hinf, hfront, hfetch, hstep, hspec⟩ :=
    Proof.exists_cited_of_use h.lines_eq h.wellFormed h.derivation hl hstatement.given
  obtain ⟨σ, hσ, hrule, hrun⟩ := exists_specialize_eq_subst hlem.wellFormed hstatement.given
    hlem.isValid hstep ((isSpecializationOf_eq_true hstatement hstep).2 ⟨hspec, hopen⟩)
  have hplace : pf.lines[front.length]? = some l := by simp [h.lines_eq]
  refine ⟨_, ⟨l, hplace, hl, (Proof.ruleForLine_eq_ok hplace hinf).2 ⟨cited, hfetch, rfl⟩⟩, ?_⟩
  -- the lines of the lemma for this line are put behind the front
  have hstart : Inlined as (lem.statement :: (pf.rules ++ lem.rules).eraseDups) front [] [] := by
    have hderived := h.derivation.take front.length
    rw [h.lines_eq, List.take_left] at hderived
    refine inlined_nil (hderived.mono (List.Subset.refl as) (List.cons_subset_cons _ fun r hr => ?_))
    exact List.mem_eraseDups.2 (List.mem_append_left _ hr)
  have hq : (lem.subst σ).Establishes (cited.map Line.formula) l.formula :=
    hestablishes.subst hlem.wellFormed hσ hrule
  have hsuits : Suits lem (.rule (cited.map Line.formula) l.formula) ↔
      InOrder (cited.map Line.formula) (assumedFormulas (lem.subst σ).lines) := by
    rw [suits_iff hestablishes.derivation.assumedFormulas_subset hrule, Proof.subst,
      assumedFormulas_subst]
    rfl
  have hlemrules : (lem.subst σ).rules ⊆ lem.statement :: (pf.rules ++ lem.rules).eraseDups :=
    fun r hr => List.mem_cons_of_mem _ (List.mem_eraseDups.2 (List.mem_append_right _ hr))
  have hderivation : Derivation (cited.map Line.formula) (lem.subst σ).rules ([] ++ (lem.subst σ).lines) :=
    hq.derivation
  rw [inlineOnce_eq hlem.isValid h.lines_eq hinf hfetch hrun, hsuits]
  rcases inlinedLines_cases hstart hfetch hfront hderivation hlemrules with
    ⟨hin, middle, hmiddle, hinlined⟩ | ⟨hout, hmiddle⟩
  · rw [List.nil_append, List.nil_append] at hinlined
    refine .inl ⟨hin, middle, by rw [hmiddle]; rfl, ?_⟩
    exact hinlined.replacement hq (hlem.wellFormed.subst hstatement.given hσ)
      (Proof.map_inference_subst σ lem)
  · exact .inr ⟨hout, by rw [hmiddle]; rfl⟩

end Use

/-! ## All uses of the lemma -/

/-- The lemma suits all its uses from a position on. -/
def SuitsFrom (pf lem : Proof) (n : Nat) : Prop :=
  ∀ k special, n ≤ k → Uses pf lem k special → Suits lem special

theorem suitsFrom_succ {pf lem : Proof} {n : Nat} : SuitsFrom pf lem n ↔
    (∀ special, Uses pf lem n special → Suits lem special) ∧ SuitsFrom pf lem (n + 1) := by
  constructor
  · exact fun h => ⟨fun special => h n special le_rfl, fun k special hk => h k special (by omega)⟩
  · rintro ⟨hn, h⟩ k special hk huses
    rcases Nat.eq_or_lt_of_le hk with rfl | hk
    · exact hn special huses
    · exact h k special hk huses

section Loop

variable {d : Dialect} {pf pf' lem : Proof} {as : List Formula} {rules : List InferenceRule} {c : Formula}
variable {front middle rest : List Line} {l : Line}

/-- Cited lines lead to a line by the rule of what they show. -/
theorem ruleForLine_of_shows {r : InferenceRule} {k : Nat} {ks : List Nat} {fs : List Formula}
    (hk : pf.lines[k]? = some l) (hinf : l.inference = some ⟨r, ks.map Nat.cast⟩)
    (hfs : List.Forall₂ (Shows pf.lines) ks fs) : pf.ruleForLine k = .ok (.rule fs l.formula) := by
  obtain ⟨cited, hcited, rfl⟩ := forall₂_shows_iff.1 hfs
  refine (Proof.ruleForLine_eq_ok hk hinf).2 ⟨cited, ?_, rfl⟩
  exact List.forall₂_map_left_iff.2 (hcited.imp fun _ _ hi => fetch_natCast_eq_ok.2 hi)

/-- In a derivation the lines cited by a line that follows by a rule show what leads to it. -/
theorem exists_shows_of_rule {r : InferenceRule} {k : Nat} (h : Derivation as rules pf.lines)
    (hk : pf.lines[k]? = some l) (hrule : l.rule = r) (hr : r.isMissing = false) :
    ∃ (ks : List Nat) (fs : List Formula), l.inference = some ⟨r, ks.map Nat.cast⟩ ∧
      List.Forall₂ (Shows pf.lines) ks fs ∧
      (InferenceRule.rule fs l.formula).isSpecializationOf r = .ok true := by
  obtain ⟨ks, cited, hinf, hcited, hspec⟩ := (h k l hk).exists_cited hrule hr
  exact ⟨ks, _, hinf, (forall₂_shows_take.1 (forall₂_shows_iff.2 ⟨cited, hcited, rfl⟩)).2, hspec⟩

/-- Behind a line that has been replaced the uses of the lemma remain the same. -/
theorem uses_splice (h : Proof.Inlining d lem as c front (l :: rest) pf)
    (hmiddle : Replacement d as rules lem front l middle) (hlem : lem.statement.isMissing = false)
    (hpf' : pf'.lines = front ++ middle ++
      rest.map (Line.shiftFrom front.length ((lem.lines.length : Int) - 1)))
    (j : Nat) (special : InferenceRule) :
    Uses pf' lem ((front ++ middle).length + j) special ↔ Uses pf lem (front.length + 1 + j) special := by
  have hplace : pf.lines[front.length + 1 + j]? = rest[j]? := by
    rw [h.lines_eq, List.append_cons, List.getElem?_append_right (by simp)]
    simp
  have hplace' : pf'.lines[(front ++ middle).length + j]? =
      rest[j]?.map (Line.shiftFrom front.length ((lem.lines.length : Int) - 1)) := by
    rw [hpf', List.getElem?_append_right (by simp), List.getElem?_map]
    simp
  rw [Uses, Uses, hplace, hplace']
  cases hj : rest[j]? with
  | none => simp
  | some l' =>
      simp only [Option.map_some, Option.some.injEq, exists_eq_left']
      rw [hj] at hplace hplace'
      rw [Line.shiftFrom, Line.rule_mapPremises]
      refine and_congr_right fun hrule => ?_
      obtain ⟨ks, fs, hinf, hshows, -⟩ := exists_shows_of_rule h.derivation hplace hrule hlem
      -- the citations of the line lead to where the cited lines are now
      have hpos : 0 < middle.length := (shows_append_getLast front hmiddle.last).1
      have hlength := hmiddle.length_eq
      have hshows' : List.Forall₂ (Shows pf'.lines)
          (ks.map fun k => if k < front.length then k else k + (middle.length - 1)) fs := by
        rw [h.lines_eq] at hshows
        rw [hpf']
        exact List.forall₂_map_left_iff.2 (hshows.imp fun k f hk => hk.splice hmiddle.last _)
      have hinf' : (l'.shiftFrom front.length ((lem.lines.length : Int) - 1)).inference =
          some ⟨lem.statement, (ks.map fun k => if k < front.length then k
            else k + (middle.length - 1)).map Nat.cast⟩ := by
        rw [Line.shiftFrom, Line.mapPremises, hinf, Option.map_some, List.map_map, List.map_map]
        refine congrArg (fun js => some (Inference.mk lem.statement js)) (List.map_congr_left fun k _ => ?_)
        dsimp only [Function.comp]
        split <;> split <;> omega
      rw [ruleForLine_of_shows hplace hinf hshows, ruleForLine_of_shows hplace' hinf' hshows']
      rfl

theorem suitsFrom_splice (h : Proof.Inlining d lem as c front (l :: rest) pf)
    (hmiddle : Replacement d as rules lem front l middle) (hlem : lem.statement.isMissing = false)
    (hpf' : pf'.lines = front ++ middle ++
      rest.map (Line.shiftFrom front.length ((lem.lines.length : Int) - 1))) :
    SuitsFrom pf' lem (front ++ middle).length ↔ SuitsFrom pf lem (front.length + 1) := by
  have huses := uses_splice h hmiddle hlem hpf'
  constructor
  · intro hsuits k special hk hk'
    obtain ⟨j, rfl⟩ := Nat.exists_eq_add_of_le hk
    exact hsuits _ special (Nat.le_add_right _ j) ((huses j special).2 hk')
  · intro hsuits k special hk hk'
    obtain ⟨j, rfl⟩ := Nat.exists_eq_add_of_le hk
    exact hsuits _ special (Nat.le_add_right _ j) ((huses j special).1 hk')

/-- A line that uses the lemma is replaced, and it remains to be seen whether the lemma suits the uses
behind it. If it is not replaced, the lemma does not suit it. -/
theorem replace_cases (h : Proof.Inlining d lem as c front (l :: rest) pf)
    (hopen : ∀ l ∈ pf.lines, startsClosed l.rule.assumptions = false) (hlem : Accepted d lem)
    (hself : ∀ l ∈ lem.lines, l.rule ≠ lem.statement) (hl : l.rule = lem.statement) :
    (∃ middle rest' pf', inlineOnce pf front.length lem = .ok pf' ∧
        Proof.Inlining d lem as c (front ++ middle) rest' pf' ∧
        (∀ l ∈ pf'.lines, startsClosed l.rule.assumptions = false) ∧
        middle.length = lem.lines.length ∧ rest'.map Line.rule = rest.map Line.rule ∧
        (∀ r, r ∈ pf'.rules ↔ r ∈ pf.rules ∨ r ∈ lem.rules) ∧
        (SuitsFrom pf lem front.length ↔ SuitsFrom pf' lem (front ++ middle).length)) ∨
      ¬ SuitsFrom pf lem front.length ∧ inlineOnce pf front.length lem = .error .outOfRange := by
  have hgiven : lem.statement.isMissing = false := by
    rw [hlem.establishes.statement_eq]
    rfl
  have hopen' := hopen
  simp only [h.lines_eq, List.forall_mem_append, List.forall_mem_cons, hl] at hopen'
  obtain ⟨hfrontopen, hlopen, hrestopen⟩ := hopen'
  obtain ⟨special, huse, ⟨hsuits, middle, hrun, hmiddle⟩ | ⟨hnot, hrun⟩⟩ :=
    inlineOnce_cases h hlem hl hlopen
  · have hrules : pf.rules ⊆ lem.statement :: (pf.rules ++ lem.rules).eraseDups :=
      fun r hr => List.mem_cons_of_mem _ (List.mem_eraseDups.2 (List.mem_append_left _ hr))
    refine .inl ⟨middle, _, _, hrun, h.splice hmiddle hself hrules, ?_, hmiddle.length_eq, ?_, fun r => ?_,
      ?_⟩
    · simp only [Proof.make, List.forall_mem_append, List.forall_mem_map, Line.shiftFrom,
        Line.rule_mapPremises]
      refine ⟨⟨hfrontopen, fun l' hl' => ?_⟩, hrestopen⟩
      obtain ⟨l'', hl'', hrule⟩ := List.mem_map.1 (hmiddle.rule_mem l' hl')
      rw [← hrule]
      rcases List.mem_append.1 hl'' with hl'' | hl''
      · exact hfrontopen l'' hl''
      · exact hlem.startsClosed l'' hl''
    · simp [Line.shiftFrom]
    · exact List.mem_eraseDups.trans List.mem_append
    · refine suitsFrom_succ.trans ((and_iff_right fun special' huse' => ?_).trans
        (suitsFrom_splice h hmiddle hgiven rfl).symm)
      exact huse.eq huse' ▸ hsuits
  · exact .inr ⟨fun hall => hnot (hall _ special le_rfl huse), hrun⟩

/-- A line that does not use the lemma does not matter. -/
theorem suitsFrom_pass (h : Proof.Inlining d lem as c front (l :: rest) pf) (hl : l.rule ≠ lem.statement) :
    SuitsFrom pf lem front.length ↔ SuitsFrom pf lem (front ++ [l]).length := by
  rw [List.length_append, List.length_singleton]
  refine suitsFrom_succ.trans (and_iff_right fun special huse => ?_)
  obtain ⟨l', hl', hrule, -⟩ := huse
  have heq : l = l' := by simpa [h.lines_eq] using hl'
  exact absurd (heq ▸ hrule) hl

/-- Going through the rest of the lines replaces all further uses of the lemma if it suits them, and
otherwise runs out of lines at one of them. -/
theorem go_cases {position : Nat} {ls : List Line} (h : Proof.Inlining d lem as c front rest pf)
    (hopen : ∀ l ∈ pf.lines, startsClosed l.rule.assumptions = false) (hlem : Accepted d lem)
    (hself : ∀ l ∈ lem.lines, l.rule ≠ lem.statement) (hposition : position = front.length)
    (hls : rest.map Line.rule = ls.map Line.rule) :
    SuitsFrom pf lem front.length ∧ (∃ q, inline.go lem pf position ls = .ok q ∧
        Proof.Inlining d lem as c q.lines [] q ∧
        (∀ l ∈ q.lines, startsClosed l.rule.assumptions = false) ∧
        ∀ r, r ∈ q.rules ↔ r ∈ pf.rules ∨ r ∈ lem.rules ∧ ∃ l ∈ ls, l.rule = lem.statement) ∨
      ¬ SuitsFrom pf lem front.length ∧ inline.go lem pf position ls = .error .outOfRange := by
  induction ls generalizing pf position front rest with
  | nil =>
      obtain rfl := List.map_eq_nil_iff.1 hls
      have hlines : pf.lines = front := by rw [h.lines_eq, List.append_nil]
      refine .inl ⟨fun k special hk huses => ?_, pf, rfl, hlines ▸ h, hopen, by simp⟩
      obtain ⟨l, hl, -⟩ := huses
      have hlt : k < pf.lines.length := (List.getElem?_eq_some_iff.1 hl).1
      rw [hlines] at hlt
      omega
  | cons l' ls ih =>
      cases rest with
      | nil => simp at hls
      | cons l rest =>
          obtain ⟨hl, hls⟩ := List.cons.inj hls
          by_cases hrule : l'.rule = lem.statement
          · rw [inline.go, if_pos hrule, hposition]
            rcases replace_cases h hopen hlem hself (hl.trans hrule) with
              ⟨middle, rest', pf', hrun, h', hopen', hlength, hrest', hrules, hall⟩ | ⟨hnot, hrun⟩
            · have hnext : front.length + lem.lines.length = (front ++ middle).length := by
                rw [List.length_append, hlength]
              rw [hrun, ok_bind, hall]
              refine (ih h' hopen' hnext (hrest'.trans hls)).imp_left fun hdone => ?_
              obtain ⟨hsuits, q, hq, hqdone, hqopen, hqrules⟩ := hdone
              refine ⟨hsuits, q, hq, hqdone, hqopen, fun r => ?_⟩
              rw [hqrules, hrules]
              simp only [List.mem_cons, exists_eq_or_imp, hrule]
              tauto
            · rw [hrun]
              exact .inr ⟨hnot, rfl⟩
          · have hnext : position + 1 = (front ++ [l]).length := by simp [hposition]
            rw [inline.go, if_neg hrule, suitsFrom_pass h (hl ▸ hrule)]
            refine (ih (h.pass (hl ▸ hrule)) hopen hnext hls).imp_left fun hdone => ?_
            obtain ⟨hsuits, q, hq, hqdone, hqopen, hqrules⟩ := hdone
            exact ⟨hsuits, q, hq, hqdone, hqopen, fun r => by simpa [hrule] using hqrules r⟩

/-- When all uses are replaced, the lemma is not needed any more. -/
theorem establishes_of_done (h : Proof.Inlining d lem as c pf.lines [] pf) :
    Proof.Establishes { pf with rules := pf.rules.filter fun r => decide (r ≠ lem.statement) } as c := by
  refine ⟨h.statement_eq, Derivation.erase ?_ h.front_free, h.ends⟩
  refine h.derivation.mono (List.Subset.refl as) fun r hr => ?_
  by_cases hrs : r = lem.statement
  · rw [hrs]
    exact List.mem_cons_self
  · refine List.mem_cons_of_mem _ (List.mem_filter.2 ⟨?_, decide_eq_true hrs⟩)
    exact (List.mem_cons.1 hr).resolve_left hrs

end Loop

/-- An accepted lemma whose lines assume the assumptions of its statement in order suits all uses in an
accepted proof. -/
theorem suits_of_inOrder {d : Dialect} {main lem : Proof} (hmain : Accepted d main) (hlem : Accepted d lem)
    (h : InOrder lem.statement.assumptions (assumedFormulas lem.lines)) {k : Nat}
    {special : InferenceRule} (huse : Uses main lem k special) : Suits lem special := by
  obtain ⟨l, hk, hrule, hspecial⟩ := huse
  have hderivation := hmain.establishes.derivation
  have hstatement : lem.statement.WellFormed d :=
    hlem.wellFormed.statement_wellFormed hlem.establishes.isValid
  obtain ⟨ks, fs, hinf, hfs, hspec⟩ := exists_shows_of_rule hderivation hk hrule hstatement.given
  obtain rfl := Except.ok.inj ((ruleForLine_of_shows hk hinf hfs).symm.trans hspecial)
  have hcomplete : (InferenceRule.rule fs l.formula).isComplete = true := by
    refine InferenceRule.isComplete_iff.2 ⟨rfl, fun f hf => ?_, (hderivation k l hk).present⟩
    obtain ⟨i, -, hi⟩ := exists_left_of_forall₂ hfs f hf
    exact hderivation.present hi
  obtain ⟨m, hm⟩ := InferenceRule.isSpecializationOf_eq_true.1 hspec
  rw [← InferenceRule.subst_of_images? hstatement.isComplete hcomplete hm]
  exact suits_subst h _

/-- Inlining an accepted lemma that does not use itself into an accepted proof. If the lemma suits all
its uses, the answer is an accepted proof of the same statement, in which the lemma is not used. Its
rules are those of the main proof, and those of the lemma if it is used, without the lemma. If the lemma
does not suit one of its uses, the search for what it assumes runs out of lines. -/
theorem inline_of_suits {d : Dialect} {main lem : Proof} (hmain : Accepted d main) (hlem : Accepted d lem)
    (hself : ∀ l ∈ lem.lines, l.rule ≠ lem.statement) :
    ((∀ k special, Uses main lem k special → Suits lem special) →
      ∃ q, inline main lem = .ok q ∧ isValid q = .ok true ∧ q.statement = main.statement ∧
        (∀ l ∈ q.lines, l.rule ≠ lem.statement) ∧
        ∀ r, r ∈ q.rules ↔ r ≠ lem.statement ∧
          (r ∈ main.rules ∨ r ∈ lem.rules ∧ ∃ l ∈ main.lines, l.rule = lem.statement)) ∧
      ((∃ k special, Uses main lem k special ∧ ¬ Suits lem special) →
        inline main lem = .error .outOfRange) := by
  have hestablishes := hmain.establishes
  have hstart : Proof.Inlining d lem main.statement.assumptions main.statement.conclusion [] main.lines
      main :=
    ⟨rfl, hestablishes.statement_eq, hestablishes.derivation.mono (List.Subset.refl _)
      (List.subset_cons_self _ _), hestablishes.ends, by simp, hmain.wellFormed.lines⟩
  have hposition : 0 = ([] : List Line).length := rfl
  rcases go_cases hstart hmain.startsClosed hlem hself hposition rfl with
    ⟨hsuits, q, hq, hdone, hqopen, hqrules⟩ | ⟨hnot, hfails⟩
  · have hrules : ∀ r, r ∈ q.rules.filter (fun r => decide (r ≠ lem.statement)) ↔ r ≠ lem.statement ∧
        (r ∈ main.rules ∨ r ∈ lem.rules ∧ ∃ l ∈ main.lines, l.rule = lem.statement) := by
      intro r
      rw [List.mem_filter, hqrules, decide_eq_true_eq, and_comm]
    have hresult : inline main lem =
        .ok { q with rules := q.rules.filter fun r => decide (r ≠ lem.statement) } := by
      rw [inline, hq]
      rfl
    constructor
    · intro _
      refine ⟨_, hresult, (isValid_eq_true (d := d) ?_ fun r hr => ?_).2 ⟨?_, hqopen⟩,
        hdone.statement_eq.trans hestablishes.statement_eq.symm, hdone.front_free, hrules⟩
      · exact hdone.wellFormed
      · obtain ⟨-, hr | ⟨hr, -⟩⟩ := (hrules r).1 hr
        · exact hmain.rules r hr
        · exact hlem.rules r hr
      · exact (establishes_of_done hdone).isValid
    · rintro ⟨k, special, huse, hnot⟩
      exact absurd (hsuits k special (Nat.zero_le k) huse) hnot
  · constructor
    · intro hall
      exact absurd (fun k special _ huse => hall k special huse) hnot
    · intro _
      rw [inline, hfails]
      rfl

open Axioms in
/-- A lemma that is used twice, the second time on a line that comes from its first use, and assumes a
formula twice. -/
theorem inline_of_suits_used_twice :
    let chain := InferenceRule.rule [p, imp p q, imp q r] r
    let lem := Proof.make chain [MP]
      [.assumed p, .assumed (imp p q), .assumed (imp p q), .inferred q MP [0, 1], .assumed (imp q r),
        .inferred r MP [3, 4]]
    let main := Proof.make (.rule [p, imp p q, imp q p] q) [chain, MP]
      [.assumed p, .assumed (imp p q), .assumed (imp q p), .inferred p chain [0, 1, 2],
        .inferred p chain [3, 1, 2], .inferred q MP [4, 1]]
    isValid main = .ok true ∧ isValid lem = .ok true ∧
      ∃ inlined, inline main lem = .ok inlined ∧ isValid inlined = .ok true ∧
        inlined.statement = main.statement ∧ (∀ l ∈ inlined.lines, l.rule ≠ chain) := by
  intro chain lem main
  have hmain : Accepted Connective.all main := ⟨by decide, by decide, by decide, by decide⟩
  have hlem : Accepted Connective.all lem := ⟨by decide, by decide, by decide, by decide⟩
  have horder : InOrder lem.statement.assumptions (assumedFormulas lem.lines) :=
    .take (.skip (.take (.take (.skip (.take (.nil _))))))
  obtain ⟨inlined, hinlined, hvalid, hstatement, hfree, -⟩ :=
    (inline_of_suits hmain hlem (by decide)).1 fun k special => suits_of_inOrder hmain hlem horder
  exact ⟨hmain.isValid, hlem.isValid, inlined, hinlined, hvalid, hstatement, hfree⟩

/-- The lines of a lemma assume the assumptions of its statement in the other order, and its use cannot
be replaced. Where the lemma is not used, its rules are not added. -/
theorem inline_of_suits_needed :
    let both := InferenceRule.rule [.var "p", .var "q"] (.bin .and (.var "p") (.var "q"))
    let swapped := InferenceRule.rule [.var "q", .var "p"] (.bin .and (.var "p") (.var "q"))
    let lem := Proof.make both [swapped]
      [.assumed (.var "q"), .assumed (.var "p"), .inferred both.conclusion swapped [0, 1]]
    let main := Proof.make (.rule [.var "x", .var "y"] (.bin .and (.var "x") (.var "y"))) [both]
      [.assumed (.var "x"), .assumed (.var "y"), .inferred (.bin .and (.var "x") (.var "y")) both [0, 1]]
    let idle := Proof.make (.rule [.var "x"] (.var "x")) [both] [.assumed (.var "x")]
    isValid main = .ok true ∧ isValid idle = .ok true ∧ isValid lem = .ok true ∧
      (∀ l ∈ lem.lines, l.rule ≠ lem.statement) ∧ inline main lem = .error .outOfRange ∧
      inline idle lem = .ok { idle with rules := [] } := by
  decide

end Merging

end FormalLogic.Propositional
