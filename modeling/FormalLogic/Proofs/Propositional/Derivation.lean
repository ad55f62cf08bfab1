import FormalLogic.Propositional.Deduction
import FormalLogic.Proofs.Propositional.Checking
import Mathlib.Data.List.Induction

/-!
# Derivations

A derivation is a list of lines each of which follows from the lines before it. Acceptance by the
checker is about a whole proof, off which the citations are read; a derivation can be extended line by
line (`derivation_concat`), and another one can be put behind it (`Derivation.append`).

`Proof.Establishes` is what the operations on proofs need of their arguments and guarantee for their
results. By `Proof.establishes_iff` it is acceptance by the checker, for proofs without missing formulas
whose citations count from the front.
-/

namespace FormalLogic.Propositional

open Formula Axioms

/-! ## What lines show -/

@[simp] theorem Line.formula_assumed (f : Formula) : (Line.assumed f).formula = f := rfl

@[simp] theorem Line.formula_inferred (f : Formula) (r : InferenceRule) (premises : List Int) :
    (Line.inferred f r premises).formula = f := rfl

/-- Whether the line at a position has the given formula. -/
def Shows (lines : List Line) (k : Nat) (f : Formula) : Prop :=
  (lines.map Line.formula)[k]? = some f

theorem shows_iff {lines : List Line} {k : Nat} {f : Formula} :
    Shows lines k f ↔ ∃ l, lines[k]? = some l ∧ l.formula = f := by
  simp [Shows]

theorem Shows.lt_length {lines : List Line} {k : Nat} {f : Formula} (h : Shows lines k f) :
    k < lines.length := by
  obtain ⟨l, hl, -⟩ := shows_iff.1 h
  exact (List.getElem?_eq_some_iff.1 hl).1

theorem Shows.append {lines : List Line} {k : Nat} {f : Formula} (h : Shows lines k f)
    (more : List Line) : Shows (lines ++ more) k f := by
  obtain ⟨l, hl, hf⟩ := shows_iff.1 h
  refine shows_iff.2 ⟨l, ?_, hf⟩
  rw [List.getElem?_append_left h.lt_length, hl]

/-- A line keeps what it shows when it is put behind other lines, and its citations move along. -/
theorem Shows.shift {lines : List Line} {k : Nat} {f : Formula} (h : Shows lines k f)
    (before : List Line) (distance : Int) :
    Shows (before ++ lines.map (Line.shift distance)) (before.length + k) f := by
  obtain ⟨l, hl, hf⟩ := shows_iff.1 h
  refine shows_iff.2 ⟨l.shift distance, ?_, hf⟩
  rw [List.getElem?_append_right (Nat.le_add_right _ _), Nat.add_sub_cancel_left, List.getElem?_map,
    hl, Option.map_some]

theorem shows_take {lines : List Line} {n k : Nat} {f : Formula} :
    Shows (lines.take n) k f ↔ k < n ∧ Shows lines k f := by
  simp only [Shows, List.map_take, List.getElem?_take]
  split
  · simp [*]
  · simp [*]

/-- Positions that show formulas are those of lines with these formulas. -/
theorem forall₂_shows_iff {lines : List Line} {ks : List Nat} {fs : List Formula} :
    List.Forall₂ (Shows lines) ks fs ↔
      ∃ cited, List.Forall₂ (fun k l => lines[k]? = some l) ks cited ∧
        fs = cited.map Line.formula := by
  constructor
  · intro h
    induction h with
    | nil => exact ⟨[], .nil, rfl⟩
    | cons hk _ ih =>
        obtain ⟨l, hl, rfl⟩ := shows_iff.1 hk
        obtain ⟨cited, hcited, rfl⟩ := ih
        exact ⟨l :: cited, .cons hl hcited, rfl⟩
  · rintro ⟨cited, hcited, rfl⟩
    exact List.forall₂_map_right_iff.2 (hcited.imp fun _ l hl => shows_iff.2 ⟨l, hl, rfl⟩)

theorem forall₂_shows_take {lines : List Line} {n : Nat} {ks : List Nat} {fs : List Formula} :
    List.Forall₂ (Shows (lines.take n)) ks fs ↔
      (∀ k ∈ ks, k < n) ∧ List.Forall₂ (Shows lines) ks fs := by
  rw [← List.forall₂_and_left]
  exact ⟨fun h => h.imp fun _ _ => shows_take.1, fun h => h.imp fun _ _ => shows_take.2⟩

theorem shows_concat {lines : List Line} {l : Line} {k : Nat} {f : Formula} :
    Shows (lines ++ [l]) k f ↔ Shows lines k f ∨ k = lines.length ∧ l.formula = f := by
  constructor
  · intro h
    have hlt := h.lt_length
    rw [List.length_append, List.length_singleton] at hlt
    obtain ⟨l', hl', hf⟩ := shows_iff.1 h
    rcases Nat.lt_or_ge k lines.length with hk | hk
    · rw [List.getElem?_append_left hk] at hl'
      exact .inl (shows_iff.2 ⟨l', hl', hf⟩)
    · obtain rfl : k = lines.length := by omega
      rw [List.getElem?_concat_length, Option.some.injEq] at hl'
      exact .inr ⟨rfl, hl' ▸ hf⟩
  · rintro (h | ⟨rfl, rfl⟩)
    · exact h.append [l]
    · simp [Shows]

theorem shows_length_concat (lines : List Line) (l : Line) :
    Shows (lines ++ [l]) lines.length l.formula :=
  shows_concat.2 (.inr ⟨rfl, rfl⟩)

/-- The last of further lines is the last of all. -/
theorem shows_append_getLast (lines : List Line) {more : List Line} {f : Formula}
    (h : more.getLast?.map Line.formula = some f) :
    0 < more.length ∧ Shows (lines ++ more) (lines.length + more.length - 1) f := by
  obtain ⟨l, hl, rfl⟩ := Option.map_eq_some_iff.1 h
  obtain ⟨init, rfl⟩ := List.getLast?_eq_some_iff.1 hl
  simp [Shows]

/-! ## Lines that follow -/

/-- What justifies a line behind earlier ones. Its formula is not missing. An assumption is one of
those given; any other line follows by a rule, and the earlier lines that it cites, counted from the
front, lead to it by a specialization of the rule. -/
structure Follows (assumptions : List Formula) (rules : List InferenceRule) (earlier : List Line)
    (l : Line) : Prop where
  present : l.formula.isMissing = false
  justified : match l.inference with
    | none => l.formula ∈ assumptions
    | some inf => inf.rule ∈ rules ∧ ∃ ks : List Nat, inf.premises = ks.map Nat.cast ∧
        ∃ fs, List.Forall₂ (Shows earlier) ks fs ∧
          (InferenceRule.rule fs l.formula).isSpecializationOf inf.rule = .ok true

section Lines

variable {as as' : List Formula} {rules rules' : List InferenceRule} {earlier : List Line}
variable {l : Line} {f g : Formula}

/-- A line still follows from more assumptions and by more rules. -/
theorem Follows.mono (h : Follows as rules earlier l) (has : as ⊆ as') (hrules : rules ⊆ rules') :
    Follows as' rules' earlier l := by
  refine ⟨h.present, ?_⟩
  have hl := h.justified
  cases hinf : l.inference with
  | none =>
      rw [hinf] at hl
      exact has hl
  | some inf =>
      rw [hinf] at hl
      exact ⟨hrules hl.1, hl.2⟩

/-- A line still follows when its citations are led to lines that show the same formulas. -/
theorem Follows.mapPremises (h : Follows as rules earlier l) {earlier' : List Line} {g : Int → Int}
    {φ : Nat → Nat} (hg : ∀ k : Nat, g k = φ k)
    (hshows : ∀ k f, Shows earlier k f → Shows earlier' (φ k) f) :
    Follows as rules earlier' (l.mapPremises g) := by
  refine ⟨h.present, ?_⟩
  have hl := h.justified
  cases hinf : l.inference with
  | none =>
      rw [hinf] at hl
      simpa [Line.mapPremises, hinf] using hl
  | some inf =>
      rw [hinf] at hl
      obtain ⟨hrule, ks, hks, fs, hfs, hspec⟩ := hl
      simp only [Line.mapPremises, hinf, Option.map_some]
      refine ⟨hrule, ks.map φ, ?_, fs, ?_, hspec⟩
      · rw [hks, List.map_map, List.map_map]
        exact List.map_congr_left fun k _ => hg k
      · exact List.forall₂_map_left_iff.2 (hfs.imp hshows)

/-- A line still follows behind further lines in front, if its citations move along. -/
theorem Follows.shift (h : Follows as rules earlier l) (before : List Line) :
    Follows as rules (before ++ earlier.map (Line.shift before.length)) (l.shift before.length) :=
  h.mapPremises (φ := (before.length + ·)) (fun k => by simp [Int.add_comm])
    fun _ _ hk => hk.shift before _

theorem follows_assumed (hf : f ∈ as) (hpresent : f.isMissing = false) :
    Follows as rules earlier (.assumed f) :=
  ⟨hpresent, hf⟩

/-- A line that cites nothing follows by a rule without assumptions. -/
theorem follows_schema {r : InferenceRule} (hr : r ∈ rules) (hpresent : f.isMissing = false)
    (hspec : (schema f).isSpecializationOf r = .ok true) :
    Follows as rules earlier (.inferred f r []) :=
  ⟨hpresent, hr, [], rfl, [], .nil, hspec⟩

/-- Modus ponens. -/
theorem follows_modusPonens (hMP : MP ∈ rules) {i j : Nat} (hf : Shows earlier i f)
    (hfg : Shows earlier j (imp f g)) (hfpresent : f.isMissing = false)
    (hgpresent : g.isMissing = false) :
    Follows as rules earlier (.inferred g MP [i, j]) := by
  have hinstance : InferenceRule.rule [f, imp f g] g =
      MP.subst fun x => if x = "p" then f else g := by
    simp [MP, InferenceRule.subst, Formula.subst]
  have hcomplete : (InferenceRule.rule [f, imp f g] g).isComplete = true := by
    refine InferenceRule.isComplete_iff.2 ⟨rfl, ?_, hgpresent⟩
    intro a ha
    rcases List.mem_pair.1 ha with rfl | rfl
    · exact hfpresent
    · rfl
  have hspec : (InferenceRule.rule [f, imp f g] g).isSpecializationOf MP = .ok true := by
    rw [hinstance] at hcomplete ⊢
    exact InferenceRule.isSpecializationOf_subst rfl fun _ => ⟨by decide, hcomplete⟩
  exact ⟨hgpresent, hMP, [i, j], rfl, [f, imp f g], .cons hf (.cons hfg .nil), hspec⟩

/-- A line by modus ponens cites a formula and an implication from it. -/
theorem Follows.modusPonens_inversion {premises : List Int}
    (h : Follows as rules earlier (.inferred g MP premises)) :
    ∃ (i j : Nat) (f : Formula), premises = [(i : Int), (j : Int)] ∧ Shows earlier i f ∧
      Shows earlier j (imp f g) := by
  obtain ⟨-, ks, hks, fs, hfs, hspec⟩ := h.justified
  rcases InferenceRule.isSpecializationOf_inversion hspec with ⟨c, c', hMP, -⟩ | ⟨-, σ, hσ⟩
  · exact absurd hMP (by simp [MP])
  · obtain ⟨rfl, rfl⟩ : fs = [σ "p", imp (σ "p") (σ "q")] ∧ g = σ "q" := by
      simpa [MP, InferenceRule.subst, Formula.subst] using hσ
    obtain ⟨i, js, hi, hjs, rfl⟩ := List.forall₂_cons_right_iff.1 hfs
    obtain ⟨j, js', hj, hnil, rfl⟩ := List.forall₂_cons_right_iff.1 hjs
    obtain rfl := List.forall₂_nil_right_iff.1 hnil
    exact ⟨i, j, σ "p", hks, hi, hj⟩

/-- A line by an axiom cites nothing. -/
theorem Follows.premises_eq_nil {r : InferenceRule} {premises : List Int}
    (h : Follows as rules earlier (.inferred f r premises)) (hr : r.assumptions = []) :
    premises = [] := by
  obtain ⟨-, ks, hks, fs, hfs, hspec⟩ := h.justified
  have hfs' : fs = [] := by
    rcases InferenceRule.isSpecializationOf_inversion hspec with ⟨c, c', -, hspecial, -⟩ | ⟨-, σ, hσ⟩
    · exact (InferenceRule.rule.inj hspecial).1
    · cases r with
      | missing => simp [InferenceRule.subst] at hσ
      | rule as c =>
          obtain rfl : as = [] := hr
          exact (InferenceRule.rule.inj hσ).1
  subst hfs'
  obtain rfl := List.forall₂_nil_right_iff.1 hfs
  exact hks

end Lines

/-! ## Derivations -/

/-- Lines each of which follows from those before it. -/
def Derivation (assumptions : List Formula) (rules : List InferenceRule) (lines : List Line) : Prop :=
  ∀ k l, lines[k]? = some l → Follows assumptions rules (lines.take k) l

section Derivations

variable {as as' : List Formula} {rules rules' : List InferenceRule} {lines : List Line}

theorem derivation_nil : Derivation as rules [] := by
  intro k l hk
  simp at hk

/-- A derivation is extended by a line that follows from it. -/
theorem derivation_concat {l : Line} :
    Derivation as rules (lines ++ [l]) ↔ Derivation as rules lines ∧ Follows as rules lines l := by
  constructor
  · intro h
    constructor
    · intro k l' hk
      have hlt : k < lines.length := (List.getElem?_eq_some_iff.1 hk).1
      rw [← List.take_append_of_le_length hlt.le]
      exact h k l' (by rw [List.getElem?_append_left hlt, hk])
    · have hlast := h lines.length l (by simp)
      rwa [List.take_left] at hlast
  · rintro ⟨hlines, hl⟩ k l' hk
    rcases Nat.lt_or_ge k lines.length with hlt | hge
    · rw [List.getElem?_append_left hlt] at hk
      rw [List.take_append_of_le_length hlt.le]
      exact hlines k l' hk
    · have hk' : k = lines.length := by
        have := (List.getElem?_eq_some_iff.1 hk).1
        rw [List.length_append, List.length_singleton] at this
        omega
      subst hk'
      rw [List.getElem?_concat_length, Option.some.injEq] at hk
      rwa [List.take_left, ← hk]

theorem Derivation.mono (h : Derivation as rules lines) (has : as ⊆ as') (hrules : rules ⊆ rules') :
    Derivation as' rules' lines :=
  fun k l hk => (h k l hk).mono has hrules

theorem Derivation.take (h : Derivation as rules lines) (n : Nat) :
    Derivation as rules (lines.take n) := by
  intro k l hk
  rw [List.getElem?_take] at hk
  split at hk
  · rename_i hlt
    rw [List.take_take, Nat.min_eq_left hlt.le]
    exact h k l hk
  · simp at hk

theorem Derivation.present (h : Derivation as rules lines) {k : Nat} {f : Formula}
    (hf : Shows lines k f) : f.isMissing = false := by
  obtain ⟨l, hl, rfl⟩ := shows_iff.1 hf
  exact (h k l hl).present

/-- A derivation can be put behind another one. -/
theorem Derivation.append {lines' : List Line} (h : Derivation as rules lines)
    (h' : Derivation as rules lines') :
    Derivation as rules (lines ++ lines'.map (Line.shift lines.length)) := by
  -- by induction over the second one from its end: its last line moves with those that it cites
  induction lines' using List.reverseRecOn with
  | nil => simpa using h
  | append_singleton lines' l ih =>
      obtain ⟨hlines', hl⟩ := derivation_concat.1 h'
      rw [List.map_append, List.map_singleton, ← List.append_assoc]
      exact derivation_concat.2 ⟨ih hlines', hl.shift lines⟩

end Derivations

/-! ## Proofs -/

namespace Proof

/-- A proof that derives the conclusion from the assumptions by its rules. -/
structure Establishes (pf : Proof) (assumptions : List Formula) (conclusion : Formula) : Prop where
  statement_eq : pf.statement = .rule assumptions conclusion
  derivation : Derivation assumptions pf.rules pf.lines
  ends : Shows pf.lines (pf.lines.length - 1) conclusion

theorem exists_eq_map_natCast {js : List Int} (h : ∀ j ∈ js, 0 ≤ j) :
    ∃ ks : List Nat, js = ks.map Nat.cast := by
  refine ⟨js.map Int.toNat, ?_⟩
  rw [List.map_map]
  exact (List.map_id js).symm.trans
    (List.map_congr_left fun j hj => (Int.toNat_of_nonneg (h j hj)).symm)

/-- A line of a proof follows from the lines before it exactly if the checker accepts it, its formula
is not missing and its citations count from the front. -/
theorem follows_take_iff {pf : Proof} {k : Nat} {l : Line} :
    Follows pf.statement.assumptions pf.rules (pf.lines.take k) l ↔
      l.formula.isMissing = false ∧ (∀ j ∈ l.cited, 0 ≤ j) ∧ pf.Justified k l := by
  rw [Justified, Line.cited]
  cases hinf : l.inference with
  | none =>
      constructor
      · rintro ⟨hpresent, hl⟩
        rw [hinf] at hl
        exact ⟨hpresent, by simp, hl⟩
      · rintro ⟨hpresent, -, hl⟩
        refine ⟨hpresent, ?_⟩
        rw [hinf]
        exact hl
  | some inf =>
      constructor
      · rintro ⟨hpresent, hl⟩
        rw [hinf] at hl
        obtain ⟨hrule, ks, hks, fs, hfs, hspec⟩ := hl
        obtain ⟨hlt, hfs⟩ := forall₂_shows_take.1 hfs
        obtain ⟨cited, hcited, rfl⟩ := forall₂_shows_iff.1 hfs
        simp only [Option.map_some, Option.getD_some, hks, List.forall_mem_map]
        refine ⟨hpresent, fun i _ => Int.natCast_nonneg i, hrule, ?_, cited, ?_, hspec⟩
        · intro i hi
          exact Int.ofNat_lt.2 (hlt i hi)
        · exact List.forall₂_map_left_iff.2 (hcited.imp fun _ _ hi => fetch_natCast_eq_ok.2 hi)
      · rintro ⟨hpresent, hfront, hrule, hlt, cited, hcited, hspec⟩
        obtain ⟨ks, hks⟩ : ∃ ks : List Nat, inf.premises = ks.map Nat.cast :=
          exists_eq_map_natCast hfront
        rw [hks, List.forall_mem_map] at hlt
        rw [hks, List.forall₂_map_left_iff] at hcited
        simp only [fetch_natCast_eq_ok] at hcited
        have hfs : List.Forall₂ (Shows (pf.lines.take k)) ks (cited.map Line.formula) :=
          forall₂_shows_take.2
            ⟨fun i hi => Int.ofNat_lt.1 (hlt i hi), forall₂_shows_iff.2 ⟨cited, hcited, rfl⟩⟩
        refine ⟨hpresent, ?_⟩
        rw [hinf]
        exact ⟨hrule, ks, hks, _, hfs, hspec⟩

/-- Establishing a conclusion is being accepted by the checker, for proofs without missing formulas
whose citations count from the front. -/
theorem establishes_iff {pf : Proof} {as : List Formula} {c : Formula} :
    pf.Establishes as c ↔ pf.statement = .rule as c ∧ pf.isValid = .ok true ∧
      ∀ l ∈ pf.lines, l.formula.isMissing = false ∧ ∀ j ∈ l.cited, 0 ≤ j := by
  constructor
  · rintro ⟨hstatement, hlines, hends⟩
    have has : pf.statement.assumptions = as := by rw [hstatement]; rfl
    have hline : ∀ k l, pf.lines[k]? = some l →
        l.formula.isMissing = false ∧ (∀ j ∈ l.cited, 0 ≤ j) ∧ pf.Justified k l := by
      intro k l hk
      rw [← follows_take_iff, has]
      exact hlines k l hk
    obtain ⟨last, hlast, hc⟩ := shows_iff.1 hends
    refine ⟨hstatement, isValid_eq_true.2 ⟨fun k l hk => (hline k l hk).2.2, ?_, last, ?_, ?_⟩, ?_⟩
    · rw [hstatement]
      rfl
    · rw [List.getLast?_eq_getElem?, hlast]
    · rw [hstatement, hc]
      rfl
    · intro l hl
      obtain ⟨k, hk⟩ := List.getElem?_of_mem hl
      exact ⟨(hline k l hk).1, (hline k l hk).2.1⟩
  · rintro ⟨hstatement, hvalid, hlines⟩
    obtain ⟨hjustified, -, last, hlast, hc⟩ := isValid_eq_true.1 hvalid
    rw [List.getLast?_eq_getElem?] at hlast
    have has : pf.statement.assumptions = as := by rw [hstatement]; rfl
    refine ⟨hstatement, ?_, shows_iff.2 ⟨last, hlast, ?_⟩⟩
    · intro k l hk
      obtain ⟨hpresent, hfront⟩ := hlines l (List.mem_of_getElem? hk)
      rw [← has]
      exact follows_take_iff.2 ⟨hpresent, hfront, hjustified k l hk⟩
    · rw [hc, hstatement]
      rfl

theorem complete_eq_ok {pf pf' : Proof} : pf.complete = .ok pf' ↔
    pf.statement.isComplete = true ∧ (∀ l ∈ pf.lines, l.formula.isMissing = false) ∧ pf = pf' := by
  unfold complete
  split
  · simp_all
  · simp_all

/-- An accepted proof from which nothing is missing establishes the conclusion of its statement, if its
citations count from the front. -/
theorem establishes_of_isValid {pf : Proof} (hvalid : pf.isValid = .ok true)
    (hfront : ∀ l ∈ pf.lines, ∀ j ∈ l.cited, 0 ≤ j) (hcomplete : pf.complete = .ok pf) :
    pf.Establishes pf.statement.assumptions pf.statement.conclusion := by
  obtain ⟨hstatement, hlines, -⟩ := complete_eq_ok.1 hcomplete
  refine establishes_iff.2 ⟨?_, hvalid, fun l hl => ⟨hlines l hl, hfront l hl⟩⟩
  cases hrule : pf.statement with
  | missing =>
      rw [hrule] at hstatement
      simp [InferenceRule.isComplete, InferenceRule.isMissing] at hstatement
  | rule as c => rfl

/-- A proof that the checker accepts, from which no formula is missing and whose citations count from
the front. -/
structure Accepted (pf : Proof) : Prop where
  isValid : pf.isValid = .ok true
  front : ∀ l ∈ pf.lines, ∀ j ∈ l.cited, 0 ≤ j
  complete : pf.complete = .ok pf

theorem Accepted.establishes {pf : Proof} (h : pf.Accepted) :
    pf.Establishes pf.statement.assumptions pf.statement.conclusion :=
  establishes_of_isValid h.isValid h.front h.complete

/-- Nothing is missing from the statement of such a proof. -/
theorem Accepted.present_of_mem {pf : Proof} (h : pf.Accepted) {a : Formula}
    (ha : a ∈ pf.statement.assumptions) : a.isMissing = false :=
  (InferenceRule.isComplete_iff.1 (complete_eq_ok.1 h.complete).1).2.1 a ha

/-- The lines of a proof are justified as far as they are a derivation. -/
theorem justified_of_derivation {pf : Proof} {done more : List Line} (hlines : pf.lines = done ++ more)
    (h : Derivation pf.statement.assumptions pf.rules done) {k : Nat} {l : Line}
    (hk : done[k]? = some l) : pf.Justified k l := by
  have hlt : k < done.length := (List.getElem?_eq_some_iff.1 hk).1
  have htake : pf.lines.take k = done.take k := by
    rw [hlines, List.take_append_of_le_length hlt.le]
  have hl : Follows pf.statement.assumptions pf.rules (pf.lines.take k) l := htake ▸ h k l hk
  exact (follows_take_iff.1 hl).2.2

/-- Lines that derive the last of them make a proof of it. -/
theorem establishes_make {as : List Formula} {rules : List InferenceRule} {lines : List Line}
    {c : Formula} (h : Derivation as rules lines) (hends : Shows lines (lines.length - 1) c) :
    (make (.rule as c) rules lines).Establishes as c :=
  ⟨rfl, h.mono (List.Subset.refl as) fun _ hr => List.mem_eraseDups.2 hr, hends⟩

section Establishes

variable {pf : Proof} {as : List Formula} {c : Formula}

theorem Establishes.isValid (h : pf.Establishes as c) : pf.isValid = .ok true :=
  (establishes_iff.1 h).2.1

theorem Establishes.present (h : pf.Establishes as c) : c.isMissing = false :=
  h.derivation.present h.ends

theorem Establishes.conclusion_eq (h : pf.Establishes as c) : pf.statement.conclusion = c := by
  rw [h.statement_eq]
  rfl

end Establishes

end Proof

end FormalLogic.Propositional
