import FormalLogic.Propositional.Rule
import FormalLogic.Proofs.Outcome
import FormalLogic.Proofs.Table
import Mathlib.Data.List.Nodup

/-!
# Matching finds substitution instances

Matching a general formula against a special one threads a table of images from left to right. What is
found only ever extends what was there (`Extends`), so the images found at the end reproduce every part
that was matched on the way. Conversely an instance by a substitution is always matched, because all
images found on the way are images under that substitution (`AgreesWith`).

What a single new image keeps is kept throughout (`matchFormula_invariant`), for instance that no variable
has two images.
-/

namespace FormalLogic.Propositional

open Formula

/-- A table keeps the images of another, and may have more. -/
def Extends (m m' : Specialization) : Prop :=
  ∀ x g, Table.find? m x = some g → Table.find? m' x = some g

theorem Extends.refl (m : Specialization) : Extends m m :=
  fun _ _ h => h

theorem Extends.trans {m m' m'' : Specialization} (h : Extends m m') (h' : Extends m' m'') :
    Extends m m'' :=
  fun x g hx => h' x g (h x g hx)

theorem extends_append (m t : Specialization) : Extends m (m ++ t) := by
  intro x g hx
  rw [Table.find?_append, hx]
  rfl

/-- The images of a table are those under a substitution. -/
def AgreesWith (σ : String → Formula) (m : Specialization) : Prop :=
  ∀ x g, Table.find? m x = some g → g = σ x

theorem agreesWith_nil (σ : String → Formula) : AgreesWith σ [] := by
  intro x g hx
  simp at hx

theorem AgreesWith.imageIn_eq {σ : String → Formula} {m : Specialization} (h : AgreesWith σ m) {x : String}
    (hx : x ∈ Table.keys m) : imageIn m x = σ x := by
  obtain ⟨g, hg⟩ := Option.isSome_iff_exists.1 (Table.find?_isSome.2 hx)
  rw [imageIn, hg, Option.getD_some, h x g hg]

/-! ## Formulas -/

/-- A variable is matched by its image, which it either has already or gets now. -/
theorem matchFormula_var {m m' : Specialization} {x : String} {g : Formula} :
    matchFormula m (.var x) g = some m' ↔
      (Table.find? m x = some g ∧ m' = m) ∨ (Table.find? m x = none ∧ m' = m ++ [(x, g)]) := by
  unfold matchFormula
  cases hx : Table.find? m x with
  | none => simp [eq_comm]
  | some h =>
      by_cases hg : h = g
      · simp [hg, eq_comm]
      · simp [hg]

theorem matchFormula_bin (m : Specialization) (op op' : Connective) (l r l' r' : Formula) :
    matchFormula m (.bin op l r) (.bin op' l' r') =
      if op = op' then (matchFormula m l l').bind fun m' => matchFormula m' r r' else none := by
  rw [matchFormula]
  cases matchFormula m l l' <;> rfl

/-- Matching finds images of the variables that occur. -/
theorem mem_keys_of_matchFormula {m m' : Specialization} {f g : Formula}
    (h : matchFormula m f g = some m') {x : String} :
    x ∈ Table.keys m' ↔ x ∈ Table.keys m ∨ x ∈ f.leafVariables := by
  induction f generalizing m m' g with
  | var y =>
      rw [leafVariables, List.mem_singleton]
      rcases matchFormula_var.1 h with ⟨hy, rfl⟩ | ⟨-, rfl⟩
      · have hkey : y ∈ Table.keys m' := Table.find?_isSome.1 (by rw [hy]; rfl)
        constructor
        · exact .inl
        · rintro (hx | rfl)
          · exact hx
          · exact hkey
      · simp [Table.keys]
  | const a =>
      cases g with
      | const b =>
          rw [matchFormula, Option.ite_none_right_eq_some] at h
          simp [← Option.some.inj h.2, leafVariables]
      | _ => simp [matchFormula] at h
  | neg f ih =>
      cases g with
      | neg g => exact ih h
      | _ => simp [matchFormula] at h
  | bin op l r ihl ihr =>
      cases g with
      | bin op' l' r' =>
          rw [matchFormula_bin, Option.ite_none_right_eq_some, Option.bind_eq_some_iff] at h
          obtain ⟨-, m₁, hl, hr⟩ := h
          rw [ihr hr, ihl hl, leafVariables, List.mem_append, or_assoc]
      | _ => simp [matchFormula] at h
  | missing =>
      cases g with
      | missing => simp [← Option.some.inj h, leafVariables]
      | _ => simp [matchFormula] at h

/-- What is true of the images found before, and stays true when a variable that has no image gets one, is
true of all images found. Every new image is a part of the special formula, and so it has each property `Q`
that passes from a formula to its parts. -/
theorem matchFormula_invariant {P : Specialization → Prop} {Q : Formula → Prop}
    (hneg : ∀ g, Q (.neg g) → Q g) (hbin : ∀ op l r, Q (.bin op l r) → Q l ∧ Q r)
    (hnew : ∀ m x g, P m → Q g → Table.find? m x = none → P (m ++ [(x, g)]))
    {m m' : Specialization} {f g : Formula} (hm : P m) (hg : Q g) (h : matchFormula m f g = some m') :
    P m' := by
  induction f generalizing m m' g with
  | var x =>
      rcases matchFormula_var.1 h with ⟨-, rfl⟩ | ⟨hx, rfl⟩
      · exact hm
      · exact hnew m x g hm hg hx
  | const a =>
      cases g with
      | const b =>
          rw [matchFormula, Option.ite_none_right_eq_some] at h
          rwa [← Option.some.inj h.2]
      | _ => simp [matchFormula] at h
  | neg f ih =>
      cases g with
      | neg g => exact ih hm (hneg g hg) h
      | _ => simp [matchFormula] at h
  | bin op l r ihl ihr =>
      cases g with
      | bin op' l' r' =>
          obtain ⟨hl', hr'⟩ := hbin op' l' r' hg
          rw [matchFormula_bin, Option.ite_none_right_eq_some, Option.bind_eq_some_iff] at h
          obtain ⟨-, m₁, hl, hr⟩ := h
          exact ihr (ihl hm hl' hl) hr' hr
      | _ => simp [matchFormula] at h
  | missing =>
      cases g with
      | missing => rwa [← Option.some.inj h]
      | _ => simp [matchFormula] at h

/-- A table that has every key once still does when a new key is added. -/
theorem nodup_keys_concat {m : Specialization} {x : String} {g : Formula} (hm : (Table.keys m).Nodup)
    (hx : Table.find? m x = none) : (Table.keys (m ++ [(x, g)])).Nodup := by
  have hnew : x ∉ Table.keys m := by
    rw [← Table.find?_isSome, hx]
    exact Bool.false_ne_true
  rw [Table.keys, List.map_append, List.map_singleton, ← List.concat_eq_append]
  exact List.Nodup.concat hnew hm

/-- No variable gets two images. -/
theorem nodup_keys_of_matchFormula {m m' : Specialization} {f g : Formula} (hm : (Table.keys m).Nodup)
    (h : matchFormula m f g = some m') : (Table.keys m').Nodup :=
  matchFormula_invariant (Q := fun _ => True) (fun _ _ => trivial) (fun _ _ _ _ => ⟨trivial, trivial⟩)
    (fun _ _ _ hm _ hx => nodup_keys_concat hm hx) hm trivial h

/-- Matching extends the images found before, and by any further extension the general formula becomes
the special one. -/
theorem subst_of_matchFormula {m m' : Specialization} {f g : Formula}
    (h : matchFormula m f g = some m') :
    Extends m m' ∧ ∀ m'', Extends m' m'' → f.subst (imageIn m'') = g := by
  induction f generalizing m m' g with
  | var x =>
      have himage : ∀ {m''}, Table.find? m'' x = some g → (Formula.var x).subst (imageIn m'') = g := by
        intro m'' hx
        rw [subst, imageIn, hx]
        rfl
      rcases matchFormula_var.1 h with ⟨hx, rfl⟩ | ⟨hx, rfl⟩
      · exact ⟨.refl m', fun m'' hm => himage (hm x g hx)⟩
      · refine ⟨extends_append m _, fun m'' hm => himage (hm x g ?_)⟩
        rw [Table.find?_append, hx]
        simp
  | const a =>
      cases g with
      | const b =>
          rw [matchFormula, Option.ite_none_right_eq_some] at h
          obtain ⟨rfl, h⟩ := h
          obtain rfl := Option.some.inj h
          exact ⟨.refl m, fun _ _ => rfl⟩
      | _ => simp [matchFormula] at h
  | neg f ih =>
      cases g with
      | neg g =>
          obtain ⟨hext, hsub⟩ := ih h
          exact ⟨hext, fun m'' hm => by rw [subst, hsub m'' hm]⟩
      | _ => simp [matchFormula] at h
  | bin op l r ihl ihr =>
      cases g with
      | bin op' l' r' =>
          rw [matchFormula_bin, Option.ite_none_right_eq_some, Option.bind_eq_some_iff] at h
          obtain ⟨rfl, m₁, hl, hr⟩ := h
          obtain ⟨hext₁, hsub₁⟩ := ihl hl
          obtain ⟨hext₂, hsub₂⟩ := ihr hr
          refine ⟨hext₁.trans hext₂, fun m'' hm => ?_⟩
          rw [subst, hsub₁ m'' (hext₂.trans hm), hsub₂ m'' hm]
      | _ => simp [matchFormula] at h
  | missing =>
      cases g with
      | missing =>
          obtain rfl := Option.some.inj h
          exact ⟨.refl m, fun _ _ => rfl⟩
      | _ => simp [matchFormula] at h

/-- An instance by a substitution is matched, with images under that substitution. -/
theorem matchFormula_subst {σ : String → Formula} {m : Specialization} (hm : AgreesWith σ m)
    (f : Formula) : ∃ m', matchFormula m f (f.subst σ) = some m' ∧ AgreesWith σ m' := by
  induction f generalizing m with
  | var x =>
      cases hx : Table.find? m x with
      | some g =>
          have hg : g = σ x := hm x g hx
          exact ⟨m, matchFormula_var.2 (.inl ⟨by rw [hx, hg]; rfl, rfl⟩), hm⟩
      | none =>
          refine ⟨m ++ [(x, σ x)], matchFormula_var.2 (.inr ⟨hx, rfl⟩), ?_⟩
          intro y g hy
          rw [Table.find?_append] at hy
          rcases Option.or_eq_some_iff.1 hy with hy | ⟨-, hy⟩
          · exact hm y g hy
          · rw [Table.find?_cons] at hy
            split at hy
            · rename_i hxy
              rw [← Option.some.inj hy, hxy]
            · simp at hy
  | const a => exact ⟨m, by simp [subst, matchFormula], hm⟩
  | neg f ih => exact ih hm
  | bin op l r ihl ihr =>
      obtain ⟨m₁, hl, hm₁⟩ := ihl hm
      obtain ⟨m₂, hr, hm₂⟩ := ihr hm₁
      exact ⟨m₂, by simp [subst, matchFormula, hl, hr], hm₂⟩
  | missing => exact ⟨m, rfl, hm⟩

/-! ## Lists of formulas -/

theorem matchFormulas_cons (m : Specialization) (f g : Formula) (fs gs : List Formula) :
    matchFormulas m (f :: fs) (g :: gs) =
      (matchFormula m f g).bind fun m' => matchFormulas m' fs gs := by
  rw [matchFormulas]
  cases matchFormula m f g <;> rfl

/-- The last formulas are matched with the images that the others have led to. -/
theorem matchFormulas_concat {m : Specialization} {fs gs : List Formula} (f g : Formula)
    (hlength : fs.length = gs.length) :
    matchFormulas m (fs ++ [f]) (gs ++ [g]) =
      (matchFormulas m fs gs).bind fun m' => matchFormula m' f g := by
  induction fs generalizing m gs with
  | nil =>
      obtain rfl := List.length_eq_zero_iff.1 hlength.symm
      rw [List.nil_append, List.nil_append, matchFormulas_cons]
      exact Option.bind_fun_some _
  | cons f' fs ih =>
      cases gs with
      | nil => cases hlength
      | cons g' gs =>
          rw [List.cons_append, List.cons_append, matchFormulas_cons, matchFormulas_cons, Option.bind_assoc]
          exact Option.bind_congr fun m' _ => ih (Nat.succ.inj hlength)

theorem matchFormulas_of_length_ne {m : Specialization} {fs gs : List Formula}
    (hlength : fs.length ≠ gs.length) : matchFormulas m fs gs = none := by
  induction fs generalizing m gs with
  | nil =>
      cases gs with
      | nil => exact absurd rfl hlength
      | cons g gs => rfl
  | cons f fs ih =>
      cases gs with
      | nil => rfl
      | cons g gs =>
          rw [matchFormulas_cons, Option.bind_eq_none_iff]
          exact fun m' _ => ih fun h => hlength (congrArg Nat.succ h)

/-- Matching finds images of the variables that occur in any of the formulas. -/
theorem mem_keys_of_matchFormulas {m m' : Specialization} {fs gs : List Formula}
    (h : matchFormulas m fs gs = some m') {x : String} :
    x ∈ Table.keys m' ↔ x ∈ Table.keys m ∨ x ∈ fs.flatMap leafVariables := by
  induction fs generalizing m gs with
  | nil =>
      cases gs with
      | nil => simp [← Option.some.inj h]
      | cons g gs => cases h
  | cons f fs ih =>
      cases gs with
      | nil => cases h
      | cons g gs =>
          rw [matchFormulas_cons, Option.bind_eq_some_iff] at h
          obtain ⟨m₁, hf, hfs⟩ := h
          rw [ih hfs, mem_keys_of_matchFormula hf, List.flatMap_cons, List.mem_append, or_assoc]

/-- The invariants of matching formulas are those of matching lists of formulas. -/
theorem matchFormulas_invariant {P : Specialization → Prop} {Q : Formula → Prop}
    (hmatch : ∀ {m m' f g}, P m → Q g → matchFormula m f g = some m' → P m')
    {m m' : Specialization} {fs gs : List Formula} (hm : P m) (hgs : ∀ g ∈ gs, Q g)
    (h : matchFormulas m fs gs = some m') : P m' := by
  induction fs generalizing m gs with
  | nil =>
      cases gs with
      | nil => rwa [← Option.some.inj h]
      | cons g gs => cases h
  | cons f fs ih =>
      cases gs with
      | nil => cases h
      | cons g gs =>
          obtain ⟨hg, hgs⟩ := List.forall_mem_cons.1 hgs
          rw [matchFormulas_cons, Option.bind_eq_some_iff] at h
          obtain ⟨m₁, hf, hfs⟩ := h
          exact ih (hmatch hm hg hf) hgs hfs

theorem nodup_keys_of_matchFormulas {m m' : Specialization} {fs gs : List Formula}
    (hm : (Table.keys m).Nodup) (h : matchFormulas m fs gs = some m') : (Table.keys m').Nodup :=
  matchFormulas_invariant (P := fun m => (Table.keys m).Nodup) (Q := fun _ => True)
    (fun hm _ hf => nodup_keys_of_matchFormula hm hf) hm (fun _ _ => trivial) h

theorem map_subst_of_matchFormulas {m m' : Specialization} {fs gs : List Formula}
    (h : matchFormulas m fs gs = some m') :
    Extends m m' ∧ ∀ m'', Extends m' m'' → fs.map (subst (imageIn m'')) = gs := by
  induction fs generalizing m gs with
  | nil =>
      cases gs with
      | nil =>
          obtain rfl := Option.some.inj h
          exact ⟨.refl m, fun _ _ => rfl⟩
      | cons g gs => simp [matchFormulas] at h
  | cons f fs ih =>
      cases gs with
      | nil => simp [matchFormulas] at h
      | cons g gs =>
          rw [matchFormulas_cons, Option.bind_eq_some_iff] at h
          obtain ⟨m₁, hf, hfs⟩ := h
          obtain ⟨hext₁, hsub₁⟩ := subst_of_matchFormula hf
          obtain ⟨hext₂, hsub₂⟩ := ih hfs
          refine ⟨hext₁.trans hext₂, fun m'' hm => ?_⟩
          rw [List.map_cons, hsub₁ m'' (hext₂.trans hm), hsub₂ m'' hm]

theorem matchFormulas_map_subst {σ : String → Formula} {m : Specialization} (hm : AgreesWith σ m)
    (fs : List Formula) : ∃ m', matchFormulas m fs (fs.map (subst σ)) = some m' ∧ AgreesWith σ m' := by
  induction fs generalizing m with
  | nil => exact ⟨m, rfl, hm⟩
  | cons f fs ih =>
      obtain ⟨m₁, hf, hm₁⟩ := matchFormula_subst hm f
      obtain ⟨m₂, hfs, hm₂⟩ := ih hm₁
      exact ⟨m₂, by simp only [List.map_cons, matchFormulas, hf, hfs], hm₂⟩

/-! ## Rules -/

namespace InferenceRule

theorem isComplete_iff {r : InferenceRule} :
    r.isComplete = true ↔ r.isMissing = false ∧ (∀ f ∈ r.assumptions, f.isMissing = false) ∧
      r.conclusion.isMissing = false := by
  cases r with
  | missing => simp [isComplete, isMissing]
  | rule as c => simp [isComplete, isMissing, formulas, assumptions, conclusion]

/-- The images between two rules that were given. -/
theorem images?_rule (as as' : List Formula) (c c' : Formula) :
    images? (rule as c) (rule as' c') =
      if as.length ≠ as'.length then .ok none
      else if as.isEmpty = true then .ok (formulaImages? c c')
      else (rule as c).requireComplete >>= fun _ => (rule as' c').requireComplete >>= fun _ =>
        .ok (matchFormulas [] (as ++ [c]) (as' ++ [c'])) :=
  rfl

/-- The images between rules from which nothing is missing are found by matching all formulas. -/
theorem images?_eq_ok {general special : InferenceRule} (hgeneral : general.isComplete = true)
    (hspecial : special.isComplete = true) : images? general special = .ok (matchRule? general special) := by
  cases general with
  | missing => cases hgeneral
  | rule as c =>
      cases special with
      | missing => cases hspecial
      | rule as' c' =>
          rw [images?_rule, matchRule?, formulas, formulas]
          by_cases hlength : as.length = as'.length
          · rw [if_neg (not_not_intro hlength)]
            cases as with
            | nil =>
                obtain rfl := List.length_eq_zero_iff.1 hlength.symm
                have hc : c.isMissing = false := (isComplete_iff.1 hgeneral).2.2
                have hc' : c'.isMissing = false := (isComplete_iff.1 hspecial).2.2
                rw [if_pos List.isEmpty_nil, formulaImages?, hc, hc', matchFormulas_concat c c' hlength]
                rfl
            | cons a as =>
                rw [List.isEmpty_cons, if_neg Bool.false_ne_true, requireComplete, requireComplete, hgeneral,
                  hspecial]
                rfl
          · rw [if_pos hlength, matchFormulas_of_length_ne]
            simpa using hlength

/-- Images are found by comparing the conclusions of rules without assumptions, or all formulas of rules
from which nothing is missing. -/
theorem images?_cases {special general : InferenceRule} {m : Specialization}
    (h : images? general special = .ok (some m)) :
    (∃ c c', general = rule [] c ∧ special = rule [] c' ∧ formulaImages? c c' = some m) ∨
    special.isComplete = true ∧ ∃ as as' c c', general = rule as c ∧ special = rule as' c' ∧
      matchFormulas [] (as ++ [c]) (as' ++ [c']) = some m := by
  cases general with
  | missing => simp [images?, given, isMissing, bind, Except.bind] at h
  | rule as c =>
      cases special with
      | missing => simp [images?, given, isMissing, bind, Except.bind] at h
      | rule as' c' =>
          rw [images?_rule] at h
          split at h
          · simp at h
          split at h
          · rename_i hlen hempty
            obtain rfl := List.isEmpty_iff.1 hempty
            obtain rfl : as' = [] := List.length_eq_zero_iff.1 (not_not.1 hlen).symm
            exact .inl ⟨c, c', rfl, rfl, Except.ok.inj h⟩
          · obtain ⟨_, -, h⟩ := bind_eq_ok.1 h
            obtain ⟨_, hspecial, h⟩ := bind_eq_ok.1 h
            exact .inr ⟨require_eq_ok.1 hspecial, as, as', c, c', rfl, rfl, Except.ok.inj h⟩

/-- The images found between two rules make the general one the special one. The exception are rules
without assumptions, one of which lacks its conclusion; rules with assumptions are compared only if
nothing is missing. -/
theorem images?_inversion {special general : InferenceRule} {m : Specialization}
    (h : images? general special = .ok (some m)) :
    (∃ c c', general = rule [] c ∧ special = rule [] c' ∧
      (c.isMissing = true ∨ c'.isMissing = true)) ∨
    (special.assumptions ≠ [] → special.isComplete = true) ∧ special = general.subst (imageIn m) := by
  rcases images?_cases h with ⟨c, c', rfl, rfl, hm⟩ | ⟨hspecial, as, as', c, c', rfl, rfl, hm⟩
  · rw [formulaImages?] at hm
    split at hm
    · rename_i hmissing
      exact .inl ⟨c, c', rfl, rfl, by simpa using hmissing⟩
    · obtain ⟨-, hsub⟩ := subst_of_matchFormula hm
      exact .inr ⟨fun hne => absurd rfl hne, by rw [InferenceRule.subst, hsub m (.refl m)]; rfl⟩
  · obtain ⟨-, hsub⟩ := map_subst_of_matchFormulas hm
    have hforms := hsub m (.refl m)
    rw [List.map_append, List.map_singleton] at hforms
    obtain ⟨has, hc⟩ := List.append_inj' hforms rfl
    refine .inr ⟨fun _ => hspecial, ?_⟩
    rw [InferenceRule.subst, has, List.cons.inj hc |>.1]

/-- Between rules from which nothing is missing there is no exception. -/
theorem subst_of_images? {special general : InferenceRule} {m : Specialization}
    (hgeneral : general.isComplete = true) (hspecial : special.isComplete = true)
    (h : images? general special = .ok (some m)) : general.subst (imageIn m) = special := by
  rcases images?_inversion h with ⟨c, c', rfl, rfl, hmissing⟩ | ⟨-, hsubst⟩
  · have hc : c.isMissing = false := (isComplete_iff.1 hgeneral).2.2
    have hc' : c'.isMissing = false := (isComplete_iff.1 hspecial).2.2
    simp [hc, hc'] at hmissing
  · exact hsubst.symm

/-- A rule is a specialization exactly if images are found. -/
theorem isSpecializationOf_eq_true {special general : InferenceRule} :
    special.isSpecializationOf general = .ok true ↔ ∃ m, images? general special = .ok (some m) := by
  rw [isSpecializationOf, bind_eq_ok]
  constructor
  · rintro ⟨images, himages, h⟩
    obtain ⟨m, rfl⟩ := Option.isSome_iff_exists.1 (pure_eq_ok.1 h)
    exact ⟨m, himages⟩
  · rintro ⟨m, hm⟩
    exact ⟨some m, hm, rfl⟩

/-- A specialization is an instance by a substitution, with the same exception. -/
theorem isSpecializationOf_inversion {special general : InferenceRule}
    (h : special.isSpecializationOf general = .ok true) :
    (∃ c c', general = rule [] c ∧ special = rule [] c' ∧
      (c.isMissing = true ∨ c'.isMissing = true)) ∨
    (special.assumptions ≠ [] → special.isComplete = true) ∧ ∃ σ, special = general.subst σ := by
  obtain ⟨m, hm⟩ := isSpecializationOf_eq_true.1 h
  rcases images?_inversion hm with hmissing | ⟨hcomplete, hspecial⟩
  · exact .inl hmissing
  · exact .inr ⟨hcomplete, imageIn m, hspecial⟩

/-- Every instance by a substitution is a specialization, as long as rules with assumptions are
complete. -/
theorem isSpecializationOf_subst {general : InferenceRule} {σ : String → Formula}
    (hgiven : general.isMissing = false)
    (hcomplete : general.assumptions ≠ [] →
      general.isComplete = true ∧ (general.subst σ).isComplete = true) :
    (general.subst σ).isSpecializationOf general = .ok true := by
  cases general with
  | missing => simp [isMissing] at hgiven
  | rule as c =>
      refine bind_eq_ok.2 ?_
      rw [InferenceRule.subst, images?_rule, List.length_map, if_neg (not_not_intro rfl)]
      cases as with
      | nil =>
          refine ⟨_, rfl, ?_⟩
          rw [pure_eq_ok, formulaImages?]
          split
          · rfl
          · obtain ⟨m, hm, -⟩ := matchFormula_subst (agreesWith_nil σ) c
            rw [hm]
            rfl
      | cons a as =>
          obtain ⟨hgeneral, hspecial⟩ := hcomplete (List.cons_ne_nil a as)
          obtain ⟨m, hm, -⟩ := matchFormulas_map_subst (agreesWith_nil σ) (a :: as ++ [c])
          rw [List.map_append, List.map_singleton] at hm
          rw [InferenceRule.subst] at hspecial
          refine ⟨some m, ?_, rfl⟩
          rw [List.isEmpty_cons, if_neg Bool.false_ne_true]
          simp only [requireComplete, hgeneral, hspecial, require_true, ok_bind, hm]

end InferenceRule

end FormalLogic.Propositional
