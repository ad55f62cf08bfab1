import FormalLogic.Propositional.Traversal
import FormalLogic.Proofs.Propositional.TextLookup

/-!
# Matching by one traversal finds the same images

Going through two formulas side by side compares roots. Formulas with the same constant or the same operator at their
roots have the same shape there, and the root of a formula is a variable only if the formula is that variable. So going
through formulas finds what matching by recursion finds (`traverse_eq_matchFormula`). Joined to one formula, a rule is
gone through in the order of its assumptions, with the conclusion at the end, so the images between rules are the same
too (`InferenceRule.traversalImages?_eq`).
-/

namespace FormalLogic.Propositional

open Formula

variable {d : Dialect} {m : Specialization} {f g : Formula} {op : Connective}

/-! ## Roots -/

theorem Formula.isConstant_constText (b : Bool) : isConstant (constText b) = true := by
  cases b <;> rfl

theorem Formula.constText_inj {a b : Bool} : constText a = constText b ↔ a = b := by
  cases a <;> cases b <;> decide

theorem isBinary_symbol (hop : op ∈ d) : isBinary d op.symbol = true := by
  rw [isBinary, Connective.ofSymbol?_symbol hop]
  rfl

namespace Formula.WellFormed

/-- A formula whose root is an operator or a constant is no variable. -/
theorem not_var (hg : g.WellFormed d) (h : isBinary d g.root = true ∨ isUnary g.root = true ∨ isConstant g.root = true)
    (x : String) : g ≠ var x := by
  rintro rfl
  cases (isVariable_eq_false h).symm.trans hg

/-- Only a variable has a variable at its root. -/
theorem eq_var_root (hg : g.WellFormed d) (h : Propositional.isVariable g.root = true) : g = var g.root := by
  have hroot : ¬ (isBinary d g.root = true ∨ isUnary g.root = true ∨ isConstant g.root = true) := by
    intro hroot
    cases (isVariable_eq_false hroot).symm.trans h
  cases g with
  | var x => rfl
  | const b => exact absurd (.inr (.inr (isConstant_constText b))) hroot
  | neg g => exact absurd (.inr (.inl rfl)) hroot
  | bin op l r => exact absurd (.inl (isBinary_symbol hg.1)) hroot
  | missing => exact hg.elim

theorem eq_const_of_root {b : Bool} (hg : g.WellFormed d) (h : g.root = constText b) : g = const b := by
  have hconst : isConstant g.root = true := h ▸ isConstant_constText b
  cases g with
  | var x => exact absurd rfl (hg.not_var (.inr (.inr hconst)) x)
  | const b' => rw [constText_inj.1 h]
  | neg g => exact absurd hconst Bool.false_ne_true
  | bin op l r => cases op.symbol_category.2.1.symm.trans hconst
  | missing => exact hg.elim

theorem eq_neg_of_root (hg : g.WellFormed d) (h : g.root = "~") : ∃ g', g = neg g' := by
  have hunary : isUnary g.root = true := beq_iff_eq.2 h
  cases g with
  | var x => exact absurd rfl (hg.not_var (.inr (.inl hunary)) x)
  | const b => cases b <;> exact absurd hunary (by decide)
  | neg g => exact ⟨g, rfl⟩
  | bin op l r => cases op.symbol_category.2.2.symm.trans hunary
  | missing => exact hg.elim

theorem eq_bin_of_root (hop : op ∈ d) (hg : g.WellFormed d) (h : g.root = op.symbol) : ∃ l r, g = bin op l r := by
  have hsymbol : Connective.ofSymbol? d g.root = some op := by rw [h, Connective.ofSymbol?_symbol hop]
  cases g with
  | var x => exact absurd rfl (hg.not_var (.inl (by rw [isBinary, hsymbol]; rfl)) x)
  | const b => cases (isConstant_constText b).symm.trans ((congrArg isConstant h).trans op.symbol_category.2.1)
  | neg g => cases (congrArg isUnary h).trans op.symbol_category.2.2
  | bin op' l r =>
      obtain rfl : op' = op := Option.some.inj ((Connective.ofSymbol?_symbol hg.1).symm.trans hsymbol)
      exact ⟨l, r, rfl⟩
  | missing => exact hg.elim

end Formula.WellFormed

/-! ## Two formulas -/

section Traverse

variable (hg : g.isMissing = false)
include hg

theorem traverse_var (x : String) : traverse m (.var x) g = compareRoots m (.var x) g := by
  cases g with
  | missing => cases hg
  | _ => rfl

theorem traverse_const (b : Bool) : traverse m (.const b) g = compareRoots m (.const b) g := by
  cases g with
  | missing => cases hg
  | _ => rfl

theorem traverse_neg (f : Formula) : traverse m (.neg f) g =
    (compareRoots m (.neg f) g).bind fun m => g.first?.elim (some m) (traverse m f) := by
  cases g with
  | missing => cases hg
  | _ => rfl

theorem traverse_bin (op : Connective) (l r : Formula) : traverse m (.bin op l r) g =
    (compareRoots m (.bin op l r) g).bind fun m => (g.first?.elim (some m) (traverse m l)).bind fun m =>
      g.second?.elim (some m) (traverse m r) := by
  cases g with
  | missing => cases hg
  | _ => rfl

end Traverse

theorem enterImage_eq_matchFormula (m : Specialization) (x : String) (g : Formula) :
    enterImage m x g g = matchFormula m (.var x) g := by
  rw [enterImage, matchFormula]
  cases hfind : Table.find? m x with
  | none =>
      have hx : x ∉ Table.keys m := by simp [← Table.find?_isSome, hfind]
      rw [Table.put_of_notMem hx]
      rfl
  | some h =>
      by_cases hg : h = g
      · subst hg
        simp [Table.put_eq_self hfind]
      · simp [hg]

theorem compareRoots_var {x : String} (hx : isVariable x = true) (hg : g.WellFormed d) :
    compareRoots m (.var x) g = matchFormula m (.var x) g := by
  rw [← enterImage_eq_matchFormula, compareRoots, root, if_pos hx, if_pos hx]
  split
  · rfl
  · next hroot =>
      -- under equal roots the image is made of the root alone, which is all there is of a variable
      have hroot : g.root = x := (not_not.1 hroot).symm
      rw [← hg.eq_var_root (hroot ▸ hx)]

theorem compareRoots_of_not_isVariable (hf : isVariable f.root = false) :
    compareRoots m f g = if f.root = g.root then some m else none := by
  rw [compareRoots, hf]
  by_cases hroot : f.root = g.root
  · simp [hroot]
  · simp [hroot]

theorem matchFormula_eq_none (hf : f.WellFormed d) (hroot : isVariable f.root = false) (h : f.root ≠ g.root) :
    matchFormula m f g = none := by
  cases f with
  | var x => cases hroot.symm.trans hf
  | const b =>
      cases g with
      | const b' => rw [matchFormula, if_neg fun hb => h (congrArg constText hb)]
      | _ => rfl
  | neg f =>
      cases g with
      | neg g => exact absurd rfl h
      | _ => rfl
  | bin op l r =>
      cases g with
      | bin op' l' r' => rw [matchFormula, if_neg fun hop => h (congrArg Connective.symbol hop)]
      | _ => rfl
  | missing => exact hf.elim

/-- Going through two formulas is matching them. -/
theorem traverse_eq_matchFormula (hf : f.WellFormed d) (hg : g.WellFormed d) :
    traverse m f g = matchFormula m f g := by
  -- a root that is no variable settles the shape of the other formula, and the operands are left
  induction f generalizing m g with
  | var x => rw [traverse_var hg.isMissing_eq_false, compareRoots_var hf hg]
  | const b =>
      have hvar : isVariable (const b).root = false :=
        isVariable_eq_false (d := d) (.inr (.inr (isConstant_constText b)))
      rw [traverse_const hg.isMissing_eq_false, compareRoots_of_not_isVariable hvar]
      by_cases hroot : (const b).root = g.root
      · rw [if_pos hroot, hg.eq_const_of_root hroot.symm, matchFormula, if_pos rfl]
      · rw [if_neg hroot, matchFormula_eq_none hf hvar hroot]
  | neg f ih =>
      have hvar : isVariable (neg f).root = false := isVariable_eq_false (d := d) (.inr (.inl rfl))
      rw [traverse_neg hg.isMissing_eq_false, compareRoots_of_not_isVariable hvar]
      by_cases hroot : (neg f).root = g.root
      · obtain ⟨g, rfl⟩ := hg.eq_neg_of_root hroot.symm
        rw [if_pos hroot, matchFormula, ← ih (g := g) hf hg]
        rfl
      · rw [if_neg hroot, matchFormula_eq_none hf hvar hroot]
        rfl
  | bin op l r ihl ihr =>
      have hvar : isVariable (bin op l r).root = false :=
        isVariable_eq_false (.inl (isBinary_symbol hf.1))
      rw [traverse_bin hg.isMissing_eq_false, compareRoots_of_not_isVariable hvar]
      by_cases hroot : (bin op l r).root = g.root
      · obtain ⟨l', r', rfl⟩ := hg.eq_bin_of_root hf.1 hroot.symm
        rw [if_pos hroot, matchFormula_bin, if_pos rfl, Option.bind_some, ← ihl hf.2.1 hg.2.1]
        exact Option.bind_congr fun m' _ => ihr hf.2.2 hg.2.2
      · rw [if_neg hroot, matchFormula_eq_none hf hvar hroot]
        rfl
  | missing => exact hf.elim

/-- Going through what two places hold finds what is found between the formulas there. -/
theorem traverse_eq_formulaImages? (hf : f.Made d) (hg : g.Made d) : traverse [] f g = formulaImages? f g := by
  rcases hf with hf | hf
  · cases f with
    | missing => rfl
    | _ => cases hf
  · rcases hg with hg | hg
    · cases g with
      | missing => cases f <;> rfl
      | _ => cases hg
    · rw [formulaImages?, hf.isMissing_eq_false, hg.isMissing_eq_false]
      exact traverse_eq_matchFormula hf hg

/-! ## Rules -/

/-- The conjunction of formulas is gone through as the formulas are, one after the other. -/
theorem matchFormula_foldl {as as' : List Formula} (a a' : Formula) (hlength : as.length = as'.length) :
    matchFormula m (as.foldl (bin .and) a) (as'.foldl (bin .and) a') = matchFormulas m (a :: as) (a' :: as') := by
  induction as generalizing a a' as' with
  | nil =>
      obtain rfl := List.length_eq_zero_iff.1 hlength.symm
      rw [matchFormulas_cons]
      exact (Option.bind_fun_some _).symm
  | cons b bs ih =>
      cases as' with
      | nil => cases hlength
      | cons b' bs' =>
          rw [List.foldl_cons, List.foldl_cons, ih _ _ (Nat.succ.inj hlength), matchFormulas_cons, matchFormula_bin,
            if_pos rfl, Option.bind_assoc, matchFormulas_cons]
          exact Option.bind_congr fun m' _ => (matchFormulas_cons m' b b' bs bs').symm

theorem wellFormed_foldl {as : List Formula} {a : Formula} (hop : op ∈ d) (ha : a.WellFormed d)
    (has : ∀ b ∈ as, b.WellFormed d) : (as.foldl (bin op) a).WellFormed d := by
  induction as generalizing a with
  | nil => exact ha
  | cons b bs ih => exact ih ⟨hop, ha, has b List.mem_cons_self⟩ fun c hc => has c (List.mem_cons_of_mem b hc)

namespace InferenceRule

/-- A rule is joined to one formula if nothing is missing from it. -/
theorem joined_cons (a : Formula) (as : List Formula) (c : Formula) :
    (rule (a :: as) c).joined = (do
      (rule (a :: as) c).requireComplete
      return bin .implies (as.foldl (bin .and) a) c) := by
  -- the first two assumptions are joined, and their conjunction is the first assumption of what is left
  induction as generalizing a with
  | nil =>
      have hjoined : (rule [a] c).joined = make Connective.all Connective.implies.symbol [a, c] := rfl
      have hcomplete : (rule [a] c).isComplete = (!a.isMissing && !c.isMissing) :=
        congrArg (!a.isMissing && ·) (Bool.and_true _)
      rw [hjoined, make_bin (by decide), present, present, requireComplete, hcomplete]
      cases a.isMissing with
      | true => rfl
      | false => cases c.isMissing <;> rfl
  | cons b bs ih =>
      have hjoined : (rule (a :: b :: bs) c).joined = (do
          let f ← make Connective.all Connective.and.symbol [a, b]
          (rule (f :: bs) c).joined) :=
        bind_assoc _ _ _
      have hcomplete : (rule (a :: b :: bs) c).isComplete =
          (!a.isMissing && (!b.isMissing && (rule (bin .and a b :: bs) c).isComplete)) :=
        rfl
      rw [hjoined, make_bin (by decide), present, present, requireComplete, hcomplete]
      cases a.isMissing with
      | true => rfl
      | false =>
          cases b.isMissing with
          | true => rfl
          | false => exact ih (bin .and a b)

theorem wellFormed_of_isComplete {r : InferenceRule} (hcomplete : r.isComplete = true)
    (hr : ∀ f ∈ r.formulas, f.Made d) : ∀ f ∈ r.formulas, f.WellFormed d := by
  intro f hf
  have hpresent : (!f.isMissing) = true := List.all_eq_true.1 (Bool.and_eq_true_iff.1 hcomplete).2 f hf
  rcases hr f hf with h | h
  · rw [h] at hpresent
    cases hpresent
  · exact h

/-- Going through the formulas of two rules is matching the rules, one formula after the other. -/
theorem traverse_joined {a a' c c' : Formula} {as as' : List Formula}
    (hgeneral : ∀ f ∈ (rule (a :: as) c).formulas, f.WellFormed Connective.all)
    (hspecial : ∀ f ∈ (rule (a' :: as') c').formulas, f.WellFormed Connective.all)
    (hlength : as.length = as'.length) :
    traverse [] (bin .implies (as.foldl (bin .and) a) c) (bin .implies (as'.foldl (bin .and) a') c') =
      matchFormulas [] (a :: as ++ [c]) (a' :: as' ++ [c']) := by
  rw [formulas, List.forall_mem_append, List.forall_mem_cons, List.forall_mem_singleton] at hgeneral hspecial
  obtain ⟨⟨ha, has⟩, hc⟩ := hgeneral
  obtain ⟨⟨ha', has'⟩, hc'⟩ := hspecial
  have hjoined : (bin .implies (as.foldl (bin .and) a) c).WellFormed Connective.all :=
    ⟨by decide, wellFormed_foldl (by decide) ha has, hc⟩
  have hjoined' : (bin .implies (as'.foldl (bin .and) a') c').WellFormed Connective.all :=
    ⟨by decide, wellFormed_foldl (by decide) ha' has', hc'⟩
  rw [traverse_eq_matchFormula hjoined hjoined', matchFormula_bin, if_pos rfl, matchFormula_foldl a a' hlength]
  exact (matchFormulas_concat c c' (congrArg (· + 1) hlength)).symm

theorem traversalImages?_rule (as as' : List Formula) (c c' : Formula) :
    traversalImages? (rule as c) (rule as' c') =
      if as.length ≠ as'.length then .ok none
      else (rule as c).joined >>= fun f => (rule as' c').joined >>= fun g => .ok (traverse [] f g) :=
  rfl

/-- The images between two rules are found by going through their formulas. -/
theorem traversalImages?_eq {general special : InferenceRule}
    (hgeneral : ∀ f ∈ general.formulas, f.Made Connective.all)
    (hspecial : ∀ f ∈ special.formulas, f.Made Connective.all) :
    traversalImages? general special = images? general special := by
  cases general with
  | missing => rfl
  | rule as c =>
      cases special with
      | missing => rfl
      | rule as' c' =>
          rw [images?_rule, traversalImages?_rule]
          by_cases hlength : as.length = as'.length
          · rw [if_neg (not_not_intro hlength), if_neg (not_not_intro hlength)]
            cases as with
            | nil =>
                obtain rfl := List.length_eq_zero_iff.1 hlength.symm
                exact congrArg Except.ok
                  (traverse_eq_formulaImages? (hgeneral c List.mem_cons_self) (hspecial c' List.mem_cons_self))
            | cons a as =>
                obtain ⟨a', as', rfl⟩ := List.exists_cons_of_length_eq_add_one hlength.symm
                rw [joined_cons, joined_cons, requireComplete, requireComplete, if_neg (by simp)]
                cases hcomplete : (rule (a :: as) c).isComplete with
                | false => rfl
                | true =>
                    cases hcomplete' : (rule (a' :: as') c').isComplete with
                    | false => rfl
                    | true =>
                        exact congrArg Except.ok (traverse_joined (wellFormed_of_isComplete hcomplete hgeneral)
                          (wellFormed_of_isComplete hcomplete' hspecial) (Nat.succ.inj hlength))
          · rw [if_pos hlength, if_pos hlength]

end InferenceRule

end FormalLogic.Propositional
