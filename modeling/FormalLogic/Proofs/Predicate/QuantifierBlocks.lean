import FormalLogic.Proofs.FreshNames
import FormalLogic.Proofs.Predicate.Semantics
import Mathlib.Data.List.Nodup

/-!
# Blocks of universal quantifiers

Sentences about relations are closed by a universal quantifier for each variable. Such a sentence is true exactly
if what the quantifiers bind is true for all values of the variables (`Formula.truth_forAllOf`). The variables
have a letter and a number each (`Formula.numbered`), so they are different from each other and can be given
any values (`Formula.exists_map_eq`).
-/

namespace FormalLogic.Predicate.Formula

/-! ## Quantifiers over many variables -/

/-- A formula behind a universal quantifier for each of the variables, the last of them outermost. -/
def forAllOf (xs : List String) (f : Formula) : Formula :=
  xs.foldl (fun g x => forAll x g) f

section Blocks

variable {xs : List String} {f : Formula}

theorem forAllOf_concat (xs : List String) (x : String) (f : Formula) :
    forAllOf (xs ++ [x]) f = forAll x (forAllOf xs f) :=
  List.foldl_concat _ _ _ _

theorem terms_forAllOf : (forAllOf xs f).terms = f.terms := by
  induction xs generalizing f with
  | nil => rfl
  | cons x xs ih => exact ih

theorem relationNodes_forAllOf : (forAllOf xs f).relationNodes = f.relationNodes := by
  induction xs generalizing f with
  | nil => rfl
  | cons x xs ih => exact ih

theorem binders_forAllOf : (forAllOf xs f).binders = xs.reverse ++ f.binders := by
  induction xs generalizing f with
  | nil => rfl
  | cons x xs ih =>
      rw [List.reverse_cons, List.append_assoc]
      exact ih

theorem isEqualityFree_forAllOf : (forAllOf xs f).isEqualityFree = f.isEqualityFree := by
  induction xs generalizing f with
  | nil => rfl
  | cons x xs ih => exact ih

theorem mem_freeNames_forAllOf {x : String} :
    x ∈ (forAllOf xs f).freeNames ↔ x ∈ f.freeNames ∧ x ∉ xs := by
  induction xs generalizing f with
  | nil => simp [forAllOf]
  | cons y xs ih =>
      change x ∈ (forAllOf xs (forAll y f)).freeNames ↔ _
      rw [ih, mem_freeNames_quant, List.mem_cons, not_or, and_assoc]

theorem forAllOf_wellFormed (hxs : ∀ x ∈ xs, isVariable x = true) (hf : f.WellFormed) :
    (forAllOf xs f).WellFormed := by
  induction xs generalizing f with
  | nil => exact hf
  | cons x xs ih =>
      obtain ⟨hx, hxs⟩ := List.forall_mem_cons.1 hxs
      exact ih hxs ⟨hx, hf⟩

/-- A formula behind the quantifiers is true if it is for all values of the variables. -/
theorem truth_forAllOf {I : Interpretation} {v : String → String} :
    (forAllOf xs f).truth I v = true ↔ ∀ w : String → String, (∀ x, x ∉ xs → w x = v x) →
      (∀ x ∈ xs, w x ∈ I.domain) → f.truth I w = true := by
  induction xs generalizing f with
  | nil =>
      refine ⟨fun h w hw _ => ?_, fun h => h v (fun _ _ => rfl) (by simp)⟩
      rwa [show w = v from funext fun x => hw x List.not_mem_nil]
  | cons x xs ih =>
      change (forAllOf xs (forAll x f)).truth I v = true ↔ _
      simp only [ih, truth_forAll]
      constructor
      · intro h w hw hdomain
        obtain ⟨hx, hxs⟩ := List.forall_mem_cons.1 hdomain
        -- the variable may be quantified again further out, or else had a value before
        by_cases hmem : x ∈ xs
        · have hoff : ∀ y, y ∉ xs → w y = v y := fun y hy =>
            hw y (List.not_mem_cons_of_ne_of_not_mem (fun hyx => hy (hyx ▸ hmem)) hy)
          have hf := h w hoff hxs (w x) hx
          rwa [Function.update_eq_self] at hf
        · have hoff : ∀ y, y ∉ xs → Function.update w x (v x) y = v y := by
            intro y hy
            by_cases hyx : y = x
            · rw [hyx, Function.update_self]
            · rw [Function.update_of_ne hyx, hw y (List.not_mem_cons_of_ne_of_not_mem hyx hy)]
          have hin : ∀ y ∈ xs, Function.update w x (v x) y ∈ I.domain := by
            intro y hy
            rw [Function.update_of_ne (ne_of_mem_of_not_mem hy hmem)]
            exact hxs y hy
          have hf := h _ hoff hin (w x) hx
          rwa [Function.update_idem, Function.update_eq_self] at hf
      · intro h w hw hdomain e he
        refine h _ (fun y hy => ?_) fun y hy => ?_
        · obtain ⟨hyx, hy⟩ := List.ne_and_not_mem_of_not_mem_cons hy
          rw [Function.update_of_ne hyx, hw y hy]
        · by_cases hyx : y = x
          · rw [hyx, Function.update_self]
            exact he
          · rw [Function.update_of_ne hyx]
            exact hdomain y ((List.mem_cons.1 hy).resolve_left hyx)

end Blocks

/-! ## Numbered variables -/

/-- Variables with a letter and successive numbers. -/
def numbered (letter : String) (k n : Nat) : List String :=
  (List.range' k n).map (FreshNames.name letter)

theorem numbered_eq (letter : String) (k n : Nat) :
    ((List.range n).map fun (i : Nat) => letter ++ Text.decimal (i + k)) = numbered letter k n := by
  rw [numbered, List.range'_eq_map_range, List.map_map]
  refine List.map_congr_left fun i _ => ?_
  have hdecimal : Text.decimal (i + k) = String.ofList (Nat.toDigits 10 (k + i)) := by
    have hnatAbs : (i + k : Int).natAbs = k + i := by omega
    rw [Text.decimal, if_neg (by omega), hnatAbs]
  rw [hdecimal]
  rfl

theorem length_numbered (letter : String) (k n : Nat) : (numbered letter k n).length = n := by
  rw [numbered, List.length_map, List.length_range']

theorem nodup_numbered (letter : String) (k n : Nat) : (numbered letter k n).Nodup :=
  List.Nodup.map (FreshNames.name_injective letter) List.nodup_range'

/-- The variables of arguments can be given any values. -/
theorem exists_map_eq {xs es : List String} (hxs : xs.Nodup) (hlength : es.length = xs.length)
    (v : String → String) : ∃ w, xs.map w = es ∧ ∀ x, x ∉ xs → w x = v x := by
  induction xs generalizing es with
  | nil => exact ⟨v, (List.eq_nil_of_length_eq_zero hlength).symm, fun _ _ => rfl⟩
  | cons x xs ih =>
      obtain ⟨hx, hxs⟩ := List.nodup_cons.1 hxs
      obtain ⟨e, es, rfl⟩ := List.exists_cons_of_length_eq_add_one hlength
      obtain ⟨w, hmap, hw⟩ := ih hxs (Nat.succ.inj hlength)
      refine ⟨Function.update w x e, ?_, fun y hy => ?_⟩
      · rw [List.map_cons, Function.update_self, ← hmap]
        refine congrArg (e :: ·) (List.map_congr_left fun y hy => ?_)
        exact Function.update_of_ne (ne_of_mem_of_not_mem hy hx) e w
      · obtain ⟨hyx, hy⟩ := List.ne_and_not_mem_of_not_mem_cons hy
        rw [Function.update_of_ne hyx, hw y hy]

end FormalLogic.Predicate.Formula
