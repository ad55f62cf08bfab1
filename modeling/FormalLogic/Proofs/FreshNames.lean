import FormalLogic.FreshNames
import Mathlib.Order.Basic
import Mathlib.Data.Nat.Basic

/-!
# Names that were drawn

A supply does not repeat a name. The variables that an operation draws lie between the states of the supply
before and after it (`FreshNames.Drawn`), so operations that run one after the other share none.

Operations that draw names and can fail are specified by what they ensure (`Fallible.Ensures`): that they
answer, and what holds of the answer and the names drawn.
-/

namespace FormalLogic

namespace FreshNames

theorem toList_name (letter : String) (n : Nat) :
    (name letter n).toList = letter.toList ++ Nat.toDigits 10 n := by
  rw [name, String.toList_append, String.toList_ofList]

/-- A supply does not repeat a name. -/
theorem name_injective (letter : String) : Function.Injective (name letter) := by
  intro m n h
  have hdigits : Nat.toDigits 10 m = Nat.toDigits 10 n := by
    have h := congrArg String.toList h
    rw [toList_name, toList_name] at h
    exact List.append_cancel_left h
  rw [← @Nat.ofDigitChars_toDigits 10 m (by decide) (by decide), hdigits,
    Nat.ofDigitChars_toDigits (by decide) (by decide)]

/-- Variables were drawn between two states of the supply, each of them once. -/
structure Drawn (s s' : FreshNames) (xs : List String) : Prop where
  le : s.variablesDrawn ≤ s'.variablesDrawn
  nodup : xs.Nodup
  between : ∀ x ∈ xs, ∃ n, s.variablesDrawn < n ∧ n ≤ s'.variablesDrawn ∧ x = name "z" n

namespace Drawn

variable {s s' s'' : FreshNames} {xs ys : List String}

theorem nil (s : FreshNames) : Drawn s s [] :=
  ⟨le_rfl, List.nodup_nil, fun _ hx => absurd hx List.not_mem_nil⟩

/-- What is drawn later is different from what was drawn before. -/
theorem append (h : Drawn s s' xs) (h' : Drawn s' s'' ys) : Drawn s s'' (xs ++ ys) where
  le := h.le.trans h'.le
  nodup := by
    refine List.nodup_append.2 ⟨h.nodup, h'.nodup, ?_⟩
    rintro x hx _ hy rfl
    -- its number would lie both below and above the state in between
    obtain ⟨m, -, hm, hx⟩ := h.between x hx
    obtain ⟨n, hn, -, hy⟩ := h'.between x hy
    have hmn : m = n := name_injective "z" (hx.symm.trans hy)
    omega
  between := by
    intro x hx
    rcases List.mem_append.1 hx with hx | hx
    · obtain ⟨n, hlt, hle, hn⟩ := h.between x hx
      exact ⟨n, hlt, hle.trans h'.le, hn⟩
    · obtain ⟨n, hlt, hle, hn⟩ := h'.between x hx
      exact ⟨n, lt_of_le_of_lt h.le hlt, hle, hn⟩

/-- The variable that is drawn next is a new one. -/
theorem notMem_next (h : Drawn s s' xs) : name "z" (s'.variablesDrawn + 1) ∉ xs := by
  intro hx
  obtain ⟨n, -, hle, hn⟩ := h.between _ hx
  have hnext : s'.variablesDrawn + 1 = n := name_injective "z" hn
  omega

/-- What was drawn before is not drawn again. -/
theorem notMem_of_le (h : Drawn s s' xs) {n : Nat} (hn : n ≤ s.variablesDrawn) : name "z" n ∉ xs := by
  intro hx
  obtain ⟨m, hm, -, hname⟩ := h.between _ hx
  have hnm : n = m := name_injective "z" hname
  omega

theorem next (h : Drawn s s' xs) :
    Drawn s { s' with variablesDrawn := s'.variablesDrawn + 1 }
      (name "z" (s'.variablesDrawn + 1) :: xs) where
  le := h.le.trans (Nat.le_succ _)
  nodup := List.nodup_cons.2 ⟨h.notMem_next, h.nodup⟩
  between := by
    refine List.forall_mem_cons.2 ⟨⟨_, Nat.lt_succ_of_le h.le, le_rfl, rfl⟩, fun x hx => ?_⟩
    obtain ⟨n, hlt, hle, hn⟩ := h.between x hx
    exact ⟨n, hlt, Nat.le_succ_of_le hle, hn⟩

end Drawn

end FreshNames

/-! ## Runs that answer -/

/-- An operation answers, and the answer and the names drawn meet a condition. -/
def Fallible.Ensures {α : Type} (s : FreshNames) (x : Fallible α) (Q : α → FreshNames → Prop) : Prop :=
  ∃ a s', x.run.run s = (.ok a, s') ∧ Q a s'

namespace Fallible

variable {α β : Type} {s : FreshNames}

theorem ensures_bind {x : Fallible α} {f : α → Fallible β} {R : α → FreshNames → Prop}
    {Q : β → FreshNames → Prop} (hx : Ensures s x R)
    (hf : ∀ a s', R a s' → Ensures s' (f a) Q) : Ensures s (x >>= f) Q := by
  obtain ⟨a, s', ha, hR⟩ := hx
  obtain ⟨b, s'', hb, hQ⟩ := hf a s' hR
  refine ⟨b, s'', ?_, hQ⟩
  rw [ExceptT.run_bind, StateT.run_bind, ha]
  exact hb

/-- A look that answers is followed by the next step. -/
theorem ensures_lift_bind {x : Outcome α} {a : α} (hx : x = .ok a) {f : α → Fallible β}
    {Q : β → FreshNames → Prop} (hf : Ensures s (f a) Q) : Ensures s (liftM x >>= f) Q := by
  subst hx
  exact hf

/-- A look and the next step that answer did so one after the other. -/
theorem lift_bind_eq_ok {x : Outcome α} {f : α → Fallible β} {b : β} {s' : FreshNames}
    (h : (liftM x >>= f : Fallible β).run.run s = (.ok b, s')) :
    ∃ a, x = .ok a ∧ (f a).run.run s = (.ok b, s') := by
  cases x with
  | error e => cases h
  | ok a => exact ⟨a, rfl, h⟩

theorem Ensures.imp {x : Fallible α} {Q R : α → FreshNames → Prop} (hx : Ensures s x Q)
    (h : ∀ a s', Q a s' → R a s') : Ensures s x R := by
  obtain ⟨a, s', ha, hQ⟩ := hx
  exact ⟨a, s', ha, h a s' hQ⟩

end Fallible

end FormalLogic
