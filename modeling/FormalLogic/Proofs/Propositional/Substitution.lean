import FormalLogic.Proofs.Propositional.Conversion
import FormalLogic.Proofs.Propositional.ExactMatching

/-!
# Replacing variables at once

Replacing the variables of a formula by a table of images is done everywhere at once: what an image brings in is not
replaced again. So the value of the outcome is the value of the formula with the keys of the table evaluated as
their images, and two tables one after the other do what one table does, in which the images of the first are
themselves replaced by the second (`Formula.substituteVariables_simultaneous`).
-/

namespace FormalLogic.Propositional

/-! ## Tables of images -/

/-- A table of images of variables, all of them formulas. -/
structure Substitution.Proper (σ : Substitution) : Prop where
  keys : ∀ x ∈ Table.keys σ, isVariable x = true
  images : ImagesWellFormed Connective.all σ

theorem Substitution.proper_of_forall {σ : Substitution}
    (h : ∀ e ∈ σ, isVariable e.1 = true ∧ e.2.WellFormed Connective.all) : σ.Proper := by
  refine ⟨List.forall_mem_map.2 fun e he => (h e he).1, fun x g hx => ?_⟩
  exact (h _ (Table.mem_of_find?_eq_some hx)).2

/-- A table for the effect of two, one after the other: each key of the first has its image there, replaced by the
second, and other variables have their images in the second. -/
structure Substitution.Composes (σ τ ρ : Substitution) : Prop where
  image : ∀ x g, Table.find? σ x = some g →
    ∃ h, g.substituteVariables τ false false = .ok h ∧ Table.find? ρ x = some h
  other : ∀ x, Table.find? σ x = none → Table.find? ρ x = Table.find? τ x

/-- A valuation that sees variables through a table: each key has the value of its image in another valuation,
and other variables have the values they have there. -/
structure Valuation.Through (σ : Substitution) (m m' : Valuation) : Prop where
  image : ∀ x g, Table.find? σ x = some g → ∃ b, g.evaluate m = .ok b ∧ Table.find? m' x = some b
  other : ∀ x, Table.find? σ x = none → Table.find? m' x = Table.find? m x

namespace Formula

variable {f : Formula} {σ τ ρ : Substitution} {m m' : Valuation}

theorem WellFormed.subst_imageIn (hf : f.WellFormed Connective.all) (hσ : σ.Proper) :
    (f.subst (imageIn σ)).WellFormed Connective.all :=
  hf.specialize fun _ hx => hσ.images.imageIn hx

/-- By a table of images of variables, all variables are replaced. -/
theorem WellFormed.substituteVariables_eq_ok (hf : f.WellFormed Connective.all) (hσ : σ.Proper) :
    f.substituteVariables σ false false = .ok (f.subst (imageIn σ)) := by
  have hkeys : checkKeys false σ = .ok () := checkKeys_eq_ok.2 hσ.keys
  rw [substituteVariables, given_eq_self hf.isMissing_eq_false, ok_bind, hkeys, ok_bind]
  exact (substPartial_eq_ok_iff hσ.keys (hf.subst_imageIn hσ)).2 rfl

/-! ## Values -/

/-- Seen through a table, every variable has the value of its image. -/
theorem value_of_through (h : Valuation.Through σ m m') (x : String) :
    m'.value x = (imageIn σ x).eval m.value := by
  rw [Valuation.value, imageIn]
  cases hfind : Table.find? σ x with
  | none =>
      rw [h.other x hfind]
      rfl
  | some g =>
      obtain ⟨b, hb, hx⟩ := h.image x g hfind
      obtain ⟨-, -, hvalue⟩ := evaluate_eq_ok.1 hb
      rw [hx, Option.getD_some, Option.getD_some, hvalue]

theorem mem_keys_of_through (h : Valuation.Through σ m m') {x : String}
    (hx : x ∈ Table.keys m ∨ x ∈ Table.keys σ) : x ∈ Table.keys m' := by
  rw [← Table.find?_isSome]
  cases hfind : Table.find? σ x with
  | none =>
      have hnotMem : x ∉ Table.keys σ := by simp [← Table.find?_isSome, hfind]
      rw [h.other x hfind, Table.find?_isSome]
      exact hx.resolve_right hnotMem
  | some g =>
      obtain ⟨b, -, hx⟩ := h.image x g hfind
      rw [hx, Option.isSome_some]

section Values

variable (himages : ∀ x g, Table.find? σ x = some g → g.vars ⊆ Table.keys m)
include himages

/-- The variables that are there after replacing are those that stay, and those of images. -/
theorem leafVariables_subst_imageIn (hcovers : ∀ x ∈ f.vars, x ∈ Table.keys m ∨ x ∈ Table.keys σ) :
    (f.subst (imageIn σ)).leafVariables ⊆ Table.keys m := by
  intro y hy
  obtain ⟨x, hx, hy⟩ := mem_leafVariables_subst.1 hy
  rw [imageIn] at hy
  cases hfind : Table.find? σ x with
  | none =>
      have hnotMem : x ∉ Table.keys σ := by simp [← Table.find?_isSome, hfind]
      rw [hfind] at hy
      obtain rfl := List.mem_singleton.1 hy
      exact (hcovers y (mem_vars.2 hx)).resolve_right hnotMem
  | some g =>
      rw [hfind] at hy
      exact himages x g hfind (mem_vars.2 hy)

variable (hσ : σ.Proper)
include hσ

theorem exists_through : ∃ m', Valuation.Through σ m m' := by
  refine ⟨σ.map (fun e => (e.1, e.2.eval m.value)) ++ m, fun x g hx => ?_, fun x hx => ?_⟩
  · have hleaves : g.leafVariables ⊆ Table.keys m := fun y hy => himages x g hx (mem_vars.2 hy)
    refine ⟨_, evaluate_of_subset (hσ.images x g hx).isMissing_eq_false hleaves, ?_⟩
    rw [Table.find?_append, Table.find?_map, hx, Option.map_some, Option.some_or]
  · rw [Table.find?_append, Table.find?_map, hx, Option.map_none, Option.none_or]

/-- Replacing variables is seeing them through the table. -/
theorem evaluate_subst_imageIn (hf : f.WellFormed Connective.all)
    (hcovers : ∀ x ∈ f.vars, x ∈ Table.keys m ∨ x ∈ Table.keys σ) (h : Valuation.Through σ m m') :
    ∃ b, (f.subst (imageIn σ)).evaluate m = .ok b ∧ f.evaluate m' = .ok b := by
  have hleaves : f.leafVariables ⊆ Table.keys m' := fun x hx => mem_keys_of_through h (hcovers x (mem_vars.2 hx))
  have hleaves' := leafVariables_subst_imageIn himages hcovers
  have hvalue : (f.subst (imageIn σ)).eval m.value = f.eval m'.value := by
    rw [eval_subst]
    exact eval_congr f fun x _ => (value_of_through h x).symm
  refine ⟨f.eval m'.value, ?_, evaluate_of_subset hf.isMissing_eq_false hleaves⟩
  rw [evaluate_of_subset (hf.subst_imageIn hσ).isMissing_eq_false hleaves', hvalue]

end Values

/-! ## One table for two -/

section Composition

variable (hσ : σ.Proper) (hτ : τ.Proper)
include hσ hτ

theorem exists_composes : ∃ ρ, Substitution.Composes σ τ ρ := by
  refine ⟨σ.map (fun e => (e.1, e.2.subst (imageIn τ))) ++ τ, fun x g hx => ?_, fun x hx => ?_⟩
  · refine ⟨_, (hσ.images x g hx).substituteVariables_eq_ok hτ, ?_⟩
    rw [Table.find?_append, Table.find?_map, hx, Option.map_some, Option.some_or]
  · rw [Table.find?_append, Table.find?_map, hx, Option.map_none, Option.none_or]

/-- The image of a key is the one that the second table makes of its first image. -/
theorem find?_of_composes (h : Substitution.Composes σ τ ρ) {x : String} {g : Formula}
    (hx : Table.find? σ x = some g) : Table.find? ρ x = some (g.subst (imageIn τ)) := by
  obtain ⟨g', hg', hρ⟩ := h.image x g hx
  rw [(hσ.images x g hx).substituteVariables_eq_ok hτ] at hg'
  rw [hρ, Except.ok.inj hg']

theorem proper_of_composes (h : Substitution.Composes σ τ ρ) : ρ.Proper := by
  constructor
  · intro x hx
    cases hfind : Table.find? σ x with
    | none =>
        rw [← Table.find?_isSome, h.other x hfind, Table.find?_isSome] at hx
        exact hτ.keys x hx
    | some g => exact hσ.keys x (Table.find?_isSome.1 (by rw [hfind, Option.isSome_some]))
  · intro x g' hx
    cases hfind : Table.find? σ x with
    | none => exact hτ.images x g' ((h.other x hfind).symm.trans hx)
    | some g =>
        rw [find?_of_composes hσ hτ h hfind] at hx
        obtain rfl := Option.some.inj hx
        exact (hσ.images x g hfind).subst_imageIn hτ

theorem imageIn_of_composes (h : Substitution.Composes σ τ ρ) (x : String) :
    imageIn ρ x = (imageIn σ x).subst (imageIn τ) := by
  cases hfind : Table.find? σ x with
  | none =>
      rw [imageIn, imageIn, h.other x hfind, hfind]
      rfl
  | some g => rw [imageIn, imageIn, find?_of_composes hσ hτ h hfind, hfind, Option.getD_some, Option.getD_some]

/-- Replacing by two tables, one after the other, is replacing by one. -/
theorem substituteVariables_of_composes (hf : f.WellFormed Connective.all) (h : Substitution.Composes σ τ ρ) :
    (f.subst (imageIn σ)).substituteVariables τ false false = f.substituteVariables ρ false false := by
  have himages : (fun x => (imageIn σ x).subst (imageIn τ)) = imageIn ρ := by
    funext x
    exact (imageIn_of_composes hσ hτ h x).symm
  rw [(hf.subst_imageIn hσ).substituteVariables_eq_ok hτ,
    hf.substituteVariables_eq_ok (proper_of_composes hσ hτ h), subst_subst, himages]

end Composition

/-- By a table of formulas for variables, exactly the variables that a formula has are replaced, each by its image.
The outcome has the value, in any valuation of what is left, that the formula has with the variables seen through
the table; and a second table makes of it what a table for both makes of the formula. -/
theorem substituteVariables_simultaneous (hf : f.WellFormed Connective.all) (hσ : σ.Proper) :
    f.substituteVariables σ false false = .ok (f.subst (imageIn σ)) ∧
      (∀ m, (∀ x ∈ f.vars, x ∈ Table.keys m ∨ x ∈ Table.keys σ) →
        (∀ x g, Table.find? σ x = some g → g.vars ⊆ Table.keys m) →
          (∃ m', Valuation.Through σ m m') ∧ ∀ m', Valuation.Through σ m m' →
            ∃ b, (f.subst (imageIn σ)).evaluate m = .ok b ∧ f.evaluate m' = .ok b) ∧
      ∀ τ : Substitution, τ.Proper →
        (∃ ρ, Substitution.Composes σ τ ρ) ∧ ∀ ρ, Substitution.Composes σ τ ρ →
          ∃ g, (f.subst (imageIn σ)).substituteVariables τ false false = .ok g ∧
            f.substituteVariables ρ false false = .ok g := by
  refine ⟨hf.substituteVariables_eq_ok hσ, fun m hcovers himages => ⟨exists_through himages hσ, ?_⟩,
    fun τ hτ => ⟨exists_composes hσ hτ, ?_⟩⟩
  · intro m' h
    exact evaluate_subst_imageIn himages hσ hf hcovers h
  · intro ρ h
    have hsecond := (hf.subst_imageIn hσ).substituteVariables_eq_ok hτ
    exact ⟨_, hsecond, (substituteVariables_of_composes hσ hτ hf h).symm.trans hsecond⟩

/-- Two variables are exchanged, one of them within a larger image, and the second table replaces one of them and
what the first one brought in. -/
theorem substituteVariables_simultaneous_exchange :
    let f := bin .and (bin .implies (var "p") (var "q")) (neg (var "r"))
    let σ : Substitution := [("p", var "q"), ("q", bin .or (var "p") (var "s"))]
    let τ : Substitution := [("q", const true), ("s", neg (var "q"))]
    f.WellFormed Connective.all ∧ σ.Proper ∧ τ.Proper ∧
      f.substituteVariables σ false false =
        .ok (bin .and (bin .implies (var "q") (bin .or (var "p") (var "s"))) (neg (var "r"))) ∧
      (∃ m', Valuation.Through σ [("p", false), ("q", true), ("r", false), ("s", true)] m' ∧
        f.evaluate m' = .ok true) ∧
      ∃ ρ, Substitution.Composes σ τ ρ ∧ f.substituteVariables ρ false false =
        .ok (bin .and (bin .implies (const true) (bin .or (var "p") (neg (var "q")))) (neg (var "r"))) := by
  intro f σ τ
  have hf : f.WellFormed Connective.all := by decide
  have hσ : σ.Proper := Substitution.proper_of_forall (by decide)
  have hτ : τ.Proper := Substitution.proper_of_forall (by decide)
  obtain ⟨hrun, hvalues, hcomposition⟩ := substituteVariables_simultaneous hf hσ
  have hcovers : ∀ x ∈ f.vars, x ∈ ["p", "q", "r", "s"] ∨ x ∈ Table.keys σ := by
    intro x hx
    have hleaf : x ∈ ["p", "q", "r"] := mem_vars.1 hx
    exact .inl (List.mem_append_left ["s"] hleaf)
  have himages : ∀ x g, Table.find? σ x = some g → g.vars ⊆ ["p", "q", "r", "s"] := by
    intro x g hx y hy
    have hall : ∀ e ∈ σ, ∀ y ∈ e.2.leafVariables, y ∈ ["p", "q", "r", "s"] := by decide
    exact hall _ (Table.mem_of_find?_eq_some hx) y (mem_vars.1 hy)
  obtain ⟨⟨m', hm'⟩, hvalue⟩ := hvalues [("p", false), ("q", true), ("r", false), ("s", true)] hcovers himages
  obtain ⟨⟨ρ, hρ⟩, hone⟩ := hcomposition τ hτ
  obtain ⟨b, hresult, hb⟩ := hvalue m' hm'
  obtain ⟨-, -, rfl⟩ := evaluate_eq_ok.1 hresult
  obtain ⟨g, hsecond, hg⟩ := hone ρ hρ
  exact ⟨hf, hσ, hτ, hrun, ⟨m', hm', hb⟩, ρ, hρ, hg.trans hsecond.symm⟩

end Formula

end FormalLogic.Propositional
