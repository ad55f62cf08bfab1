import FormalLogic.Proofs.Propositional.Substitution

/-!
# Replacing operators at once

The image of an operator is a formula in the operand places, into which the operands are put after the operators in
them have been replaced. An operand may itself have the operand places among its variables, and an image may have
operators with images of their own; neither is touched again. So replacing operators is reading them differently:
the value of the outcome is found by recursion on the formula, where an operator with an image has the value of the
image for the values of its operands (`Formula.substituteOperators_compositional`).
-/

namespace FormalLogic.Propositional

/-- A table of images of operators and constants, all of them formulas in the operand places. -/
structure Substitution.ForOperators (σ : Substitution) : Prop where
  keys : ∀ e ∈ σ, isBinary Connective.all e.1 = true ∨ isUnary e.1 = true ∨ isConstant e.1 = true
  images : ∀ e ∈ σ, e.2.WellFormed Connective.all
  places : ∀ e ∈ σ, e.2.vars ⊆ Formula.operandPlaces

namespace Formula

variable {f g : Formula} {σ s : Substitution} {m m' : Valuation}

/-! ## Reading operators through a table -/

/-- The truth value of a formula whose operators and constants are read through a table. An operator with an image has
the value of the image, with the values of the operands in the operand places, and other operators have their own. -/
def evaluateThrough (σ : Substitution) (m : Valuation) : Formula → Outcome Bool
  | var name => (var name).evaluate m
  | const value =>
    match Table.find? σ (constText value) with
    | some g => g.evaluate m
    | none => .ok value
  | neg f => do
    let a ← f.evaluateThrough σ m
    match Table.find? σ "~" with
    | some g => g.evaluate (Table.put m "p" a)
    | none => return !a
  | bin op l r => do
    let a ← l.evaluateThrough σ m
    let b ← r.evaluateThrough σ m
    match Table.find? σ op.symbol with
    | some g => g.evaluate (Table.put (Table.put m "q" b) "p" a)
    | none => return op.eval a b
  | missing => .error .absent

/-- The symbols that take the place of an operator: those of its image, or its own. -/
def symbolsThrough (σ : Substitution) (symbol : String) : List String :=
  match Table.find? σ symbol with
  | some g => g.operatorSymbols
  | none => [symbol]

/-! ## The outcome -/

theorem checkOperatorImages_eq_ok (hσ : σ.ForOperators) : checkOperatorImages Connective.all σ = .ok () := by
  rw [checkOperatorImages, forM_eq_ok]
  intro e he
  have hkey : (isBinary Connective.all e.1 || isUnary e.1 || isConstant e.1) = true := by
    simpa only [Bool.or_eq_true, or_assoc] using hσ.keys e he
  rw [hkey, require_true, ok_bind, given_eq_self (hσ.images e he).isMissing_eq_false, ok_bind]
  exact require_eq_ok.2 (subset_eq_true.2 (hσ.places e he))

theorem WellFormed.substituteOperators_eq_ok (hf : f.WellFormed Connective.all) (hσ : σ.ForOperators) :
    f.substituteOperators Connective.all σ = .ok (f.substOperators σ) := by
  rw [substituteOperators, given_eq_self hf.isMissing_eq_false, ok_bind, checkOperatorImages_eq_ok hσ]
  rfl

theorem proper_first (hf : f.WellFormed Connective.all) : Substitution.Proper [("p", f)] := by
  have hp : isVariable "p" = true := by decide
  exact Substitution.proper_of_forall (List.forall_mem_singleton.2 ⟨hp, hf⟩)

theorem proper_both {l r : Formula} (hl : l.WellFormed Connective.all) (hr : r.WellFormed Connective.all) :
    Substitution.Proper [("p", l), ("q", r)] := by
  have hp : isVariable "p" = true := by decide
  have hq : isVariable "q" = true := by decide
  exact Substitution.proper_of_forall (List.forall_mem_cons.2 ⟨⟨hp, hl⟩, List.forall_mem_singleton.2 ⟨hq, hr⟩⟩)

theorem WellFormed.applicationImage {a : Formula} (ha : a.WellFormed Connective.all) (hσ : σ.ForOperators) :
    (applicationImage σ a).WellFormed Connective.all := by
  rw [Formula.applicationImage]
  cases hfind : Table.find? σ a.root with
  | none => exact ha
  | some g => exact hσ.images _ (Table.mem_of_find?_eq_some hfind)

/-- Replacing operators by formulas gives a formula. -/
theorem WellFormed.substOperators (hf : f.WellFormed Connective.all) (hσ : σ.ForOperators) :
    (f.substOperators σ).WellFormed Connective.all := by
  induction f with
  | var x => exact hf
  | const value => exact hf.applicationImage hσ
  | neg f ih =>
      have hplace : (neg p).WellFormed Connective.all := by decide
      rw [substOperators_neg]
      exact (hplace.applicationImage hσ).subst_imageIn (proper_first (ih hf))
  | bin op l r ihl ihr =>
      obtain ⟨hop, hl, hr⟩ := hf
      have hplaces : (bin op p q).WellFormed Connective.all := ⟨hop, by decide⟩
      rw [substOperators_bin]
      exact (hplaces.applicationImage hσ).subst_imageIn (proper_both (ihl hl) (ihr hr))
  | missing => exact hf

/-! ## Values -/

theorem evaluate_neg {a : Bool} (hf : f.evaluate m = .ok a) : (neg f).evaluate m = .ok !a := by
  obtain ⟨-, hvars, hvalue⟩ := evaluate_eq_ok.1 hf
  exact evaluate_eq_ok.2 ⟨rfl, hvars, congrArg not hvalue⟩

theorem evaluate_bin {l r : Formula} {a b : Bool} (op : Connective) (hl : l.evaluate m = .ok a)
    (hr : r.evaluate m = .ok b) : (bin op l r).evaluate m = .ok (op.eval a b) := by
  obtain ⟨-, hlvars, hlvalue⟩ := evaluate_eq_ok.1 hl
  obtain ⟨-, hrvars, hrvalue⟩ := evaluate_eq_ok.1 hr
  refine evaluate_eq_ok.2 ⟨rfl, subset_eq_true.2 fun x hx => ?_, by rw [eval, hlvalue, hrvalue]⟩
  rcases List.mem_append.1 (mem_vars.1 hx) with hx | hx
  · exact subset_eq_true.1 hlvars (mem_vars.2 hx)
  · exact subset_eq_true.1 hrvars (mem_vars.2 hx)

/-- Nothing is seen through an empty table. -/
theorem through_nil (m : Valuation) : Valuation.Through [] m m := by
  refine ⟨fun x g hx => ?_, fun x _ => rfl⟩
  cases hx

/-- A further key is seen by entering the value of its image. -/
theorem through_cons {k : String} {b : Bool} (h : Valuation.Through s m m') (hf : f.evaluate m = .ok b) :
    Valuation.Through ((k, f) :: s) m (Table.put m' k b) := by
  constructor
  · intro x g hx
    rw [Table.find?_cons] at hx
    rw [Table.find?_put]
    split_ifs at hx ⊢ with hk
    · obtain rfl := Option.some.inj hx
      exact ⟨b, hf, rfl⟩
    · exact h.image x g hx
  · intro x hx
    rw [Table.find?_cons] at hx
    rw [Table.find?_put]
    split_ifs at hx ⊢ with hk
    exact h.other x hx

/-- An image with operands in its places has the value that it has for the values of the operands. A place without an
operand keeps its own value. -/
theorem evaluate_image {symbol : String} (hσ : σ.ForOperators) (hplaces : operandPlaces ⊆ Table.keys m)
    (hfind : Table.find? σ symbol = some g) (hs : s.Proper) (h : Valuation.Through s m m') :
    ∃ b, (g.subst (imageIn s)).evaluate m = .ok b ∧ g.evaluate m' = .ok b := by
  have hmem := Table.mem_of_find?_eq_some hfind
  have hcovers : ∀ x ∈ g.vars, x ∈ Table.keys m ∨ x ∈ Table.keys s :=
    fun x hx => .inl (hplaces (hσ.places _ hmem hx))
  have himages : ∀ x g, Table.find? s x = some g → g.vars ⊆ Table.keys m := by
    intro x g hx
    obtain ⟨b, hb, -⟩ := h.image x g hx
    exact subset_eq_true.1 (evaluate_eq_ok.1 hb).2.1
  exact evaluate_subst_imageIn himages hs (hσ.images _ hmem) hcovers h

/-- Replacing operators is reading them through the table. -/
theorem WellFormed.evaluate_substOperators (hf : f.WellFormed Connective.all) (hσ : σ.ForOperators)
    (hm : f.leafVariables ⊆ Table.keys m) (hplaces : operandPlaces ⊆ Table.keys m) :
    ∃ b, (f.substOperators σ).evaluate m = .ok b ∧ f.evaluateThrough σ m = .ok b := by
  induction f with
  | var x => exact ⟨_, evaluate_of_subset rfl hm, evaluate_of_subset rfl hm⟩
  | const value =>
      rw [Formula.substOperators, evaluateThrough]
      cases hfind : Table.find? σ (constText value) with
      | none => exact ⟨value, evaluate_of_subset rfl hm, rfl⟩
      | some g =>
          have hmem := Table.mem_of_find?_eq_some hfind
          have hvars : g.leafVariables ⊆ Table.keys m := fun x hx => hplaces (hσ.places _ hmem (mem_vars.2 hx))
          have hvalue := evaluate_of_subset (hσ.images _ hmem).isMissing_eq_false hvars
          exact ⟨_, hvalue, hvalue⟩
  | neg f ih =>
      obtain ⟨a, hvalue, hthrough⟩ := ih hf hm
      rw [Formula.substOperators, evaluateThrough, hthrough, ok_bind]
      cases hfind : Table.find? σ "~" with
      | none => exact ⟨!a, evaluate_neg hvalue, rfl⟩
      | some g =>
          -- no operand replaces a `q` in the image, which has its value in `m`
          exact evaluate_image hσ hplaces hfind (proper_first (WellFormed.substOperators hf hσ))
            (through_cons (through_nil m) hvalue)
  | bin op l r ihl ihr =>
      obtain ⟨-, hl, hr⟩ := hf
      obtain ⟨hlm, hrm⟩ := List.append_subset.1 hm
      obtain ⟨a, hlvalue, hlthrough⟩ := ihl hl hlm
      obtain ⟨b, hrvalue, hrthrough⟩ := ihr hr hrm
      rw [Formula.substOperators, evaluateThrough, hlthrough, ok_bind, hrthrough, ok_bind]
      cases hfind : Table.find? σ op.symbol with
      | none => exact ⟨op.eval a b, evaluate_bin op hlvalue hrvalue, rfl⟩
      | some g =>
          exact evaluate_image hσ hplaces hfind (proper_both (hl.substOperators hσ) (hr.substOperators hσ))
            (through_cons (through_cons (through_nil m) hrvalue) hlvalue)
  | missing => exact hf.elim

/-! ## Operators of the outcome -/

theorem operatorSymbols_imageIn_subset {ops : List String} (hs : ∀ e ∈ s, e.2.operatorSymbols ⊆ ops) (x : String) :
    (imageIn s x).operatorSymbols ⊆ ops := by
  rw [imageIn]
  cases hfind : Table.find? s x with
  | none => exact List.nil_subset ops
  | some g => exact hs _ (Table.mem_of_find?_eq_some hfind)

theorem operatorSymbols_applicationImage (σ : Substitution) {a : Formula} (ha : a.operatorSymbols = [a.root]) :
    (applicationImage σ a).operatorSymbols = symbolsThrough σ a.root := by
  rw [applicationImage, symbolsThrough]
  cases Table.find? σ a.root with
  | none => exact ha
  | some g => rfl

/-- Each operator of the outcome takes the place of one of the formula. -/
theorem operatorSymbols_substOperators_subset (σ : Substitution) (f : Formula) :
    (f.substOperators σ).operatorSymbols ⊆ f.operatorSymbols.flatMap (symbolsThrough σ) := by
  induction f with
  | var x => exact List.nil_subset _
  | const value =>
      have himage := operatorSymbols_applicationImage σ (a := const value) rfl
      rw [operatorSymbols, List.flatMap_singleton]
      exact fun _ hsymbol => himage ▸ hsymbol
  | neg f ih =>
      have himage := operatorSymbols_applicationImage σ (a := neg p) rfl
      rw [substOperators_neg, operatorSymbols, List.flatMap_cons]
      refine operatorSymbols_subst_subset (himage ▸ List.subset_append_left _ _) fun x _ => ?_
      exact operatorSymbols_imageIn_subset (List.forall_mem_singleton.2 (List.subset_append_of_subset_right _ ih)) x
  | bin op l r ihl ihr =>
      have himage := operatorSymbols_applicationImage σ (a := bin op p q) rfl
      rw [substOperators_bin, operatorSymbols, List.flatMap_append, List.flatMap_cons]
      refine operatorSymbols_subst_subset ?_ fun x _ => ?_
      · rw [himage]
        exact List.subset_append_of_subset_right _ (List.subset_append_left _ _)
      · refine operatorSymbols_imageIn_subset (List.forall_mem_cons.2 ⟨?_, List.forall_mem_singleton.2 ?_⟩) x
        · exact List.subset_append_of_subset_left _ ihl
        · exact List.subset_append_of_subset_right _ (List.subset_append_of_subset_right _ ihr)
  | missing => exact List.nil_subset _

/-- By a table of formulas for operators, every formula is turned into one whose value, in any valuation of its variables
and of the operand places, is that of the formula with its operators read through the table. What the images bring in
stays: an operator of the outcome is one of the formula that has no image, or stands in the image of one. -/
theorem substituteOperators_compositional (hf : f.WellFormed Connective.all) (hσ : σ.ForOperators)
    (hm : f.vars ⊆ Table.keys m) (hplaces : operandPlaces ⊆ Table.keys m) :
    ∃ g b, f.substituteOperators Connective.all σ = .ok g ∧ g.evaluate m = .ok b ∧
      f.evaluateThrough σ m = .ok b ∧ g.operators ⊆ f.operators.flatMap (symbolsThrough σ) := by
  have hleaves : f.leafVariables ⊆ Table.keys m := fun x hx => hm (mem_vars.2 hx)
  obtain ⟨b, hvalue, hthrough⟩ := hf.evaluate_substOperators hσ hleaves hplaces
  refine ⟨f.substOperators σ, b, hf.substituteOperators_eq_ok hσ, hvalue, hthrough, fun symbol hsymbol => ?_⟩
  have hmem := operatorSymbols_substOperators_subset σ f (mem_operators.1 hsymbol)
  obtain ⟨origin, horigin, hsymbol⟩ := List.mem_flatMap.1 hmem
  exact List.mem_flatMap.2 ⟨origin, mem_operators.2 horigin, hsymbol⟩

/-- Conjunction and disjunction are exchanged, the image of negation has both operand places, and that of a constant has
an operator with an image of its own. The operands are the operand places exchanged. -/
theorem substituteOperators_compositional_exchange :
    let f := bin .or (neg (bin .and (var "q") (var "p"))) (const true)
    let σ : Substitution := [("&", bin .or p q), ("|", bin .and p q), ("~", bin .implies p q), ("T", neg p)]
    let m : Valuation := [("p", true), ("q", true)]
    let g := bin .and (bin .implies (bin .or (var "q") (var "p")) (var "q")) (neg (var "p"))
    f.WellFormed Connective.all ∧ σ.ForOperators ∧ f.vars ⊆ Table.keys m ∧ operandPlaces ⊆ Table.keys m ∧
      f.substituteOperators Connective.all σ = .ok g ∧ g.evaluate m = .ok false ∧
      f.evaluateThrough σ m = .ok false ∧ g.operators ⊆ f.operators.flatMap (symbolsThrough σ) := by
  intro f σ m g
  have hf : f.WellFormed Connective.all := by decide
  have hleaves : ∀ e ∈ σ, ∀ x ∈ e.2.leafVariables, x ∈ operandPlaces := by decide
  have hσ : σ.ForOperators := ⟨by decide, by decide, fun e he x hx => hleaves e he x (mem_vars.1 hx)⟩
  have hfleaves : ∀ x ∈ f.leafVariables, x ∈ Table.keys m := by decide
  have hm : f.vars ⊆ Table.keys m := fun x hx => hfleaves x (mem_vars.1 hx)
  have hplaces : operandPlaces ⊆ Table.keys m := List.Subset.refl _
  obtain ⟨g', b, hrun, hvalue, hthrough, hoperators⟩ := substituteOperators_compositional hf hσ hm hplaces
  have hrun' : f.substituteOperators Connective.all σ = .ok g := hf.substituteOperators_eq_ok hσ
  obtain rfl : g = g' := Except.ok.inj (hrun'.symm.trans hrun)
  obtain rfl : false = b := (evaluate_eq_ok.1 hvalue).2.2
  exact ⟨hf, hσ, hm, hplaces, hrun, hvalue, hthrough, hoperators⟩

end Formula

end FormalLogic.Propositional
