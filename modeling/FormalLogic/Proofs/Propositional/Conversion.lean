import FormalLogic.Propositional.Conversion
import FormalLogic.Proofs.Propositional.Semantics
import FormalLogic.Proofs.Propositional.Specialization

/-!
# Conversions keep the truth value

A conversion is a chain of passes, each of which replaces operators by their images. That the images are
right can be seen from the finitely many operators applied to the operand places (`Expresses`); that a
pass with right images is right for every formula is an induction over the formula
(`Expresses.represents_substOperators`).
-/

namespace FormalLogic.Propositional

namespace Formula

/-! ## What replacing variables brings in -/

section Substitution

variable {σ : String → Formula}

theorem mem_leafVariables_subst {f : Formula} {y : String} :
    y ∈ (f.subst σ).leafVariables ↔ ∃ x ∈ f.leafVariables, y ∈ (σ x).leafVariables := by
  induction f with
  | var x => simp [subst, leafVariables]
  | const b => simp [subst, leafVariables]
  | neg f ih => simpa only [subst, leafVariables] using ih
  | bin op l r ihl ihr =>
      simp only [subst, leafVariables, List.mem_append, ihl, ihr, or_and_right, exists_or]
  | missing => simp [subst, leafVariables]

theorem operatorSymbols_subst_subset {f : Formula} {ops : List String}
    (hf : f.operatorSymbols ⊆ ops) (hσ : ∀ x ∈ f.leafVariables, (σ x).operatorSymbols ⊆ ops) :
    (f.subst σ).operatorSymbols ⊆ ops := by
  induction f with
  | var x => exact hσ x (by simp [leafVariables])
  | const b => exact hf
  | neg f ih =>
      obtain ⟨hneg, hf⟩ := List.cons_subset.1 hf
      exact List.cons_subset.2 ⟨hneg, ih hf hσ⟩
  | bin op l r ihl ihr =>
      simp only [leafVariables, List.forall_mem_append] at hσ
      simp only [operatorSymbols, subst, List.append_subset, List.cons_subset] at hf ⊢
      exact ⟨ihl hf.1 hσ.1, hf.2.1, ihr hf.2.2 hσ.2⟩
  | missing => exact hf

end Substitution

/-! ## Images of operators -/

/-- The constants, and the operators applied to the operand places. -/
def applications : List Formula :=
  [const true, const false, neg p] ++ Connective.all.map fun op => bin op p q

/-- What becomes of such an application. An operator without an image stays. -/
def applicationImage (m : Substitution) (a : Formula) : Formula :=
  (Table.find? m a.root).getD a

theorem substOperators_neg (m : Substitution) (f : Formula) :
    (neg f).substOperators m =
      (applicationImage m (neg p)).subst (imageIn [("p", f.substOperators m)]) := by
  rw [substOperators, applicationImage, root]
  cases Table.find? m "~" with
  | none => rfl
  | some g => rfl

theorem substOperators_bin (m : Substitution) (op : Connective) (l r : Formula) :
    (bin op l r).substOperators m = (applicationImage m (bin op p q)).subst
      (imageIn [("p", l.substOperators m), ("q", r.substOperators m)]) := by
  rw [substOperators, applicationImage, root]
  cases Table.find? m op.symbol with
  | none => rfl
  | some g => rfl

/-- Truth values for the two operand places. -/
def placeValues (a b : Bool) (x : String) : Bool :=
  if x = "p" then a else b

/-- The images of a table for operators of a source are formulas over a target with the same truth
function in the operand places. An image of a constant may have the first place in it. -/
def Expresses (m : Substitution) (source target : List String) : Prop :=
  ∀ a ∈ applications, a.root ∈ source →
    (∀ b c, (applicationImage m a).eval (placeValues b c) = a.eval (placeValues b c)) ∧
    (∀ s ∈ (applicationImage m a).operatorSymbols, s ∈ target) ∧
    (∀ x ∈ (applicationImage m a).leafVariables, x ∈ "p" :: a.leafVariables) ∧
    (applicationImage m a).WellFormed Connective.all

instance (m : Substitution) (source target : List String) : Decidable (Expresses m source target) := by
  unfold Expresses
  infer_instance

/-! ## Passes -/

/-- A formula over the given operators that has the truth values of another, and the same variables or
`p` next to them. -/
structure Represents (ops : List String) (f g : Formula) : Prop where
  eval_eq : ∀ v, g.eval v = f.eval v
  operators_subset : g.operatorSymbols ⊆ ops
  vars_subset : g.leafVariables ⊆ "p" :: f.leafVariables
  wellFormed : g.WellFormed Connective.all

theorem Represents.trans {ops ops' : List String} {f g h : Formula} (hfg : Represents ops f g)
    (hgh : Represents ops' g h) : Represents ops' f h := by
  refine ⟨fun v => (hgh.eval_eq v).trans (hfg.eval_eq v), hgh.operators_subset, ?_, hgh.wellFormed⟩
  intro x hx
  rcases List.mem_cons.1 (hgh.vars_subset hx) with rfl | hx
  · exact List.mem_cons_self
  · exact hfg.vars_subset hx

section Pass

variable {m : Substitution} {source target : List String} {a f : Formula}

/-- An image has the truth value of the application, whatever stands in the operand places. -/
theorem Expresses.eval_applicationImage (h : Expresses m source target) (ha : a ∈ applications)
    (hroot : a.root ∈ source) (v : String → Bool) :
    (applicationImage m a).eval v = a.eval v := by
  obtain ⟨hvalue, -, hvars, -⟩ := h a ha hroot
  have hplaces : ∀ a ∈ applications, ∀ x ∈ "p" :: a.leafVariables, x = "p" ∨ x = "q" := by decide
  have hagree : ∀ x ∈ "p" :: a.leafVariables, v x = placeValues (v "p") (v "q") x := by
    intro x hx
    rcases hplaces a ha x hx with rfl | rfl
    · rfl
    · rfl
  calc (applicationImage m a).eval v
      = (applicationImage m a).eval (placeValues (v "p") (v "q")) :=
        eval_congr _ fun x hx => hagree x (hvars x hx)
    _ = a.eval (placeValues (v "p") (v "q")) := hvalue _ _
    _ = a.eval v := (eval_congr _ fun x hx => hagree x (List.mem_cons_of_mem _ hx)).symm

/-- Operands that are represented, put into the image of their operator. -/
theorem Expresses.represents_applicationImage {σ τ : String → Formula}
    (h : Expresses m source target) (ha : a ∈ applications) (hroot : a.root ∈ source)
    (hp : "p" ∈ a.leafVariables) (hσ : ∀ x ∈ a.leafVariables, Represents target (σ x) (τ x)) :
    Represents target (a.subst σ) ((applicationImage m a).subst τ) := by
  obtain ⟨-, hops, hvars, hwell⟩ := h a ha hroot
  have hplace : ∀ x ∈ (applicationImage m a).leafVariables, x ∈ a.leafVariables := by
    intro x hx
    rcases List.mem_cons.1 (hvars x hx) with rfl | hx
    · exact hp
    · exact hx
  refine ⟨fun v => ?_, ?_, ?_, ?_⟩
  · rw [eval_subst, eval_subst, h.eval_applicationImage ha hroot]
    exact eval_congr a fun x hx => (hσ x hx).eval_eq v
  · exact operatorSymbols_subst_subset hops fun x hx => (hσ x (hplace x hx)).operators_subset
  · intro y hy
    obtain ⟨x, hx, hy⟩ := mem_leafVariables_subst.1 hy
    rcases List.mem_cons.1 ((hσ x (hplace x hx)).vars_subset hy) with rfl | hy
    · exact List.mem_cons_self
    · exact List.mem_cons_of_mem _ (mem_leafVariables_subst.2 ⟨x, hplace x hx, hy⟩)
  · exact hwell.subst fun x hx => (hσ x (hplace x hx)).wellFormed

/-- Replacing operators by images that express them. -/
theorem Expresses.represents_substOperators (h : Expresses m source target)
    (hf : f.WellFormed Connective.all) (hops : f.operatorSymbols ⊆ source) :
    Represents target f (f.substOperators m) := by
  induction f with
  | var x => exact ⟨fun _ => rfl, List.nil_subset _, List.subset_cons_self _ _, hf⟩
  | const b =>
      have ha : const b ∈ applications := by cases b <;> decide
      have hroot : (const b).root ∈ source := hops List.mem_cons_self
      obtain ⟨-, hops', hvars, hwell⟩ := h _ ha hroot
      exact ⟨h.eval_applicationImage ha hroot, hops', hvars, hwell⟩
  | neg f ih =>
      obtain ⟨hneg, hops⟩ := List.cons_subset.1 hops
      rw [substOperators_neg]
      refine h.represents_applicationImage (a := neg p) (σ := imageIn [("p", f)]) (by decide) hneg
        List.mem_cons_self ?_
      intro x hx
      obtain rfl := List.mem_singleton.1 hx
      exact ih hf hops
  | bin op l r ihl ihr =>
      simp only [operatorSymbols, List.append_subset, List.cons_subset] at hops
      rw [substOperators_bin]
      refine h.represents_applicationImage (a := bin op p q) (σ := imageIn [("p", l), ("q", r)])
        (by cases op <;> decide) hops.2.1 List.mem_cons_self ?_
      intro x hx
      rcases List.mem_pair.1 hx with rfl | rfl
      · exact ihl hf.2.1 hops.1
      · exact ihr hf.2.2 hops.2.2
  | missing => exact hf.elim

end Pass

/-! ## The tables of the conversions -/

/-- Without the constants, all connectives and negation are left. -/
def operatorsWithoutConstants : List String :=
  "~" :: Connective.all.map Connective.symbol

theorem expresses_constantImages :
    Expresses constantImages (applications.map root) operatorsWithoutConstants := by decide

theorem expresses_notAndOrImages :
    Expresses notAndOrImages operatorsWithoutConstants ["~", "&", "|"] := by decide

theorem expresses_orImages : Expresses orImages ["~", "&", "|"] ["~", "&"] := by decide

theorem expresses_nandImages : Expresses nandImages ["~", "&", "|"] ["-&"] := by decide

theorem expresses_impliesNotImages : Expresses impliesNotImages ["-&"] ["->", "~"] := by decide

theorem expresses_impliesFalseImages : Expresses impliesFalseImages ["-&"] ["->", "F"] := by decide

/-! ## The conversions -/

section Conversions

variable {f : Formula} {ops : List String}

theorem operatorSymbols_subset_applications (f : Formula) :
    f.operatorSymbols ⊆ applications.map root := by
  induction f with
  | var x => exact List.nil_subset _
  | const b => cases b <;> decide
  | neg f ih => exact List.cons_subset.2 ⟨by decide, ih⟩
  | bin op l r ihl ihr =>
      have hop : op.symbol ∈ applications.map root := by cases op <;> decide
      simp only [operatorSymbols, List.append_subset, List.cons_subset]
      exact ⟨ihl, hop, ihr⟩
  | missing => exact List.nil_subset _

theorem Represents.substOperators {f g : Formula} {m : Substitution} {source target : List String}
    (h : Represents source f g) (hm : Expresses m source target) :
    Represents target f (g.substOperators m) :=
  h.trans (hm.represents_substOperators h.wellFormed h.operators_subset)

theorem represents_toNotAndOr (hf : f.WellFormed Connective.all) :
    Represents ["~", "&", "|"] f f.toNotAndOr :=
  (expresses_constantImages.represents_substOperators hf
    (operatorSymbols_subset_applications f)).substOperators expresses_notAndOrImages

theorem represents_toNand (hf : f.WellFormed Connective.all) : Represents ["-&"] f f.toNand :=
  (represents_toNotAndOr hf).substOperators expresses_nandImages

/-- A formula and its conversion evaluate to the same value wherever the variables of the formula and
`p` have one, and the conversion uses no other operators than those given, and no other variables. -/
structure ConvertsTo (ops : List String) (f g : Formula) : Prop where
  evaluate_eq : ∀ m : Valuation, f.vars ⊆ Table.keys m → "p" ∈ Table.keys m →
    ∃ b, f.evaluate m = .ok b ∧ g.evaluate m = .ok b
  operators_subset : g.operators ⊆ ops
  vars_subset : g.vars ⊆ "p" :: f.vars

theorem Represents.convertsTo {g : Formula} (h : Represents ops f g)
    (hf : f.WellFormed Connective.all) : ConvertsTo ops f g := by
  have hvars : g.vars ⊆ "p" :: f.vars := by
    intro x hx
    rcases List.mem_cons.1 (h.vars_subset (mem_vars.1 hx)) with rfl | hx
    · exact List.mem_cons_self
    · exact List.mem_cons_of_mem _ (mem_vars.2 hx)
  refine ⟨fun m hm hp => ⟨f.eval m.value, ?_, ?_⟩, ?_, hvars⟩
  · exact evaluate_eq_ok.2 ⟨hf.isMissing_eq_false, subset_eq_true.2 hm, rfl⟩
  · refine evaluate_eq_ok.2 ⟨h.wellFormed.isMissing_eq_false, subset_eq_true.2 ?_, h.eval_eq _⟩
    exact fun x hx => List.cons_subset.2 ⟨hp, hm⟩ (hvars hx)
  · exact fun s hs => h.operators_subset (mem_operators.1 hs)

/-- Every formula of the full language has the same truth value as each of its five conversions, and
these use the operators of their target and no new variable but `p`. -/
theorem conversions_equivalent (hf : f.WellFormed Connective.all) :
    ConvertsTo ["~", "&", "|"] f f.toNotAndOr ∧ ConvertsTo ["~", "&"] f f.toNotAnd ∧
      ConvertsTo ["-&"] f f.toNand ∧ ConvertsTo ["->", "~"] f f.toImpliesNot ∧
      ConvertsTo ["->", "F"] f f.toImpliesFalse := by
  have hnotAndOr := represents_toNotAndOr hf
  have hnand := represents_toNand hf
  exact ⟨hnotAndOr.convertsTo hf, (hnotAndOr.substOperators expresses_orImages).convertsTo hf,
    hnand.convertsTo hf, (hnand.substOperators expresses_impliesNotImages).convertsTo hf,
    (hnand.substOperators expresses_impliesFalseImages).convertsTo hf⟩

/-- The operands of `(~T<->(q+p))` are the operand places exchanged, and a constant. -/
theorem conversions_equivalent_exchanged_places :
    let f := bin .iff (neg (const true)) (bin .xor q p)
    f.WellFormed Connective.all ∧ f.toImpliesFalse.evaluate [("p", true), ("q", true)] = .ok true ∧
      f.toImpliesFalse.operators ⊆ ["->", "F"] := by
  intro f
  have hf : f.WellFormed Connective.all := by decide
  obtain ⟨-, -, -, -, hconverts⟩ := conversions_equivalent hf
  have hleaves : ∀ x ∈ f.leafVariables, x ∈ ["p", "q"] := by decide
  obtain ⟨b, hfb, hgb⟩ := hconverts.evaluate_eq [("p", true), ("q", true)]
    (fun x hx => hleaves x (mem_vars.1 hx)) (by decide)
  obtain ⟨-, -, rfl⟩ := evaluate_eq_ok.1 hfb
  exact ⟨hf, hgb, hconverts.operators_subset⟩

end Conversions

end Formula

end FormalLogic.Propositional
