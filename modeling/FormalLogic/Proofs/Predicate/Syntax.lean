import FormalLogic.Predicate.Formula
import FormalLogic.Proofs.FreshNames
import FormalLogic.Proofs.Outcome
import FormalLogic.Proofs.Table

/-!
# Well-formed terms and formulas

A term or formula is well-formed if nothing is missing from it, no term stands in the place of a
formula, and every name is of the category that its place calls for.

Names are collected from lists of arguments up to the first missing one. In a well-formed formula
nothing is missing, so there the collected names are those of all arguments, and the lemmas below
reduce each collection to a plain `flatMap`.
-/

namespace FormalLogic.Predicate

/-! ## Names -/

/-- A name is of one category, by its first character. -/
theorem isNameWith_eq_false {first first' : Char → Bool} {s : String}
    (h : isNameWith first s = true) (hdisjoint : ∀ c, first c = true → first' c = false) :
    isNameWith first' s = false := by
  unfold isNameWith at h ⊢
  cases hs : s.toList with
  | nil => rfl
  | cons c cs =>
      rw [hs] at h
      simp only [Bool.and_eq_true] at h
      simp only [hdisjoint c h.1, Bool.false_and]

theorem startsVariable_eq_false {c : Char} (h : startsConstant c = true) :
    startsVariable c = false := by
  simp only [startsConstant, Bool.or_eq_true, Bool.and_eq_true, decide_eq_true_eq] at h
  simp only [startsVariable, Bool.and_eq_false_iff, decide_eq_false_iff_not, Char.not_le]
  rcases h with ⟨-, h⟩ | ⟨-, h⟩
  · exact .inl (lt_of_le_of_lt h (by decide))
  · exact .inl (lt_of_le_of_lt h (by decide))

/-- No constant is a variable. -/
theorem isVariable_eq_false {s : String} (h : isConstant s = true) : isVariable s = false := by
  rcases Bool.or_eq_true_iff.1 h with h | h
  · exact isNameWith_eq_false h fun c => startsVariable_eq_false
  · rw [eq_of_beq h]
    rfl

theorem ne_of_isConstant {c x : String} (hc : isConstant c = true) (hx : isVariable x = true) :
    c ≠ x := by
  rintro rfl
  rw [isVariable_eq_false hc] at hx
  exact Bool.false_ne_true hx

/-- No relation is a constant or variable. -/
theorem isReplaceable_eq_false {s : String} (h : isRelation s = true) : isReplaceable s = false := by
  -- capital letters precede small ones and follow digits
  have hbetween : ∀ c, startsRelation c = true → 'F' ≤ c ∧ c ≤ 'T' := fun c hc => by
    simpa [startsRelation] using hc
  have hvariable : isNameWith startsVariable s = false :=
    isNameWith_eq_false h fun c hc => by
      have hlt : c < 'u' := lt_of_le_of_lt (hbetween c hc).2 (by decide)
      simp [startsVariable, hlt]
  have hconstant : isNameWith startsConstant s = false :=
    isNameWith_eq_false h fun c hc => by
      have hlt : c < 'a' := lt_of_le_of_lt (hbetween c hc).2 (by decide)
      have hgt : '9' < c := lt_of_lt_of_le (by decide) (hbetween c hc).1
      simp [startsConstant, hlt, hgt]
  have hhole : (s == hole) = false := by
    refine beq_eq_false_iff_ne.2 ?_
    rintro rfl
    cases h
  rw [isReplaceable, isConstant, hconstant, hhole, isVariable, hvariable]
  rfl

/-- A name of one category, which no empty text is, can be asked for another. -/
theorem checkName_of_name {condition : String → Bool} (hempty : condition "" = false) {s : String}
    (h : condition s = true) (condition' : String → Bool) :
    checkName condition' s = .ok (condition' s) := by
  rw [checkName, if_neg]
  intro hs
  rw [String.isEmpty_iff.1 hs, hempty] at h
  exact Bool.false_ne_true h

theorem checkName_eq_ok {condition : String → Bool} (hempty : condition "" = false) {s : String}
    (h : condition s = true) : checkName condition s = .ok true := by
  rw [checkName_of_name hempty h, h]

theorem checkName_bind_require_eq_ok {condition : String → Bool} (hempty : condition "" = false)
    {s : String} {c : Condition} {u : Unit} :
    (checkName condition s >>= fun b => require b c) = .ok u ↔ condition s = true := by
  constructor
  · intro h
    obtain ⟨b, hb, h⟩ := bind_eq_ok.1 h
    rw [checkName] at hb
    split at hb
    · cases hb
    · rw [Except.ok.inj hb]
      exact require_eq_ok.1 h
  · intro h
    rw [checkName_eq_ok hempty h]
    rfl

theorem requireName_eq_ok {condition : String → Bool} (hempty : condition "" = false) {s : String}
    {u : Unit} : requireName condition s = .ok u ↔ condition s = true :=
  checkName_bind_require_eq_ok hempty

/-! ### Fresh names -/

/-- A first character of variables and a number make up a variable. -/
theorem isVariable_name_of_starts {letter : String} {c : Char} (hletter : letter.toList = [c])
    (hc : startsVariable c = true) (n : Nat) : isVariable (FreshNames.name letter n) = true := by
  have hdigits : (Nat.toDigits 10 n).all Text.isAlphanumeric = true := by
    refine List.all_eq_true.2 fun c hc => ?_
    have hc := Text.isDigit_of_isDigit (Nat.isDigit_of_mem_toDigits (by decide) (by decide) hc)
    rw [Text.isAlphanumeric, hc, Bool.or_true, Bool.true_or]
  have hletters : ∀ k ∈ List.range' 117 6, Text.isAlphanumeric (Char.ofNat k) = true := by decide
  have hfirst : Text.isAlphanumeric c = true := by
    simp only [startsVariable, Bool.and_eq_true, decide_eq_true_eq] at hc
    have hlow : 117 ≤ c.toNat := hc.1
    have hhigh : c.toNat ≤ 122 := hc.2
    rw [← Char.ofNat_toNat c]
    exact hletters c.toNat (List.mem_range'_1.2 ⟨hlow, by omega⟩)
  rw [isVariable, isNameWith, FreshNames.toList_name, hletter]
  change (startsVariable c && (c :: Nat.toDigits 10 n).all Text.isAlphanumeric) = true
  rw [List.all_cons, hdigits, hc, hfirst]
  rfl

theorem isVariable_name (n : Nat) : isVariable (FreshNames.name "z" n) = true :=
  isVariable_name_of_starts rfl rfl n

theorem head?_name (n : Nat) : (FreshNames.name "z" n).toList.head? = some 'z' := by
  rw [FreshNames.toList_name]
  rfl

/-! ## Terms -/

namespace Term

/-- Induction over terms: a property of all arguments passes on to an application. -/
@[elab_as_elim, induction_eliminator]
theorem inductionOn {motive : Term → Prop} (t : Term) (const : ∀ name, motive (const name))
    (var : ∀ name, motive (var name))
    (app : ∀ name ts, (∀ t ∈ ts, motive t) → motive (app name ts)) (missing : motive missing) :
    motive t := by
  refine @Term.rec motive (fun ts => ∀ t ∈ ts, motive t) const var app missing ?_ ?_ t
  · simp
  · intro t ts ht hts s hs
    rcases List.mem_cons.1 hs with rfl | hs
    · exact ht
    · exact hts s hs

mutual

/-- Nothing is missing and every name is of the category that its place calls for. -/
def WellFormed : Term → Prop
  | const name => isConstant name = true
  | var name => isVariable name = true
  | app name ts => isFunction name = true ∧ ts ≠ [] ∧ AllWellFormed ts
  | missing => False

/-- All terms of a list are well-formed. -/
def AllWellFormed : List Term → Prop
  | [] => True
  | t :: ts => t.WellFormed ∧ AllWellFormed ts

end

mutual

/-- Whether a term is well-formed. -/
def decideWellFormed : (t : Term) → Decidable t.WellFormed
  | const name => inferInstanceAs (Decidable (isConstant name = true))
  | var name => inferInstanceAs (Decidable (isVariable name = true))
  | app name ts =>
    have := decideAllWellFormed ts
    inferInstanceAs (Decidable (isFunction name = true ∧ ts ≠ [] ∧ AllWellFormed ts))
  | missing => isFalse id

/-- Whether all terms of a list are well-formed. -/
def decideAllWellFormed : (ts : List Term) → Decidable (AllWellFormed ts)
  | [] => isTrue trivial
  | t :: ts =>
    have := t.decideWellFormed
    have := decideAllWellFormed ts
    inferInstanceAs (Decidable (t.WellFormed ∧ AllWellFormed ts))

end

instance : DecidablePred WellFormed := decideWellFormed

@[simp] theorem allWellFormed_iff {ts : List Term} : AllWellFormed ts ↔ ∀ t ∈ ts, t.WellFormed := by
  induction ts with
  | nil => simp [AllWellFormed]
  | cons t ts ih => simp [AllWellFormed, ih]

theorem WellFormed.ne_missing {t : Term} (ht : t.WellFormed) : t ≠ missing := by
  rintro rfl
  exact ht

theorem WellFormed.isMissing_eq_false {t : Term} (ht : t.WellFormed) : t.isMissing = false := by
  cases t with
  | missing => exact ht.elim
  | const _ => rfl
  | var _ => rfl
  | app _ _ => rfl

theorem WellFormed.given_eq_ok {t : Term} (ht : t.WellFormed) : t.given = .ok t := by
  rw [given, ht.isMissing_eq_false]
  rfl

/-! ### Making leaves -/

theorem make_constant {c : String} (hc : Predicate.isConstant c = true) : make c none = .ok (const c) := by
  have hreplaceable : checkName isReplaceable c = .ok true :=
    checkName_eq_ok rfl (by rw [isReplaceable, hc, Bool.true_or])
  have hconstant : checkName Predicate.isConstant c = .ok true := checkName_eq_ok rfl hc
  simp [make, leaf, hreplaceable, hconstant]

theorem make_variable {x : String} (hx : Predicate.isVariable x = true) : make x none = .ok (var x) := by
  have hreplaceable : checkName isReplaceable x = .ok true :=
    checkName_eq_ok rfl (by rw [isReplaceable, hx, Bool.or_true])
  have hconstant : checkName Predicate.isConstant x = .ok false := by
    rw [checkName_of_name rfl hx, Except.ok.injEq, Bool.eq_false_iff]
    exact fun hc => ne_of_isConstant hc hx rfl
  simp [make, leaf, hreplaceable, hconstant, hx]

/-! ### Names of arguments -/

variable {ts : List Term}

theorem constantLeavesOf_eq_flatMap (hts : ∀ t ∈ ts, t.WellFormed) :
    constantLeavesOf ts = ts.flatMap constantLeaves := by
  induction ts with
  | nil => rfl
  | cons t ts ih =>
      have ht : t ≠ missing := (hts t List.mem_cons_self).ne_missing
      rw [List.flatMap_cons, ← ih fun s hs => hts s (List.mem_cons_of_mem t hs)]
      cases t <;> simp_all [constantLeavesOf]

theorem variableLeavesOf_eq_flatMap (hts : ∀ t ∈ ts, t.WellFormed) :
    variableLeavesOf ts = ts.flatMap variableLeaves := by
  induction ts with
  | nil => rfl
  | cons t ts ih =>
      have ht : t ≠ missing := (hts t List.mem_cons_self).ne_missing
      rw [List.flatMap_cons, ← ih fun s hs => hts s (List.mem_cons_of_mem t hs)]
      cases t <;> simp_all [variableLeavesOf]

theorem functionNodesOf_eq_flatMap (hts : ∀ t ∈ ts, t.WellFormed) :
    functionNodesOf ts = ts.flatMap functionNodes := by
  induction ts with
  | nil => rfl
  | cons t ts ih =>
      have ht : t ≠ missing := (hts t List.mem_cons_self).ne_missing
      rw [List.flatMap_cons, ← ih fun s hs => hts s (List.mem_cons_of_mem t hs)]
      cases t <;> simp_all [functionNodesOf]

/-- Well-formed arguments are well-formed one by one. -/
theorem WellFormed.args {name : String} (h : (app name ts).WellFormed) :
    ∀ t ∈ ts, t.WellFormed :=
  allWellFormed_iff.1 h.2.2

theorem WellFormed.isConstant {t : Term} (ht : t.WellFormed) :
    ∀ c ∈ t.constantLeaves, isConstant c = true := by
  induction t with
  | const name =>
      intro c hc
      rw [List.mem_singleton.1 hc]
      exact ht
  | var name => simp [constantLeaves]
  | app name ts ih =>
      intro c hc
      rw [constantLeaves, constantLeavesOf_eq_flatMap ht.args] at hc
      obtain ⟨t, htmem, hc⟩ := List.mem_flatMap.1 hc
      exact ih t htmem (ht.args t htmem) c hc
  | missing => exact ht.elim

theorem WellFormed.isVariable {t : Term} (ht : t.WellFormed) :
    ∀ x ∈ t.variableLeaves, isVariable x = true := by
  induction t with
  | const name => simp [variableLeaves]
  | var name =>
      intro x hx
      rw [List.mem_singleton.1 hx]
      exact ht
  | app name ts ih =>
      intro x hx
      rw [variableLeaves, variableLeavesOf_eq_flatMap ht.args] at hx
      obtain ⟨t, htmem, hx⟩ := List.mem_flatMap.1 hx
      exact ih t htmem (ht.args t htmem) x hx
  | missing => exact ht.elim

theorem mem_constants {t : Term} {c : String} : c ∈ t.constants ↔ c ∈ t.constantLeaves :=
  mem_sortedSet

theorem mem_vars {t : Term} {x : String} : x ∈ t.vars ↔ x ∈ t.variableLeaves :=
  mem_sortedSet

end Term

theorem mem_sortedSignature {l : List (String × Nat)} {e : String × Nat} :
    e ∈ sortedSignature l ↔ e ∈ l := by
  simp [sortedSignature, List.mem_mergeSort, List.mem_eraseDups]

/-! ## Formulas -/

namespace Formula

/-- Nothing is missing, no term stands in the place of a formula, and every name is of the category
that its place calls for. -/
def WellFormed : Formula → Prop
  | equal l r => l.WellFormed ∧ r.WellFormed
  | rel name ts => isRelation name = true ∧ ∀ t ∈ ts, t.WellFormed
  | neg f => f.WellFormed
  | bin _ l r => l.WellFormed ∧ r.WellFormed
  | quant _ x f => isVariable x = true ∧ f.WellFormed
  | bare _ => False

/-- Whether a formula is well-formed. -/
def decideWellFormed : (f : Formula) → Decidable f.WellFormed
  | equal l r => inferInstanceAs (Decidable (l.WellFormed ∧ r.WellFormed))
  | rel name ts =>
    inferInstanceAs (Decidable (isRelation name = true ∧ ∀ t ∈ ts, t.WellFormed))
  | neg f => f.decideWellFormed
  | bin _ l r =>
    have := l.decideWellFormed
    have := r.decideWellFormed
    inferInstanceAs (Decidable (l.WellFormed ∧ r.WellFormed))
  | quant _ x f =>
    have := f.decideWellFormed
    inferInstanceAs (Decidable (isVariable x = true ∧ f.WellFormed))
  | bare _ => isFalse id

instance : DecidablePred WellFormed := decideWellFormed

theorem WellFormed.terms {f : Formula} (hf : f.WellFormed) : ∀ t ∈ f.terms, t.WellFormed := by
  induction f with
  | equal l r =>
      intro t ht
      rcases List.mem_pair.1 ht with rfl | rfl
      · exact hf.1
      · exact hf.2
  | rel name ts => exact hf.2
  | neg f ih => exact ih hf
  | bin op l r ihl ihr =>
      intro t ht
      rcases List.mem_append.1 ht with ht | ht
      · exact ihl hf.1 t ht
      · exact ihr hf.2 t ht
  | quant k x f ih => exact ih hf.2
  | bare t => exact hf.elim

theorem WellFormed.isMissing_eq_false {f : Formula} (hf : f.WellFormed) : f.isMissing = false := by
  cases f with
  | bare t => exact hf.elim
  | _ => rfl

theorem WellFormed.present_eq_ok {f : Formula} (hf : f.WellFormed) : f.present = .ok f := by
  rw [present, hf.isMissing_eq_false]
  rfl

theorem WellFormed.named_eq_ok {f : Formula} (hf : f.WellFormed) : f.named = .ok f := by
  have hgiven : f.terms.any Term.isMissing = false := by
    rw [List.any_eq_false]
    intro t ht
    simp [(hf.terms t ht).isMissing_eq_false]
  rw [named, hgiven]
  rfl

theorem WellFormed.isBare_eq_false {f : Formula} (hf : f.WellFormed) : f.isBare = false := by
  cases f with
  | bare t => exact hf.elim
  | _ => rfl

theorem WellFormed.hasBare_eq_false {f : Formula} (hf : f.WellFormed) : f.hasBare = false := by
  induction f with
  | equal l r => rfl
  | rel name ts => rfl
  | neg f ih => exact ih hf
  | bin op l r ihl ihr => rw [hasBare, ihl hf.1, ihr hf.2]; rfl
  | quant k x f ih => exact ih hf.2
  | bare t => exact hf.elim

theorem WellFormed.proper_eq_ok {f : Formula} (hf : f.WellFormed) : f.proper = .ok f := by
  rw [proper, hf.hasBare_eq_false, if_neg Bool.false_ne_true]
  exact hf.named_eq_ok

theorem WellFormed.given_eq_ok {f : Formula} (hf : f.WellFormed) : f.given = .ok f := by
  rw [given, hf.isMissing_eq_false]
  rfl

/-! ### Names of formulas -/

/-- The constants of a formula, from left to right. -/
def constantNames (f : Formula) : List String :=
  f.terms.flatMap Term.constantLeaves

/-- The functions of a formula with their numbers of arguments, from left to right. -/
def functionNodes (f : Formula) : List (String × Nat) :=
  f.terms.flatMap Term.functionNodes

/-- The variables that are bound in a formula, in the order in which they are bound. -/
def binders : Formula → List String
  | neg f => f.binders
  | bin _ l r => l.binders ++ r.binders
  | quant _ x f => x :: f.binders
  | _ => []

/-- Whether no equality occurs in a formula. -/
def isEqualityFree : Formula → Bool
  | equal _ _ => false
  | rel _ _ => true
  | neg f => f.isEqualityFree
  | bin _ l r => l.isEqualityFree && r.isEqualityFree
  | quant _ _ f => f.isEqualityFree
  | bare _ => true

@[simp] theorem mem_constantNames_equal {l r : Term} {c : String} :
    c ∈ (equal l r).constantNames ↔ c ∈ l.constantLeaves ∨ c ∈ r.constantLeaves := by
  simp [constantNames, terms]

@[simp] theorem mem_functionNodes_equal {l r : Term} {e : String × Nat} :
    e ∈ (equal l r).functionNodes ↔ e ∈ l.functionNodes ∨ e ∈ r.functionNodes := by
  simp [functionNodes, terms]

@[simp] theorem mem_constantNames_rel {name : String} {ts : List Term} {c : String} :
    c ∈ (rel name ts).constantNames ↔ ∃ t ∈ ts, c ∈ t.constantLeaves :=
  List.mem_flatMap

@[simp] theorem mem_functionNodes_rel {name : String} {ts : List Term} {e : String × Nat} :
    e ∈ (rel name ts).functionNodes ↔ ∃ t ∈ ts, e ∈ t.functionNodes :=
  List.mem_flatMap

@[simp] theorem mem_constantNames_bin {op : Connective} {l r : Formula} {c : String} :
    c ∈ (bin op l r).constantNames ↔ c ∈ l.constantNames ∨ c ∈ r.constantNames := by
  rw [constantNames, terms, List.flatMap_append, List.mem_append]
  rfl

@[simp] theorem mem_functionNodes_bin {op : Connective} {l r : Formula} {e : String × Nat} :
    e ∈ (bin op l r).functionNodes ↔ e ∈ l.functionNodes ∨ e ∈ r.functionNodes := by
  rw [functionNodes, terms, List.flatMap_append, List.mem_append]
  rfl

theorem mem_constants {f : Formula} (hf : f.WellFormed) {c : String} :
    c ∈ f.constants ↔ c ∈ f.constantNames := by
  rw [constants, mem_sortedSet, Term.constantLeavesOf_eq_flatMap hf.terms, constantNames]

theorem mem_functions {f : Formula} (hf : f.WellFormed) {e : String × Nat} :
    e ∈ f.functions ↔ e ∈ f.functionNodes := by
  rw [functions, mem_sortedSignature, Term.functionNodesOf_eq_flatMap hf.terms, functionNodes]

theorem mem_relations {f : Formula} {e : String × Nat} : e ∈ f.relations ↔ e ∈ f.relationNodes :=
  mem_sortedSignature

theorem mem_freeVariables {f : Formula} {x : String} : x ∈ f.freeVariables ↔ x ∈ f.freeNames :=
  mem_sortedSet

theorem mem_vars {f : Formula} {x : String} : x ∈ f.vars ↔ x ∈ f.variableNames :=
  mem_sortedSet

theorem freeNames_rel {name : String} {ts : List Term} (h : (rel name ts).WellFormed) :
    (rel name ts).freeNames = ts.flatMap Term.variableLeaves :=
  Term.variableLeavesOf_eq_flatMap h.2

@[simp] theorem mem_freeNames_equal {l r : Term} {x : String} :
    x ∈ (equal l r).freeNames ↔ x ∈ l.variableLeaves ∨ x ∈ r.variableLeaves :=
  List.mem_append

@[simp] theorem freeNames_neg (f : Formula) : (neg f).freeNames = f.freeNames := rfl

@[simp] theorem freeNames_bin (op : Connective) (l r : Formula) :
    (bin op l r).freeNames = l.freeNames ++ r.freeNames := rfl

@[simp] theorem mem_freeNames_quant {k : Quantifier} {x y : String} {f : Formula} :
    y ∈ (quant k x f).freeNames ↔ y ∈ f.freeNames ∧ y ≠ x := by
  simp [freeNames]

theorem freeNames_subset_variableNames (f : Formula) : f.freeNames ⊆ f.variableNames := by
  induction f with
  | equal l r => exact List.Subset.refl _
  | rel name ts => exact List.Subset.refl _
  | neg f ih => exact ih
  | bin op l r ihl ihr =>
      simp only [freeNames, variableNames]
      exact List.append_subset.2 ⟨List.subset_append_of_subset_left _ ihl,
        List.subset_append_of_subset_right _ ihr⟩
  | quant k x f ih =>
      intro y hy
      exact List.mem_append_left _ (ih (mem_freeNames_quant.1 hy).1)
  | bare t => simp [freeNames]

theorem binders_subset_variableNames (f : Formula) : f.binders ⊆ f.variableNames := by
  induction f with
  | neg f ih => exact ih
  | bin op l r ihl ihr =>
      simp only [binders, variableNames]
      exact List.append_subset.2 ⟨List.subset_append_of_subset_left _ ihl,
        List.subset_append_of_subset_right _ ihr⟩
  | quant k x f ih =>
      refine List.cons_subset.2 ⟨List.mem_append_right _ (List.mem_singleton.2 rfl), ?_⟩
      exact List.subset_append_of_subset_left _ ih
  | _ => exact List.nil_subset _

theorem WellFormed.isConstant {f : Formula} (hf : f.WellFormed) :
    ∀ c ∈ f.constantNames, isConstant c = true := by
  intro c hc
  obtain ⟨t, ht, hc⟩ := List.mem_flatMap.1 hc
  exact (hf.terms t ht).isConstant c hc

theorem WellFormed.isRelation {f : Formula} (hf : f.WellFormed) :
    ∀ e ∈ f.relationNodes, isRelation e.1 = true := by
  induction f with
  | equal l r => exact fun e he => absurd he List.not_mem_nil
  | rel name ts => exact List.forall_mem_singleton.2 hf.1
  | neg f ih => exact ih hf
  | bin op l r ihl ihr => exact List.forall_mem_append.2 ⟨ihl hf.1, ihr hf.2⟩
  | quant k x f ih => exact ih hf.2
  | bare t => exact hf.elim

theorem WellFormed.isVariable {f : Formula} (hf : f.WellFormed) :
    ∀ x ∈ f.variableNames, isVariable x = true := by
  induction f with
  | equal l r =>
      exact fun x hx => (List.mem_append.1 hx).elim (hf.1.isVariable x) (hf.2.isVariable x)
  | rel name ts =>
      intro x hx
      rw [variableNames, Term.variableLeavesOf_eq_flatMap hf.2] at hx
      obtain ⟨t, ht, hx⟩ := List.mem_flatMap.1 hx
      exact (hf.2 t ht).isVariable x hx
  | neg f ih => exact ih hf
  | bin op l r ihl ihr => exact fun x hx => (List.mem_append.1 hx).elim (ihl hf.1 x) (ihr hf.2 x)
  | quant k x f ih =>
      intro y hy
      rcases List.mem_append.1 hy with hy | hy
      · exact ih hf.2 y hy
      · rw [List.mem_singleton.1 hy]
        exact hf.1
  | bare t => exact hf.elim

end Formula

end FormalLogic.Predicate
