import FormalLogic.Proofs.Propositional.OperatorSubstitution

/-!
# Looking operands up by text

A formula can be copied while each of its operands is first looked up by its text in the table of images, and each root
by its symbol. An operand that is found is not copied any further. The text of a formula is that of a leaf only if the
formula is that leaf (`Formula.WellFormed.leaf_cases`), and it is an operator's symbol in no case. So in a table of
images of variables no operand is found but leaves that are replaced there, and in one of operators none but constants:
copying in this way comes to the same as replacing by recursion (`Formula.variablesByText_eq`,
`Formula.operatorsByText_eq`).
-/

namespace FormalLogic.Propositional.Formula

variable {d : Dialect} {m : Substitution} {f g l r : Formula} {op : Connective}

/-- What the place of a formula holds: nothing, or a formula. -/
def Made (d : Dialect) (f : Formula) : Prop :=
  f.isMissing = true ∨ f.WellFormed d

/-! ## Putting operands under a root -/

theorem make_neg (d : Dialect) (f : Formula) : make d "~" [f] = (do return neg (← f.present)) := by
  have hmake : make d "~" [f] = (require (!f.isMissing && true) .wellFormed >>= fun _ => pure (neg f)) := rfl
  rw [hmake, present]
  cases f.isMissing <;> rfl

theorem make_bin (hop : op ∈ d) (l r : Formula) :
    make d op.symbol [l, r] = (do return bin op (← l.present) (← r.present)) := by
  obtain ⟨hcheck, hconst, hunary⟩ := op.symbol_category
  have hmake : make d op.symbol [l, r] =
      (require (!l.isMissing && !r.isMissing) .wellFormed >>= fun _ => pure (bin op l r)) := by
    simp [make, hcheck, hconst, hunary, Connective.ofSymbol?_symbol hop]
  rw [hmake, present, present]
  cases l.isMissing with
  | true => rfl
  | false => cases r.isMissing <;> rfl

/-! ## Texts of leaves and symbols of operators -/

/-- Only a leaf has the text of a leaf. -/
theorem WellFormed.leaf_cases (hf : f.WellFormed d) (h : isLeafText f.text = true) :
    (∃ x, f = var x) ∨ ∃ b, f = const b := by
  rw [isLeafText, isConstant, Bool.or_eq_true, Bool.or_eq_true, beq_iff_eq, beq_iff_eq] at h
  rcases h with h | h | h
  · exact .inl ⟨f.text, (text_inj hf (g := var f.text) h).1 rfl⟩
  · exact .inr ⟨true, (text_inj hf (g := const true) trivial).1 h⟩
  · exact .inr ⟨false, (text_inj hf (g := const false) trivial).1 h⟩

/-- What has the text of a leaf can be put together of that text alone. -/
theorem make_text (hf : f.Made d) (h : isLeafText f.text = true) : make d f.text [] = .ok f := by
  rcases hf with hf | hf
  · cases f with
    | missing => exact absurd h (by decide)
    | _ => cases hf
  · rcases hf.leaf_cases h with ⟨x, rfl⟩ | ⟨b, rfl⟩
    · exact make_root_operands hf
    · exact make_root_operands hf

theorem isLeafText_symbol (op : Connective) : isLeafText op.symbol = false := by
  cases op <;> decide

/-! ## Variables -/

section Variables

variable (hkeys : ∀ k ∈ Table.keys m, isLeafText k = true)
include hkeys

theorem find?_eq_none_of_isLeafText {k : String} (hk : isLeafText k = false) : Table.find? m k = none := by
  rw [← Option.not_isSome_iff_eq_none, Table.find?_isSome]
  intro hmem
  rw [hkeys k hmem] at hk
  cases hk

/-- An operand that is found by its text is a leaf, and what is found is its image. -/
theorem WellFormed.substPartial_of_find? (hf : f.WellFormed d) (h : Table.find? m f.text = some g) :
    f.substPartial m = .ok g := by
  have hleaf : isLeafText f.text = true := hkeys _ (Table.find?_isSome.1 (by rw [h]; rfl))
  rcases hf.leaf_cases hleaf with ⟨x, rfl⟩ | ⟨b, rfl⟩
  · rw [text] at h
    rw [substPartial, h, Option.getD_some]
  · rw [text] at h
    rw [substPartial, h, Option.getD_some]

omit hkeys in
/-- A leaf becomes its image, or stays. -/
theorem rebuild_leaf (himages : ∀ e ∈ m, e.2.Made d) (hf : f.WellFormed d) (hleaf : f.operands = []) :
    rebuild .ok d m f.root [] = .ok ((Table.find? m f.root).getD f) := by
  have hmake := make_root_operands hf
  rw [hleaf] at hmake
  rw [rebuild]
  cases hfind : Table.find? m f.root with
  | none => exact hmake
  | some image =>
      dsimp only
      split
      · next htext => exact make_text (himages _ (Table.mem_of_find?_eq_some hfind)) htext
      · rfl

/-- Copying with operands looked up by text is replacing leaves. -/
theorem WellFormed.copyThrough_eq_substPartial (himages : ∀ e ∈ m, e.2.Made d) (hf : f.WellFormed d) :
    f.copyThrough .ok d m = f.substPartial m := by
  -- an operand that is found needs no copying, and what is found is what copying would lead to
  have hlookup : ∀ g : Formula, g.WellFormed d → g.copyThrough .ok d m = g.substPartial m →
      imageOr m g (g.copyThrough .ok d m) = g.substPartial m := by
    intro g hg ih
    rw [imageOr]
    cases hfind : Table.find? m g.text with
    | none => exact ih
    | some image => exact (hg.substPartial_of_find? hkeys hfind).symm
  induction f with
  | var x => exact rebuild_leaf himages hf rfl
  | const b => exact rebuild_leaf himages (f := const b) hf rfl
  | neg f ih =>
      rw [copyThrough, substPartial, hlookup f hf (ih hf)]
      simp only [rebuild, find?_eq_none_of_isLeafText hkeys (k := "~") (by decide), make_neg]
  | bin op l r ihl ihr =>
      obtain ⟨hop, hl, hr⟩ := hf
      rw [copyThrough, substPartial, hlookup l hl (ihl hl), hlookup r hr (ihr hr)]
      simp only [rebuild, find?_eq_none_of_isLeafText hkeys (isLeafText_symbol op), make_bin hop]
  | missing => exact hf.elim

end Variables

/-- Keys that pass the check are texts of leaves. -/
theorem isLeafText_of_checkKeys {allowConstants : Bool} {u : Unit} (h : checkKeys allowConstants m = .ok u) :
    ∀ k ∈ Table.keys m, isLeafText k = true := by
  rw [Table.keys, List.forall_mem_map]
  intro e he
  obtain ⟨leaf, hleaf, hrequire⟩ := bind_eq_ok.1 (forM_eq_ok.1 h e he)
  rw [← (checkVariable_eq_ok.1 hleaf).2] at hrequire
  rw [isLeafText, Bool.or_eq_true]
  exact (Bool.or_eq_true_iff.1 (require_eq_ok.1 hrequire)).imp_right fun h => (Bool.and_eq_true_iff.1 h).2

/-- Replacing variables by copying, with operands looked up by text, has the same outcome as replacing them by
recursion, for every formula and every table of images, some of which may be missing. -/
theorem variablesByText_eq (hf : f.Made d) (hm : ∀ e ∈ m, e.2.Made d) (skipMissing allowConstants : Bool) :
    f.variablesByText d m skipMissing allowConstants = f.substituteVariables m skipMissing allowConstants := by
  rw [variablesByText, substituteVariables]
  rcases hf with hf | hf
  · rw [given, hf]
    rfl
  · rw [given_eq_self hf.isMissing_eq_false, ok_bind, ok_bind]
    cases hcheck : checkKeys allowConstants m with
    | error e => rfl
    | ok u =>
        have hkeys := isLeafText_of_checkKeys hcheck
        cases skipMissing with
        | false => exact hf.copyThrough_eq_substPartial hkeys hm
        | true =>
            have hsublist := List.filter_sublist (p := fun e => !e.2.isMissing) (l := m)
            exact hf.copyThrough_eq_substPartial (fun k hk => hkeys k ((hsublist.map Prod.fst).subset hk))
              fun e he => hm e (hsublist.subset he)

/-! ## Operators -/

/-- The text of a formula that is no leaf begins with a sign that begins nothing else. -/
theorem text_notMem_of_head {s : String} {c : Char} {t : List Char} (hs : s.toList = c :: t)
    (hc : c = '~' ∧ t ≠ [] ∨ c = '(') (d : Dialect) :
    isBinary d s = false ∧ isUnary s = false ∧ isConstant s = false := by
  have hne : ∀ w : String, w.toList.head? ≠ some c → s ≠ w := by
    rintro w hw rfl
    exact hw (by rw [hs]; rfl)
  refine ⟨?_, ?_, ?_⟩
  · rw [isBinary, Option.isSome_eq_false_iff, Option.isNone_iff_eq_none, Connective.ofSymbol?, List.find?_eq_none]
    intro op _ heq
    refine hne op.symbol ?_ (beq_iff_eq.1 heq).symm
    rcases hc with ⟨rfl, -⟩ | rfl <;> cases op <;> decide
  · rw [isUnary, beq_eq_false_iff_ne]
    rcases hc with ⟨rfl, ht⟩ | rfl
    · rintro rfl
      exact ht (List.cons.inj hs).2.symm
    · exact hne "~" (by decide)
  · rw [isConstant, Bool.or_eq_false_iff, beq_eq_false_iff_ne, beq_eq_false_iff_ne]
    rcases hc with ⟨rfl, -⟩ | rfl
    · exact ⟨hne "T" (by decide), hne "F" (by decide)⟩
    · exact ⟨hne "T" (by decide), hne "F" (by decide)⟩

theorem isVariable_eq_false {k : String} (h : isBinary d k = true ∨ isUnary k = true ∨ isConstant k = true) :
    isVariable k = false := by
  rcases h with h | h | h
  · obtain ⟨op, hop⟩ := Option.isSome_iff_exists.1 h
    have hsymbol := List.find?_some hop
    rw [← beq_iff_eq.1 hsymbol]
    exact (checkVariable_eq_ok.1 op.symbol_category.1).2
  · rw [beq_iff_eq.1 h]
    decide
  · rw [isConstant, Bool.or_eq_true, beq_iff_eq, beq_iff_eq] at h
    rcases h with rfl | rfl <;> decide

/-- Of all formulas only constants have a text that is a constant or an operator's symbol. -/
theorem WellFormed.eq_const (hf : f.WellFormed d) {d' : Dialect}
    (h : isBinary d' f.text = true ∨ isUnary f.text = true ∨ isConstant f.text = true) : ∃ b, f = const b := by
  have hother : ∀ {c t}, f.text.toList = c :: t → c = '~' ∧ t ≠ [] ∨ c = '(' → False := by
    intro c t hs hc
    obtain ⟨hbinary, hunary, hconstant⟩ := text_notMem_of_head hs hc d'
    rw [hbinary, hunary, hconstant] at h
    simp at h
  cases f with
  | var x => cases (isVariable_eq_false h).symm.trans hf
  | const b => exact ⟨b, rfl⟩
  | neg f => exact (hother String.toList_append (.inl ⟨rfl, text_ne_nil (f := f) hf⟩)).elim
  | bin op l r => exact (hother (by simp only [text, String.toList_append]; rfl) (.inr rfl)).elim
  | missing => exact hf.elim

/-- Leaving missing images out of account is replacing by the others. -/
theorem substituteVariables_skip (hkeys : ∀ k ∈ Table.keys m, isVariable k = true) (f : Formula) :
    f.substituteVariables m true false =
      f.substituteVariables (m.filter fun e => !e.2.isMissing) false false := by
  have hrest : ∀ k ∈ Table.keys (m.filter fun e => !e.2.isMissing), isVariable k = true :=
    fun k hk => hkeys k ((List.filter_sublist.map Prod.fst).subset hk)
  rw [substituteVariables, substituteVariables, (checkKeys_eq_ok (u := ())).2 hkeys,
    (checkKeys_eq_ok (u := ())).2 hrest]
  rfl

theorem subst_imageIn_nil (f : Formula) : f.subst (imageIn []) = f := by
  induction f with
  | neg f ih => rw [subst, ih]
  | bin op l r ihl ihr => rw [subst, ihl, ihr]
  | _ => rfl

section Operators

variable (hm : m.ForOperators)
include hm

/-- An operand that is found by its text is a constant, which is replaced by its image. -/
theorem operandOr_eq (hf : f.WellFormed Connective.all) {otherwise : Outcome Formula}
    (h : otherwise = .ok (f.substOperators m)) : operandOr m f otherwise = .ok (f.substOperators m) := by
  rw [operandOr]
  split
  · next hkey =>
      obtain ⟨image, hfind⟩ := Option.isSome_iff_exists.1 hkey
      obtain ⟨b, rfl⟩ := hf.eq_const (hm.keys _ (Table.mem_of_find?_eq_some hfind))
      have himage : (const b).substOperators m = image := by rw [substOperators, ← text, hfind, Option.getD_some]
      change (Failure.unknownKey.orElse (Table.find? m (const b).text) >>= fun image => pure image) = _
      rw [hfind, himage]
      rfl
  · exact h

/-- The image of an operator is applied to the operands that there are. -/
theorem variablesByText_image {k : String} {image : Formula} (hfind : Table.find? m k = some image)
    (hl : l.Made Connective.all) (hr : r.Made Connective.all) {operands : Substitution}
    (hoperands : [("p", l), ("q", r)].filter (fun e => !e.2.isMissing) = operands) (hproper : operands.Proper) :
    image.variablesByText Connective.all [("p", l), ("q", r)] true false =
      .ok (image.subst (imageIn operands)) := by
  have himage := hm.images _ (Table.mem_of_find?_eq_some hfind)
  have hmade : ∀ e ∈ [("p", l), ("q", r)], e.2.Made Connective.all :=
    List.forall_mem_cons.2 ⟨hl, List.forall_mem_singleton.2 hr⟩
  have hkeys : ∀ k ∈ Table.keys [("p", l), ("q", r)], isVariable k = true :=
    (by decide : ∀ k ∈ ["p", "q"], isVariable k = true)
  rw [variablesByText_eq (.inr himage) hmade, substituteVariables_skip hkeys, hoperands]
  exact himage.substituteVariables_eq_ok hproper

theorem applyImage_const (b : Bool) : applyImage Connective.all m (constText b) missing missing =
    .ok ((const b).substOperators m) := by
  rw [applyImage, substOperators]
  cases hfind : Table.find? m (constText b) with
  | none => cases b <;> rfl
  | some image =>
      have hnone : Substitution.Proper [] := Substitution.proper_of_forall (by simp)
      have hoperands : [("p", missing), ("q", missing)].filter (fun e => !e.2.isMissing) = [] := rfl
      refine (variablesByText_image hm hfind (.inl rfl) (.inl rfl) hoperands hnone).trans ?_
      rw [subst_imageIn_nil, Option.getD_some]

theorem applyImage_neg (hf : f.WellFormed Connective.all) : applyImage Connective.all m "~" f missing =
    .ok ((applicationImage m (neg p)).subst (imageIn [("p", f)])) := by
  rw [applyImage, applicationImage, root]
  cases hfind : Table.find? m "~" with
  | none => exact (make_neg Connective.all f).trans (by rw [present, hf.isMissing_eq_false]; rfl)
  | some image =>
      refine variablesByText_image hm hfind (.inr hf) (.inl rfl) ?_ (proper_first hf)
      simp [hf.isMissing_eq_false, show missing.isMissing = true from rfl]

theorem applyImage_bin (hl : l.WellFormed Connective.all) (hr : r.WellFormed Connective.all) :
    applyImage Connective.all m op.symbol l r =
      .ok ((applicationImage m (bin op p q)).subst (imageIn [("p", l), ("q", r)])) := by
  have hop : op ∈ Connective.all := by cases op <;> decide
  rw [applyImage, applicationImage, root]
  cases hfind : Table.find? m op.symbol with
  | none =>
      refine (make_bin hop l r).trans ?_
      rw [present, hl.isMissing_eq_false, present, hr.isMissing_eq_false]
      rfl
  | some image =>
      refine variablesByText_image hm hfind (.inr hl) (.inr hr) ?_ (proper_both hl hr)
      simp [hl.isMissing_eq_false, hr.isMissing_eq_false]

/-- Copying with operands looked up by text is replacing operators. -/
theorem WellFormed.copyOperators_eq (hf : f.WellFormed Connective.all) :
    f.copyOperators Connective.all m = .ok (f.substOperators m) := by
  induction f with
  | var x =>
      have hnone : Table.find? m x = none := by
        refine Option.eq_none_iff_forall_ne_some.2 fun image hfind => ?_
        cases (isVariable_eq_false (hm.keys _ (Table.mem_of_find?_eq_some hfind))).symm.trans hf
      rw [copyOperators, applyImage, hnone]
      exact make_root_operands hf
  | const b => exact applyImage_const hm b
  | neg f ih =>
      have hf : f.WellFormed Connective.all := hf
      rw [copyOperators, operandOr_eq hm hf (ih hf), ok_bind, applyImage_neg hm (hf.substOperators hm),
        substOperators_neg]
  | bin op l r ihl ihr =>
      obtain ⟨-, hl, hr⟩ := hf
      rw [copyOperators, operandOr_eq hm hl (ihl hl), ok_bind, operandOr_eq hm hr (ihr hr), ok_bind,
        applyImage_bin hm (hl.substOperators hm) (hr.substOperators hm), substOperators_bin]
  | missing => exact hf.elim

end Operators

/-- Images that pass the check are formulas in the operand places, under keys that are operators or constants. -/
theorem forOperators_of_check {u : Unit} (himages : ∀ e ∈ m, e.2.Made Connective.all)
    (h : checkOperatorImages Connective.all m = .ok u) : m.ForOperators := by
  have hcheck : ∀ e ∈ m, (isBinary Connective.all e.1 || isUnary e.1 || isConstant e.1) = true ∧
      e.2.WellFormed Connective.all ∧ e.2.vars ⊆ operandPlaces := by
    intro e he
    obtain ⟨_, hkey, hrest⟩ := bind_eq_ok.1 (forM_eq_ok.1 h e he)
    obtain ⟨g, hg, hplaces⟩ := bind_eq_ok.1 hrest
    rw [given, ite_error_eq_ok, Except.ok.injEq] at hg
    obtain ⟨hgiven, rfl⟩ := hg
    exact ⟨require_eq_ok.1 hkey, (himages e he).resolve_left hgiven, subset_eq_true.1 (require_eq_ok.1 hplaces)⟩
  refine ⟨fun e he => ?_, fun e he => (hcheck e he).2.1, fun e he => (hcheck e he).2.2⟩
  simpa only [Bool.or_eq_true, or_assoc] using (hcheck e he).1

/-- Replacing operators by copying, with operands looked up by text, has the same outcome as replacing them by
recursion, for every formula and every table of images. -/
theorem operatorsByText_eq (hf : f.Made Connective.all) (hm : ∀ e ∈ m, e.2.Made Connective.all) :
    f.operatorsByText Connective.all m = f.substituteOperators Connective.all m := by
  rw [operatorsByText, substituteOperators]
  rcases hf with hf | hf
  · rw [given, hf]
    rfl
  · rw [given_eq_self hf.isMissing_eq_false, ok_bind, ok_bind]
    cases hcheck : checkOperatorImages Connective.all m with
    | error e => rfl
    | ok u => exact hf.copyOperators_eq (forOperators_of_check hm hcheck)

end FormalLogic.Propositional.Formula
