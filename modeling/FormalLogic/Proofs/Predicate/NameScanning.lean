import FormalLogic.Proofs.Predicate.UniqueReading
import Mathlib.Data.List.TakeWhile

/-!
# Names that are scanned as a whole

A name may consist of letters, digits and other numerals, such as fractions. The scanner takes letters and digits only,
so that it cuts a name at its first other numeral (`scanned`, `unscanned`). A name therefore survives being
written and read exactly if it has no other numerals (`name_survives_iff`): of a constant or variable that has one, a
shorter name is read, and a relation that has one cannot be read.
-/

namespace FormalLogic.Predicate

/-! ## Where a name is cut -/

/-- The part of a name that is scanned: its letters and digits up to the first other numeral. -/
def scanned (s : String) : String :=
  String.ofList (s.toList.takeWhile Text.isNameChar)

/-- The part of a name that the scanner leaves. -/
def unscanned (s : String) : String :=
  String.ofList (s.toList.dropWhile Text.isNameChar)

section Cut

variable {s : String} {c : Char} {first : Char → Bool}

theorem scanned_eq_self (h : isNameText s = true) : scanned s = s := by
  rw [scanned, List.takeWhile_eq_self_iff.2 (List.all_eq_true.1 h), String.ofList_toList]

/-- Something is left of a name exactly if it has another numeral. -/
theorem unscanned_eq_empty_iff : unscanned s = "" ↔ isNameText s = true := by
  rw [isNameText, List.all_eq_true, ← List.dropWhile_eq_nil_iff, unscanned, ← String.toList_inj,
    String.toList_ofList]
  rfl

/-- Below code point 128 all numerals are digits. -/
theorem isNameChar_of_lt (hc : Text.isAlphanumeric c = true) (hlt : c.toNat < 128) : Text.isNameChar c = true := by
  have hlow : decide (128 ≤ c.toNat) = false := decide_eq_false (Nat.not_le.2 hlt)
  rwa [Text.isAlphanumeric, hlow, Bool.false_and, Bool.or_false] at hc

/-- The first character of a name is scanned, so that a name of the same kind is. -/
theorem exists_scanned (hfirst : ∀ c, first c = true → c.toNat < 128) (h : isNameWith first s = true) :
    ∃ c cs, s.toList = c :: cs ∧ first c = true ∧
      scanned s = String.ofList (c :: cs.takeWhile Text.isNameChar) ∧
      unscanned s = String.ofList (cs.dropWhile Text.isNameChar) ∧ isNameWith first (scanned s) = true := by
  obtain ⟨c, cs, hlist, hc, halpha⟩ := exists_of_isNameWith h
  obtain ⟨hcalpha, hcsalpha⟩ := List.forall_mem_cons.1 halpha
  have hscan : Text.isNameChar c = true := isNameChar_of_lt hcalpha (hfirst c hc)
  have hscanned : scanned s = String.ofList (c :: cs.takeWhile Text.isNameChar) := by
    rw [scanned, hlist, List.takeWhile_cons_of_pos hscan]
  refine ⟨c, cs, hlist, hc, hscanned, ?_, ?_⟩
  · rw [unscanned, hlist, List.dropWhile_cons_of_pos hscan]
  · have hall : (c :: cs.takeWhile Text.isNameChar).all Text.isAlphanumeric = true := by
      refine List.all_eq_true.2 (List.forall_mem_cons.2 ⟨hcalpha, fun d hd => ?_⟩)
      exact hcsalpha d ((List.takeWhile_prefix _).subset hd)
    rw [hscanned, isNameWith, String.toList_ofList]
    dsimp only
    rw [hc, hall]
    rfl

end Cut

/-! ## Constants and variables -/

theorem toNat_lt_of_startsConstant {c : Char} (hc : startsConstant c = true) : c.toNat < 128 := by
  simp only [startsConstant, Bool.or_eq_true, Bool.and_eq_true, decide_eq_true_eq] at hc
  rcases hc with ⟨-, hc⟩ | ⟨-, hc⟩
  · exact lt_of_le_of_lt (show c.toNat ≤ 57 from hc) (by decide)
  · exact lt_of_le_of_lt (show c.toNat ≤ 100 from hc) (by decide)

theorem toNat_lt_of_startsVariable {c : Char} (hc : startsVariable c = true) : c.toNat < 128 := by
  simp only [startsVariable, Bool.and_eq_true, decide_eq_true_eq] at hc
  exact lt_of_le_of_lt (show c.toNat ≤ 122 from hc.2) (by decide)

theorem toNat_lt_of_startsRelation {c : Char} (hc : startsRelation c = true) : c.toNat < 128 := by
  simp only [startsRelation, Bool.and_eq_true, decide_eq_true_eq] at hc
  exact lt_of_le_of_lt (show c.toNat ≤ 84 from hc.2) (by decide)

theorem Term.exists_make_eq_ok {s : String} (hs : isConstant s = true ∨ isVariable s = true) :
    ∃ t, Term.make s none = .ok t ∧ t.text = s := by
  rcases hs with hs | hs
  · exact ⟨const s, make_constant hs, rfl⟩
  · exact ⟨var s, make_variable hs, rfl⟩

theorem Term.readText_eq_ok {s rest : String} {t : Term} (h : ReadsTerm s.toList t rest.toList) :
    Term.readText s = .ok (t, rest) := by
  obtain ⟨hlt, h⟩ := h
  rw [Term.readText, h, ok_bind]
  simp

/-- Of a constant other than the underscore, the part that is scanned is read. -/
theorem Term.readText_constant {s : String} (hs : isNameWith startsConstant s = true) :
    Term.readText s = .ok (const (scanned s), unscanned s) ∧ isConstant (scanned s) = true := by
  obtain ⟨c, cs, hlist, hc, hscanned, hunscanned, hname⟩ := exists_scanned (fun _ => toNat_lt_of_startsConstant) hs
  refine ⟨Term.readText_eq_ok ?_, by simp [isConstant, hname]⟩
  rw [hlist, hscanned, hunscanned, String.toList_ofList]
  exact readsTerm_constant hc

/-- Of a variable the part that is scanned is read. -/
theorem Term.readText_variable {s : String} (hs : isVariable s = true) :
    Term.readText s = .ok (var (scanned s), unscanned s) ∧ isVariable (scanned s) = true := by
  obtain ⟨c, cs, hlist, hc, hscanned, hunscanned, hname⟩ := exists_scanned (fun _ => toNat_lt_of_startsVariable) hs
  refine ⟨Term.readText_eq_ok ?_, hname⟩
  rw [hlist, hscanned, hunscanned, String.toList_ofList]
  exact readsTerm_variable hc

theorem Term.readText_name {s : String} (hs : isConstant s = true ∨ isVariable s = true) (hhole : s ≠ hole) :
    ∃ u, Term.make (scanned s) none = .ok u ∧ Term.readText s = .ok (u, unscanned s) := by
  rcases hs with hs | hs
  · have hname : isNameWith startsConstant s = true := by simpa [isConstant, hhole] using hs
    obtain ⟨hread, hkind⟩ := Term.readText_constant hname
    exact ⟨_, make_constant hkind, hread⟩
  · obtain ⟨hread, hkind⟩ := Term.readText_variable hs
    exact ⟨_, make_variable hkind, hread⟩

/-- A constant or variable is read back from its name exactly if that is the underscore, or all of it is scanned. -/
theorem Term.readText_eq_ok_iff {s : String} {t : Term} (hs : isConstant s = true ∨ isVariable s = true)
    (ht : Term.make s none = .ok t) :
    Term.readText s = .ok (t, "") ↔ s = hole ∨ isNameText s = true := by
  by_cases hhole : s = hole
  · subst hhole
    obtain rfl : t = const hole := (Except.ok.inj ht).symm
    exact ⟨fun _ => .inl rfl, fun _ => Term.readText_eq_ok (readsTerm_hole [])⟩
  · obtain ⟨u, hu, hread⟩ := Term.readText_name hs hhole
    rw [hread, Except.ok.injEq, Prod.mk.injEq, unscanned_eq_empty_iff]
    constructor
    · exact fun h => .inr h.2
    · intro h
      have htext := h.resolve_left hhole
      rw [scanned_eq_self htext, ht] at hu
      exact ⟨(Except.ok.inj hu).symm, htext⟩

/-! ## Relations -/

/-- Behind the name of a relation must stand a bracket. -/
theorem read_relation_eq_error {c d : Char} {t body : List Char} (hc : startsRelation c = true)
    (ht : t.dropWhile Text.isNameChar = d :: body) (hd : d ≠ '(') :
    read (c :: t) = .error (.unmet .formulaText) := by
  have hterm := startsTerm_eq_false hc
  rw [startsTerm, ← Bool.not_eq_true] at hterm
  rw [read, if_neg hterm, if_pos hc, readRelation]
  split
  · rename_i hnil
    cases ht.symm.trans hnil
  · rename_i hcons
    obtain ⟨rfl, rfl⟩ := List.cons.inj (ht.symm.trans hcons)
    rw [if_neg hd]

theorem Formula.text_nullary (s : String) : (Formula.rel s []).text = s ++ "()" := by
  apply String.toList_injective
  rw [toList_text_rel, String.toList_append]
  rfl

/-- A relation without arguments is read back from its text exactly if all of its name is scanned; otherwise the scanner
stops in front of something else than a bracket. -/
theorem Formula.readText_nullary {s : String} (hs : isRelation s = true) :
    Formula.readText (s ++ "()") =
      if isNameText s = true then .ok (.rel s [], "") else .error (.unmet .formulaText) := by
  by_cases htext : isNameText s = true
  · rw [if_pos htext]
    have hwf : (Formula.rel s []).WellFormed := ⟨hs, by simp⟩
    have hlegible : (Formula.rel s []).Legible := ⟨by simp [terms], by simpa [relationNodes] using htext⟩
    have hread := @Formula.readText_text_append _ hwf hlegible "" (stops_nil.apart _)
    rwa [text_nullary, String.append_empty] at hread
  · rw [if_neg htext]
    obtain ⟨c, cs, hlist, hc, -, hunscanned, -⟩ := exists_scanned (fun _ => toNat_lt_of_startsRelation) hs
    have hleft : cs.dropWhile Text.isNameChar ≠ [] := by
      intro hnil
      rw [hnil] at hunscanned
      exact htext (unscanned_eq_empty_iff.1 hunscanned)
    obtain ⟨d, body, hbody⟩ := List.exists_cons_of_ne_nil hleft
    have hd : d ≠ '(' := by
      -- a character of a name is no bracket
      have hmem : d ∈ cs := (List.dropWhile_suffix Text.isNameChar).subset (hbody ▸ List.mem_cons_self)
      obtain ⟨_, _, hlist', -, halpha⟩ := exists_of_isNameWith hs
      rw [← hlist', hlist] at halpha
      rintro rfl
      exact absurd (halpha _ (List.mem_cons_of_mem c hmem)) (by decide)
    have hrest : (cs ++ ['(', ')']).dropWhile Text.isNameChar = d :: (body ++ ['(', ')']) := by
      rw [List.dropWhile_append, hbody]
      rfl
    have hread := read_relation_eq_error hc hrest hd
    have hwhole : (s ++ "()").toList = c :: (cs ++ ['(', ')']) := by
      rw [String.toList_append, hlist]
      rfl
    rw [readText, hwhole, hread]
    rfl

/-! ## Names that survive -/

/-- A name is made into a constant or a variable whose text it is. Read back from that text is the same term, with nothing
left, exactly if the name is the underscore or has letters and digits only; otherwise a shorter name is read, and the
rest of the name is left. A relation without arguments is read back from its text exactly if its name has letters and
digits only, and otherwise reading fails. -/
theorem name_survives_iff (s : String) :
    (isConstant s = true ∨ isVariable s = true →
      ∃ t, Term.make s none = .ok t ∧ t.text = s ∧
        (Term.readText s = .ok (t, "") ↔ s = hole ∨ isNameText s = true) ∧
        (s ≠ hole → ∃ u, Term.make (scanned s) none = .ok u ∧ Term.readText s = .ok (u, unscanned s))) ∧
    (isRelation s = true →
      Formula.make s (.terms []) .missing = .ok (.rel s []) ∧ (Formula.rel s []).text = s ++ "()" ∧
        (Formula.readText (s ++ "()") = .ok (.rel s [], "") ↔ isNameText s = true) ∧
        (isNameText s = false → Formula.readText (s ++ "()") = .error (.unmet .formulaText))) := by
  constructor
  · intro h
    obtain ⟨t, ht, htext⟩ := Term.exists_make_eq_ok h
    exact ⟨t, ht, htext, Term.readText_eq_ok_iff h ht, Term.readText_name h⟩
  · intro h
    rw [Formula.readText_nullary h]
    refine ⟨Formula.make_rel h, Formula.text_nullary s, ?_, fun htext => ?_⟩
    · by_cases htext : isNameText s = true
      · simp [htext]
      · simp [htext]
    · rw [htext, if_neg Bool.false_ne_true]

/-- Letters and digits of any script survive, in a variable and in a relation. A fraction cuts off the end of a constant,
and keeps a relation from being read. -/
theorem name_survives_iff_other_scripts :
    Term.readText "xé٣²" = .ok (.var "xé٣²", "") ∧ Formula.readText "Rλ₁()" = .ok (.rel "Rλ₁" [], "") ∧
      Term.readText "a1½b" = .ok (.const "a1", "½b") ∧
      Formula.readText "Q½()" = .error (.unmet .formulaText) := by
  have hx : isVariable "xé٣²" = true := by decide +kernel
  obtain ⟨t, ht, -, hvariable, -⟩ := (name_survives_iff "xé٣²").1 (.inr hx)
  obtain rfl : .var "xé٣²" = t := Except.ok.inj ((Term.make_variable hx).symm.trans ht)
  obtain ⟨-, -, -, -, hconstant⟩ := (name_survives_iff "a1½b").1 (.inl (by decide +kernel))
  obtain ⟨u, hu, hread⟩ := hconstant (by decide)
  obtain rfl : .const "a1" = u := Except.ok.inj (Eq.trans (by decide +kernel) hu)
  obtain ⟨-, -, hrelation, -⟩ := (name_survives_iff "Rλ₁").2 (by decide +kernel)
  obtain ⟨-, -, -, hfraction⟩ := (name_survives_iff "Q½").2 (by decide +kernel)
  refine ⟨hvariable.2 (.inr (by decide +kernel)), hrelation.2 (by decide +kernel), ?_, hfraction (by decide +kernel)⟩
  rw [hread]
  decide +kernel

/-- The constant, the variable and the relation have names that are accepted, but none of them survives. -/
theorem name_survives_iff_fails :
    isConstant "a½" = true ∧ Term.make "a½" none = .ok (.const "a½") ∧ Term.readText "a½" = .ok (.const "a", "½") ∧
      isVariable "xⅧ" = true ∧ Term.make "xⅧ" none = .ok (.var "xⅧ") ∧ Term.readText "xⅧ" = .ok (.var "x", "Ⅷ") ∧
      isRelation "R½" = true ∧ Formula.make "R½" (.terms []) .missing = .ok (.rel "R½" []) ∧
      Formula.readText "R½()" = .error (.unmet .formulaText) := by
  have hconstant : isConstant "a½" = true := by decide +kernel
  have hvariable : isVariable "xⅧ" = true := by decide +kernel
  have hrelation : isRelation "R½" = true := by decide +kernel
  have hread : Term.readText "a½" = .ok (.const "a", "½") :=
    (@Term.readText_constant "a½" (by decide +kernel)).1.trans (by decide +kernel)
  have hread' : Term.readText "xⅧ" = .ok (.var "x", "Ⅷ") :=
    (Term.readText_variable hvariable).1.trans (by decide +kernel)
  have hread'' : Formula.readText "R½()" = .error (.unmet .formulaText) :=
    (Formula.readText_nullary hrelation).trans (if_neg (by decide +kernel))
  exact ⟨hconstant, Term.make_constant hconstant, hread, hvariable, Term.make_variable hvariable, hread', hrelation,
    Formula.make_rel hrelation, hread''⟩

end FormalLogic.Predicate
