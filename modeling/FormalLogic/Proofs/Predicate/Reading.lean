import FormalLogic.Predicate.Reading
import FormalLogic.Proofs.Predicate.Syntax

/-!
# Reading terms inverts writing them

The reader takes off the front of a text the name that is written there, up to the first character that is
neither a letter nor a digit. So a term is read back from its text if its constants and variables are named
with letters and digits only (`Term.Legible`) and the text behind it does not prolong a name at its end
(`Apart`, `Term.readsTerm_text_append`). Names may have other numerals, which the reader would leave behind; the name
of a function may have them too, because it is read up to its bracket.
-/

namespace FormalLogic.Predicate

variable {s t rest : List Char} {c : Char}

/-! ## The cases of the reader -/

/-- A term is read off the front of a text, and the given text is left. -/
def ReadsTerm (s : List Char) (t : Term) (rest : List Char) : Prop :=
  ∃ hlt, readTerm s = .ok ⟨t, rest, hlt⟩

/-- Further arguments are read off the front of a text, and the given text is left. -/
def ReadsArguments (s : List Char) (ts : List Term) (rest : List Char) : Prop :=
  ∃ hlt, readArguments s = .ok ⟨ts, rest, hlt⟩

/-- A text is read in one way. -/
theorem ReadsTerm.unique {u v : Term} {rest' : List Char} (h : ReadsTerm s u rest)
    (h' : ReadsTerm s v rest') : u = v ∧ rest = rest' := by
  obtain ⟨hlt, h⟩ := h
  obtain ⟨hlt', h'⟩ := h'
  rw [h, Except.ok.injEq, ReadOff.mk.injEq] at h'
  exact h'

theorem readsTerm_hole (s : List Char) : ReadsTerm ('_' :: s) (.const hole) s := by
  refine ⟨by simp, ?_⟩
  rw [readTerm]
  simp

theorem dropWhile_shorter (c : Char) (t : List Char) :
    (t.dropWhile Text.isNameChar).length < (c :: t).length :=
  Nat.lt_succ_of_le (length_dropWhile_le Text.isNameChar t)

theorem readsTerm_constant (hc : startsConstant c = true) :
    ReadsTerm (c :: t) (.const (String.ofList (c :: t.takeWhile Text.isNameChar)))
      (t.dropWhile Text.isNameChar) := by
  have hhole : c ≠ '_' := by
    rintro rfl
    cases hc
  refine ⟨dropWhile_shorter c t, ?_⟩
  rw [readTerm]
  simp [hhole, hc]

theorem readsTerm_variable (hc : startsVariable c = true) :
    ReadsTerm (c :: t) (.var (String.ofList (c :: t.takeWhile Text.isNameChar)))
      (t.dropWhile Text.isNameChar) := by
  have hhole : c ≠ '_' := by
    rintro rfl
    cases hc
  have hconstant : startsConstant c = false := by
    refine Bool.eq_false_iff.2 fun h => ?_
    rw [startsVariable_eq_false h] at hc
    cases hc
  refine ⟨dropWhile_shorter c t, ?_⟩
  rw [readTerm]
  simp [hhole, hconstant, hc]

theorem splitAtFirst_append {before : List Char} (h : c ∉ before) (t : List Char) :
    splitAtFirst c (before ++ c :: t) = (before, some t) := by
  induction before with
  | nil => simp [splitAtFirst]
  | cons d before ih =>
      rw [List.mem_cons, not_or] at h
      rw [List.cons_append, splitAtFirst, if_neg (Ne.symm h.1), ih h.2]

/-- Letters of functions lie between those of constants and those of variables. -/
theorem starts_of_startsFunction (hc : startsFunction c = true) :
    c ≠ '_' ∧ startsConstant c = false ∧ startsVariable c = false := by
  simp only [startsFunction, Bool.and_eq_true, decide_eq_true_eq] at hc
  refine ⟨?_, ?_, ?_⟩
  · rintro rfl
    exact absurd hc (by decide)
  · have hdigit : ¬ c ≤ '9' := Char.not_le.2 (lt_of_lt_of_le (by decide) hc.1)
    have hletter : ¬ c ≤ 'd' := Char.not_le.2 (lt_of_lt_of_le (by decide) hc.1)
    simp [startsConstant, hdigit, hletter]
  · have hletter : ¬ 'u' ≤ c := Char.not_le.2 (lt_of_le_of_lt hc.2 (by decide))
    simp [startsVariable, hletter]

/-- Behind the name of a function and its bracket stand its arguments. -/
theorem readsTerm_function {before body behind : List Char} {first : Term} {others : List Term}
    (hc : startsFunction c = true) (hname : isFunction (String.ofList (c :: before)) = true)
    (hbracket : '(' ∉ before) (hfirst : ReadsTerm body first behind)
    (hothers : ReadsArguments behind others rest) :
    ReadsTerm (c :: (before ++ '(' :: body)) (.app (String.ofList (c :: before)) (first :: others))
      rest := by
  obtain ⟨hlt, hfirst⟩ := hfirst
  obtain ⟨hlt', hothers⟩ := hothers
  obtain ⟨hhole, hconstant, hvariable⟩ := starts_of_startsFunction hc
  have hbehind : behindBracket '(' (before ++ '(' :: body) = (before, body) := by
    rw [behindBracket, splitAtFirst_append hbracket]
  refine ⟨by simp only [List.length_cons, List.length_append]; omega, ?_⟩
  rw [readTerm]
  simp only [hhole, hconstant, hvariable, hc, if_true, if_false, Bool.false_eq_true]
  split
  · rename_i heq
    rw [hbehind, hfirst] at heq
    cases heq
  · rename_i first' behind' hlt'' heq
    have hread : ReadsTerm (behindBracket '(' (before ++ '(' :: body)).2 first' behind' := ⟨hlt'', heq⟩
    rw [hbehind] at hread
    obtain ⟨rfl, rfl⟩ := hread.unique ⟨hlt, hfirst⟩
    simp only [hothers, hbehind, hname, if_true]

theorem readsArguments_nil (s : List Char) : ReadsArguments (')' :: s) [] s := by
  refine ⟨by simp, ?_⟩
  rw [readArguments]
  simp

/-- Behind a comma stands the next argument. -/
theorem readsArguments_cons {behind : List Char} {first : Term} {others : List Term}
    (hfirst : ReadsTerm s first behind) (hothers : ReadsArguments behind others rest) :
    ReadsArguments (',' :: s) (first :: others) rest := by
  obtain ⟨hlt, hfirst⟩ := hfirst
  obtain ⟨hlt', hothers⟩ := hothers
  refine ⟨by simp only [List.length_cons]; omega, ?_⟩
  rw [readArguments]
  simp [hfirst, hothers]

/-! ## Names -/

/-- A name has a first character of its kind, and only letters, digits and numerals. -/
theorem exists_of_isNameWith {first : Char → Bool} {name : String} (h : isNameWith first name = true) :
    ∃ c cs, name.toList = c :: cs ∧ first c = true ∧ ∀ d ∈ c :: cs, Text.isAlphanumeric d = true := by
  unfold isNameWith at h
  split at h
  · cases h
  · rename_i c cs hname
    rw [Bool.and_eq_true, List.all_eq_true] at h
    exact ⟨c, cs, hname, h⟩

/-- A name of letters and digits, in front of a text that begins with neither, is taken off as a whole. -/
theorem exists_name_append {first : Char → Bool} {name : String} (h : isNameWith first name = true)
    (htext : isNameText name = true)
    (hrest : ∀ d, rest.head? = some d → Text.isNameChar d = false) :
    ∃ c t, name.toList ++ rest = c :: t ∧ first c = true ∧
      String.ofList (c :: t.takeWhile Text.isNameChar) = name ∧ t.dropWhile Text.isNameChar = rest := by
  obtain ⟨c, cs, hname, hc, -⟩ := exists_of_isNameWith h
  rw [isNameText, hname, List.all_eq_true] at htext
  have hcs : ∀ d ∈ cs, Text.isNameChar d = true := fun d hd => htext d (List.mem_cons_of_mem c hd)
  have hstop : rest.takeWhile Text.isNameChar = [] ∧ rest.dropWhile Text.isNameChar = rest := by
    cases rest with
    | nil => simp
    | cons d rest => simp [hrest d rfl]
  refine ⟨c, cs ++ rest, by rw [hname, List.cons_append], hc, ?_, ?_⟩
  · rw [List.takeWhile_append_of_pos hcs, hstop.1, List.append_nil, ← hname, String.ofList_toList]
  · rw [List.dropWhile_append_of_pos hcs, hstop.2]

/-! ## What stands behind a text -/

/-- The text behind another one does not prolong a name at its end. -/
def Apart (s rest : List Char) : Prop :=
  ∀ c d, s.getLast? = some c → rest.head? = some d → Text.isNameChar c = true → Text.isNameChar d = false

/-- Only the end of a text can be prolonged. -/
theorem Apart.of_append {u : List Char} (h : Apart (s ++ u) rest) (hu : u ≠ []) : Apart u rest := by
  intro c d hc
  refine h c d ?_
  rw [List.getLast?_append_of_ne_nil s hu, hc]

theorem isNameChar_eq_false {d : Char} (h : Text.isAlphanumeric d = false) : Text.isNameChar d = false := by
  rw [Text.isAlphanumeric, Bool.or_eq_false_iff] at h
  exact h.1

/-- A text begins with no letter, digit or numeral. -/
def Stops (rest : List Char) : Prop :=
  ∀ d, rest.head? = some d → Text.isAlphanumeric d = false

theorem stops_nil : Stops [] := by
  simp [Stops]

theorem stops_cons {d : Char} (hd : Text.isAlphanumeric d = false) (rest : List Char) :
    Stops (d :: rest) := by
  rintro _ ⟨⟩
  exact hd

/-- Such a text prolongs no name. -/
theorem Stops.apart (h : Stops rest) (s : List Char) : Apart s rest :=
  fun _ d _ hd _ => isNameChar_eq_false (h d hd)

/-- Behind a name of letters and digits stands neither. -/
theorem Apart.head_of_name {first : Char → Bool} {name : String} (h : Apart name.toList rest)
    (hname : isNameWith first name = true) (htext : isNameText name = true) :
    ∀ d, rest.head? = some d → Text.isNameChar d = false := by
  obtain ⟨c, cs, hlist, -⟩ := exists_of_isNameWith hname
  have hne : name.toList ≠ [] := by simp [hlist]
  intro d hd
  refine h _ d (List.getLast?_eq_some_getLast hne) hd ?_
  exact List.all_eq_true.1 htext _ (List.getLast_mem hne)

/-! ## Terms -/

namespace Term

/-- Constants and variables are named with letters and digits only, or with the underscore. -/
def Legible (t : Term) : Prop :=
  ∀ name ∈ t.constantLeaves ++ t.variableLeaves, name = hole ∨ isNameText name = true

instance : DecidablePred Legible := fun t =>
  inferInstanceAs (Decidable (∀ name ∈ t.constantLeaves ++ t.variableLeaves,
    name = hole ∨ isNameText name = true))

theorem Legible.arg {name : String} {ts : List Term} (hwf : (app name ts).WellFormed)
    (h : (app name ts).Legible) {t : Term} (ht : t ∈ ts) : t.Legible := by
  intro leaf hleaf
  refine h leaf ?_
  rw [constantLeaves, variableLeaves, constantLeavesOf_eq_flatMap hwf.args,
    variableLeavesOf_eq_flatMap hwf.args, List.mem_append, List.mem_flatMap, List.mem_flatMap]
  exact (List.mem_append.1 hleaf).imp (fun h => ⟨t, ht, h⟩) fun h => ⟨t, ht, h⟩

/-- The texts of terms are joined by commas: each further one stands behind a comma. -/
theorem toList_intercalate_texts (t : Term) (ts : List Term) :
    (",".intercalate (texts (t :: ts))).toList =
      t.text.toList ++ ts.flatMap fun u => ',' :: u.text.toList := by
  rw [texts_eq_map]
  induction ts generalizing t with
  | nil => simp
  | cons u ts ih =>
      have hu := ih u
      simp only [String.toList_intercalate, List.map_cons, List.intercalate] at hu ⊢
      rw [List.intersperse_cons_cons, List.flatten_cons, List.flatten_cons, hu]
      simp

/-- The text of an application: its name, a bracket, and the arguments, each further one behind a
comma. -/
theorem toList_text_app (name : String) (t : Term) (ts : List Term) :
    (app name (t :: ts)).text.toList =
      name.toList ++ '(' :: (t.text.toList ++ (ts.flatMap fun u => ',' :: u.text.toList) ++ [')']) := by
  simp only [text, String.toList_append, toList_intercalate_texts]
  simp

/-- Behind an argument stands a comma or the closing bracket. -/
theorem stops_behind_argument (ts : List Term) (rest : List Char) :
    Stops ((ts.flatMap fun u => ',' :: u.text.toList) ++ ')' :: rest) := by
  cases ts with
  | nil => exact stops_cons (by decide) rest
  | cons u ts => exact stops_cons (by decide) _

/-- Further arguments are read back, if each of them is. -/
theorem readsArguments_texts {ts : List Term}
    (h : ∀ t ∈ ts, ∀ rest : List Char, Apart t.text.toList rest →
      ReadsTerm (t.text.toList ++ rest) t rest) (rest : List Char) :
    ReadsArguments ((ts.flatMap fun u => ',' :: u.text.toList) ++ ')' :: rest) ts rest := by
  induction ts with
  | nil => exact readsArguments_nil rest
  | cons t ts ih =>
      obtain ⟨ht, hts⟩ := List.forall_mem_cons.1 h
      rw [List.flatMap_cons, List.append_assoc, List.cons_append]
      exact readsArguments_cons (ht _ ((stops_behind_argument ts rest).apart _)) (ih hts)

/-- A term is read back from its text, if the text behind it does not prolong a name. -/
theorem readsTerm_text_append {t : Term} (hwf : t.WellFormed) (ht : t.Legible) {rest : List Char}
    (hrest : Apart t.text.toList rest) : ReadsTerm (t.text.toList ++ rest) t rest := by
  induction t generalizing rest with
  | const name =>
      rcases ht name (by simp [constantLeaves]) with rfl | htext
      · exact readsTerm_hole rest
      · rcases Bool.or_eq_true_iff.1 hwf with hname | hname
        · obtain ⟨c, t, hlist, hc, hnamed, hleft⟩ :=
            exists_name_append hname htext (hrest.head_of_name hname htext)
          have hread := @readsTerm_constant t c hc
          rwa [hnamed, hleft, ← hlist] at hread
        · rw [eq_of_beq hname]
          exact readsTerm_hole rest
  | var name =>
      have htext : isNameText name = true := by
        refine (ht name (by simp [variableLeaves])).resolve_left ?_
        rintro rfl
        cases hwf
      obtain ⟨c, t, hlist, hc, hnamed, hleft⟩ :=
        exists_name_append hwf htext (hrest.head_of_name hwf htext)
      have hread := @readsTerm_variable t c hc
      rwa [hnamed, hleft, ← hlist] at hread
  | app name ts ih =>
      cases ts with
      | nil => exact absurd rfl hwf.2.1
      | cons t ts =>
          obtain ⟨c, cs, hlist, hc, halpha⟩ := exists_of_isNameWith hwf.1
          have hbracket : '(' ∉ cs := by
            intro h
            exact absurd (halpha _ (List.mem_cons_of_mem c h)) (by decide)
          have hargs : ∀ u ∈ t :: ts, ∀ rest : List Char, Apart u.text.toList rest →
              ReadsTerm (u.text.toList ++ rest) u rest := fun u hu rest hrest =>
            ih u hu (hwf.args u hu) (ht.arg hwf hu) hrest
          obtain ⟨hfirst, hothers⟩ := List.forall_mem_cons.1 hargs
          have hname : String.ofList (c :: cs) = name := by rw [← hlist, String.ofList_toList]
          have hread := readsTerm_function hc (hname ▸ hwf.1) hbracket
            (hfirst _ ((stops_behind_argument ts rest).apart _)) (readsArguments_texts hothers rest)
          rw [hname] at hread
          rw [toList_text_app, hlist]
          simpa only [List.cons_append, List.append_assoc, List.nil_append] using hread
  | missing => exact hwf.elim

/-- A term is read back from its text. -/
theorem parse_text {t : Term} (hwf : t.WellFormed) (ht : t.Legible) : Term.parse t.text = .ok t := by
  have hread : ReadsTerm (t.text.toList ++ []) t [] := readsTerm_text_append hwf ht (stops_nil.apart _)
  rw [List.append_nil] at hread
  obtain ⟨hlt, hread⟩ := hread
  rw [parse, hread]
  rfl

end Term

end FormalLogic.Predicate
