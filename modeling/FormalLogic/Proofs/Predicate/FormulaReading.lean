import FormalLogic.Proofs.Predicate.Reading

/-!
# Reading formulas inverts writing them

The first character of a formula's text tells what kind of formula it is, and the reader goes by it. The
signs between the parts are skipped without a look, so the induction has to show that they are what is
skipped: behind each part stands a character that prolongs no name, and the part is read up to it
(`Formula.reads_text_append`). As with terms, relations have to be named with letters and digits only
(`Formula.Legible`), because their names are cut at the first other character; a quantified variable is read
up to its bracket, so that its name may be any.
-/

namespace FormalLogic.Predicate

variable {s t u rest : List Char} {c : Char}

/-! ## The cases of the reader -/

/-- Arguments of a relation are read off the front of a text up to the closing bracket, and the given text is
left behind it. -/
def ReadsRelationArguments (s : List Char) (ts : List Term) (rest : List Char) : Prop :=
  ∃ hlt, readRelationArguments s = .ok ⟨ts, rest, hlt⟩

/-- A formula is read off the front of a text, and the given text is left. -/
def Reads (s : List Char) (f : Formula) (rest : List Char) : Prop :=
  ∃ hlt, read s = .ok ⟨f, rest, hlt⟩

/-- A text is read in one way. -/
theorem Reads.unique {f g : Formula} {rest' : List Char} (h : Reads s f rest) (h' : Reads s g rest') :
    f = g ∧ rest = rest' := by
  obtain ⟨hlt, h⟩ := h
  obtain ⟨hlt', h'⟩ := h'
  rw [h, Except.ok.injEq, ReadOff.mk.injEq] at h'
  exact h'

/-- The first characters of terms. -/
def startsTerm (c : Char) : Bool :=
  c = '_' || startsConstant c || startsFunction c || startsVariable c

theorem readsRelationArguments_last {first : Term} (h : ReadsTerm s first (')' :: rest)) :
    ReadsRelationArguments s [first] rest := by
  obtain ⟨hlt, h⟩ := h
  refine ⟨by simp only [List.length_cons] at hlt; omega, ?_⟩
  rw [readRelationArguments, h]
  simp

/-- Behind a comma stand further arguments. -/
theorem readsRelationArguments_cons {first : Term} {others : List Term}
    (h : ReadsTerm s first (',' :: t)) (h' : ReadsRelationArguments t others rest) :
    ReadsRelationArguments s (first :: others) rest := by
  obtain ⟨hlt, h⟩ := h
  obtain ⟨hlt', h'⟩ := h'
  refine ⟨by simp only [List.length_cons] at hlt; omega, ?_⟩
  rw [readRelationArguments, h]
  simp [h']

/-- Two terms with a sign between them make up an equality. -/
theorem reads_equality {l r : Term} (hc : startsTerm c = true) (hl : ReadsTerm (c :: t) l ('=' :: u))
    (hr : ReadsTerm u r rest) : Reads (c :: t) (.equal l r) rest := by
  obtain ⟨hlt, hl⟩ := hl
  obtain ⟨hlt', hr⟩ := hr
  have hc : (c = '_' || startsConstant c || startsFunction c || startsVariable c) = true := hc
  refine ⟨by simp only [List.length_cons] at hlt ⊢; omega, ?_⟩
  rw [read, if_pos hc, readEquality, hl]
  dsimp only
  split
  · rename_i e heq
    cases hr.symm.trans heq
  · rename_i r' rest' hlt'' heq
    have hread : ReadsTerm u r' rest' := ⟨hlt'', heq⟩
    obtain ⟨rfl, rfl⟩ := hread.unique ⟨hlt', hr⟩
    rfl

/-- Capital letters follow digits and precede small letters, so no relation begins like a term. -/
theorem startsTerm_eq_false (hc : startsRelation c = true) : startsTerm c = false := by
  simp only [startsRelation, Bool.and_eq_true, decide_eq_true_eq] at hc
  have hdigit : '9' < c := lt_of_lt_of_le (by decide) hc.1
  have hhole : c < '_' := lt_of_le_of_lt hc.2 (by decide)
  have hconstant : c < 'a' := hhole.trans (by decide)
  have hfunction : c < 'f' := hconstant.trans (by decide)
  have hvariable : c < 'u' := hconstant.trans (by decide)
  simp [startsTerm, startsConstant, startsFunction, startsVariable, hhole.ne, hdigit, hconstant, hfunction,
    hvariable]

/-- Behind the name of a relation and a bracket stands the closing bracket, or else the arguments. -/
theorem reads_relation {cs : List Char} {ts : List Term} (hc : startsRelation c = true)
    (hcs : ∀ d ∈ cs, Text.isNameChar d = true)
    (h : s = ')' :: rest ∧ ts = [] ∨ s.head? ≠ some ')' ∧ ReadsRelationArguments s ts rest) :
    Reads (c :: (cs ++ '(' :: s)) (.rel (String.ofList (c :: cs)) ts) rest := by
  have hterm := startsTerm_eq_false hc
  have htake : (cs ++ '(' :: s).takeWhile Text.isNameChar = cs := by
    rw [List.takeWhile_append_of_pos hcs, List.takeWhile_cons_of_neg (by decide), List.append_nil]
  have hdrop : (cs ++ '(' :: s).dropWhile Text.isNameChar = '(' :: s := by
    rw [List.dropWhile_append_of_pos hcs, List.dropWhile_cons_of_neg (by decide)]
  have hlt : rest.length < (c :: (cs ++ '(' :: s)).length := by
    simp only [List.length_cons, List.length_append]
    rcases h with ⟨rfl, -⟩ | ⟨-, hlt, -⟩
    · simp only [List.length_cons]
      omega
    · omega
  refine ⟨hlt, ?_⟩
  rw [startsTerm, ← Bool.not_eq_true] at hterm
  rw [read, if_neg hterm, if_pos hc, readRelation]
  split
  · rename_i hnil
    cases hdrop.symm.trans hnil
  · rename_i d body hcons
    obtain ⟨rfl, rfl⟩ := List.cons.inj (hdrop.symm.trans hcons)
    rcases h with ⟨rfl, rfl⟩ | ⟨hhead, hlt', h⟩
    · simp [htake]
    · cases s with
      | nil => simp at hlt'
      | cons e s =>
        have he : e ≠ ')' := by simpa using hhead
        simp [htake, he, h]

/-- The signs of negation, brackets and quantifiers begin neither a term nor a relation. -/
theorem starts_of_sign (hc : c ∈ ['~', '(', 'A', 'E']) :
    ¬ startsTerm c = true ∧ ¬ startsRelation c = true := by
  simp only [List.mem_cons, List.not_mem_nil, or_false] at hc
  rcases hc with rfl | rfl | rfl | rfl <;> decide

theorem reads_neg {f : Formula} (h : Reads s f rest) : Reads ('~' :: s) (.neg f) rest := by
  obtain ⟨hlt, h⟩ := h
  obtain ⟨hterm, hrelation⟩ := @starts_of_sign '~' (by decide)
  refine ⟨by simp only [List.length_cons]; omega, ?_⟩
  rw [startsTerm] at hterm
  rw [read, if_neg hterm, if_neg hrelation, if_pos rfl, h]

/-- A connective is read off, and the text behind its sign is left. -/
theorem readConnective_symbol_append (op : Connective) (t : List Char) :
    readConnective (op.symbol.toList ++ t) = .ok (op, t) := by
  cases op <;> rfl

/-- Behind a bracket stand an operand, a connective, an operand and the closing bracket. -/
theorem reads_bin {op : Connective} {l r : Formula} (hl : Reads s l (op.symbol.toList ++ t))
    (hr : Reads t r (')' :: rest)) : Reads ('(' :: s) (.bin op l r) rest := by
  obtain ⟨hlt, hl⟩ := hl
  obtain ⟨hlt', hr⟩ := hr
  obtain ⟨hterm, hrelation⟩ := @starts_of_sign '(' (by decide)
  have hop := readConnective_symbol_append op t
  have hlt'' := length_readConnective hop
  refine ⟨by simp only [List.length_cons] at hlt' ⊢; omega, ?_⟩
  rw [startsTerm] at hterm
  rw [read, if_neg hterm, if_neg hrelation, if_neg (by decide), if_pos rfl, hl]
  dsimp only
  split
  · rename_i heq
    cases hop.symm.trans heq
  · rename_i op' t' heq
    obtain ⟨rfl, rfl⟩ := Prod.mk.inj (Except.ok.inj (hop.symm.trans heq))
    rw [hr]
    rfl

theorem Quantifier.exists_symbol (q : Quantifier) : ∃ c ∈ ['A', 'E'], q.symbol.toList = [c] ∧
    ofSymbol? (String.ofList [c]) = some q := by
  cases q with
  | universal => exact ⟨'A', by decide, rfl, rfl⟩
  | existential => exact ⟨'E', by decide, rfl, rfl⟩

/-- Behind a quantifier stand its variable and, in brackets, the formula in its scope. -/
theorem reads_quant {q : Quantifier} {x : String} {f : Formula} (hx : isVariable x = true)
    (h : Reads s f (']' :: rest)) :
    Reads (q.symbol.toList ++ (x.toList ++ '[' :: s)) (.quant q x f) rest := by
  obtain ⟨hlt, h⟩ := h
  obtain ⟨c, hc, hsymbol, hq⟩ := q.exists_symbol
  have hsign : c ∈ ['~', '(', 'A', 'E'] := List.mem_append_right ['~', '('] hc
  obtain ⟨hterm, hrelation⟩ := starts_of_sign hsign
  have hnegation : c ≠ '~' := ne_of_mem_of_not_mem hc (by decide)
  have hbinary : c ≠ '(' := ne_of_mem_of_not_mem hc (by decide)
  have hbracket : '[' ∉ x.toList := by
    obtain ⟨c, cs, hlist, -, halpha⟩ := exists_of_isNameWith hx
    intro hmem
    exact absurd (halpha _ (hlist ▸ hmem)) (by decide)
  have hbehind : behindQuantified (x.toList ++ '[' :: s) = (x, s) := by
    rw [behindQuantified, splitAtFirst_append hbracket]
    simp
  have hname : checkName isVariable x = .ok true := checkName_eq_ok rfl hx
  have hshort : rest.length < (c :: (x.toList ++ '[' :: s)).length := by
    simp only [List.length_append, List.length_cons] at hlt ⊢
    omega
  rw [hsymbol]
  refine ⟨hshort, ?_⟩
  rw [startsTerm] at hterm
  change read (c :: (x.toList ++ '[' :: s)) = _
  rw [read, if_neg hterm, if_neg hrelation, if_neg hnegation, if_neg hbinary, hq]
  dsimp only
  split
  · rename_i heq
    rw [hbehind, h] at heq
    cases heq
  · rename_i f' rest' hlt' heq
    have hread : Reads (behindQuantified (x.toList ++ '[' :: s)).2 f' rest' := ⟨hlt', heq⟩
    rw [hbehind] at hread
    obtain ⟨rfl, rfl⟩ := hread.unique ⟨hlt, h⟩
    simp only [hbehind, hname]
    rfl

/-! ## Texts of formulas -/

/-- A term is written with a character in front that begins a term. -/
theorem Term.exists_toList_text {t : Term} (ht : t.WellFormed) :
    ∃ c s, t.text.toList = c :: s ∧ startsTerm c = true := by
  cases t with
  | const name =>
      rcases Bool.or_eq_true_iff.1 ht with hname | hname
      · obtain ⟨c, cs, hlist, hc, -⟩ := exists_of_isNameWith hname
        exact ⟨c, cs, hlist, by simp [startsTerm, hc]⟩
      · rw [eq_of_beq hname]
        exact ⟨'_', [], rfl, rfl⟩
  | var name =>
      obtain ⟨c, cs, hlist, hc, -⟩ := exists_of_isNameWith ht
      exact ⟨c, cs, hlist, by simp [startsTerm, hc]⟩
  | app name ts =>
      obtain ⟨c, cs, hlist, hc, -⟩ := exists_of_isNameWith ht.1
      exact ⟨c, cs ++ "(".toList ++ (",".intercalate (Term.texts ts)).toList ++ ")".toList,
        by simp [Term.text, hlist], by simp [startsTerm, hc]⟩
  | missing => exact ht.elim

namespace Formula

section Texts

variable (l r : Term) (f g : Formula)

theorem toList_text_equal :
    (equal l r).text.toList = l.text.toList ++ '=' :: r.text.toList := by
  simp [text]

theorem toList_text_rel (name : String) (ts : List Term) :
    (rel name ts).text.toList = name.toList ++ '(' :: ((",".intercalate (Term.texts ts)).toList ++ [')']) := by
  simp [text]

theorem toList_text_neg : (neg f).text.toList = '~' :: f.text.toList := by
  simp [text]

theorem toList_text_bin (op : Connective) :
    (bin op f g).text.toList = '(' :: (f.text.toList ++ (op.symbol.toList ++ (g.text.toList ++ [')']))) := by
  simp [text]

theorem toList_text_quant (q : Quantifier) (x : String) :
    (quant q x f).text.toList = q.symbol.toList ++ (x.toList ++ '[' :: (f.text.toList ++ [']'])) := by
  simp [text]

end Texts

theorem text_ne_nil {f : Formula} (hf : f.WellFormed) : f.text.toList ≠ [] := by
  cases f with
  | equal l r => simp [toList_text_equal]
  | rel name ts => simp [toList_text_rel]
  | neg f => simp [toList_text_neg]
  | bin op f g => simp [toList_text_bin]
  | quant q x f => simp [toList_text_quant]
  | bare t => exact hf.elim

/-! ## Formulas are read back -/

/-- Terms and relations are named with letters and digits only. -/
def Legible (f : Formula) : Prop :=
  (∀ t ∈ f.terms, t.Legible) ∧ ∀ e ∈ f.relationNodes, isNameText e.1 = true

instance : DecidablePred Legible := fun f =>
  inferInstanceAs (Decidable ((∀ t ∈ f.terms, t.Legible) ∧ ∀ e ∈ f.relationNodes, isNameText e.1 = true))

theorem Legible.bin {op : Connective} {f g : Formula} (h : (bin op f g).Legible) : f.Legible ∧ g.Legible := by
  simp only [Legible, terms, relationNodes, List.forall_mem_append] at h
  exact ⟨⟨h.1.1, h.2.1⟩, ⟨h.1.2, h.2.2⟩⟩

/-- The arguments of a relation are read back. -/
theorem readsRelationArguments_texts {t : Term} {ts : List Term} (hwf : ∀ u ∈ t :: ts, u.WellFormed)
    (hlegible : ∀ u ∈ t :: ts, u.Legible) (rest : List Char) :
    ReadsRelationArguments ((",".intercalate (Term.texts (t :: ts))).toList ++ ')' :: rest) (t :: ts) rest := by
  induction ts generalizing t with
  | nil =>
      rw [Term.toList_intercalate_texts, List.flatMap_nil, List.append_nil]
      exact readsRelationArguments_last (Term.readsTerm_text_append (hwf t List.mem_cons_self)
        (hlegible t List.mem_cons_self) ((Term.stops_behind_argument [] rest).apart _))
  | cons u ts ih =>
      obtain ⟨ht, hwf⟩ := List.forall_mem_cons.1 hwf
      obtain ⟨ht', hlegible⟩ := List.forall_mem_cons.1 hlegible
      have hothers := ih hwf hlegible
      rw [Term.toList_intercalate_texts] at hothers ⊢
      rw [List.append_assoc]
      refine readsRelationArguments_cons (Term.readsTerm_text_append ht ht' ?_) hothers
      exact (Term.stops_behind_argument (u :: ts) rest).apart _

/-- Behind the bracket of a relation stands the closing bracket, if there are no arguments, and else they are
read back. -/
theorem reads_behind_bracket {ts : List Term} (hwf : ∀ u ∈ ts, u.WellFormed) (hlegible : ∀ u ∈ ts, u.Legible)
    (rest : List Char) :
    let s := (",".intercalate (Term.texts ts)).toList ++ ')' :: rest
    s = ')' :: rest ∧ ts = [] ∨ s.head? ≠ some ')' ∧ ReadsRelationArguments s ts rest := by
  intro s
  cases ts with
  | nil => exact .inl ⟨rfl, rfl⟩
  | cons t ts =>
      refine .inr ⟨?_, readsRelationArguments_texts hwf hlegible rest⟩
      obtain ⟨c, cs, hlist, hc⟩ := Term.exists_toList_text (hwf t List.mem_cons_self)
      have hhead : s.head? = some c := by
        simp only [s, Term.toList_intercalate_texts, hlist]
        rfl
      rw [hhead]
      rintro ⟨⟩
      exact absurd hc (by decide)

theorem stops_symbol (op : Connective) (t : List Char) : Stops (op.symbol.toList ++ t) := by
  cases op with
  | and => exact stops_cons (by decide) t
  | or => exact stops_cons (by decide) t
  | implies => exact stops_cons (by decide) _

/-- A formula is read back from its text, if the text behind it does not prolong a name. -/
theorem reads_text_append {f : Formula} (hwf : f.WellFormed) (hf : f.Legible) {rest : List Char}
    (hrest : Apart f.text.toList rest) : Reads (f.text.toList ++ rest) f rest := by
  induction f generalizing rest with
  | equal l r =>
      have hl : Apart l.text.toList ('=' :: (r.text.toList ++ rest)) := (stops_cons (by decide) _).apart _
      have hr : Apart r.text.toList rest := by
        obtain ⟨c, s, hlist, -⟩ := Term.exists_toList_text hwf.2
        rw [toList_text_equal, ← List.singleton_append, ← List.append_assoc] at hrest
        exact hrest.of_append (by simp [hlist])
      obtain ⟨c, s, hlist, hc⟩ := Term.exists_toList_text hwf.1
      have hreadl := Term.readsTerm_text_append hwf.1 (hf.1 l (by simp [terms])) hl
      have hreadr := Term.readsTerm_text_append hwf.2 (hf.1 r (by simp [terms])) hr
      rw [toList_text_equal, List.append_assoc, List.cons_append]
      rw [hlist, List.cons_append] at hreadl ⊢
      exact reads_equality hc hreadl hreadr
  | rel name ts =>
      obtain ⟨c, cs, hlist, hc, -⟩ := exists_of_isNameWith hwf.1
      have hname : String.ofList (c :: cs) = name := by rw [← hlist, String.ofList_toList]
      have htext : isNameText name = true := hf.2 (name, ts.length) (by simp [relationNodes])
      rw [isNameText, hlist, List.all_cons, Bool.and_eq_true, List.all_eq_true] at htext
      have hread := reads_relation hc htext.2 (reads_behind_bracket hwf.2 hf.1 rest)
      rw [hname] at hread
      rw [toList_text_rel, hlist]
      simpa using hread
  | neg f ih =>
      rw [toList_text_neg] at hrest ⊢
      rw [← List.singleton_append] at hrest
      exact reads_neg (ih hwf hf (hrest.of_append (text_ne_nil hwf)))
  | bin op l r ihl ihr =>
      obtain ⟨hl, hr⟩ := hf.bin
      have hreadl := ihl hwf.1 hl ((stops_symbol op (r.text.toList ++ ')' :: rest)).apart _)
      have hreadr := ihr hwf.2 hr ((@stops_cons ')' (by decide) rest).apart _)
      rw [toList_text_bin]
      simpa using reads_bin hreadl hreadr
  | quant q x f ih =>
      have hread := ih hwf.2 hf ((@stops_cons ']' (by decide) rest).apart _)
      rw [toList_text_quant]
      simpa using @reads_quant _ _ q x f hwf.1 hread
  | bare t => exact hwf.elim

end Formula

/-! ## Whole texts -/

/-- A term is read back from the front of a text, and exactly what stands behind it is left. -/
theorem Term.readText_text_append {t : Term} (hwf : t.WellFormed) (ht : t.Legible) {rest : String}
    (hrest : Apart t.text.toList rest.toList) : Term.readText (t.text ++ rest) = .ok (t, rest) := by
  have hread := readsTerm_text_append hwf ht hrest
  rw [← String.toList_append] at hread
  obtain ⟨hlt, hread⟩ := hread
  rw [Term.readText, hread, ok_bind]
  simp

/-- A formula is read back from the front of a text, and exactly what stands behind it is left. -/
theorem Formula.readText_text_append {f : Formula} (hwf : f.WellFormed) (hf : f.Legible) {rest : String}
    (hrest : Apart f.text.toList rest.toList) : Formula.readText (f.text ++ rest) = .ok (f, rest) := by
  have hread := reads_text_append hwf hf hrest
  rw [← String.toList_append] at hread
  obtain ⟨hlt, hread⟩ := hread
  rw [Formula.readText, hread, ok_bind]
  simp

/-- A formula is read back from its text. -/
theorem Formula.parse_text {f : Formula} (hwf : f.WellFormed) (hf : f.Legible) :
    Formula.parse f.text = .ok f := by
  have hread : Reads (f.text.toList ++ []) f [] := reads_text_append hwf hf (stops_nil.apart _)
  rw [List.append_nil] at hread
  obtain ⟨hlt, hread⟩ := hread
  rw [parse, hread]
  rfl

end FormalLogic.Predicate
