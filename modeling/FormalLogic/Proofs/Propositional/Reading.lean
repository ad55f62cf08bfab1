import FormalLogic.Propositional.Reading
import FormalLogic.Proofs.Outcome
import Mathlib.Data.List.TakeWhile

/-!
# Reading inverts writing

The reader takes off the front of a text the longest formula that is written there. The two directions
are inductions over the formula: what is read was written (`Reads.eq_text_append`), and what is written
is read back, as long as the text behind it does not prolong a variable at its end (`reads_text_append`).
Digits that do prolong it belong to the variable (`Formula.extendName`), which is why the formula that is
read is the longest one.
-/

namespace FormalLogic.Propositional

variable {d : Dialect} {s t rest : List Char} {f g : Formula}

/-! ## Taking off the front -/

/-- What follows a text within another is what has to be appended to get the other. -/
theorem after?_eq_some {w s rest : List Char} : after? w s = some rest ↔ s = w ++ rest := by
  induction w generalizing s with
  | nil => simp [after?]
  | cons c cs ih =>
      cases s with
      | nil => simp [after?]
      | cons e es =>
          by_cases hc : c = e
          · simp [after?, hc, ih]
          · simp [after?, hc, Ne.symm hc]

/-- No connective is written as the beginning of another. -/
theorem Connective.eq_of_symbol_append {op op' : Connective} {t t' : List Char}
    (h : op.symbol.toList ++ t = op'.symbol.toList ++ t') : op = op' ∧ t = t' := by
  cases op <;> cases op' <;> simp_all [Connective.symbol]

/-- Reading a connective takes off exactly its symbol. -/
theorem readConnective_eq_some {d : Dialect} {s rest : List Char} {op : Connective}
    {hlt : rest.length < s.length} :
    readConnective d s = some ⟨op, rest, hlt⟩ ↔ op ∈ d ∧ s = op.symbol.toList ++ rest := by
  induction d with
  | nil => simp [readConnective]
  | cons o os ih =>
      unfold readConnective
      split
      · rename_i r hr
        have hs := after?_eq_some.1 hr
        simp only [Option.some.injEq, ReadOff.mk.injEq]
        constructor
        · rintro ⟨rfl, rfl⟩
          exact ⟨List.mem_cons_self, hs⟩
        · rintro ⟨-, hs'⟩
          exact Connective.eq_of_symbol_append (hs.symm.trans hs')
      · rename_i hnone
        rw [ih]
        constructor
        · rintro ⟨hop, hs⟩
          exact ⟨List.mem_cons_of_mem o hop, hs⟩
        · rintro ⟨hop, hs⟩
          rcases List.mem_cons.1 hop with rfl | hop
          · rw [after?_eq_some.2 hs] at hnone
            exact absurd hnone (by simp)
          · exact ⟨hop, hs⟩

/-- A formula is read off the front of a text, and the given text is left. -/
def Reads (d : Dialect) (s : List Char) (f : Formula) (rest : List Char) : Prop :=
  ∃ hlt, read d s = .ok ⟨f, rest, hlt⟩

/-- A text is read in one way. -/
theorem Reads.unique {rest' : List Char} (h : Reads d s f rest) (h' : Reads d s g rest') :
    f = g ∧ rest = rest' := by
  obtain ⟨hlt, h⟩ := h
  obtain ⟨hlt', h'⟩ := h'
  rw [h] at h'
  simp only [Except.ok.injEq, ReadOff.mk.injEq] at h'
  exact h'

/-! ## The cases of the reader -/

theorem not_reads_nil : ¬ Reads d [] f rest := by
  rintro ⟨hlt, -⟩
  simp at hlt

/-- Behind a negation stands its operand. -/
theorem reads_neg : Reads d ('~' :: s) f rest ↔ ∃ g, f = .neg g ∧ Reads d s g rest := by
  cases s with
  | nil =>
      constructor
      · rintro ⟨hlt, h⟩
        simp [read] at h
      · rintro ⟨g, -, h⟩
        exact absurd h not_reads_nil
  | cons c t =>
      constructor
      · rintro ⟨hlt, h⟩
        rw [read] at h
        split at h
        · simp at h
        · rename_i g r hlt' hr
          simp only [Except.ok.injEq, ReadOff.mk.injEq] at h
          obtain ⟨rfl, rfl⟩ := h
          exact ⟨g, rfl, hlt', hr⟩
      · rintro ⟨g, rfl, hlt, h⟩
        refine ⟨by simp only [List.length_cons] at hlt ⊢; omega, ?_⟩
        rw [read, h]

/-- Behind a parenthesis stand an operand, a connective, an operand and the closing parenthesis. -/
theorem reads_paren :
    Reads d ('(' :: s) f rest ↔ ∃ op l r t, f = .bin op l r ∧ op ∈ d ∧
      Reads d s l (op.symbol.toList ++ t) ∧ Reads d t r (')' :: rest) := by
  constructor
  · rintro ⟨hlt, h⟩
    rw [read] at h
    split at h
    · simp at h
    · rename_i l t₁ h₁ hl
      split at h
      · simp at h
      · rename_i op t₂ h₂ hop
        split at h
        · simp at h
        · rename_i r t₃ h₃ hr
          split at h
          · simp at h
          · rename_i t₄ h₄ hclose
            simp only [Except.ok.injEq, ReadOff.mk.injEq] at h
            obtain ⟨rfl, rfl⟩ := h
            obtain ⟨hmem, rfl⟩ := readConnective_eq_some.1 hop
            have ht₃ : t₃ = ')' :: t₄ := by
              unfold readClose at hclose
              split at hclose
              · simp only [Option.some.injEq, ReadOff.mk.injEq] at hclose
                rw [hclose.2]
              · simp at hclose
            subst ht₃
            exact ⟨op, l, r, t₂, rfl, hmem, ⟨h₁, hl⟩, ⟨h₃, hr⟩⟩
  · rintro ⟨op, l, r, t, rfl, hmem, ⟨h₁, hl⟩, ⟨h₂, hr⟩⟩
    have hpos := op.symbol_length_pos
    have hlt : t.length < (op.symbol.toList ++ t).length := by
      simp only [List.length_append]
      omega
    have hop : readConnective d (op.symbol.toList ++ t) = some ⟨op, t, hlt⟩ :=
      readConnective_eq_some.2 ⟨hmem, rfl⟩
    refine ⟨by simp only [List.length_cons] at h₂ ⊢; omega, ?_⟩
    rw [read, hl]
    simp only [hop, hr, readClose]

/-- Any other character opens an atom. -/
theorem read_eq_readAtom {c : Char} (hneg : c ≠ '~') (hparen : c ≠ '(') :
    read d (c :: t) = readAtom d c t := by
  rw [read]
  · intro h _
    exact hneg h
  · intro _ _ h _
    exact hneg h
  · exact hparen

/-- The characters that connectives begin with. -/
def connectiveStarts : List Char :=
  ['&', '|', '-', '+', '<']

theorem Connective.symbol_eq_cons (op : Connective) :
    ∃ c t, op.symbol.toList = c :: t ∧ c ∈ connectiveStarts := by
  cases op <;> exact ⟨_, _, rfl, by decide⟩

/-- A connective begins with a character that no atom contains. -/
theorem of_mem_connectiveStarts {c : Char} (hc : c ∈ connectiveStarts) :
    ¬ ('p' ≤ c ∧ c ≤ 'z') ∧ Text.isDigit c = false := by
  simp only [connectiveStarts, List.mem_cons, List.not_mem_nil, or_false] at hc
  rcases hc with rfl | rfl | rfl | rfl | rfl <;> decide

theorem after?_symbol_eq_none {c : Char} (hc : c ∉ connectiveStarts) (op : Connective) :
    after? op.symbol.toList (c :: t) = none := by
  refine Option.eq_none_iff_forall_ne_some.2 fun rest h => hc ?_
  obtain ⟨c', t', hsym, hstart⟩ := op.symbol_eq_cons
  rw [after?_eq_some, hsym, List.cons_append, List.cons.injEq] at h
  exact h.1 ▸ hstart

theorem startsWithShortConnective_eq_false {c : Char} (hc : c ∉ connectiveStarts) :
    startsWithShortConnective d (c :: t) = false := by
  rw [startsWithShortConnective, List.any_eq_false]
  intro op _
  simp [after?_symbol_eq_none hc op]

/-- A letter from `p` to `z` and the digits behind it are a variable. -/
theorem reads_variable {c : Char} (hc : 'p' ≤ c ∧ c ≤ 'z') :
    Reads d (c :: t) f rest ↔ f = .var (String.ofList (c :: t.takeWhile Text.isDigit)) ∧
      rest = t.dropWhile Text.isDigit := by
  have hneg : c ≠ '~' := by
    rintro rfl
    exact absurd hc (by decide)
  have hparen : c ≠ '(' := by
    rintro rfl
    exact absurd hc (by decide)
  rw [Reads, read_eq_readAtom hneg hparen, readAtom,
    startsWithShortConnective_eq_false fun h => (of_mem_connectiveStarts h).1 hc,
    if_neg Bool.false_ne_true, if_pos hc]
  simp only [Except.ok.injEq, ReadOff.mk.injEq]
  constructor
  · rintro ⟨-, rfl, rfl⟩
    exact ⟨rfl, rfl⟩
  · rintro ⟨rfl, rfl⟩
    have hle := (List.dropWhile_sublist Text.isDigit (l := t)).length_le
    exact ⟨by simp only [List.length_cons]; omega, rfl, rfl⟩

/-- The truth constants are one character each. -/
theorem reads_constant (value : Bool) :
    Reads d ((Formula.constText value).toList ++ t) f rest ↔ f = .const value ∧ rest = t := by
  cases value with
  | true =>
      show Reads d ('T' :: t) f rest ↔ _
      rw [Reads, read_eq_readAtom (by decide) (by decide), readAtom,
        startsWithShortConnective_eq_false (by decide), if_neg Bool.false_ne_true,
        if_neg (by decide), if_pos rfl]
      simp only [Except.ok.injEq, ReadOff.mk.injEq]
      exact ⟨fun ⟨_, hf, hr⟩ => ⟨hf.symm, hr.symm⟩,
        fun ⟨hf, hr⟩ => ⟨by simp [hr], hf.symm, hr.symm⟩⟩
  | false =>
      show Reads d ('F' :: t) f rest ↔ _
      rw [Reads, read_eq_readAtom (by decide) (by decide), readAtom,
        startsWithShortConnective_eq_false (by decide), if_neg Bool.false_ne_true,
        if_neg (by decide), if_neg (by decide), if_pos rfl]
      simp only [Except.ok.injEq, ReadOff.mk.injEq]
      exact ⟨fun ⟨_, hf, hr⟩ => ⟨hf.symm, hr.symm⟩,
        fun ⟨hf, hr⟩ => ⟨by simp [hr], hf.symm, hr.symm⟩⟩

/-- No other character opens a formula. -/
theorem not_reads_of_ne {c : Char} (hneg : c ≠ '~') (hparen : c ≠ '(')
    (hletter : ¬ ('p' ≤ c ∧ c ≤ 'z')) (hT : c ≠ 'T') (hF : c ≠ 'F') :
    ¬ Reads d (c :: t) f rest := by
  rintro ⟨hlt, h⟩
  rw [read_eq_readAtom hneg hparen, readAtom, if_neg hletter, if_neg hT, if_neg hF] at h
  split at h
  · simp at h
  · split at h <;> simp at h

/-! ## What is read was written -/

theorem isVariable_ofList_cons {c : Char} {ds : List Char} :
    isVariable (String.ofList (c :: ds)) = true ↔
      ('p' ≤ c ∧ c ≤ 'z') ∧ ds.all Text.isDigit = true := by
  simp [isVariable]

/-- What can be read off the front of a text: a negation, a binary application, a variable or a truth
constant. -/
theorem Reads.inversion (h : Reads d s f rest) :
    (∃ g t, s = '~' :: t ∧ f = .neg g ∧ Reads d t g rest) ∨
    (∃ op l r t t', s = '(' :: t ∧ f = .bin op l r ∧ op ∈ d ∧
      Reads d t l (op.symbol.toList ++ t') ∧ Reads d t' r (')' :: rest)) ∨
    (∃ c t, s = c :: t ∧ ('p' ≤ c ∧ c ≤ 'z') ∧
      f = .var (String.ofList (c :: t.takeWhile Text.isDigit)) ∧ rest = t.dropWhile Text.isDigit) ∨
    ∃ value, s = (Formula.constText value).toList ++ rest ∧ f = .const value := by
  cases s with
  | nil => exact absurd h not_reads_nil
  | cons c t =>
      by_cases hneg : c = '~'
      · subst hneg
        obtain ⟨g, rfl, hg⟩ := reads_neg.1 h
        exact .inl ⟨g, t, rfl, rfl, hg⟩
      by_cases hparen : c = '('
      · subst hparen
        obtain ⟨op, l, r, t', rfl, hop, hl, hr⟩ := reads_paren.1 h
        exact .inr (.inl ⟨op, l, r, t, t', rfl, rfl, hop, hl, hr⟩)
      by_cases hletter : 'p' ≤ c ∧ c ≤ 'z'
      · obtain ⟨rfl, rfl⟩ := (reads_variable hletter).1 h
        exact .inr (.inr (.inl ⟨c, t, rfl, hletter, rfl, rfl⟩))
      by_cases hT : c = 'T'
      · subst hT
        obtain ⟨rfl, rfl⟩ := (reads_constant true).1 h
        exact .inr (.inr (.inr ⟨true, rfl, rfl⟩))
      by_cases hF : c = 'F'
      · subst hF
        obtain ⟨rfl, rfl⟩ := (reads_constant false).1 h
        exact .inr (.inr (.inr ⟨false, rfl, rfl⟩))
      · exact absurd h (not_reads_of_ne hneg hparen hletter hT hF)

/-- The formula that is read is well formed, and its text stands in front of the rest. -/
theorem Reads.eq_text_append (h : Reads d s f rest) :
    f.WellFormed d ∧ s = f.text.toList ++ rest := by
  -- by induction on the length of the text: both operands of an application are read off shorter ones
  induction hn : s.length using Nat.strongRecOn generalizing s f rest with
  | _ n ih =>
      subst hn
      rcases h.inversion with ⟨g, t, rfl, rfl, hg⟩ | ⟨op, l, r, t, t', rfl, rfl, hop, hl, hr⟩ |
        ⟨c, t, rfl, hc, rfl, rfl⟩ | ⟨value, rfl, rfl⟩
      · obtain ⟨hwf, rfl⟩ := ih t.length (by simp) hg rfl
        exact ⟨hwf, by simp [Formula.text]⟩
      · have hlt : t'.length < t.length := by
          have := hl.1
          simp only [List.length_append] at this
          omega
        obtain ⟨hwfl, rfl⟩ := ih t.length (by simp) hl rfl
        obtain ⟨hwfr, rfl⟩ := ih t'.length (by simp only [List.length_cons]; omega) hr rfl
        exact ⟨⟨hop, hwfl, hwfr⟩, by simp [Formula.text]⟩
      · refine ⟨isVariable_ofList_cons.2 ⟨hc, List.all_takeWhile⟩, ?_⟩
        simp [Formula.text, List.takeWhile_append_dropWhile]
      · exact ⟨trivial, by simp [Formula.text]⟩

/-! ## What is written is read back -/

/-- The text of a formula ends in a variable, which more digits would prolong. -/
def Formula.endsInName : Formula → Bool
  | .var _ => true
  | .neg f => f.endsInName
  | _ => false

theorem Formula.text_ne_nil (hf : f.WellFormed d) : f.text.toList ≠ [] := by
  cases f with
  | var x =>
      intro h
      simp only [Formula.text] at h
      simp [Formula.WellFormed, isVariable, h] at hf
  | const b => cases b <;> simp [Formula.text, Formula.constText]
  | neg g => simp [Formula.text]
  | bin op l r => simp [Formula.text]
  | missing => exact hf.elim

theorem takeWhile_isDigit_symbol_append (op : Connective) (t : List Char) :
    (op.symbol.toList ++ t).takeWhile Text.isDigit = [] := by
  obtain ⟨c, t', hsym, hstart⟩ := op.symbol_eq_cons
  rw [hsym, List.cons_append, List.takeWhile_cons, (of_mem_connectiveStarts hstart).2]
  rfl

/-- The text of a well-formed formula is read back from in front of any text, unless that text begins
with digits that prolong a variable at the formula's end. -/
theorem reads_text_append (hf : f.WellFormed d)
    (hrest : f.endsInName = true → rest.takeWhile Text.isDigit = []) :
    Reads d (f.text.toList ++ rest) f rest := by
  induction f generalizing rest with
  | var x =>
      obtain ⟨c, ds, hx⟩ := List.exists_cons_of_ne_nil (Formula.text_ne_nil hf)
      have hname : x = String.ofList (c :: ds) := by
        rw [← hx]
        exact String.ofList_toList.symm
      subst hname
      obtain ⟨hc, hds⟩ := isVariable_ofList_cons.1 hf
      have hrest := hrest rfl
      rw [hx, List.cons_append, reads_variable hc,
        List.takeWhile_append_of_pos (List.all_eq_true.1 hds), hrest, List.append_nil,
        List.dropWhile_append_of_pos (List.all_eq_true.1 hds)]
      refine ⟨rfl, ?_⟩
      have hsplit := List.takeWhile_append_dropWhile (p := Text.isDigit) (l := rest)
      rw [hrest] at hsplit
      exact hsplit.symm
  | const b => exact (reads_constant b).2 ⟨rfl, rfl⟩
  | neg g ih =>
      have htext : (Formula.neg g).text.toList ++ rest = '~' :: (g.text.toList ++ rest) := by
        simp [Formula.text]
      rw [htext, reads_neg]
      exact ⟨g, rfl, ih hf hrest⟩
  | bin op l r ihl ihr =>
      obtain ⟨hop, hl, hr⟩ := hf
      have htext : (Formula.bin op l r).text.toList ++ rest =
          '(' :: (l.text.toList ++ (op.symbol.toList ++ (r.text.toList ++ ')' :: rest))) := by
        simp [Formula.text]
      rw [htext, reads_paren]
      refine ⟨op, l, r, _, rfl, hop, ihl hl ?_, ihr hr ?_⟩
      · exact fun _ => takeWhile_isDigit_symbol_append op _
      · exact fun _ => rfl
  | missing => exact hf.elim

/-! ## The longest formula -/

/-- The formula with digits appended to the variable at its end. -/
def Formula.extendName (ds : List Char) : Formula → Formula
  | .var x => .var (x ++ String.ofList ds)
  | .neg f => .neg (f.extendName ds)
  | f => f

theorem Formula.text_extendName (ds : List Char) (h : f.endsInName = true) :
    (f.extendName ds).text.toList = f.text.toList ++ ds := by
  induction f with
  | var x => simp [extendName, text]
  | neg g ih => simp [extendName, text, ih h]
  | _ => simp [endsInName] at h

theorem Formula.WellFormed.extendName {ds : List Char} (hf : f.WellFormed d)
    (hds : ds.all Text.isDigit = true) : (f.extendName ds).WellFormed d := by
  induction f with
  | var x =>
      obtain ⟨c, cs, hx⟩ := List.exists_cons_of_ne_nil (Formula.text_ne_nil hf)
      have hname : x = String.ofList (c :: cs) := by
        rw [← hx]
        exact String.ofList_toList.symm
      subst hname
      obtain ⟨hc, hcs⟩ := isVariable_ofList_cons.1 hf
      have happ : String.ofList (c :: cs) ++ String.ofList ds = String.ofList (c :: (cs ++ ds)) := by
        rw [← String.ofList_append, List.cons_append]
      rw [Formula.extendName, Formula.WellFormed, happ, isVariable_ofList_cons, List.all_append,
        hcs, hds]
      exact ⟨hc, rfl⟩
  | neg g ih => exact ih hf
  | _ => exact hf

/-- If a formula is written at the front of a text, a formula is read off it that is at least as
long. -/
theorem exists_reads_of_text_append (rest : List Char) (hg : g.WellFormed d) :
    ∃ f rest', Reads d (g.text.toList ++ rest) f rest' ∧
      g.text.toList.length ≤ f.text.toList.length := by
  by_cases hend : g.endsInName = true
  · -- the digits in front of `rest` belong to the variable at the end of `g`
    have hds : (rest.takeWhile Text.isDigit).all Text.isDigit = true := List.all_takeWhile
    have htext := Formula.text_extendName (rest.takeWhile Text.isDigit) hend
    have hsplit : g.text.toList ++ rest =
        (g.extendName (rest.takeWhile Text.isDigit)).text.toList ++ rest.dropWhile Text.isDigit := by
      rw [htext, List.append_assoc, List.takeWhile_append_dropWhile]
    refine ⟨g.extendName (rest.takeWhile Text.isDigit), rest.dropWhile Text.isDigit, ?_, ?_⟩
    · rw [hsplit]
      refine reads_text_append (hg.extendName hds) fun _ => ?_
      exact List.takeWhile_eq_nil_iff.2 (List.dropWhile_get_zero_not _ _)
    · rw [htext, List.length_append]
      omega
  · exact ⟨g, rest, reads_text_append hg fun h => absurd h hend, Nat.le_refl _⟩

/-! ## Trees that can be built -/

theorem Connective.ofSymbol?_symbol {op : Connective} (h : op ∈ d) :
    Connective.ofSymbol? d op.symbol = some op := by
  have hsome : (Connective.ofSymbol? d op.symbol).isSome = true :=
    List.find?_isSome.2 ⟨op, h, beq_self_eq_true op.symbol⟩
  obtain ⟨op', hop'⟩ := Option.isSome_iff_exists.1 hsome
  have hsym : op'.symbol = op.symbol := by simpa using List.find?_some hop'
  have happ : op'.symbol.toList ++ [] = op.symbol.toList ++ [] := by rw [hsym]
  rw [hop', (Connective.eq_of_symbol_append happ).1]

theorem Formula.WellFormed.isMissing_eq_false (hf : f.WellFormed d) : f.isMissing = false := by
  cases f with
  | missing => exact hf.elim
  | _ => rfl

theorem Formula.given_eq_self (hf : f.isMissing = false) : f.given = .ok f := by
  rw [given, hf]
  rfl

theorem Formula.WellFormed.isVariable (hf : f.WellFormed d) :
    ∀ x ∈ f.leafVariables, isVariable x = true := by
  induction f with
  | var name =>
      intro x hx
      obtain rfl := List.mem_singleton.1 hx
      exact hf
  | const _ => simp [leafVariables]
  | neg f ih => exact ih hf
  | bin op l r ihl ihr =>
      intro x hx
      rcases List.mem_append.1 hx with hx | hx
      · exact ihl hf.2.1 x hx
      · exact ihr hf.2.2 x hx
  | missing => simp [leafVariables]

theorem checkVariable_eq_ok {x : String} {b : Bool} :
    checkVariable x = .ok b ↔ x ≠ "" ∧ isVariable x = b := by
  unfold checkVariable
  rw [ite_error_eq_ok]
  simp

theorem isVariable_ne_empty {x : String} (hx : isVariable x = true) : x ≠ "" := by
  rintro rfl
  exact absurd hx (by decide)

/-- A connective's symbol is neither a variable nor a constant nor the sign of negation. -/
theorem Connective.symbol_category (op : Connective) :
    checkVariable op.symbol = .ok false ∧ isConstant op.symbol = false ∧
      isUnary op.symbol = false := by
  cases op <;> decide

namespace Formula

theorem make_root_operands (hf : f.WellFormed d) : make d f.root f.operands = .ok f := by
  cases f with
  | var x =>
      have hcheck : checkVariable x = .ok true :=
        checkVariable_eq_ok.2 ⟨isVariable_ne_empty hf, hf⟩
      simp [make, root, operands, hcheck, isMissing]
  | const b => cases b <;> rfl
  | neg g =>
      have hcheck : checkVariable "~" = .ok false := by decide
      have hwf : g.WellFormed d := hf
      have hg : g.isMissing = false := hwf.isMissing_eq_false
      have hmissing : missing.isMissing = true := rfl
      simp [make, root, operands, hcheck, isConstant, isUnary, hg, hmissing]
  | bin op l r =>
      obtain ⟨hop, hl, hr⟩ := hf
      obtain ⟨hcheck, hconst, hunary⟩ := op.symbol_category
      simp [make, root, operands, hcheck, hconst, hunary, Connective.ofSymbol?_symbol hop,
        hl.isMissing_eq_false, hr.isMissing_eq_false]
  | missing => exact hf.elim

/-- What a root and operands can make up. -/
theorem make_inversion {symbol : String} {operands : List Formula}
    (h : make d symbol operands = .ok f) :
    (f = var symbol ∧ isVariable symbol = true) ∨ (∃ value, f = const value) ∨
      (∃ g, f = neg g) ∨ ∃ op ∈ d, ∃ l r, f = bin op l r := by
  unfold make at h
  split at h
  · simp at h
  · obtain ⟨b, hb, h⟩ := bind_eq_ok.1 h
    split at h
    · rename_i hvar
      obtain ⟨_, -, h⟩ := bind_eq_ok.1 h
      exact .inl ⟨(pure_eq_ok.1 h).symm, (checkVariable_eq_ok.1 hb).2.trans hvar⟩
    split at h
    · obtain ⟨_, -, h⟩ := bind_eq_ok.1 h
      exact .inr (.inl ⟨_, (pure_eq_ok.1 h).symm⟩)
    split at h
    · obtain ⟨_, -, h⟩ := bind_eq_ok.1 h
      exact .inr (.inr (.inl ⟨_, (pure_eq_ok.1 h).symm⟩))
    split at h
    · rename_i op hop
      obtain ⟨_, -, h⟩ := bind_eq_ok.1 h
      exact .inr (.inr (.inr ⟨op, List.mem_of_find?_eq_some hop, _, _, (pure_eq_ok.1 h).symm⟩))
    · simp at h

/-- Well-formed formulas are the trees whose every node can be built of its root and operands. -/
theorem wellFormed_iff_make :
    f.WellFormed d ↔ make d f.root f.operands = .ok f ∧ ∀ g ∈ f.operands, g.WellFormed d := by
  constructor
  · intro hf
    refine ⟨make_root_operands hf, ?_⟩
    cases f with
    | neg g => exact List.forall_mem_singleton.2 hf
    | bin op l r =>
        intro g hg
        rcases List.mem_pair.1 hg with rfl | rfl
        · exact hf.2.1
        · exact hf.2.2
    | _ => simp [operands]
  · rintro ⟨hmake, hops⟩
    have hcases := make_inversion hmake
    cases f with
    | var x => simpa [root, WellFormed] using hcases
    | const b => trivial
    | neg g => exact hops g (by simp [operands])
    | bin op l r =>
        refine ⟨?_, hops l (by simp [operands]), hops r (by simp [operands])⟩
        simpa using hcases
    | missing => simp at hcases

end Formula

/-! ## Whole texts -/

theorem readText_eq_some {s rest : String} :
    readText d s = (some f, rest) ↔ Reads d s.toList f rest.toList := by
  unfold readText Reads
  split
  · rename_i r hr
    obtain ⟨g, rest', hlt⟩ := r
    rw [hr]
    simp only [Prod.mk.injEq, Option.some.injEq, Except.ok.injEq, ReadOff.mk.injEq]
    constructor
    · rintro ⟨rfl, rfl⟩
      exact ⟨by simpa using hlt, rfl, String.toList_ofList.symm⟩
    · rintro ⟨-, rfl, rfl⟩
      exact ⟨rfl, String.ofList_toList⟩
  · rename_i e he
    simp [he]

/-- The text of a formula is read as that formula to its end. -/
theorem readText_text (hf : f.WellFormed d) : readText d f.text = (some f, "") := by
  have h : Reads d (f.text.toList ++ []) f [] := reads_text_append hf fun _ => rfl
  rw [List.append_nil] at h
  exact readText_eq_some.2 h

/-- A text is parsed exactly when all of it is read. -/
theorem Formula.parse_eq_ok {s : String} : parse d s = .ok f ↔ Reads d s.toList f [] := by
  unfold parse parse? Reads
  split
  · rename_i r hr
    obtain ⟨g, rest, hlt⟩ := r
    rw [hr]
    cases rest with
    | nil =>
        simp only [List.isEmpty_nil, if_true, Failure.orElse, Except.ok.injEq, ReadOff.mk.injEq,
          and_true, exists_prop]
        exact ⟨fun h => ⟨hlt, h⟩, fun h => h.2⟩
    | cons c cs => simp [Failure.orElse]
  · rename_i e he
    simp [he, Failure.orElse]

/-- The texts that are parsed into a formula are the one that it is written as. -/
theorem Formula.parse_eq_ok_iff_text {s : String} :
    parse d s = .ok f ↔ f.WellFormed d ∧ s = f.text := by
  rw [parse_eq_ok]
  constructor
  · intro h
    obtain ⟨hwf, hs⟩ := h.eq_text_append
    rw [List.append_nil] at hs
    exact ⟨hwf, String.toList_injective hs⟩
  · rintro ⟨hwf, rfl⟩
    have h : Reads d (f.text.toList ++ []) f [] := reads_text_append hwf fun _ => rfl
    rwa [List.append_nil] at h

theorem Formula.isText_iff {s : String} : isText d s = true ↔ ∃ f, parse d s = .ok f := by
  unfold isText parse
  cases parse? d s with
  | none => simp [Failure.orElse]
  | some f => simp [Failure.orElse]

/-- Different formulas have different texts. -/
theorem Formula.text_inj (hf : f.WellFormed d) (hg : g.WellFormed d) :
    f.text = g.text ↔ f = g := by
  refine ⟨fun h => ?_, fun h => h ▸ rfl⟩
  have hf' := parse_eq_ok_iff_text.2 ⟨hf, rfl⟩
  rw [parse_eq_ok_iff_text.2 ⟨hg, h⟩] at hf'
  exact (Except.ok.inj hf').symm

/-- A text that begins with the text of a formula is read, the longest such formula is answered, and
nothing of the text is lost. -/
theorem readText_of_text_append {s rest : String} (hg : g.WellFormed d) (hs : s = g.text ++ rest) :
    ∃ (f : Formula) (rest' : String), readText d s = (some f, rest') ∧ f.WellFormed d ∧
      s = f.text ++ rest' ∧
      ∀ (g : Formula) (rest : String), g.WellFormed d → s = g.text ++ rest →
        g.text.length ≤ f.text.length := by
  have hlist : ∀ {g : Formula} {rest : String}, s = g.text ++ rest →
      s.toList = g.text.toList ++ rest.toList := by
    rintro g rest rfl
    exact String.toList_append
  obtain ⟨f, rest', hf, -⟩ := exists_reads_of_text_append rest.toList hg
  rw [← hlist hs] at hf
  obtain ⟨hwf, htext⟩ := hf.eq_text_append
  refine ⟨f, String.ofList rest', ?_, hwf, ?_, ?_⟩
  · rw [readText_eq_some, String.toList_ofList]
    exact hf
  · apply String.toList_injective
    rw [String.toList_append, String.toList_ofList]
    exact htext
  · intro g' r hg' hs'
    obtain ⟨f', r', hf', hle⟩ := exists_reads_of_text_append r.toList hg'
    rw [← hlist hs'] at hf'
    obtain ⟨rfl, -⟩ := hf.unique hf'
    rwa [String.length_toList, String.length_toList] at hle

/-- A text that does not begin with the text of a formula gives a message and no formula. -/
theorem readText_of_no_text {s : String}
    (hs : ¬ ∃ (g : Formula) (rest : String), g.WellFormed d ∧ s = g.text ++ rest) :
    ∃ e : ReadError, readText d s = (none, e.message) := by
  cases hr : read d s.toList with
  | error e =>
      refine ⟨e, ?_⟩
      simp only [readText, hr]
  | ok r =>
      obtain ⟨f, rest, hlt⟩ := r
      obtain ⟨hwf, htext⟩ := Reads.eq_text_append ⟨hlt, hr⟩
      refine absurd ⟨f, String.ofList rest, hwf, ?_⟩ hs
      apply String.toList_injective
      rw [String.toList_append, String.toList_ofList]
      exact htext

/-- Reading inverts writing in the language of all connectives. A text that begins with the text of a
formula is read as the longest such formula, any other text is answered by a message; the texts of
formulas are the ones that parse, each into the one formula that it is the text of; and formulas are
equal if their texts are. The formulas in question are those that can be built node by node. -/
theorem reading_inverts_writing :
    (∀ s : String,
      (∃ (g : Formula) (rest : String), g.WellFormed Connective.all ∧ s = g.text ++ rest) →
      ∃ (f : Formula) (rest : String), readText Connective.all s = (some f, rest) ∧
        f.WellFormed Connective.all ∧ s = f.text ++ rest ∧
        ∀ (g : Formula) (rest' : String), g.WellFormed Connective.all → s = g.text ++ rest' →
          g.text.length ≤ f.text.length) ∧
    (∀ s : String,
      (¬ ∃ (g : Formula) (rest : String), g.WellFormed Connective.all ∧ s = g.text ++ rest) →
      ∃ e : ReadError, readText Connective.all s = (none, e.message)) ∧
    (∀ s : String, Formula.isText Connective.all s = true ↔
      ∃ f : Formula, f.WellFormed Connective.all ∧ s = f.text) ∧
    (∀ (s : String) (f : Formula), f.WellFormed Connective.all → s = f.text →
      Formula.parse Connective.all s = .ok f ∧
        ∀ g : Formula, g.WellFormed Connective.all → s = g.text → g = f) ∧
    (∀ f g : Formula, f.WellFormed Connective.all → g.WellFormed Connective.all →
      (f.text = g.text ↔ f = g)) ∧
    ∀ f : Formula, f.WellFormed Connective.all ↔
      Formula.make Connective.all f.root f.operands = .ok f ∧
        ∀ g ∈ f.operands, g.WellFormed Connective.all := by
  refine ⟨?_, ?_, ?_, ?_, ?_, ?_⟩
  · rintro s ⟨g, rest, hg, hs⟩
    exact readText_of_text_append hg hs
  · intro s hs
    exact readText_of_no_text hs
  · intro s
    rw [Formula.isText_iff]
    exact exists_congr fun f => Formula.parse_eq_ok_iff_text
  · intro s f hf hs
    refine ⟨Formula.parse_eq_ok_iff_text.2 ⟨hf, hs⟩, ?_⟩
    intro g hg hs'
    exact (Formula.text_inj hg hf).1 (hs'.symm.trans hs)
  · intro f g hf hg
    exact Formula.text_inj hf hg
  · intro f
    exact Formula.wellFormed_iff_make

/-- The text `~(p1->T)x` is read up to its closing parenthesis, and its formula is well formed. -/
theorem reading_inverts_writing_negated_implication :
    ∃ (f : Formula) (rest : String), readText Connective.all "~(p1->T)x" = (some f, rest) ∧
      f.WellFormed Connective.all ∧ "~(p1->T)x" = f.text ++ rest ∧
      ∀ (g : Formula) (rest' : String), g.WellFormed Connective.all →
        "~(p1->T)x" = g.text ++ rest' → g.text.length ≤ f.text.length :=
  reading_inverts_writing.1 "~(p1->T)x"
    ⟨.neg (.bin .implies (.var "p1") (.const true)), "x",
      ⟨by decide, (by decide : isVariable "p1" = true), trivial⟩, by decide⟩

end FormalLogic.Propositional
