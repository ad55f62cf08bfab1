import FormalLogic.Propositional.Buffer
import FormalLogic.Proofs.Propositional.Reading

/-!
# Reading with one buffer ends

Neither the buffer nor the nesting of a text need get smaller from one call to the next: a message may be longer than
the text that was there, and some messages begin with a parenthesis. That reading ends all the same has three reasons.
The messages are themselves read by calls nested at most twice (`exists_nested_message`); what is left in the buffer
without being a message is shorter than what was there (`length_lt_of_strayClose`); and an operand that is read again
was part of the text. So calls are nested no deeper than the text is long, and two more (`serves_nested`), and the
answer is that of the reader that stops at the first error.
-/

namespace FormalLogic.Propositional.Buffer

variable {d : Dialect} {again : List Char → Option Answer} {s t rest : List Char} {n : Nat}

/-! ## What a failed call leaves -/

/-- Behind a negation the answer is that for its operand, negated. -/
theorem answer_read_neg (c : Char) (t : List Char) :
    answer (read d ('~' :: c :: t)) =
      ((answer (read d (c :: t))).1.map .neg, (answer (read d (c :: t))).2) := by
  rw [read]
  cases read d (c :: t) with
  | error e => rfl
  | ok r => rfl

/-- What is left behind a stray parenthesis is shorter than the text. -/
theorem length_lt_of_strayClose (h : read d s = .error (.strayClose rest)) : rest.length < s.length := by
  -- negations keep the error of their operand, and an application gives no such error
  induction s with
  | nil => simp [read] at h
  | cons c t ih =>
      by_cases hneg : c = '~'
      · subst hneg
        cases t with
        | nil => simp [read] at h
        | cons c t =>
            rw [read] at h
            split at h
            · rename_i e he
              obtain rfl : e = .strayClose rest := Except.error.inj h
              exact Nat.lt_succ_of_lt (ih he)
            · cases h
      by_cases hparen : c = '('
      · subst hparen
        rw [read] at h
        split at h
        · cases h
        · split at h
          · cases h
          · split at h
            · cases h
            · split at h
              · cases h
              · cases h
      · rw [read_eq_readAtom hneg hparen, readAtom] at h
        split_ifs at h
        all_goals cases h
        exact Nat.lt_succ_self _

/-- A message begins with a letter, or with a parenthesis and a letter that begins no formula. -/
theorem message_cases {e : ReadError} (he : ∀ rest, e ≠ .strayClose rest) :
    (∃ c ∈ ['T', 'u', 'Y', 'I'], ∃ t, e.message.toList = c :: t) ∨ ∃ t, e.message.toList = '(' :: 'X' :: t := by
  cases e with
  | strayClose rest => exact absurd rfl (he rest)
  | empty => exact .inl ⟨'T', by decide, _, rfl⟩
  | danglingNegation => exact .inl ⟨'u', by decide, _, rfl⟩
  | unclosed => exact .inl ⟨'Y', by decide, _, rfl⟩
  | leadingConnective => exact .inl ⟨'Y', by decide, _, String.toList_append.trans rfl⟩
  | badAtom => exact .inl ⟨'I', by decide, _, rfl⟩
  | badOperand => exact .inr ⟨_, rfl⟩
  | badConnective => exact .inr ⟨_, rfl⟩

theorem takeConnective_of_notMem {c : Char} (hc : c ∉ connectiveStarts) (t : List Char) :
    takeConnective d (c :: t) = (none, c :: t) := by
  rw [takeConnective]
  cases hread : readConnective d (c :: t) with
  | none => rfl
  | some r =>
      obtain ⟨op, rest, hlt⟩ := r
      obtain ⟨-, hop⟩ := readConnective_eq_some.1 hread
      have hnone := @after?_symbol_eq_none t c hc op
      rw [after?_eq_some.2 hop] at hnone
      cases hnone

/-- No message begins with a connective. -/
theorem takeConnective_message {e : ReadError} (he : ∀ rest, e ≠ .strayClose rest) :
    takeConnective d e.message.toList = (none, e.message.toList) := by
  rcases message_cases he with ⟨c, hc, t, ht⟩ | ⟨t, ht⟩
  · rw [ht]
    refine takeConnective_of_notMem ?_ t
    simp only [List.mem_cons, List.not_mem_nil, or_false] at hc
    rcases hc with rfl | rfl | rfl | rfl <;> decide
  · rw [ht]
    exact takeConnective_of_notMem (by decide) _

theorem length_takeConnective_le (d : Dialect) (s : List Char) : (takeConnective d s).2.length ≤ s.length := by
  rw [takeConnective]
  cases readConnective d s with
  | none => exact Nat.le_refl _
  | some r => exact Nat.le_of_lt r.shorter

/-! ## One call -/

/-- All three calls are made before the parts are looked at. -/
theorem takeApplication_eq_close {l r : Option Formula} {behind behind' : List Char}
    (hl : again t = some (l, behind)) (hr : again (takeConnective d behind).2 = some (r, behind')) :
    takeApplication d again t = close again l (takeConnective d behind).1 r behind' := by
  simp [takeApplication, hl, hr]

theorem close_eq_badConnective {l : Formula} (hl : isReadable again l.text.toList = some true)
    (r : Option Formula) (behind : List Char) :
    close again (some l) none r behind = some (failed .badConnective) := by
  simp [close, hl]

/-- The nested calls answer: for texts up to a length as the reader does, and for messages in any way. -/
structure Serves (d : Dialect) (again : List Char → Option Answer) (n : Nat) : Prop where
  reads : ∀ s, s.length ≤ n → again s = some (answer (read d s))
  ends : ∀ e : ReadError, (∀ rest, e ≠ .strayClose rest) → ∃ a, again e.message.toList = some a

section Call

variable (h : Serves d again n)
include h

/-- The call for a second operand ends, also if the one for the first operand has failed. -/
theorem Serves.ends_behind (hlength : t.length ≤ n) :
    ∃ a, again (takeConnective d (answer (read d t)).2).2 = some a := by
  have hshort : ∀ rest : List Char, rest.length < t.length → ∃ a, again (takeConnective d rest).2 = some a := by
    intro rest hlt
    have hle := length_takeConnective_le d rest
    exact ⟨_, h.reads _ (by omega)⟩
  cases hread : read d t with
  | ok r => exact hshort r.rest r.shorter
  | error e =>
      by_cases he : ∃ rest, e = .strayClose rest
      · obtain ⟨rest, rfl⟩ := he
        have hmessage : (ReadError.strayClose rest).message.toList = rest := String.toList_ofList
        rw [answer, failed, hmessage]
        exact hshort rest (length_lt_of_strayClose hread)
      · have he : ∀ rest, e ≠ .strayClose rest := fun rest heq => he ⟨rest, heq⟩
        rw [answer, failed, takeConnective_message he]
        exact h.ends e he

/-- An operand that was read is read again off its own text. -/
theorem Serves.isReadable_text {f : Formula} (hread : Reads d s f rest) (hlength : s.length ≤ n) :
    isReadable again f.text.toList = some true := by
  obtain ⟨hwf, rfl⟩ := hread.eq_text_append
  have hagain : Reads d (f.text.toList ++ []) f [] := reads_text_append hwf fun _ => rfl
  rw [List.append_nil] at hagain
  obtain ⟨hlt, hagain⟩ := hagain
  rw [List.length_append] at hlength
  rw [isReadable, h.reads _ (by omega), hagain]
  rfl

theorem Serves.takeNegation_eq (hlength : t.length ≤ n) :
    takeNegation again t = some (answer (read d ('~' :: t))) := by
  cases t with
  | nil => simp [takeNegation, read, answer]
  | cons c t =>
      rw [answer_read_neg, takeNegation, h.reads _ hlength]
      rfl

theorem Serves.takeApplication_eq (hlength : t.length ≤ n) :
    takeApplication d again t = some (answer (read d ('(' :: t))) := by
  obtain ⟨⟨r, behind⟩, ha⟩ := h.ends_behind hlength
  rw [takeApplication_eq_close (h.reads t hlength) ha]
  cases hl : read d t with
  | error e =>
      -- the other two calls have ended, and what they took does not matter
      rw [read, hl]
      rfl
  | ok l =>
      obtain ⟨l, t₁, h₁⟩ := l
      have hreadable := h.isReadable_text ⟨h₁, hl⟩ hlength
      rw [hl] at ha
      rw [read, hl]
      dsimp only [answer] at ha ⊢
      cases hop : readConnective d t₁ with
      | none =>
          rw [takeConnective, hop]
          exact close_eq_badConnective hreadable r behind
      | some op =>
          obtain ⟨op, t₂, h₂⟩ := op
          rw [takeConnective, hop, h.reads t₂ (by omega)] at ha
          rw [takeConnective, hop]
          obtain ⟨rfl, rfl⟩ := Prod.mk.inj (Option.some.inj ha)
          cases hr : read d t₂ with
          | error e => simp [failed, close, hreadable, hr]
          | ok r =>
              obtain ⟨r, t₃, h₃⟩ := r
              have hreadable' := h.isReadable_text ⟨h₃, hr⟩ (by omega)
              cases hclose : readClose t₃ with
              | none => simp [close, hreadable, hreadable', hr, hclose]
              | some c => simp [close, hreadable, hreadable', hr, hclose]

/-- If the nested calls answer as the reader does, so does the call. -/
theorem Serves.take_eq (hlength : s.length ≤ n + 1) : take d again s = some (answer (read d s)) := by
  cases s with
  | nil => simp [take, read, answer]
  | cons c t =>
      have ht : t.length ≤ n := by
        rw [List.length_cons] at hlength
        omega
      rw [take]
      by_cases hneg : c = '~'
      · subst hneg
        exact h.takeNegation_eq ht
      by_cases hparen : c = '('
      · subst hparen
        exact h.takeApplication_eq ht
      · rw [if_neg hneg, if_neg hparen, read_eq_readAtom hneg hparen]

end Call

/-! ## Nested calls -/

theorem nested_atom {c : Char} (hneg : c ≠ '~') (hparen : c ≠ '(') (t : List Char) (n : Nat) :
    nested d (n + 1) (c :: t) = some (answer (readAtom d c t)) := by
  rw [nested, take, if_neg hneg, if_neg hparen]

/-- The letter of the messages that begin with a parenthesis begins neither a variable nor a constant. -/
theorem readAtom_X (d : Dialect) (t : List Char) : answer (readAtom d 'X' t) = failed .badAtom := by
  rw [readAtom, startsWithShortConnective_eq_false (by decide), if_neg Bool.false_ne_true, if_neg (by decide),
    if_neg (by decide), if_neg (by decide), if_neg (by decide)]
  rfl

/-- A message is read without nested calls, if it begins with a letter, and otherwise by nested calls that fail without
any. -/
theorem exists_nested_message {e : ReadError} (he : ∀ rest, e ≠ .strayClose rest) (n : Nat) :
    ∃ a, nested d (n + 2) e.message.toList = some a := by
  have hletter : ∀ c ∈ ['T', 'u', 'Y', 'I'], ∀ t k, ∃ a, nested d (k + 1) (c :: t) = some a := by
    intro c hc t k
    simp only [List.mem_cons, List.not_mem_nil, or_false] at hc
    rcases hc with rfl | rfl | rfl | rfl <;> exact ⟨_, nested_atom (by decide) (by decide) t k⟩
  rcases message_cases he with ⟨c, hc, t, ht⟩ | ⟨t, ht⟩
  · rw [ht]
    exact hletter c hc t (n + 1)
  · have hfirst : nested d (n + 1) ('X' :: t) = some (failed .badAtom) := by
      rw [nested_atom (by decide) (by decide), readAtom_X]
    have hconnective := @takeConnective_message d .badAtom (by simp)
    obtain ⟨t', ht'⟩ : ∃ t', ReadError.badAtom.message.toList = 'I' :: t' := ⟨_, rfl⟩
    obtain ⟨⟨r, behind⟩, hsecond⟩ := hletter 'I' (by decide) t' n
    rw [← ht'] at hsecond
    refine ⟨failed .badOperand, ?_⟩
    rw [ht]
    change takeApplication d (nested d (n + 1)) ('X' :: t) = _
    rw [takeApplication_eq_close hfirst (by rw [hconnective]; exact hsecond)]
    rfl

/-- Calls that are nested twice deeper than a text is long answer as the reader does. -/
theorem serves_nested (n : Nat) : Serves d (nested d (n + 2)) n := by
  induction n with
  | zero =>
      refine ⟨fun s hs => ?_, fun e he => exists_nested_message he 0⟩
      obtain rfl := List.length_eq_zero_iff.1 (Nat.le_zero.1 hs)
      simp [nested, take, read, answer]
  | succ n ih => exact ⟨fun s hs => ih.take_eq hs, fun e he => exists_nested_message he (n + 1)⟩

/-- The answer for a whole text. -/
theorem answer_read_toList (d : Dialect) (s : String) :
    answer (read d s.toList) = Prod.map id String.toList (readText d s) := by
  rw [readText]
  cases read d s.toList with
  | ok r => simp [answer]
  | error e => rfl

/-- Reading with one buffer ends on every text, by calls that are nested no deeper than the text is long and two more,
and answers as the reader does that stops at the first error. So do the calls behind the sign of a negation and behind
an opening parenthesis, and the test whether a text can be read. -/
theorem nested_calls_end (d : Dialect) (s : String) (k : Nat) :
    let again := nested d (s.length + 2 + k)
    again s.toList = some (Prod.map id String.toList (readText d s)) ∧
      takeNegation again s.toList = some (Prod.map id String.toList (readText d ("~" ++ s))) ∧
      takeApplication d again s.toList = some (Prod.map id String.toList (readText d ("(" ++ s))) ∧
      isReadable again s.toList = some (readText d s).1.isSome := by
  intro again
  have hserves : Serves d again (s.length + k) := by
    have h := @serves_nested d (s.length + k)
    rwa [Nat.add_right_comm] at h
  have hlength : s.toList.length ≤ s.length + k := by
    rw [String.length_toList]
    exact Nat.le_add_right _ _
  have hread : again s.toList = some (Prod.map id String.toList (readText d s)) := by
    rw [hserves.reads _ hlength, answer_read_toList]
  refine ⟨hread, ?_, ?_, ?_⟩
  · rw [hserves.takeNegation_eq hlength, ← answer_read_toList, String.toList_append]
    rfl
  · rw [hserves.takeApplication_eq hlength, ← answer_read_toList, String.toList_append]
    rfl
  · rw [isReadable, hread]
    rfl

end FormalLogic.Propositional.Buffer
