import FormalLogic.Predicate.Formula
import FormalLogic.Text.ReadOff

/-!
# Reading terms and formulas

The readers trust their input: they look at the characters that decide how to go on and skip the
others. So the separator between arguments, the sign of equality and most closing brackets may be any
character. What they read always has well-formed names.
-/

namespace FormalLogic.Predicate

/-- Splits a text at the first character of a kind: the text before it, and the text behind it if
there is one. -/
def splitAtFirst (c : Char) : List Char → List Char × Option (List Char)
  | [] => ([], none)
  | d :: t =>
    if d = c then ([], some t)
    else
      let (before, behind) := splitAtFirst c t
      (d :: before, behind)

theorem length_of_splitAtFirst {c : Char} {s before behind : List Char}
    (h : splitAtFirst c s = (before, some behind)) : behind.length < s.length := by
  induction s generalizing before with
  | nil => simp [splitAtFirst] at h
  | cons d t ih =>
    by_cases hd : d = c
    · simp only [splitAtFirst, hd, if_true, Prod.mk.injEq, Option.some.injEq] at h
      simp [h.2]
    · simp only [splitAtFirst, hd, if_false, Prod.mk.injEq] at h
      have := @ih (splitAtFirst c t).1 (by rw [← h.2])
      simp only [List.length_cons]
      omega

/-- What a name and an opening bracket leave to be read. Without the bracket the whole text is the
name, and reading goes on at its second character. -/
def behindBracket (bracket : Char) (t : List Char) : List Char × List Char :=
  match splitAtFirst bracket t with
  | (before, some behind) => (before, behind)
  | (before, none) => (before, t.drop 1)

theorem length_behindBracket (bracket : Char) (t : List Char) :
    (behindBracket bracket t).2.length ≤ t.length := by
  unfold behindBracket
  split
  · rename_i before behind h
    exact Nat.le_of_lt (length_of_splitAtFirst h)
  · simp

theorem length_dropWhile_le (p : Char → Bool) (t : List Char) :
    (t.dropWhile p).length ≤ t.length :=
  (List.dropWhile_sublist p).length_le

/-! ## Terms -/

mutual

/-- Reads a term off the front of a text. -/
def readTerm (s : List Char) : Outcome (ReadOff Term s) :=
  match s with
  | [] => .error .outOfRange
  | c :: t =>
    if c = '_' then .ok ⟨.const hole, t, by simp⟩
    else
      let name := String.ofList (c :: t.takeWhile Text.isNameChar)
      let rest := t.dropWhile Text.isNameChar
      have h : rest.length < (c :: t).length := by
        have := length_dropWhile_le Text.isNameChar t
        simp only [List.length_cons, rest]
        omega
      if startsConstant c then .ok ⟨.const name, rest, h⟩
      else if startsVariable c then .ok ⟨.var name, rest, h⟩
      else if startsFunction c then
        match hb : behindBracket '(' t with
        | (before, body) =>
          have h₁ : body.length ≤ t.length := by
            have := length_behindBracket '(' t
            rw [hb] at this
            exact this
          match readTerm body with
          | .error e => .error e
          | .ok ⟨first, t₁, h₂⟩ =>
            match readArguments t₁ with
            | .error e => .error e
            | .ok ⟨others, t₂, h₃⟩ =>
              let function := String.ofList (c :: before)
              if isFunction function then
                .ok ⟨.app function (first :: others), t₂, by simp only [List.length_cons]; omega⟩
              else .error (.unmet .wellFormed)
      else .error (.unmet .formulaText)
termination_by s.length

/-- Reads further arguments, each behind one character, up to a closing parenthesis. -/
def readArguments (s : List Char) : Outcome (ReadOff (List Term) s) :=
  match s with
  | [] => .error .outOfRange
  | c :: t =>
    if c = ')' then .ok ⟨[], t, by simp⟩
    else
      match readTerm t with
      | .error e => .error e
      | .ok ⟨first, t₁, h₁⟩ =>
        match readArguments t₁ with
        | .error e => .error e
        | .ok ⟨others, t₂, h₂⟩ =>
          .ok ⟨first :: others, t₂, by simp only [List.length_cons]; omega⟩
termination_by s.length

end

/-! ## Formulas -/

/-- Reads arguments of a relation, separated by commas, and skips the character behind them. -/
def readRelationArguments (s : List Char) : Outcome (ReadOff (List Term) s) :=
  match readTerm s with
  | .error e => .error e
  | .ok ⟨first, [], _⟩ => .error .outOfRange
  | .ok ⟨first, c :: t, h₁⟩ =>
    if c = ',' then
      match readRelationArguments t with
      | .error e => .error e
      | .ok ⟨others, t₁, h₂⟩ =>
        .ok ⟨first :: others, t₁, by simp only [List.length_cons] at h₁; omega⟩
    else .ok ⟨[first], t, by simp only [List.length_cons] at h₁; omega⟩
termination_by s.length
decreasing_by simp only [List.length_cons] at *; omega

/-- Reads a relation whose name begins with the given character. -/
def readRelation (c : Char) (t : List Char) : Outcome (ReadOff Formula (c :: t)) :=
  let name := String.ofList (c :: t.takeWhile Text.isNameChar)
  match ht : t.dropWhile Text.isNameChar with
  | [] => if t.length ≤ 1 then .error .outOfRange else .error (.unmet .formulaText)
  | d :: body =>
    have h : body.length < t.length := by
      have := length_dropWhile_le Text.isNameChar t
      rw [ht] at this
      simp only [List.length_cons] at this
      omega
    if d = '(' then
      match body with
      | [] => .error .outOfRange
      | e :: rest =>
        if e = ')' then .ok ⟨.rel name [], rest, by simp only [List.length_cons] at *; omega⟩
        else
          match readRelationArguments (e :: rest) with
          | .error err => .error err
          | .ok ⟨ts, t₁, h₁⟩ => .ok ⟨.rel name ts, t₁, by simp only [List.length_cons] at *; omega⟩
    else .error (.unmet .formulaText)

/-- Reads an equality: two terms with one character between them. -/
def readEquality (s : List Char) : Outcome (ReadOff Formula s) :=
  match readTerm s with
  | .error e => .error e
  | .ok ⟨l, t₁, h₁⟩ =>
    match readTerm (t₁.drop 1) with
    | .error e => .error e
    | .ok ⟨r, t₂, h₂⟩ => .ok ⟨.equal l r, t₂, by simp only [List.length_drop] at h₂; omega⟩

/-- The connective at the front of a text and what follows it. A text that begins with neither a
conjunction nor a disjunction sign counts as beginning with the two characters of an implication. -/
def readConnective (s : List Char) : Outcome (Connective × List Char) :=
  match s with
  | [] => .error .outOfRange
  | '&' :: t => .ok (.and, t)
  | '|' :: t => .ok (.or, t)
  | _ :: t => .ok (.implies, t.drop 1)

theorem length_readConnective {s t : List Char} {op : Connective}
    (h : readConnective s = .ok (op, t)) : t.length < s.length := by
  unfold readConnective at h
  split at h
  · simp at h
  · simp only [Except.ok.injEq, Prod.mk.injEq] at h; simp [h.2]
  · simp only [Except.ok.injEq, Prod.mk.injEq] at h; simp [h.2]
  · simp only [Except.ok.injEq, Prod.mk.injEq] at h
    have := congrArg List.length h.2
    simp only [List.length_drop, List.length_cons] at *
    omega

/-- The variable of a quantification and the text behind its opening bracket. Without the bracket
there is no variable, and reading goes on at the second character. -/
def behindQuantified (t : List Char) : String × List Char :=
  match splitAtFirst '[' t with
  | (before, some behind) => (String.ofList before, behind)
  | (_, none) => ("", t.drop 1)

theorem length_behindQuantified (t : List Char) :
    (behindQuantified t).2.length ≤ t.length := by
  unfold behindQuantified
  split
  · rename_i before behind h
    exact Nat.le_of_lt (length_of_splitAtFirst h)
  · simp

/-- Reads a formula off the front of a text. -/
def read (s : List Char) : Outcome (ReadOff Formula s) :=
  match s with
  | [] => .error .outOfRange
  | c :: t =>
    if c = '_' || startsConstant c || startsFunction c || startsVariable c then readEquality (c :: t)
    else if startsRelation c then readRelation c t
    else if c = '~' then
      match read t with
      | .error e => .error e
      | .ok ⟨f, t₁, h₁⟩ => .ok ⟨.neg f, t₁, by simp only [List.length_cons]; omega⟩
    else if c = '(' then
      match read t with
      | .error e => .error e
      | .ok ⟨l, t₁, h₁⟩ =>
        match h₂ : readConnective t₁ with
        | .error e => .error e
        | .ok (op, t₂) =>
          have h₃ := length_readConnective h₂
          match read t₂ with
          | .error e => .error e
          | .ok ⟨r, t₃, h₄⟩ =>
            .ok ⟨.bin op l r, t₃.drop 1, by
              simp only [List.length_cons, List.length_drop]; omega⟩
    else
      match Quantifier.ofSymbol? (String.ofList [c]) with
      | none => .error (.unmet .formulaText)
      | some q =>
        match hb : behindQuantified t with
        | (x, body) =>
          have h₁ : body.length ≤ t.length := by
            have := length_behindQuantified t
            rw [hb] at this
            exact this
          match read body with
          | .error e => .error e
          | .ok ⟨f, t₁, h₂⟩ =>
            match checkName isVariable x with
            | .error e => .error e
            | .ok true =>
              .ok ⟨.quant q x f, t₁.drop 1, by
                simp only [List.length_cons, List.length_drop]; omega⟩
            | .ok false => .error (.unmet .wellFormed)
termination_by s.length

/-! ## Whole texts -/

namespace Term

/-- The term at the front of a text, and the rest. -/
def readText (s : String) : Outcome (Term × String) := do
  let r ← readTerm s.toList
  return (r.value, String.ofList r.rest)

/-- The term at the front of a text. -/
def parse (s : String) : Outcome Term := do
  return (← readTerm s.toList).value

end Term

namespace Formula

/-- The formula at the front of a text, and the rest. -/
def readText (s : String) : Outcome (Formula × String) := do
  let r ← read s.toList
  return (r.value, String.ofList r.rest)

/-- The formula at the front of a text. -/
def parse (s : String) : Outcome Formula := do
  return (← read s.toList).value

end Formula

end FormalLogic.Predicate
