import FormalLogic.Proofs.Propositional.Buffer
import Mathlib

/-!
# More connectives

Which connectives a language has matters for those alone that are written in the text (`read_congr`). So a text
without the later connectives is read as before they came, be it well formed or not, with the same error. Reading with
one buffer, which goes on after errors, comes to the same answer.
-/

namespace FormalLogic.Propositional

variable {d d' : Dialect} {s t : List Char}

/-- Languages that have the same connectives among those written in a text. -/
def AgreeOn (d d' : Dialect) (s : List Char) : Prop :=
  ∀ op : Connective, op.symbol.toList <:+: s → (op ∈ d ↔ op ∈ d')

theorem AgreeOn.of_suffix (h : AgreeOn d d' s) (ht : t <:+ s) : AgreeOn d d' t :=
  fun op hop => h op (hop.trans ht.isInfix)

theorem readConnective_congr (h : AgreeOn d d' s) : readConnective d s = readConnective d' s := by
  refine Option.ext fun r => ?_
  obtain ⟨op, rest, hlt⟩ := r
  rw [readConnective_eq_some, readConnective_eq_some]
  refine and_congr_left fun hs => h op ?_
  rw [hs]
  exact (List.prefix_append _ _).isInfix

theorem startsWithShortConnective_congr (h : AgreeOn d d' s) :
    startsWithShortConnective d s = startsWithShortConnective d' s := by
  have hany : ∀ {d d' : Dialect}, AgreeOn d d' s → startsWithShortConnective d s = true →
      startsWithShortConnective d' s = true := by
    intro d d' h hd
    obtain ⟨op, hop, hstarts⟩ := List.any_eq_true.1 hd
    obtain ⟨rest, hrest⟩ := Option.isSome_iff_exists.1 (Bool.and_eq_true_iff.1 hstarts).2
    have hinfix : op.symbol.toList <:+: s := by
      rw [after?_eq_some.1 hrest]
      exact (List.prefix_append _ _).isInfix
    exact List.any_eq_true.2 ⟨op, (h op hinfix).1 hop, hstarts⟩
  rw [Bool.eq_iff_iff]
  exact ⟨hany h, hany fun op hop => (h op hop).symm⟩

/-- Languages that have the same connectives among those written in a text read it in the same way. -/
theorem read_congr (h : AgreeOn d d' s) : read d s = read d' s := by
  -- by induction on the length of the text: what is left to be read is always a suffix of it
  induction hn : s.length using Nat.strongRecOn generalizing s with
  | _ n ih =>
      subst hn
      cases s with
      | nil => rw [read, read]
      | cons c t =>
          have ht : AgreeOn d d' t := h.of_suffix (List.suffix_cons c t)
          by_cases hneg : c = '~'
          · subst hneg
            cases t with
            | nil => rw [read, read]
            | cons c t => rw [read, read, ih _ (by simp) ht rfl]
          by_cases hparen : c = '('
          · subst hparen
            rw [read, read, ih _ (by simp) ht rfl]
            cases hl : read d' t with
            | error e => rfl
            | ok o =>
                obtain ⟨l, t₁, hlt₁⟩ := o
                have hreads : Reads d' t l t₁ := ⟨hlt₁, hl⟩
                have ht₁ : AgreeOn d d' t₁ := ht.of_suffix ⟨_, hreads.eq_text_append.2.symm⟩
                simp only [readConnective_congr ht₁]
                cases hop : readConnective d' t₁ with
                | none => rfl
                | some o =>
                    obtain ⟨op, t₂, hlt₂⟩ := o
                    have ht₂ : AgreeOn d d' t₂ :=
                      ht₁.of_suffix ⟨_, (readConnective_eq_some.1 hop).2.symm⟩
                    simp only [ih t₂.length (by simp only [List.length_cons]; omega) ht₂ rfl]
          · rw [read_eq_readAtom hneg hparen, read_eq_readAtom hneg hparen, readAtom, readAtom,
              startsWithShortConnective_congr h]

/-- A text without the four later connectives is read in the larger language as it was in the smaller one. The same
formula is answered, or none, with the same rest or message. Reading with one buffer ends with this answer in either
language, by calls that are nested no deeper than the text is long and two more. -/
theorem readText_basic_eq_readText_all {s : String}
    (hs : ∀ w ∈ ["+", "<->", "-&", "-|"], ¬ w.toList <:+: s.toList) :
    readText Connective.basic s = readText Connective.all s ∧
      ∀ d ∈ [Connective.basic, Connective.all], ∀ n, s.toList.length + 2 ≤ n →
        Buffer.nested d n s.toList = some ((readText d s).1, (readText d s).2.toList) := by
  have hagree : AgreeOn Connective.basic Connective.all s.toList := by
    intro op hop
    have hnew : ∀ w ∈ ["+", "<->", "-&", "-|"], op.symbol ≠ w := by
      rintro w hw rfl
      exact hs _ hw hop
    cases op <;> simp_all [Connective.basic, Connective.all, Connective.symbol]
  refine ⟨?_, fun d _ n hn => ?_⟩
  · rw [readText, readText, read_congr hagree]
  · obtain ⟨n, rfl⟩ := Nat.exists_eq_add_of_le' (Nat.le_of_add_left_le hn)
    rw [(Buffer.serves_nested n).reads _ (Nat.le_of_add_le_add_right hn), Buffer.answer_read_toList]
    rfl

/-- The second operand lacks an operand of its own, so the whole text is no formula in either language. -/
theorem readText_basic_eq_readText_all_lacking :
    let s := "((p->q)|~(p&)"
    (∀ w ∈ ["+", "<->", "-&", "-|"], ¬ w.toList <:+: s.toList) ∧
      readText Connective.basic s = (none, ReadError.badOperand.message) ∧
        readText Connective.all s = (none, ReadError.badOperand.message) := by
  intro s
  have hs : ∀ w ∈ ["+", "<->", "-&", "-|"], ¬ w.toList <:+: s.toList := by decide
  obtain ⟨hsame, hbuffer⟩ := readText_basic_eq_readText_all hs
  have hbasic := hbuffer Connective.basic (by decide) 15 (by decide)
  have hrun : Buffer.nested Connective.basic 15 s.toList = some (Buffer.failed .badOperand) := by decide +kernel
  rw [hrun, Option.some.injEq, Buffer.failed, Prod.mk.injEq, String.toList_inj] at hbasic
  have hanswer : readText Connective.basic s = (none, ReadError.badOperand.message) :=
    Prod.ext hbasic.1.symm hbasic.2.symm
  exact ⟨hs, hanswer, hsame ▸ hanswer⟩

end FormalLogic.Propositional
