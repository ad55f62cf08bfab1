import FormalLogic.Proofs.Predicate.Completeness.ClosedSets

/-!
# The model that sentences describe

Sentences describe a model on their constants in which a relation holds where one of them says so. The
table of its relations is filled sentence by sentence (`Tabulates.affirm`).

Such a model has a meaning for a relation only if some sentence asserts it by itself, and only for the
number of arguments that it has there. So it gives meanings to a sentence exactly if all its relations are
asserted (`Describes.interprets_iff`). A primitive sentence over the constants holds in it exactly if it is
one of the sentences (`Describes.holds_rel`).
-/

namespace FormalLogic.Predicate.Sentences

/-! ## Asserted relations -/

/-- The relations of sentences that are relation formulas, with their numbers of arguments. -/
def asserted (S : List Formula) : List (String × Nat) :=
  S.filterMap fun
    | .rel n ts => some (n, ts.length)
    | _ => none

/-- A relation is asserted by itself, and never with another number of arguments. -/
def Grounds (S : List Formula) (r : String × Nat) : Prop :=
  r ∈ asserted S ∧ ∀ a ∈ asserted S, a.1 = r.1 → a.2 = r.2

instance (S : List Formula) : DecidablePred (Grounds S) := fun r =>
  inferInstanceAs (Decidable (r ∈ asserted S ∧ ∀ a ∈ asserted S, a.1 = r.1 → a.2 = r.2))

/-- Every relation that occurs in sentences is asserted by itself. -/
def Grounded (S : List Formula) : Prop :=
  ∀ f ∈ S, ∀ r ∈ f.relationNodes, Grounds S r

instance (S : List Formula) : Decidable (Grounded S) :=
  inferInstanceAs (Decidable (∀ f ∈ S, ∀ r ∈ f.relationNodes, Grounds S r))

variable {S : List Formula}

theorem mem_asserted {r : String × Nat} :
    r ∈ asserted S ↔ ∃ ts, .rel r.1 ts ∈ S ∧ ts.length = r.2 := by
  rw [asserted, List.mem_filterMap]
  constructor
  · rintro ⟨f, hf, h⟩
    cases f with
    | rel n ts =>
        obtain rfl := Option.some.inj h
        exact ⟨ts, hf, rfl⟩
    | _ => cases h
  · rintro ⟨ts, hts, hlength⟩
    exact ⟨.rel r.1 ts, hts, congrArg (fun n => some (r.1, n)) hlength⟩

/-! ## The table of relations -/

/-- The table of relations after one more sentence. -/
def affirm (t : List (String × List (List String))) : Formula → List (String × List (List String))
  | .rel n ts => Table.put t n ((Table.find? t n).getD [] ++ [ts.map Term.text])
  | _ => t

theorem describedModel_eq (S : List Formula) : describedModel S =
    Model.make (constants S) ((constants S).map fun c => (c, c)) (S.foldl affirm []) [] := rfl

/-- A table lists exactly the arguments for which sentences assert a relation. -/
structure Tabulates (S : List Formula) (t : List (String × List (List String))) : Prop where
  nonempty : ∀ e ∈ t, e.2 ≠ []
  sound : ∀ e ∈ t, ∀ row ∈ e.2, ∃ ts, .rel e.1 ts ∈ S ∧ ts.map Term.text = row
  complete : ∀ n ts, .rel n ts ∈ S → ∃ rows, Table.find? t n = some rows ∧ ts.map Term.text ∈ rows

namespace Tabulates

variable {t : List (String × List (List String))}

/-- A sentence that is no relation formula has no row. -/
theorem append_of_ne (h : Tabulates S t) {f : Formula} (hf : ∀ n ts, f ≠ .rel n ts) :
    Tabulates (S ++ [f]) t := by
  refine ⟨h.nonempty, fun e he row hrow => ?_, fun n ts hts => ?_⟩
  · obtain ⟨ts, hts, hrow⟩ := h.sound e he row hrow
    exact ⟨ts, List.mem_append_left _ hts, hrow⟩
  · rcases List.mem_append.1 hts with hts | hts
    · exact h.complete n ts hts
    · exact absurd (List.mem_singleton.1 hts).symm (hf n ts)

/-- One more sentence is put into the table. -/
theorem affirm (h : Tabulates S t) (f : Formula) : Tabulates (S ++ [f]) (affirm t f) := by
  cases f with
  | rel n ts =>
      refine ⟨fun e he => ?_, fun e he row hrow => ?_, fun n' ts' hts' => ?_⟩
      · rcases Table.mem_put he with rfl | he
        · simp
        · exact h.nonempty e he
      · rcases Table.mem_put he with rfl | he
        · rcases List.mem_append.1 hrow with hrow | hrow
          -- the row was there before
          · cases hfind : Table.find? t n with
            | none => simp [hfind] at hrow
            | some rows =>
                rw [hfind] at hrow
                obtain ⟨ts', hts', hrow⟩ := h.sound _ (Table.mem_of_find?_eq_some hfind) row hrow
                exact ⟨ts', List.mem_append_left _ hts', hrow⟩
          · exact ⟨ts, by simp, (List.mem_singleton.1 hrow).symm⟩
        · obtain ⟨ts', hts', hrow⟩ := h.sound e he row hrow
          exact ⟨ts', List.mem_append_left _ hts', hrow⟩
      · rw [Sentences.affirm, Table.find?_put]
        by_cases hn : n = n'
        · subst hn
          refine ⟨_, if_pos rfl, ?_⟩
          rcases List.mem_append.1 hts' with hts' | hts'
          · obtain ⟨rows, hrows, hrow⟩ := h.complete n ts' hts'
            rw [hrows]
            exact List.mem_append_left _ hrow
          · simp only [List.mem_singleton, Formula.rel.injEq, true_and] at hts'
            rw [hts']
            exact List.mem_append_right _ (List.mem_singleton.2 rfl)
        · rw [if_neg hn]
          rcases List.mem_append.1 hts' with hts' | hts'
          · exact h.complete n' ts' hts'
          · simp only [List.mem_singleton, Formula.rel.injEq] at hts'
            exact absurd hts'.1.symm hn
  | _ => exact h.append_of_ne fun _ _ hf => by cases hf

theorem hasKey_iff (h : Tabulates S t) {n : String} :
    Table.hasKey t n = true ↔ ∃ ts, .rel n ts ∈ S := by
  constructor
  · intro hkey
    obtain ⟨rows, hrows⟩ := Option.isSome_iff_exists.1 hkey
    have hmem := Table.mem_of_find?_eq_some hrows
    obtain ⟨row, hrow⟩ := List.exists_mem_of_ne_nil _ (h.nonempty _ hmem)
    obtain ⟨ts, hts, -⟩ := h.sound _ hmem row hrow
    exact ⟨ts, hts⟩
  · rintro ⟨ts, hts⟩
    obtain ⟨rows, hrows, -⟩ := h.complete n ts hts
    exact Option.isSome_iff_exists.2 ⟨rows, hrows⟩

theorem mem_iff (h : Tabulates S t) {n : String} {row : List String} :
    row ∈ (Table.find? t n).getD [] ↔ ∃ ts, .rel n ts ∈ S ∧ ts.map Term.text = row := by
  constructor
  · intro hrow
    cases hrows : Table.find? t n with
    | none => simp [hrows] at hrow
    | some rows =>
        rw [hrows] at hrow
        exact h.sound _ (Table.mem_of_find?_eq_some hrows) row hrow
  · rintro ⟨ts, hts, rfl⟩
    obtain ⟨rows, hrows, hrow⟩ := h.complete n ts hts
    rwa [hrows]

end Tabulates

/-- The table that results from all sentences. -/
theorem tabulates_foldl (S : List Formula) : Tabulates S (S.foldl affirm []) := by
  induction S using List.reverseRecOn with
  | nil => exact ⟨by simp, by simp, by simp⟩
  | append_singleton S f ih =>
      rw [List.foldl_append]
      exact ih.affirm f

/-! ## The described model -/

/-- A model on the constants with the relations that sentences assert. -/
structure Describes (S : List Formula) (m : Model) : Prop extends ConstantModel S m where
  hasKey_relations : ∀ n, Table.hasKey m.relations n = true ↔ ∃ ts, .rel n ts ∈ S
  arity : ∀ n ts, .rel n ts ∈ S → m.relationArity? n = some ts.length
  row : ∀ n row, m.interpretation.rel n row = true ↔ ∃ ts, .rel n ts ∈ S ∧ ts.map Term.text = row

section DescribedModel

variable {m : Model} {f : Formula}

theorem find?_map_self {cs : List String} {c : String} (hc : c ∈ cs) :
    Table.find? (cs.map fun c => (c, c)) c = some c := by
  induction cs with
  | nil => cases hc
  | cons d cs ih =>
      rw [List.map_cons, Table.find?_cons]
      by_cases hd : d = c
      · rw [if_pos hd, hd]
      · rw [if_neg hd]
        exact ih ((List.mem_cons.1 hc).resolve_left (Ne.symm hd))

theorem describes_of_describedModel (h : describedModel S = .ok m) : Describes S m := by
  rw [describedModel_eq] at h
  have hwf := Model.wellFormed_of_make h fun _ he => nomatch he
  obtain ⟨-, hrelations, -, rfl⟩ := Model.make_eq_ok.1 h
  have htable := tabulates_foldl S
  generalize S.foldl affirm [] = t at *
  have hfind : ∀ n, Table.find? (t.map fun r => (r.1, sortedRows r.2)) n =
      (Table.find? t n).map sortedRows := Table.find?_map t sortedRows
  refine ⟨⟨hwf, fun _ => mem_sortedSet, fun c hc => find?_map_self hc⟩, fun n => ?_, fun n ts hts => ?_,
    fun n row => ?_⟩
  · rw [Table.hasKey, hfind, Option.isSome_map]
    exact htable.hasKey_iff
  · obtain ⟨rows, hrows, hrow⟩ := htable.complete n ts hts
    have hcheck := hrelations _ (List.mem_map_of_mem (Table.mem_of_find?_eq_some hrows))
    have hlength := (Model.checkRelation_eq_ok.1 hcheck).2.1 _ (mem_sortedRows.2 hrow)
    rw [Model.relationArity?, hfind, hrows]
    exact (hlength.symm.trans (congrArg some (List.length_map _)))
  · rw [← htable.mem_iff]
    change ((Table.find? _ n).getD []).contains row = true ↔ _
    rw [hfind, List.contains_iff_mem]
    cases Table.find? t n with
    | none => exact Iff.rfl
    | some rows => exact mem_sortedRows

/-- The described model gives meanings to a sentence exactly if all its relations are asserted. -/
theorem Describes.interprets_iff (hm : Describes S m) (hS : ∀ f ∈ S, f.WellFormed) (hf : f ∈ S)
    (hfunctions : f.functionNodes = []) :
    m.Interprets f ↔ ∀ r ∈ f.relationNodes, Grounds S r := by
  have hgrounds : ∀ r, Grounds S r ↔ Table.hasKey m.relations r.1 = true ∧
      ∀ n, m.relationArity? r.1 = some n → n = r.2 := by
    intro r
    rw [hm.hasKey_relations]
    constructor
    · rintro ⟨hr, -⟩
      obtain ⟨ts, hts, hlength⟩ := mem_asserted.1 hr
      refine ⟨⟨ts, hts⟩, fun n hn => ?_⟩
      exact (Option.some.inj (hn.symm.trans (hm.arity _ ts hts))).trans hlength
    · rintro ⟨⟨ts, hts⟩, harity⟩
      refine ⟨mem_asserted.2 ⟨ts, hts, harity _ (hm.arity _ ts hts)⟩, fun a ha hname => ?_⟩
      obtain ⟨ts', hts', hlength⟩ := mem_asserted.1 ha
      rw [hname] at hts'
      exact hlength.symm.trans (harity _ (hm.arity _ ts' hts'))
  constructor
  · exact fun h r hr => (hgrounds r).2 (h.relations r hr)
  · intro h
    refine ⟨fun c hc => ?_, fun e he => ?_, fun r hr => (hgrounds r).1 (h r hr)⟩
    · exact hm.hasKey ((mem_constants hS).2 ⟨f, hf, hc⟩)
    · rw [hfunctions] at he
      exact nomatch he

end DescribedModel

/-! ## Primitive parts -/

/-- A closed term without functions is a constant. -/
theorem exists_const {t : Term} (ht : t.WellFormed) (hvars : t.variableLeaves = [])
    (hfunctions : t.functionNodes = []) : ∃ c, t = .const c := by
  cases t with
  | const c => exact ⟨c, rfl⟩
  | var x => simp [Term.variableLeaves] at hvars
  | app n ts => simp [Term.functionNodes] at hfunctions
  | missing => exact ht.elim

theorem map_text_const (cs : List String) : (cs.map Term.const).map Term.text = cs := by
  rw [List.map_map]
  exact List.map_id cs

theorem exists_rel_of_mem_primitivesOf {f p : Formula} (hp : p ∈ primitivesOf f) :
    ∃ n ts, p = .rel n ts := by
  induction f with
  | rel n ts => exact ⟨n, ts, List.mem_singleton.1 hp⟩
  | neg f ih => exact ih hp
  | bin op l r ihl ihr => exact (List.mem_append.1 hp).elim ihl ihr
  | _ => cases hp

/-- The primitive parts of a formula have its relations, terms and free variables. -/
theorem names_of_mem_primitivesOf {f : Formula} (hf : f.WellFormed) {n : String} {ts : List Term}
    (hp : .rel n ts ∈ primitivesOf f) : (n, ts.length) ∈ f.relationNodes ∧ ∀ t ∈ ts, t ∈ f.terms ∧
      t.variableLeaves ⊆ f.freeNames := by
  induction f with
  | rel n' ts' =>
      cases List.mem_singleton.1 hp
      refine ⟨List.mem_singleton.2 rfl, fun t ht => ⟨ht, fun x hx => ?_⟩⟩
      rw [Formula.freeNames_rel hf]
      exact List.mem_flatMap.2 ⟨t, ht, hx⟩
  | neg f ih => exact ih hf hp
  | bin op l r ihl ihr =>
      rcases List.mem_append.1 hp with hp | hp
      · obtain ⟨hr, hts⟩ := ihl hf.1 hp
        exact ⟨List.mem_append_left _ hr, fun t ht => ⟨List.mem_append_left _ (hts t ht).1,
          List.subset_append_of_subset_left _ (hts t ht).2⟩⟩
      · obtain ⟨hr, hts⟩ := ihr hf.2 hp
        exact ⟨List.mem_append_right _ hr, fun t ht => ⟨List.mem_append_right _ (hts t ht).1,
          List.subset_append_of_subset_right _ (hts t ht).2⟩⟩
  | _ => cases hp

section Closed

variable (hS : Closed S) (hfunctions : ∀ f ∈ S, f.functionNodes = [])
include hS hfunctions

/-- The primitive parts of a sentence are about constants. -/
theorem exists_constants {f : Formula} (hf : f ∈ S) {n : String} {ts : List Term}
    (hp : .rel n ts ∈ primitivesOf f) : ∃ cs : List String, ts = cs.map Term.const ∧
      (∀ c ∈ cs, c ∈ constants S) ∧ (n, cs.length) ∈ f.relationNodes := by
  have hwf := hS.wellFormed f hf
  obtain ⟨hr, hterms⟩ := names_of_mem_primitivesOf hwf hp
  have hconst : ∀ t ∈ ts, t = .const t.text ∧ t.text ∈ constants S := by
    intro t ht
    obtain ⟨hmem, hvars⟩ := hterms t ht
    rw [hS.sentence f hf] at hvars
    have hnodes : t.functionNodes = [] := List.flatMap_eq_nil_iff.1 (hfunctions f hf) t hmem
    obtain ⟨c, rfl⟩ := exists_const (hwf.terms t hmem) (List.subset_nil.1 hvars) hnodes
    have hc : c ∈ f.constantNames := List.mem_flatMap.2 ⟨_, hmem, List.mem_singleton.2 rfl⟩
    exact ⟨rfl, (mem_constants hS.wellFormed).2 ⟨f, hf, hc⟩⟩
  refine ⟨ts.map Term.text, ?_, fun c hc => ?_, by rwa [List.length_map]⟩
  · rw [List.map_map]
    exact (List.map_id ts).symm.trans (List.map_congr_left fun t ht => (hconst t ht).1)
  · obtain ⟨t, ht, rfl⟩ := List.mem_map.1 hc
    exact (hconst t ht).2

/-- What is asserted by itself is asserted of constants. -/
theorem exists_constants_of_rel_mem {n : String} {ts : List Term} (h : .rel n ts ∈ S) :
    ∃ cs : List String, ts = cs.map Term.const ∧ ∀ c ∈ cs, c ∈ constants S := by
  obtain ⟨cs, hts, hcs, -⟩ := exists_constants hS hfunctions h (List.mem_singleton.2 rfl)
  exact ⟨cs, hts, hcs⟩

/-- A relation holds of constants in the described model exactly if a sentence says so. -/
theorem Describes.holds_rel {m : Model} (hm : Describes S m) {n : String} {cs : List String}
    (hcs : ∀ c ∈ cs, c ∈ constants S) :
    holds m (.rel n (cs.map Term.const)) = true ↔ .rel n (cs.map Term.const) ∈ S := by
  have hdenote : (cs.map Term.const).map (Term.denote m.interpretation (m.valuation [])) = cs := by
    rw [List.map_map]
    exact (List.map_congr_left fun c hc => hm.const_eq (hcs c hc)).trans (List.map_id cs)
  rw [holds, Formula.truth, hdenote, hm.row]
  constructor
  · rintro ⟨ts, hts, hrow⟩
    obtain ⟨cs', rfl, -⟩ := exists_constants_of_rel_mem hS hfunctions hts
    rwa [← hrow, map_text_const]
  · exact fun h => ⟨_, h, map_text_const cs⟩

/-- Sentences whose relations are all asserted describe a model. -/
theorem exists_describedModel (hgrounded : Grounded S) : ∃ m, describedModel S = .ok m := by
  refine ⟨_, (describedModel_eq S).trans (Model.make_eq_ok.2 ⟨?_, ?_, by simp, rfl⟩)⟩
  · intro e he
    obtain ⟨c, hc, rfl⟩ := List.mem_map.1 he
    exact ⟨(requireName_eq_ok rfl).2 (isConstant_of_mem hS.wellFormed hc), mem_sortedSet.2 hc⟩
  · have htable := tabulates_foldl S
    intro e he
    obtain ⟨⟨n, rows⟩, hmem, rfl⟩ := List.mem_map.1 he
    have hrows : ∀ row ∈ sortedRows rows, ∃ ts, .rel n ts ∈ S ∧ ts.map Term.text = row :=
      fun row hrow => htable.sound _ hmem row (mem_sortedRows.1 hrow)
    rw [Model.checkRelation_eq_ok]
    refine ⟨?_, fun row hrow => ?_, fun row hrow => ?_⟩
    · obtain ⟨row, hrow⟩ := List.exists_mem_of_ne_nil _ (htable.nonempty _ hmem)
      obtain ⟨ts, hts, -⟩ := htable.sound _ hmem row hrow
      exact (requireName_eq_ok rfl).2 (hS.wellFormed _ hts).1
    -- the first row is as long as any other, since both are asserted
    · obtain ⟨first, hfirst⟩ := Option.isSome_iff_exists.1
        (List.isSome_head?.2 (List.ne_nil_of_mem hrow))
      rw [Model.tupleLength?, hfirst]
      obtain ⟨ts, hts, rfl⟩ := hrows row hrow
      obtain ⟨ts', hts', rfl⟩ := hrows first (List.mem_of_mem_head? hfirst)
      have hlength := (hgrounded _ hts (n, ts.length) (List.mem_singleton.2 rfl)).2 (n, ts'.length)
        (mem_asserted.2 ⟨ts', hts', rfl⟩) rfl
      simpa using hlength.symm
    · obtain ⟨ts, hts, rfl⟩ := hrows row hrow
      obtain ⟨cs, rfl, hcs⟩ := exists_constants_of_rel_mem hS hfunctions hts
      rw [map_text_const]
      exact fun c hc => mem_sortedSet.2 (hcs c hc)

end Closed

end FormalLogic.Predicate.Sentences
