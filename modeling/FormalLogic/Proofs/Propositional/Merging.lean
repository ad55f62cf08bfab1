import FormalLogic.Propositional.Merging
import FormalLogic.Proofs.Propositional.ExactMatching

/-!
# Matching by merging

The second checker matches the parts of a formula each on its own and merges the images found, where the first
one hands them on from part to part. Merging is associative (`mergeTables?_assoc`), so both find the same images,
in the same order (`Merging.matchFormula_eq_bind`).

On rules they agree but for one case. The second checker takes a table without images for a failure after each
assumption. Since images are only ever added, this matters exactly if the first assumption of the general rule
has no variable (`Merging.images?_eq_images?_iff`). So both accept the same proofs, as long as these use no
such rule (`Merging.isValid_eq_true`).
-/

namespace FormalLogic.Propositional

open Formula

/-! ## Merging tables -/

section Tables

variable {α : Type} {s t u : List (String × α)}

/-- Two tables agree on the keys that they share. -/
def Compatible (s t : List (String × α)) : Prop :=
  ∀ k a b, Table.find? s k = some a → Table.find? t k = some b → a = b

/-- The entries of a table, and those of another for further keys. -/
def merged (s t : List (String × α)) : List (String × α) :=
  s ++ t.filter fun e => !Table.hasKey s e.1

theorem find?_merged (s t : List (String × α)) (k : String) :
    Table.find? (merged s t) k = (Table.find? s k).or (Table.find? t k) := by
  rw [merged, Table.find?_append, Table.find?_filter t fun k => !Table.hasKey s k, Table.hasKey]
  cases Table.find? s k <;> simp

theorem hasKey_merged (s t : List (String × α)) (k : String) :
    Table.hasKey (merged s t) k = (Table.hasKey s k || Table.hasKey t k) := by
  rw [Table.hasKey, find?_merged, Option.isSome_or]
  rfl

theorem nodup_keys_merged (hs : (Table.keys s).Nodup) (ht : (Table.keys t).Nodup) :
    (Table.keys (merged s t)).Nodup := by
  rw [merged, Table.keys, List.map_append]
  refine List.nodup_append'.2 ⟨hs, (List.filter_sublist.map _).nodup ht, fun k hk hk' => ?_⟩
  obtain ⟨e, he, rfl⟩ := List.mem_map.1 hk'
  have hnew : Table.hasKey s e.1 = false := by simpa using (List.mem_filter.1 he).2
  rw [Table.hasKey, Table.find?_isSome.2 hk] at hnew
  cases hnew

theorem merged_assoc (s t u : List (String × α)) : merged (merged s t) u = merged s (merged t u) := by
  have hfurther : (u.filter fun e => !Table.hasKey (merged s t) e.1) =
      (u.filter fun e => !Table.hasKey t e.1).filter fun e => !Table.hasKey s e.1 := by
    rw [List.filter_filter]
    exact List.filter_congr fun e _ => by rw [hasKey_merged, Bool.not_or]
  rw [merged, hfurther, merged, merged, merged, List.filter_append, List.append_assoc]

theorem compatible_merged_left (h : Compatible s t) :
    Compatible (merged s t) u ↔ Compatible s u ∧ Compatible t u := by
  simp only [Compatible, find?_merged, Option.or_eq_some_iff]
  constructor
  · intro hu
    refine ⟨fun k a b ha hb => hu k a b (.inl ha) hb, fun k a b ha hb => ?_⟩
    cases hk : Table.find? s k with
    | none => exact hu k a b (.inr ⟨hk, ha⟩) hb
    | some c => exact h k c a hk ha ▸ hu k c b (.inl hk) hb
  · rintro ⟨hs, ht⟩ k a b (ha | ⟨-, ha⟩) hb
    · exact hs k a b ha hb
    · exact ht k a b ha hb

theorem compatible_merged_right (h : Compatible t u) :
    Compatible s (merged t u) ↔ Compatible s t ∧ Compatible s u := by
  simp only [Compatible, find?_merged, Option.or_eq_some_iff]
  constructor
  · intro hs
    refine ⟨fun k a b ha hb => hs k a b ha (.inl hb), fun k a b ha hb => ?_⟩
    cases hk : Table.find? t k with
    | none => exact hs k a b ha (.inr ⟨hk, hb⟩)
    | some c => exact (hs k a c ha (.inl hk)).trans (h k c b hk hb)
  · rintro ⟨ht, hu⟩ k a b ha (hb | ⟨-, hb⟩)
    · exact ht k a b ha hb
    · exact hu k a b ha hb

variable [DecidableEq α]

theorem mergeTables?_eq_some (hs : (Table.keys s).Nodup) :
    mergeTables? s t = some u ↔ Compatible s t ∧ merged s t = u := by
  rw [mergeTables?, Option.ite_none_right_eq_some, Option.some.injEq, List.all_eq_true]
  refine and_congr_left fun _ => ⟨fun h k a b ha hb => ?_, fun h e he => ?_⟩
  · have hentry := h (k, a) (Table.mem_of_find?_eq_some ha)
    rw [hb] at hentry
    exact of_decide_eq_true hentry
  · cases hb : Table.find? t e.1 with
    | none => rfl
    | some b => exact decide_eq_true (h e.1 e.2 b (Table.find?_eq_some_of_mem hs he) hb)

/-- It does not matter which of three tables are merged first. -/
theorem mergeTables?_assoc (hs : (Table.keys s).Nodup) (ht : (Table.keys t).Nodup) :
    ((mergeTables? s t).bind fun st => mergeTables? st u) =
      (mergeTables? t u).bind fun tu => mergeTables? s tu := by
  refine Option.ext fun w => ?_
  simp only [Option.bind_eq_some_iff, mergeTables?_eq_some hs, mergeTables?_eq_some ht]
  constructor
  · rintro ⟨_, ⟨hst, rfl⟩, hw⟩
    obtain ⟨hstu, rfl⟩ := (mergeTables?_eq_some (nodup_keys_merged hs ht)).1 hw
    obtain ⟨hsu, htu⟩ := (compatible_merged_left hst).1 hstu
    exact ⟨_, ⟨htu, rfl⟩, (compatible_merged_right htu).2 ⟨hst, hsu⟩, (merged_assoc s t u).symm⟩
  · rintro ⟨_, ⟨htu, rfl⟩, hstu, rfl⟩
    obtain ⟨hst, hsu⟩ := (compatible_merged_right htu).1 hstu
    refine ⟨_, ⟨hst, rfl⟩, (mergeTables?_eq_some (nodup_keys_merged hs ht)).2 ⟨?_, ?_⟩⟩
    · exact (compatible_merged_left hst).2 ⟨hsu, htu⟩
    · exact merged_assoc s t u

end Tables

theorem compatible_singleton {m : Specialization} {x : String} {g : Formula} :
    Compatible m [(x, g)] ↔ ∀ h, Table.find? m x = some h → h = g := by
  simp only [Compatible, Table.find?_cons, Table.find?_nil, Option.ite_none_right_eq_some,
    Option.some.injEq]
  constructor
  · exact fun hm h hx => hm x h g hx ⟨rfl, rfl⟩
  · rintro hm _ h _ hx ⟨rfl, rfl⟩
    exact hm h hx

namespace Merging

/-! ## Formulas -/

theorem merge?_some_left (m : Specialization) (t : Option Specialization) :
    merge? (some m) t = t.bind (mergeTables? m) := by
  cases t <;> rfl

theorem merge?_eq_bind (s t : Option Specialization) :
    merge? s t = s.bind fun s => t.bind (mergeTables? s) := by
  cases s with
  | none => rfl
  | some s => exact merge?_some_left s t

theorem nodup_keys_matchFormula? {f g : Formula} {t : Specialization} (h : matchFormula? f g = some t) :
    (Table.keys t).Nodup := by
  induction f generalizing g t with
  | var x =>
      obtain rfl : [(x, g)] = t := Option.some.inj (by simpa [matchFormula?] using h)
      exact List.nodup_singleton x
  | const a =>
      cases g with
      | const b =>
          rw [matchFormula?, Option.ite_none_right_eq_some] at h
          rw [← Option.some.inj h.2]
          exact List.nodup_nil
      | _ => simp [matchFormula?] at h
  | neg f ih =>
      cases g with
      | neg g => exact ih h
      | _ => simp [matchFormula?] at h
  | bin op l r ihl ihr =>
      cases g with
      | bin op' l' r' =>
          rw [matchFormula?, Option.ite_none_right_eq_some, merge?_eq_bind, Option.bind_eq_some_iff] at h
          obtain ⟨-, s, hs, h⟩ := h
          obtain ⟨t', ht', h⟩ := Option.bind_eq_some_iff.1 h
          obtain ⟨-, rfl⟩ := (mergeTables?_eq_some (ihl hs)).1 h
          exact nodup_keys_merged (ihl hs) (ihr ht')
      | _ => simp [matchFormula?] at h
  | missing => simp [matchFormula?] at h

/-- Handing on the images found before is merging them with those found on its own. -/
theorem matchFormula_eq_bind {d : Dialect} {f g : Formula} (hf : f.WellFormed d) {m : Specialization}
    (hm : (Table.keys m).Nodup) : matchFormula m f g = (matchFormula? f g).bind (mergeTables? m) := by
  induction f generalizing g m with
  | var x =>
      refine Option.ext fun m' => ?_
      rw [matchFormula_var, matchFormula?, Option.bind_some, mergeTables?_eq_some hm]
      rw [compatible_singleton]
      cases hx : Table.find? m x with
      | none => simp [merged, Table.hasKey, hx, eq_comm]
      | some h => simp [merged, Table.hasKey, hx, eq_comm]
  | const a =>
      cases g with
      | const b =>
          have hmerge : mergeTables? m [] = some m := by
            refine (mergeTables?_eq_some hm).2 ⟨fun k a b _ hb => ?_, List.append_nil m⟩
            cases hb
          rw [matchFormula, matchFormula?]
          split
          · exact hmerge.symm
          · rfl
      | _ => rfl
  | neg f ih =>
      cases g with
      | neg g => exact ih hf hm
      | _ => rfl
  | bin op l r ihl ihr =>
      cases g with
      | bin op' l' r' =>
          rw [matchFormula_bin, matchFormula?]
          by_cases hop : op = op'
          · rw [if_pos hop, if_pos hop, ihl hf.2.1 hm, merge?_eq_bind]
            cases hl : matchFormula? l l' with
            | none => rfl
            | some s =>
                have hs := nodup_keys_matchFormula? hl
                have hr : ∀ m', mergeTables? m s = some m' →
                    matchFormula m' r r' = (matchFormula? r r').bind (mergeTables? m') := by
                  intro m' hm'
                  obtain ⟨-, rfl⟩ := (mergeTables?_eq_some hm).1 hm'
                  exact ihr hf.2.2 (nodup_keys_merged hm hs)
                calc (mergeTables? m s).bind (fun m' => matchFormula m' r r')
                    = (mergeTables? m s).bind fun m' => (matchFormula? r r').bind (mergeTables? m') :=
                      Option.bind_congr hr
                  _ = (matchFormula? r r').bind fun t => (mergeTables? m s).bind fun m' => mergeTables? m' t :=
                      Option.bind_comm _ _
                  _ = (matchFormula? r r').bind fun t => (mergeTables? s t).bind (mergeTables? m) :=
                      Option.bind_congr fun t _ => mergeTables?_assoc hm hs
                  _ = ((matchFormula? r r').bind (mergeTables? s)).bind (mergeTables? m) :=
                      (Option.bind_assoc _ _ _).symm
          · rw [if_neg hop, if_neg hop]
            rfl
      | _ => rfl
  | missing => exact hf.elim

/-! ## Rules -/

theorem formulaImages?_eq_ok {f g : Formula} (hf : f.isMissing = false) (hg : g.isMissing = false) :
    formulaImages? f g = .ok (matchFormula? f g) := by
  rw [formulaImages?, given_eq_self hf, ok_bind]
  cases f with
  | var x => rfl
  | missing => cases hf
  | _ => rw [given_eq_self hg]; rfl

section Rules

variable {d : Dialect}

theorem assumptionImages?_cons {m : Specialization} {f g : Formula} (fs gs : List Formula)
    (hm : (Table.keys m).Nodup) (hf : f.WellFormed d) (hg : g.WellFormed d) :
    assumptionImages? m (f :: fs) (g :: gs) = (matchFormula m f g).elim (.ok none) fun m' =>
      if m' = [] then .ok none else assumptionImages? m' fs gs := by
  rw [assumptionImages?, formulaImages?_eq_ok hf.isMissing_eq_false hg.isMissing_eq_false, ok_bind,
    merge?_some_left, ← matchFormula_eq_bind hf hm]
  cases matchFormula m f g with
  | none => rfl
  | some m' => cases m' <;> rfl

/-- Whether the first formula of a list has no variable. -/
def startsClosed (fs : List Formula) : Bool :=
  fs.head?.any fun f => f.leafVariables.isEmpty

theorem eq_nil_of_matchFormula {m m' : Specialization} {f g : Formula} (h : matchFormula m f g = some m') :
    m' = [] ↔ m = [] ∧ f.leafVariables = [] := by
  have hkeys := @mem_keys_of_matchFormula m m' f g h
  have hnil : ∀ t : Specialization, t = [] ↔ ∀ x, x ∉ Table.keys t := by
    intro t
    rw [← List.eq_nil_iff_forall_not_mem, Table.keys, List.map_eq_nil_iff]
  simp only [hnil, List.eq_nil_iff_forall_not_mem, hkeys, not_or, forall_and]

/-- Matching goes through the assumptions as the first checker does, unless it starts without any image at an
assumption that has no variable. -/
theorem assumptionImages?_eq_ok {m : Specialization} (hm : (Table.keys m).Nodup) {fs gs : List Formula}
    (hfs : ∀ f ∈ fs, f.WellFormed d) (hgs : ∀ g ∈ gs, g.WellFormed d) (hlength : fs.length = gs.length) :
    assumptionImages? m fs gs =
      .ok (if m = [] ∧ startsClosed fs = true then none else matchFormulas m fs gs) := by
  induction fs generalizing m gs with
  | nil =>
      obtain rfl := List.length_eq_zero_iff.1 hlength.symm
      rw [assumptionImages?, if_neg (by simp [startsClosed]), matchFormulas]
      simp
  | cons f fs ih =>
      cases gs with
      | nil => cases hlength
      | cons g gs =>
          obtain ⟨hf, hfs⟩ := List.forall_mem_cons.1 hfs
          obtain ⟨hg, hgs⟩ := List.forall_mem_cons.1 hgs
          rw [assumptionImages?_cons fs gs hm hf hg, matchFormulas_cons]
          cases h : matchFormula m f g with
          | none => rw [Option.bind_none, ite_self]; rfl
          | some m' =>
              have hclosed : m' = [] ↔ m = [] ∧ startsClosed (f :: fs) = true := by
                rw [eq_nil_of_matchFormula h, startsClosed]
                simp
              rw [Option.elim_some, Option.bind_some,
                ih (nodup_keys_of_matchFormula hm h) hfs hgs (Nat.succ.inj hlength)]
              by_cases hm' : m' = []
              · rw [if_pos hm', if_pos (hclosed.1 hm')]
              · rw [if_neg hm', if_neg (hclosed.not.1 hm'), if_neg fun h => hm' h.1]

/-- The images found in the assumptions are merged with those found in the conclusion. -/
theorem images?_rule (as as' : List Formula) (c c' : Formula) :
    images? (.rule as c) (.rule as' c') =
      if as.length = as'.length then do
        let m ← assumptionImages? [] as as'
        m.elim (.ok none) fun m => merge? (some m) <$> formulaImages? c c'
      else .ok none := by
  rw [images?]
  change (if as.length = as'.length then _ else _) = _
  refine if_congr Iff.rfl ?_ rfl
  refine congrArg (assumptionImages? [] as as' >>= ·) (funext fun m => ?_)
  cases m with
  | none => rfl
  | some m =>
      change (formulaImages? c c' >>= _) = _
      cases formulaImages? c c' <;> rfl

/-- A rule is matched as by the first checker, unless its first assumption has no variable. -/
theorem images?_eq_ok {general special : InferenceRule} (hgeneral : general.WellFormed d)
    (hspecial : special.WellFormed d) : images? general special =
      .ok (if startsClosed general.assumptions then none else general.matchRule? special) := by
  obtain ⟨as, c, rfl, has, hc⟩ := hgeneral.exists_eq_rule
  obtain ⟨as', c', rfl, has', hc'⟩ := hspecial.exists_eq_rule
  rw [images?_rule, InferenceRule.matchRule?, InferenceRule.formulas, InferenceRule.formulas,
    InferenceRule.assumptions]
  by_cases hlength : as.length = as'.length
  · rw [if_pos hlength, assumptionImages?_eq_ok (m := []) List.nodup_nil has has' hlength, ok_bind,
      matchFormulas_concat c c' hlength, formulaImages?_eq_ok hc.isMissing_eq_false hc'.isMissing_eq_false]
    by_cases hclosed : startsClosed as = true
    · rw [if_pos ⟨rfl, hclosed⟩, if_pos hclosed]
      rfl
    · rw [if_neg fun h => hclosed h.2, if_neg hclosed]
      cases hm : matchFormulas [] as as' with
      | none => rfl
      | some m =>
          have hnodup := nodup_keys_of_matchFormulas (m := []) List.nodup_nil hm
          rw [Option.elim_some, Option.bind_some, matchFormula_eq_bind hc hnodup, ← merge?_some_left]
          rfl
  · have hunequal : (as ++ [c]).length ≠ (as' ++ [c']).length := by simpa using hlength
    rw [if_neg hlength, matchFormulas_of_length_ne hunequal, ite_self]

end Rules

/-- The two checkers both find out whether a rule is a specialization of another. They find the same images, or
none, exactly if the first one finds none or the general rule does not begin with an assumption without variables;
in all other cases the second one finds none. -/
theorem images?_eq_images?_iff {general special : InferenceRule} (hgeneral : general.WellFormed Connective.all)
    (hspecial : special.WellFormed Connective.all) :
    ∃ m, general.images? special = .ok m ∧
      images? general special = .ok (if startsClosed general.assumptions then none else m) ∧
      (images? general special = general.images? special ↔
        m = none ∨ startsClosed general.assumptions = false) := by
  have hfirst := InferenceRule.images?_eq_ok hgeneral.isComplete hspecial.isComplete
  have hsecond := images?_eq_ok hgeneral hspecial
  refine ⟨_, hfirst, hsecond, ?_⟩
  rw [hfirst, hsecond, Except.ok.injEq]
  cases startsClosed general.assumptions with
  | true => simp [eq_comm]
  | false => simp

/-- A variable occurs in both assumptions, and a constant in the second one. -/
theorem images?_eq_images?_iff_repeated :
    let general : InferenceRule := .rule [.var "p", .bin .or (.const false) (.var "p")] (.neg (.var "q"))
    let special : InferenceRule := .rule [.neg (.var "r"), .bin .or (.const false) (.neg (.var "r"))]
      (.neg (.const true))
    general.WellFormed Connective.all ∧ special.WellFormed Connective.all ∧
      general.images? special = .ok (some [("p", .neg (.var "r")), ("q", .const true)]) ∧
      images? general special = general.images? special := by
  intro general special
  have hgeneral : general.WellFormed Connective.all := by decide
  have hspecial : special.WellFormed Connective.all := by decide
  obtain ⟨m, -, -, hiff⟩ := images?_eq_images?_iff hgeneral hspecial
  exact ⟨hgeneral, hspecial, rfl, hiff.2 (.inr rfl)⟩

/-- An assumption without variables is matched by itself, but the second checker finds no images. -/
theorem images?_ne_images?_constant :
    let general : InferenceRule := .rule [.const true] (.var "p")
    let special : InferenceRule := .rule [.const true] (.var "q")
    general.WellFormed Connective.all ∧ special.WellFormed Connective.all ∧
      general.images? special = .ok (some [("p", .var "q")]) ∧ images? general special = .ok none := by
  decide

/-! ## Proofs -/

section Proofs

variable {d : Dialect} {pf : Proof}

/-- The second checker takes a rule for a specialization exactly if the first one does, and the general rule
does not begin with an assumption without variables. -/
theorem isSpecializationOf_eq_true {general special : InferenceRule} (hgeneral : general.WellFormed d)
    (hspecial : special.WellFormed d) : isSpecializationOf special general = .ok true ↔
      special.isSpecializationOf general = .ok true ∧ startsClosed general.assumptions = false := by
  rw [isSpecializationOf, images?_eq_ok hgeneral hspecial, ok_bind, InferenceRule.isSpecializationOf,
    InferenceRule.images?_eq_ok hgeneral.isComplete hspecial.isComplete, ok_bind]
  cases startsClosed general.assumptions <;> simp

/-- The second checker accepts a line exactly if the first one does, and its rule does not begin with an
assumption without variables. -/
theorem lineValid_eq_true (hlines : ∀ l ∈ pf.lines, l.formula.WellFormed d)
    (hrules : ∀ r ∈ pf.rules, r.WellFormed d) {k : Nat} {l : Line} (hk : pf.lines[k]? = some l) :
    lineValid pf k = .ok true ↔ pf.Justified k l ∧ startsClosed l.rule.assumptions = false := by
  rw [lineValid, Proof.line_natCast hk, ok_bind, Proof.Justified, Line.rule]
  cases hinf : l.inference with
  | none =>
      have hrule : pf.ruleForLine k = .ok .missing := by
        rw [Proof.ruleForLine, Proof.line_natCast hk, ok_bind, hinf]
        rfl
      rw [hrule, ok_bind]
      cases pf.statement with
      | missing => simp [InferenceRule.given, InferenceRule.isMissing, InferenceRule.assumptions, bind,
          Except.bind]
      | rule as c => simp [InferenceRule.given, InferenceRule.isMissing, InferenceRule.assumptions,
          startsClosed]
  | some inf =>
      have hl : l.formula.WellFormed d := hlines l (List.mem_of_getElem? hk)
      simp only [bind_eq_ok, Proof.ruleForLine_eq_ok hk hinf, Option.map_some, Option.getD_some]
      constructor
      · rintro ⟨r, ⟨cited, hcited, rfl⟩, h⟩
        split at h
        · rename_i hlt
          obtain ⟨b, hspec, h⟩ := bind_eq_ok.1 h
          obtain ⟨rfl, hrule⟩ : b = true ∧ inf.rule ∈ pf.rules := by simpa using h
          obtain ⟨hspec, hopen⟩ := (isSpecializationOf_eq_true (hrules _ hrule)
            (Proof.rule_wellFormed hlines hl hcited)).1 hspec
          refine ⟨⟨hrule, fun j hj => ?_, cited, hcited, hspec⟩, hopen⟩
          exact of_decide_eq_true (List.all_eq_true.1 hlt j hj)
        · simp at h
      · rintro ⟨⟨hrule, hlt, cited, hcited, hspec⟩, hopen⟩
        have hspec' := (isSpecializationOf_eq_true (hrules _ hrule)
          (Proof.rule_wellFormed hlines hl hcited)).2 ⟨hspec, hopen⟩
        refine ⟨_, ⟨cited, hcited, rfl⟩, ?_⟩
        rw [if_pos (List.all_eq_true.2 fun j hj => decide_eq_true (hlt j hj)), hspec', ok_bind]
        simpa using hrule

/-- The second checker accepts a proof exactly if the first one does, and no rule that is used begins with an
assumption without variables. -/
theorem isValid_eq_true (hlines : ∀ l ∈ pf.lines, l.formula.WellFormed d)
    (hrules : ∀ r ∈ pf.rules, r.WellFormed d) : isValid pf = .ok true ↔
      pf.isValid = .ok true ∧ ∀ l ∈ pf.lines, startsClosed l.rule.assumptions = false := by
  have hall : Proof.allLinesValid (lineValid pf) (List.range pf.lines.length) = .ok true ↔
      (∀ k l, pf.lines[k]? = some l → pf.Justified k l) ∧
        ∀ l ∈ pf.lines, startsClosed l.rule.assumptions = false := by
    rw [Proof.allLinesValid_range]
    constructor
    · intro h
      have hline : ∀ k l, pf.lines[k]? = some l →
          pf.Justified k l ∧ startsClosed l.rule.assumptions = false :=
        fun k l hk => (lineValid_eq_true hlines hrules hk).1 (h k l hk)
      refine ⟨fun k l hk => (hline k l hk).1, fun l hl => ?_⟩
      obtain ⟨k, hk⟩ := List.getElem?_of_mem hl
      exact (hline k l hk).2
    · rintro ⟨hjustified, hopen⟩ k l hk
      exact (lineValid_eq_true hlines hrules hk).2 ⟨hjustified k l hk, hopen l (List.mem_of_getElem? hk)⟩
  rw [isValid, bind_eq_ok, Proof.isValid_eq_true, and_right_comm, ← hall]
  constructor
  · rintro ⟨b, hb, h⟩
    cases b with
    | false => simp at h
    | true =>
        obtain ⟨last, hlast, h⟩ := bind_eq_ok.1 h
        obtain ⟨statement, hst, h⟩ := bind_eq_ok.1 h
        obtain ⟨hgiven, rfl⟩ := InferenceRule.given_eq_ok.1 hst
        refine ⟨hb, hgiven, last, fetch_neg_one_eq_ok.1 hlast, ?_⟩
        simpa using h
  · rintro ⟨hvalid, hgiven, last, hlast, hconclusion⟩
    refine ⟨true, hvalid, bind_eq_ok.2 ⟨last, fetch_neg_one_eq_ok.2 hlast, ?_⟩⟩
    refine bind_eq_ok.2 ⟨_, InferenceRule.given_eq_ok.2 ⟨hgiven, rfl⟩, ?_⟩
    simp [hconclusion]

/-- Specializing an accepted proof replaces variables throughout, by images that make its statement the
special rule. -/
theorem exists_specialize_eq_subst {special : InferenceRule} (hpf : pf.WellFormed d)
    (hstatement : pf.statement.isMissing = false) (hvalid : isValid pf = .ok true)
    (hspecial : special.WellFormed d) (hspec : isSpecializationOf special pf.statement = .ok true) :
    ∃ σ : String → Formula, (∀ x, isVariable x = true → (σ x).WellFormed d) ∧
      pf.statement.subst σ = special ∧ specialize pf special = .ok (pf.subst σ) := by
  have hgeneral : pf.statement.WellFormed d := ⟨hstatement, hpf.statement⟩
  obtain ⟨hfirst, hopen⟩ := (isSpecializationOf_eq_true hgeneral hspecial).1 hspec
  obtain ⟨m, hm⟩ := InferenceRule.isSpecializationOf_eq_true.1 hfirst
  have hmatch : pf.statement.matchRule? special = some m := by
    rw [InferenceRule.images?_eq_ok hgeneral.isComplete hspecial.isComplete] at hm
    exact Except.ok.inj hm
  have himages : images? pf.statement special = .ok (some m) := by
    rw [images?_eq_ok hgeneral hspecial, hopen, hmatch]
    rfl
  have hkeys := InferenceRule.isVariable_of_matchRule? hgeneral hmatch
  have hwellFormed := InferenceRule.wellFormed_of_images? hm hspecial.formulas
  have hrule := InferenceRule.subst_of_images? hgeneral.isComplete hspecial.isComplete hm
  have hlines : (pf.lines.mapM fun l => do return { l with formula := ← l.formula.substPartial m } :
      Outcome (List Line)) = .ok (pf.lines.map (Line.subst (imageIn m))) := by
    refine mapM_eq_ok.2 (List.forall₂_map_right_iff.2 (List.forall₂_same.2 fun l hl => ?_))
    have hresult : (l.formula.subst (imageIn m)).WellFormed d :=
      (hpf.lines l hl).specialize fun x hx => hwellFormed.imageIn hx
    rw [(substPartial_eq_ok_iff hkeys hresult).2 rfl]
    rfl
  refine ⟨imageIn m, fun x hx => hwellFormed.imageIn hx, hrule, ?_⟩
  rw [specialize, hvalid, ok_bind, require_true, ok_bind, himages, ok_bind]
  dsimp only
  rw [hlines, ok_bind, Proof.subst, hrule]
  rfl

end Proofs

end Merging

end FormalLogic.Propositional
