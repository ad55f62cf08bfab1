import FormalLogic.Proofs.Propositional.Specialization

/-!
# Matching is exact

Between two rules images are found exactly if the general rule can be specialized to the special one, and
the images found are the only ones. Specializing by a table checks its keys and refuses to build a formula
around a missing image; where the outcome is a rule that consists of formulas, it is plain replacement of
variables (`InferenceRule.specialize_eq_ok_iff`). So all that is left is what matching knows about
replacement: the images found reproduce the special rule, and every other way to get there agrees with them
on the variables of the general rule.
-/

namespace FormalLogic.Propositional

open Formula

/-! ## Specializing by a table -/

namespace Formula

theorem present_eq_ok {f g : Formula} : f.present = .ok g ↔ f.isMissing = false ∧ f = g := by
  rw [present, ite_error_eq_ok, Bool.not_eq_true, Except.ok.injEq]

/-- A table passes the check of its keys exactly if all of them are variables. -/
theorem checkKeys_eq_ok {m : Substitution} {u : Unit} :
    checkKeys false m = .ok u ↔ ∀ x ∈ Table.keys m, isVariable x = true := by
  rw [checkKeys, forM_eq_ok, Table.keys, List.forall_mem_map]
  refine forall₂_congr fun e _ => ?_
  rw [bind_eq_ok]
  constructor
  · rintro ⟨b, hb, hrequire⟩
    rw [(checkVariable_eq_ok.1 hb).2]
    simpa using hrequire
  · intro he
    exact ⟨true, checkVariable_eq_ok.2 ⟨isVariable_ne_empty he, he⟩, rfl⟩

section Variables

variable {d : Dialect} {m : Substitution} (hkeys : ∀ x ∈ Table.keys m, isVariable x = true)
include hkeys

/-- A table of variables has no images of constants. -/
theorem find?_constText (b : Bool) : Table.find? m (constText b) = none := by
  rw [← Option.not_isSome_iff_eq_none, Table.find?_isSome]
  intro hmem
  have hvariable := hkeys _ hmem
  cases b <;> exact absurd hvariable (by decide)

/-- Replacing leaves by images that may be missing answers with a formula exactly if replacing the variables
gives that formula. -/
theorem substPartial_eq_ok_iff {f g : Formula} (hg : g.WellFormed d) :
    f.substPartial m = .ok g ↔ f.subst (imageIn m) = g := by
  induction f generalizing g with
  | var x =>
      rw [substPartial, Except.ok.injEq]
      exact Iff.rfl
  | const b =>
      rw [substPartial, find?_constText hkeys, Except.ok.injEq]
      exact Iff.rfl
  | neg f ih =>
      simp only [substPartial, subst, bind_eq_ok, present_eq_ok, pure_eq_ok]
      constructor
      · rintro ⟨f', hf', _, ⟨-, rfl⟩, rfl⟩
        have hpart : f'.WellFormed d := hg
        rw [(ih hpart).1 hf']
      · rintro rfl
        have hpart : (f.subst (imageIn m)).WellFormed d := hg
        exact ⟨_, (ih hpart).2 rfl, _, ⟨hpart.isMissing_eq_false, rfl⟩, rfl⟩
  | bin op l r ihl ihr =>
      simp only [substPartial, subst, bind_eq_ok, present_eq_ok, pure_eq_ok]
      constructor
      · rintro ⟨l', hl', r', hr', _, ⟨-, rfl⟩, _, ⟨-, rfl⟩, rfl⟩
        rw [(ihl hg.2.1).1 hl', (ihr hg.2.2).1 hr']
      · rintro rfl
        obtain ⟨-, hl, hr⟩ := hg
        exact ⟨_, (ihl hl).2 rfl, _, (ihr hr).2 rfl, _, ⟨hl.isMissing_eq_false, rfl⟩, _,
          ⟨hr.isMissing_eq_false, rfl⟩, rfl⟩
  | missing =>
      constructor
      · intro h
        cases h
      · rintro rfl
        exact hg.elim

theorem mapM_substPartial_eq_ok_iff {fs gs : List Formula} (hgs : ∀ g ∈ gs, g.WellFormed d) :
    fs.mapM (substPartial m) = .ok gs ↔ fs.map (subst (imageIn m)) = gs := by
  induction fs generalizing gs with
  | nil =>
      rw [List.mapM_nil, pure_eq_ok]
      exact Iff.rfl
  | cons f fs ih =>
      rw [mapM_eq_ok, List.map_cons]
      cases gs with
      | nil => simp
      | cons g gs =>
          obtain ⟨hg, hgs⟩ := List.forall_mem_cons.1 hgs
          rw [List.forall₂_cons, ← mapM_eq_ok, substPartial_eq_ok_iff hkeys hg, ih hgs, List.cons.injEq]

end Variables

end Formula

namespace InferenceRule

/-- A rule is specialized to one that consists of formulas exactly by the tables of variables that replace
its variables so. -/
theorem specialize_eq_ok_iff {d : Dialect} {m : Specialization} {r special : InferenceRule}
    (hspecial : special.WellFormed d) : r.specialize m = .ok special ↔
      (∀ x ∈ Table.keys m, isVariable x = true) ∧ r.subst (imageIn m) = special := by
  obtain ⟨as', c', rfl, has', hc'⟩ := hspecial.exists_eq_rule
  cases r with
  | missing =>
      constructor
      · intro h
        cases h
      · rintro ⟨-, h⟩
        cases h
  | rule as c =>
      have hgiven : (rule as c).given = .ok (rule as c) := rfl
      rw [specialize, hgiven, ok_bind, bind_eq_ok]
      simp only [checkKeys_eq_ok]
      constructor
      · rintro ⟨_, hkeys, h⟩
        obtain ⟨bs, hbs, h⟩ := bind_eq_ok.1 h
        obtain ⟨b, hb, h⟩ := bind_eq_ok.1 h
        obtain ⟨rfl, rfl⟩ := rule.inj (pure_eq_ok.1 h)
        refine ⟨hkeys, ?_⟩
        exact congrArg₂ rule ((mapM_substPartial_eq_ok_iff hkeys has').1 hbs)
          ((substPartial_eq_ok_iff hkeys hc').1 hb)
      · rintro ⟨hkeys, h⟩
        obtain ⟨has, hc⟩ := rule.inj h
        refine ⟨(), hkeys, bind_eq_ok.2 ⟨as', (mapM_substPartial_eq_ok_iff hkeys has').2 has, ?_⟩⟩
        exact bind_eq_ok.2 ⟨c', (substPartial_eq_ok_iff hkeys hc').2 hc, rfl⟩

/-! ## Images of the variables and of nothing else -/

/-- The images of the variables of a general rule, and of nothing else, by which it becomes the special one.
All images that make it so are these. -/
structure ExactImages (general special : InferenceRule) (m : Specialization) : Prop where
  keys : (Table.keys m).Perm general.vars
  wellFormed : ImagesWellFormed Connective.all m
  specialize : general.specialize m = .ok special
  unique : ∀ σ, general.specialize σ = .ok special → ∀ x ∈ general.vars, imageIn σ x = imageIn m x

variable {general special : InferenceRule} {m : Specialization}

/-- Every instance of a rule is matched, with images under the same replacement. -/
theorem exists_matchRule?_subst (general : InferenceRule) (σ : String → Formula) :
    ∃ m, general.matchRule? (general.subst σ) = some m ∧ AgreesWith σ m := by
  rw [matchRule?, formulas_subst]
  exact matchFormulas_map_subst (agreesWith_nil σ) general.formulas

/-- Matching finds images of the variables of the general rule, one each. -/
theorem perm_keys_of_matchRule? (h : general.matchRule? special = some m) :
    (Table.keys m).Perm general.vars := by
  have hvars : general.vars.Nodup := nodup_sortedSet _
  have hkeys : (Table.keys m).Nodup := nodup_keys_of_matchFormulas (m := []) List.nodup_nil h
  refine (List.perm_ext_iff_of_nodup hkeys hvars).2 fun x => ?_
  rw [mem_keys_of_matchFormulas h, vars, mem_sortedSet]
  simp [Table.keys]

theorem isVariable_of_matchRule? {d : Dialect} (hgeneral : general.WellFormed d)
    (h : general.matchRule? special = some m) : ∀ x ∈ Table.keys m, isVariable x = true := by
  intro x hx
  obtain ⟨f, hf, hxf⟩ := List.mem_flatMap.1 (mem_sortedSet.1 ((perm_keys_of_matchRule? h).mem_iff.1 hx))
  exact (hgeneral.formulas f hf).isVariable x hxf

theorem exactImages_of_matchRule? (hgeneral : general.WellFormed Connective.all)
    (hspecial : special.WellFormed Connective.all) (h : general.matchRule? special = some m) :
    ExactImages general special m := by
  have himages : general.images? special = .ok (some m) := by
    rw [images?_eq_ok hgeneral.isComplete hspecial.isComplete, h]
  have hkeys := perm_keys_of_matchRule? h
  have hvariables := isVariable_of_matchRule? hgeneral h
  refine ⟨hkeys, wellFormed_of_images? himages hspecial.formulas, ?_, ?_⟩
  · have hsubst := subst_of_images? hgeneral.isComplete hspecial.isComplete himages
    exact (specialize_eq_ok_iff hspecial).2 ⟨hvariables, hsubst⟩
  · intro σ hσ x hx
    -- matching an instance finds its own images, and there is only one outcome
    obtain ⟨-, rfl⟩ := (specialize_eq_ok_iff hspecial).1 hσ
    obtain ⟨m', hm', hagrees⟩ := exists_matchRule?_subst general (imageIn σ)
    obtain rfl : m' = m := Option.some.inj (hm'.symm.trans h)
    exact (hagrees.imageIn_eq (hkeys.mem_iff.2 hx)).symm

/-- Matching answers for every two rules that consist of formulas. It finds images exactly if some table
specializes the general rule to the special one. What it finds are images of the variables of the general
rule, each variable once and no other name; they are formulas, they specialize the general rule to the special
one, and every table that does so agrees with them on these variables. -/
theorem images?_exact (hgeneral : general.WellFormed Connective.all)
    (hspecial : special.WellFormed Connective.all) :
    ∃ found, general.images? special = .ok found ∧
      (found.isSome = true ↔ ∃ σ, general.specialize σ = .ok special) ∧
      ∀ m ∈ found, ExactImages general special m := by
  have hexact : ∀ m ∈ general.matchRule? special, ExactImages general special m :=
    fun m hm => exactImages_of_matchRule? hgeneral hspecial hm
  refine ⟨_, images?_eq_ok hgeneral.isComplete hspecial.isComplete, ⟨fun hfound => ?_, ?_⟩, hexact⟩
  · obtain ⟨m, hm⟩ := Option.isSome_iff_exists.1 hfound
    exact ⟨m, (hexact m hm).specialize⟩
  · rintro ⟨σ, hσ⟩
    obtain ⟨-, rfl⟩ := (specialize_eq_ok_iff hspecial).1 hσ
    obtain ⟨m, hm, -⟩ := exists_matchRule?_subst general (imageIn σ)
    rw [hm, Option.isSome_some]

/-- Two variables change places, one of them repeated; both rules have the constant and an implication. -/
theorem images?_exact_swapped :
    let general := rule [p, imp p (const true)] (conj q p)
    let special := rule [neg q, imp (neg q) (const true)] (conj p (neg q))
    general.WellFormed Connective.all ∧ special.WellFormed Connective.all ∧
      general.images? special = .ok (some [("p", neg q), ("q", p)]) ∧
      ExactImages general special [("p", neg q), ("q", p)] := by
  intro general special
  have hgeneral : general.WellFormed Connective.all := by decide
  have hspecial : special.WellFormed Connective.all := by decide
  have himages : general.images? special = .ok (some [("p", neg q), ("q", p)]) := by decide
  obtain ⟨found, hrun, -, hexact⟩ := images?_exact hgeneral hspecial
  obtain rfl : found = some [("p", neg q), ("q", p)] := Except.ok.inj (hrun.symm.trans himages)
  exact ⟨hgeneral, hspecial, himages, hexact _ rfl⟩

end InferenceRule

end FormalLogic.Propositional
