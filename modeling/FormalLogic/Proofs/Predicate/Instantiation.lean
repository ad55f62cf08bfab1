import FormalLogic.Predicate.Schema
import FormalLogic.Proofs.Predicate.Substitution

/-!
# Instances of schemas

An instance is made by a plain function that cannot fail (`Formula.inst`), and refused if a variable is
captured where an argument is put into the formula for a relation. `Schema.instantiate_eq_ok` says exactly
when there is an instance.

The truth of an instance is the truth of the schematic formula itself under other meanings: a relation
means what the formula for it says of its argument (`Formula.truth_inst`). That takes it for granted that
no quantifier of the schema binds a variable that is free in a formula for a relation, which is not
checked.
-/

namespace FormalLogic.Predicate

/-! ## Instances that suit their names -/

/-- A variable for a variable, a term for a constant, a formula for a relation. -/
def Instance.Suits (key : String) : Instance → Prop
  | text x => isVariable key = true ∧ isVariable x = true
  | term t => isConstant key = true ∧ t.WellFormed
  | formula f => isRelation key = true ∧ f.WellFormed
  | missing => False

instance (key : String) : DecidablePred (Instance.Suits key)
  | .text x => inferInstanceAs (Decidable (isVariable key = true ∧ isVariable x = true))
  | .term t => inferInstanceAs (Decidable (isConstant key = true ∧ t.WellFormed))
  | .formula f => inferInstanceAs (Decidable (isRelation key = true ∧ f.WellFormed))
  | .missing => isFalse id

namespace Instances

/-- All instances suit their names. -/
def Proper (m : Instances) : Prop :=
  ∀ e ∈ m, e.2.Suits e.1

instance : DecidablePred Proper := fun m => inferInstanceAs (Decidable (∀ e ∈ m, e.2.Suits e.1))

/-- What is put in place of constants and variables. -/
def terms (m : Instances) : Term.Images :=
  m.filterMap fun e =>
    match e.2 with
    | .text x => some (e.1, .var x)
    | .term t => some (e.1, t)
    | _ => none

/-- What is put in place of relations. -/
def relations (m : Instances) : List (String × Formula) :=
  m.filterMap fun e =>
    match e.2 with
    | .formula f => some (e.1, f)
    | _ => none

variable {m : Instances}

theorem mem_terms (hm : Proper m) {e : String × Term} (he : e ∈ terms m) :
    (isVariable e.1 = true ∧ ∃ x, e.2 = .var x ∧ isVariable x = true) ∨
      (isConstant e.1 = true ∧ e.2.WellFormed) := by
  obtain ⟨⟨key, i⟩, hi, he⟩ := List.mem_filterMap.1 he
  have hsuits := hm _ hi
  cases i with
  | text x =>
      obtain rfl := Option.some.inj he
      exact .inl ⟨hsuits.1, x, rfl, hsuits.2⟩
  | term t =>
      obtain rfl := Option.some.inj he
      exact .inr hsuits
  | formula f => cases he
  | missing => cases he

theorem mem_relations (hm : Proper m) {e : String × Formula} (he : e ∈ relations m) :
    isRelation e.1 = true ∧ e.2.WellFormed := by
  obtain ⟨⟨key, i⟩, hi, he⟩ := List.mem_filterMap.1 he
  have hsuits := hm _ hi
  cases i with
  | text x => cases he
  | term t => cases he
  | formula f =>
      obtain rfl := Option.some.inj he
      exact hsuits
  | missing => cases he

theorem terms_wellFormed (hm : Proper m) : ∀ e ∈ terms m, e.2.WellFormed := by
  intro e he
  rcases mem_terms hm he with ⟨-, x, hx, hvar⟩ | ⟨-, ht⟩
  · rw [hx]
    exact hvar
  · exact ht

theorem wellFormed_of_find?_terms (hm : Proper m) :
    ∀ name s, Table.find? (terms m) name = some s → s.WellFormed :=
  fun _ _ h => terms_wellFormed hm _ (Table.mem_of_find?_eq_some h)

theorem terms_replaceable (hm : Proper m) : ∀ e ∈ terms m, isReplaceable e.1 = true := by
  intro e he
  rw [isReplaceable, Bool.or_eq_true]
  exact (mem_terms hm he).symm.imp And.left And.left

/-- A variable has a variable for its image. -/
theorem exists_var_of_find? (hm : Proper m) {x : String} (hx : isVariable x = true) {t : Term}
    (ht : Table.find? (terms m) x = some t) : ∃ y, t = .var y ∧ isVariable y = true := by
  rcases mem_terms hm (Table.mem_of_find?_eq_some ht) with ⟨-, h⟩ | ⟨hc, -⟩
  · exact h
  · exact absurd rfl (ne_of_isConstant hc hx)

end Instances

/-! ## Instances of formulas -/

namespace Formula

/-- The variable that a quantifier binds once its own was replaced. -/
def boundName (terms : String → Option Term) (x : String) : String :=
  ((terms x).map Term.text).getD x

/-- The instance of a schematic formula, whatever is captured. It is missing in place of a relation that
is replaced and has two arguments or more. -/
def inst (terms : String → Option Term) (relations : String → Option Formula) : Formula → Formula
  | equal l r => equal (l.subst terms) (r.subst terms)
  | rel name ts =>
    match relations name with
    | none => rel name (ts.map (Term.subst terms))
    | some f =>
      match ts with
      | [] => f
      | [t] => f.subst (Table.find? [(hole, t.subst terms)])
      | _ => missing
  | neg f => neg (f.inst terms relations)
  | bin op l r => bin op (l.inst terms relations) (r.inst terms relations)
  | quant k x f => quant k (boundName terms x) (f.inst terms relations)
  | bare _ => missing

/-- The arguments that are inserted into the formulas for relations, each with the variables that are
bound around its place, innermost first. -/
def argumentInsertions (terms : String → Option Term) (relations : String → Option Formula) :
    Formula → List (Term × List String)
  | rel name [t] =>
    match relations name with
    | none => []
    | some f => f.insertions (Table.find? [(hole, t.subst terms)]) []
  | neg f => f.argumentInsertions terms relations
  | bin _ l r => l.argumentInsertions terms relations ++ r.argumentInsertions terms relations
  | quant _ _ f => f.argumentInsertions terms relations
  | _ => []

theorem reportIn_eq_ok {α : Type} {name : String} {x : Outcome α} {a : α} :
    reportIn name x = .ok a ↔ x = .ok a := by
  unfold reportIn
  split
  · simp
  · rfl

section Part

variable {m : Instances} (hm : Instances.Proper m) {f g : Formula} (hf : f.WellFormed)
  (harity : ∀ e ∈ f.relationNodes,
    (Table.find? (Instances.relations m) e.1).isSome = true → e.2 ≤ 1)
include hm hf harity

/-- A relation is not replaced, or it is and has at most one argument. -/
theorem find?_relations_cases {name : String} {ts : List Term} (hts : f = rel name ts) :
    Table.find? (Instances.relations m) name = none ∨
      ∃ φ, Table.find? (Instances.relations m) name = some φ ∧ φ.WellFormed ∧
        (ts = [] ∨ ∃ t, ts = [t] ∧ t.WellFormed) := by
  subst hts
  cases hφ : Table.find? (Instances.relations m) name with
  | none => exact .inl rfl
  | some φ =>
      have hφwf := (Instances.mem_relations hm (Table.mem_of_find?_eq_some hφ)).2
      have hlength : ts.length ≤ 1 := harity (name, ts.length) List.mem_cons_self (by rw [hφ]; rfl)
      refine .inr ⟨φ, rfl, hφwf, ?_⟩
      rcases ts with _ | ⟨t, _ | ⟨u, ts⟩⟩
      · exact .inl rfl
      · exact .inr ⟨t, rfl, hf.2 t List.mem_cons_self⟩
      · simp at hlength

theorem inst_wellFormed :
    (f.inst (Table.find? (Instances.terms m)) (Table.find? (Instances.relations m))).WellFormed := by
  have hterms := Instances.wellFormed_of_find?_terms hm
  induction f with
  | equal l r => exact ⟨hf.1.subst hterms, hf.2.subst hterms⟩
  | rel name ts =>
      rw [inst]
      obtain hφ | ⟨φ, hφ, hφwf, rfl | ⟨t, rfl, ht⟩⟩ := find?_relations_cases hm hf harity rfl
      · rw [hφ]
        refine ⟨hf.1, fun t' ht' => ?_⟩
        obtain ⟨t, ht, rfl⟩ := List.mem_map.1 ht'
        exact (hf.2 t ht).subst hterms
      · rw [hφ]
        exact hφwf
      · rw [hφ]
        exact hφwf.subst fun _ _ => wellFormed_of_find?_single (ht.subst hterms)
  | neg f ih => exact ih hf harity
  | bin op l r ihl ihr =>
      exact ⟨ihl hf.1 fun e he => harity e (List.mem_append_left _ he),
        ihr hf.2 fun e he => harity e (List.mem_append_right _ he)⟩
  | quant k x f ih =>
      refine ⟨?_, ih hf.2 harity⟩
      rw [boundName]
      cases hx : Table.find? (Instances.terms m) x with
      | none => exact hf.1
      | some t =>
          obtain ⟨y, rfl, hy⟩ := Instances.exists_var_of_find? hm hf.1 hx
          exact hy
  | bare t => exact hf.elim

/-- A formula has an instance exactly when no argument that is inserted has the innermost variable that
is bound around its place. -/
theorem instantiatePart_eq_ok :
    f.instantiatePart (Instances.terms m) (Instances.relations m) [] = .ok g ↔
      (∀ i ∈ f.argumentInsertions (Table.find? (Instances.terms m))
          (Table.find? (Instances.relations m)), ∀ x ∈ i.1.variableLeaves, i.2.head? ≠ some x) ∧
        g = f.inst (Table.find? (Instances.terms m)) (Table.find? (Instances.relations m)) := by
  have hterms := Instances.wellFormed_of_find?_terms hm
  -- nothing is captured in an atomic formula
  have hatomic : ∀ {f g : Formula}, f.WellFormed → f.binders = [] →
      (f.substitute (Instances.terms m) [] = .ok g ↔ g = f.subst (Table.find? (Instances.terms m))) := by
    intro f g hf hbinders
    rw [substitute_nil_eq_ok hf (Instances.terms_wellFormed hm) (Instances.terms_replaceable hm)]
    refine and_iff_right fun i hi x hx => ?_
    rw [snd_of_mem_insertions_atomic hbinders hi]
    simp
  induction f generalizing g with
  | equal l r =>
      rw [instantiatePart, hatomic hf rfl]
      simp [argumentInsertions, inst, subst]
  | rel name ts =>
      rw [instantiatePart, inst]
      obtain hφ | ⟨φ, hφ, hφwf, rfl | ⟨t, rfl, ht⟩⟩ := find?_relations_cases hm hf harity rfl
      · rw [hφ]
        dsimp only
        rw [reportIn_eq_ok, hatomic hf rfl, subst, and_iff_right]
        rcases ts with _ | ⟨t, _ | ⟨u, ts⟩⟩
        · simp [argumentInsertions]
        · simp [argumentInsertions, hφ]
        · simp [argumentInsertions]
      · simp [hφ, argumentInsertions, eq_comm]
      · have hkey : isReplaceable hole = true := by decide
        have himage : ∀ e ∈ [(hole, t.subst (Table.find? (Instances.terms m)))],
            e.2.WellFormed ∧ isReplaceable e.1 = true := by
          intro e he
          rw [List.mem_singleton.1 he]
          exact ⟨ht.subst hterms, hkey⟩
        rw [argumentInsertions, hφ]
        dsimp only
        rw [reportIn_eq_ok, Term.substitute_nil_eq_ok ht (Instances.terms_wellFormed hm)
          (Instances.terms_replaceable hm), ok_bind,
          substitute_nil_eq_ok hφwf (fun e he => (himage e he).1) fun e he => (himage e he).2]
  | neg f ih =>
      have hpresent := (@inst_wellFormed m hm f hf harity).present_eq_ok
      simp only [instantiatePart, bind_eq_ok, ih hf harity, pure_eq_ok, argumentInsertions, inst]
      constructor
      · rintro ⟨_, ⟨h, rfl⟩, f', hf', rfl⟩
        rw [hpresent] at hf'
        exact ⟨h, by rw [Except.ok.inj hf']⟩
      · rintro ⟨h, rfl⟩
        exact ⟨_, ⟨h, rfl⟩, _, hpresent, rfl⟩
  | bin op l r ihl ihr =>
      have hl : ∀ e ∈ l.relationNodes, _ := fun e he => harity e (List.mem_append_left _ he)
      have hr : ∀ e ∈ r.relationNodes, _ := fun e he => harity e (List.mem_append_right _ he)
      have hlpresent := (inst_wellFormed hm hf.1 hl).present_eq_ok
      have hrpresent := (inst_wellFormed hm hf.2 hr).present_eq_ok
      simp only [instantiatePart, bind_eq_ok, ihl hf.1 hl, ihr hf.2 hr, pure_eq_ok,
        argumentInsertions, inst, List.forall_mem_append]
      constructor
      · rintro ⟨_, ⟨h, rfl⟩, _, ⟨h', rfl⟩, l', hl', r', hr', rfl⟩
        rw [hlpresent] at hl'
        rw [hrpresent] at hr'
        exact ⟨⟨h, h'⟩, by rw [Except.ok.inj hl', Except.ok.inj hr']⟩
      · rintro ⟨⟨h, h'⟩, rfl⟩
        exact ⟨_, ⟨h, rfl⟩, _, ⟨h', rfl⟩, _, hlpresent, _, hrpresent, rfl⟩
  | quant k x f ih =>
      have hpresent := (inst_wellFormed hm hf.2 harity).present_eq_ok
      simp only [instantiatePart, bind_eq_ok, ih hf.2 harity, pure_eq_ok, argumentInsertions, inst]
      constructor
      · rintro ⟨_, ⟨h, rfl⟩, f', hf', rfl⟩
        rw [hpresent] at hf'
        exact ⟨h, by rw [Except.ok.inj hf']; rfl⟩
      · rintro ⟨h, rfl⟩
        exact ⟨_, ⟨h, rfl⟩, _, hpresent, rfl⟩
  | bare t => exact hf.elim

end Part

end Formula

/-! ## Instances of schemas -/

namespace Schema

/-- An instance after its text was read, if it is the name of a variable. -/
def readInstance (e : String × Instance) : String × Instance :=
  match e.2 with
  | .text x => (e.1, .term (.var x))
  | _ => e

variable {s : Schema} {m : Instances} {g : Formula}

/-- The names of variables are read, unless a key is no template. -/
theorem readVariables_eq_ok (hm : Instances.Proper m) : s.readVariables m =
    .ok (if ∀ e ∈ m, e.1 ∈ s.templates then some (m.map readInstance) else none) := by
  induction m with
  | nil => rfl
  | cons e m ih =>
      obtain ⟨key, i⟩ := e
      have hsuits : i.Suits key := hm _ List.mem_cons_self
      have ih := ih fun e he => hm e (List.mem_cons_of_mem _ he)
      simp only [readVariables, ih, List.contains_iff_mem, List.forall_mem_cons]
      by_cases hkey : key ∈ s.templates
      · have hmap : ∀ e : String × Instance,
            (Option.map (e :: ·) <$> (.ok (if ∀ e ∈ m, e.1 ∈ s.templates then
              some (m.map readInstance) else none) : Outcome (Option Instances))) =
            .ok (if key ∈ s.templates ∧ ∀ e ∈ m, e.1 ∈ s.templates then
              some (e :: m.map readInstance) else none) := by
          intro e
          by_cases hrest : ∀ e ∈ m, e.1 ∈ s.templates
          · rw [if_pos hrest, if_pos ⟨hkey, hrest⟩]
            rfl
          · rw [if_neg hrest, if_neg fun h => hrest h.2]
            rfl
        cases i with
        | text x => simp [hkey, hsuits.1, Term.make_variable hsuits.2, hmap]; rfl
        | term t => simp [hkey, hmap]; rfl
        | formula f => simp [hkey, hmap]; rfl
        | missing => exact hsuits.elim
      · rw [if_neg hkey, if_neg fun h => hkey h.1]

theorem termImage?_readInstance {e : String × Instance} (he : e.2.Suits e.1) :
    termImage? (readInstance e) = match e.2 with
      | .text x => some (e.1, .var x)
      | .term t => some (e.1, t)
      | _ => none := by
  obtain ⟨key, i⟩ := e
  cases i with
  | text x => simp [termImage?, readInstance, isReplaceable, he.1]
  | term t => simp [termImage?, readInstance, isReplaceable, he.1]
  | formula f => rfl
  | missing => exact he.elim

theorem relationImage?_readInstance {e : String × Instance} (he : e.2.Suits e.1) :
    relationImage? (readInstance e) = match e.2 with
      | .formula f => some (e.1, f)
      | _ => none := by
  obtain ⟨key, i⟩ := e
  cases i with
  | text x => rfl
  | term t => rfl
  | formula f => simp [relationImage?, readInstance, isReplaceable_eq_false he.1]
  | missing => exact he.elim

theorem fits_readInstance {e : String × Instance} (he : e.2.Suits e.1) :
    (readInstance e).2.fits (readInstance e).1 = true := by
  obtain ⟨key, i⟩ := e
  cases i with
  | text x => simp [Instance.fits, readInstance, isReplaceable, he.1, Instance.isTerm]
  | term t => simp [Instance.fits, readInstance, isReplaceable, he.1, Instance.isTerm]
  | formula f => simp [Instance.fits, readInstance, isReplaceable_eq_false he.1, Instance.isFormula]
  | missing => exact he.elim

/-- Whether there is an instance depends on the formula alone, if the keys are templates. -/
theorem instantiate_eq (hm : Instances.Proper m) : s.instantiate m =
    if ∀ e ∈ m, e.1 ∈ s.templates then
      missingIfCaptured
        (s.formula.instantiateWith (Instances.terms m) (Instances.relations m) [])
    else .ok .missing := by
  have hterms : (m.map readInstance).filterMap termImage? = Instances.terms m := by
    rw [List.filterMap_map]
    exact List.filterMap_congr fun e he => termImage?_readInstance (hm e he)
  have hrelations : (m.map readInstance).filterMap relationImage? = Instances.relations m := by
    rw [List.filterMap_map]
    exact List.filterMap_congr fun e he => relationImage?_readInstance (hm e he)
  have hfits : (m.map readInstance).all (fun e => e.2.fits e.1) = true := by
    rw [List.all_map, List.all_eq_true]
    exact fun e he => fits_readInstance (hm e he)
  rw [instantiate, readVariables_eq_ok hm, ok_bind]
  by_cases hkeys : ∀ e ∈ m, e.1 ∈ s.templates
  · rw [if_pos hkeys, if_pos hkeys]
    simp only [hfits, if_true, instanceBy, hterms, hrelations]
  · rw [if_neg hkeys, if_neg hkeys]
    rfl

theorem instantiateWith_eq (hm : Instances.Proper m) (f : Formula) :
    f.instantiateWith (Instances.terms m) (Instances.relations m) [] =
      f.instantiatePart (Instances.terms m) (Instances.relations m) [] := by
  have hterms : ((Instances.terms m).forM fun e => do
      require (← checkName isReplaceable e.1) .substitutable
      if isVariable e.1 then require (isVariable (← e.2.given).root) .template) = .ok () := by
    refine forM_eq_ok.2 fun e he => ?_
    rw [checkName_eq_ok rfl (Instances.terms_replaceable hm e he)]
    rcases Instances.mem_terms hm he with ⟨hkey, x, hx, hvar⟩ | ⟨hkey, -⟩
    · rw [if_pos hkey, hx]
      simp [Term.given, Term.isMissing, Term.root, hvar]
    · rw [if_neg fun hvar => ne_of_isConstant hkey hvar rfl]
      rfl
  -- a proper instance passes the checks that are made before anything is put in place
  have hrelations : ((Instances.relations m).forM fun e => requireName isRelation e.1) = .ok () :=
    forM_eq_ok.2 fun e he => (requireName_eq_ok rfl).2 (Instances.mem_relations hm he).1
  rw [Formula.instantiateWith, hterms, ok_bind, hrelations]
  rfl

/-- A schema has an instance exactly when the keys are templates and no argument that is inserted has
the innermost variable that is bound around its place. -/
theorem instantiate_eq_ok (hm : Instances.Proper m) (hs : s.formula.WellFormed)
    (harity : ∀ e ∈ s.formula.relationNodes,
      (Table.find? (Instances.relations m) e.1).isSome = true → e.2 ≤ 1) (hg : g ≠ .missing) :
    s.instantiate m = .ok g ↔ (∀ e ∈ m, e.1 ∈ s.templates) ∧
      (∀ i ∈ s.formula.argumentInsertions (Table.find? (Instances.terms m))
          (Table.find? (Instances.relations m)), ∀ x ∈ i.1.variableLeaves, i.2.head? ≠ some x) ∧
        g = s.formula.inst (Table.find? (Instances.terms m))
          (Table.find? (Instances.relations m)) := by
  have hcaptured : ∀ {x : Outcome Formula}, missingIfCaptured x = .ok g ↔ x = .ok g := by
    intro x
    unfold missingIfCaptured
    split
    · simpa using hg.symm
    · simpa using hg.symm
    · rfl
  rw [instantiate_eq hm]
  by_cases hkeys : ∀ e ∈ m, e.1 ∈ s.templates
  · rw [if_pos hkeys, hcaptured, instantiateWith_eq hm, Formula.instantiatePart_eq_ok hm hs harity]
    exact (and_iff_right hkeys).symm
  · rw [if_neg hkeys]
    exact iff_of_false (fun h => hg (Except.ok.inj h).symm) fun h => hkeys h.1

end Schema

/-! ## Truth of instances -/

namespace Formula

/-- Below every quantifier there are no constants, and only its own variable is free. -/
def ScopesClosed : Formula → Prop
  | neg f => f.ScopesClosed
  | bin _ l r => l.ScopesClosed ∧ r.ScopesClosed
  | quant _ x f => f.constantNames = [] ∧ (∀ y ∈ f.freeNames, y = x) ∧ f.ScopesClosed
  | _ => True

/-- Whether only the variable of each quantifier is named below it. -/
def decideScopesClosed : (f : Formula) → Decidable f.ScopesClosed
  | equal _ _ => isTrue trivial
  | rel _ _ => isTrue trivial
  | neg f => f.decideScopesClosed
  | bin _ l r =>
    have := l.decideScopesClosed
    have := r.decideScopesClosed
    inferInstanceAs (Decidable (l.ScopesClosed ∧ r.ScopesClosed))
  | quant _ x f =>
    have := f.decideScopesClosed
    inferInstanceAs
      (Decidable (f.constantNames = [] ∧ (∀ y ∈ f.freeNames, y = x) ∧ f.ScopesClosed))
  | bare _ => isTrue trivial

instance : DecidablePred ScopesClosed := decideScopesClosed

/-- With a term in place of the underscore, a formula says of it what it says with the underscore. -/
theorem truth_subst_hole {f : Formula} (hf : f.WellFormed) {t : Term} (ht : t.WellFormed)
    (hplaces : ∀ i ∈ f.insertions (Table.find? [(hole, t)]) [], ∀ x ∈ i.2, x ∉ i.1.variableLeaves)
    {I : Interpretation} {v : String → String} :
    (f.subst (Table.find? [(hole, t)])).truth I v = f.truth (I.withConst hole (t.denote I v)) v := by
  refine truth_subst hf (fun _ _ => wellFormed_of_find?_single ht) hplaces rfl rfl rfl (fun c hc => ?_) fun x hx => ?_
  · rw [Interpretation.withConst, Table.find?_cons]
    by_cases hc : hole = c
    · simp [hc]
    · simp [hc, Function.update_of_ne (Ne.symm hc), Term.denote]
  · have hx' : hole ≠ x :=
      ne_of_isConstant rfl (hf.isVariable x (freeNames_subset_variableNames f hx))
    simp [hx', Term.denote]

/-- The image of a variable denotes what the variable that is bound for it denotes. -/
theorem denote_image_boundName {m : Instances} (hm : Instances.Proper m) {x : String}
    (hx : isVariable x = true) (I : Interpretation) (v : String → String) :
    ((Table.find? (Instances.terms m) x).getD (.var x)).denote I v =
      v (boundName (Table.find? (Instances.terms m)) x) := by
  rw [boundName]
  cases h : Table.find? (Instances.terms m) x with
  | none => rfl
  | some t =>
      obtain ⟨y, rfl, -⟩ := Instances.exists_var_of_find? hm hx h
      rfl

/-- The truth of an instance is the truth of the schematic formula, where each relation means what the
formula for it says, and each constant and variable what its image denotes.

Below a quantifier the meanings of the relations must not change with the value of the variable that is
bound. They do not, because that variable is not free in the formulas for the relations. -/
theorem truth_inst {m : Instances} (hm : Instances.Proper m) {f : Formula} (hf : f.WellFormed)
    (harity : ∀ e ∈ f.relationNodes,
      (Table.find? (Instances.relations m) e.1).isSome = true → e.2 ≤ 1)
    (hclosed : f.ScopesClosed)
    (hbinders : ∀ x ∈ f.binders, ∀ e ∈ Instances.relations m,
      boundName (Table.find? (Instances.terms m)) x ∉ e.2.freeNames)
    (hplaces : ∀ i ∈ f.argumentInsertions (Table.find? (Instances.terms m))
      (Table.find? (Instances.relations m)), ∀ x ∈ i.2, x ∉ i.1.variableLeaves)
    {I J : Interpretation} {v w : String → String} (hdomain : J.domain = I.domain)
    (happ : J.app = I.app)
    (hrel : ∀ name, Table.find? (Instances.relations m) name = none → J.rel name = I.rel name)
    (hrel' : ∀ name φ, Table.find? (Instances.relations m) name = some φ →
      J.rel name [] = φ.truth I v ∧ ∀ e, J.rel name [e] = φ.truth (I.withConst hole e) v)
    (hconst : ∀ c ∈ f.constantNames,
      J.const c = ((Table.find? (Instances.terms m) c).getD (.const c)).denote I v)
    (hfree : ∀ x ∈ f.freeNames,
      w x = ((Table.find? (Instances.terms m) x).getD (.var x)).denote I v) :
    (f.inst (Table.find? (Instances.terms m)) (Table.find? (Instances.relations m))).truth I v =
      f.truth J w := by
  have hterms := Instances.wellFormed_of_find?_terms hm
  induction f generalizing v w with
  | equal l r =>
      simp only [mem_constantNames_equal] at hconst
      simp only [mem_freeNames_equal] at hfree
      rw [inst, truth, truth,
        Term.denote_subst hf.1 happ (fun c hc => hconst c (.inl hc)) fun x hx => hfree x (.inl hx),
        Term.denote_subst hf.2 happ (fun c hc => hconst c (.inr hc)) fun x hx => hfree x (.inr hx)]
  | rel name ts =>
      simp only [mem_constantNames_rel] at hconst
      simp only [freeNames_rel hf, List.mem_flatMap] at hfree
      have hargs : ∀ t ∈ ts, (t.subst (Table.find? (Instances.terms m))).denote I v = t.denote J w :=
        fun t ht => Term.denote_subst (hf.2 t ht) happ (fun c hc => hconst c ⟨t, ht, hc⟩)
          fun x hx => hfree x ⟨t, ht, hx⟩
      rw [inst, truth]
      obtain hφ | ⟨φ, hφ, hφwf, rfl | ⟨t, rfl, ht⟩⟩ := find?_relations_cases hm hf harity rfl
      · rw [hφ]
        dsimp only
        rw [truth, List.map_map, hrel name hφ]
        exact congrArg _ (List.map_congr_left hargs)
      · rw [hφ]
        exact (hrel' name φ hφ).1.symm
      · rw [argumentInsertions, hφ] at hplaces
        rw [hφ]
        dsimp only
        rw [truth_subst_hole hφwf (ht.subst hterms) hplaces, hargs t List.mem_cons_self]
        exact ((hrel' name φ hφ).2 _).symm
  | neg f ih =>
      rw [inst, truth, truth, ih hf harity hclosed hbinders hplaces hrel' hconst hfree]
  | bin op l r ihl ihr =>
      simp only [mem_constantNames_bin] at hconst
      simp only [freeNames_bin, List.mem_append] at hfree
      simp only [relationNodes, List.forall_mem_append] at harity
      simp only [binders, List.forall_mem_append] at hbinders
      simp only [argumentInsertions, List.forall_mem_append] at hplaces
      rw [inst, truth, truth,
        ihl hf.1 harity.1 hclosed.1 hbinders.1 hplaces.1 hrel' (fun c hc => hconst c (.inl hc))
          fun x hx => hfree x (.inl hx),
        ihr hf.2 harity.2 hclosed.2 hbinders.2 hplaces.2 hrel' (fun c hc => hconst c (.inr hc))
          fun x hx => hfree x (.inr hx)]
  | quant k x f ih =>
      -- only the variable that is bound matters below, and its image is bound in the instance
      obtain ⟨hnoconst, honly, hclosed⟩ := hclosed
      obtain ⟨hx, hbinders⟩ := List.forall_mem_cons.1 hbinders
      rw [inst, truth, truth, hdomain]
      congr 1
      funext e
      refine ih hf.2 harity hclosed hbinders hplaces (fun name φ hφ => ?_) (by simp [hnoconst])
        fun y hy => ?_
      · have hmem := Table.mem_of_find?_eq_some hφ
        have hφwf := (Instances.mem_relations hm hmem).2
        rw [truth_update_of_notMem hφwf (hx _ hmem)]
        refine ⟨(hrel' name φ hφ).1, fun e' => ?_⟩
        rw [truth_update_of_notMem hφwf (hx _ hmem)]
        exact (hrel' name φ hφ).2 e'
      · rw [honly y hy, Function.update_self, denote_image_boundName hm hf.1, Function.update_self]
  | bare t => exact hf.elim

end Formula

end FormalLogic.Predicate
