import FormalLogic.Predicate.Substitution
import FormalLogic.Proofs.Predicate.Semantics

/-!
# Substitution and the capture of variables

Substitution is done by a plain function that cannot fail (`Formula.subst`), and guarded by a check of
every place where a term is inserted (`Formula.insertions`, with the variables that are bound around the
place, innermost first). `Formula.substitute_eq_ok` says exactly when the guarded substitution answers: it
refuses the forbidden variables everywhere and the innermost bound one at each place.

Where no inserted term has a variable that is bound around its place, substitution is a change of
interpretation and valuation (`Formula.truth_subst`). The check covers the innermost quantifier only, so a
term may still be captured by one further out, and the value then changes.
-/

namespace FormalLogic.Predicate

/-- What holds of all images holds of the images that a quantifier leaves. -/
theorem forall_update_none {σ : String → Option Term} {P : String → Term → Prop}
    (hσ : ∀ name s, σ name = some s → P name s) (x : String) :
    ∀ name s, Function.update σ x none name = some s → P name s := by
  intro name s h
  by_cases hx : name = x
  · rw [hx, Function.update_self] at h
    cases h
  · rw [Function.update_of_ne hx] at h
    exact hσ name s h

/-! ## Terms -/

namespace Term

mutual

/-- Replaces constants and variables by their images; a name without an image stays. -/
def subst (σ : String → Option Term) : Term → Term
  | const name => (σ name).getD (const name)
  | var name => (σ name).getD (var name)
  | app name ts => app name (substAll σ ts)
  | missing => missing

/-- Replaces constants and variables in terms. -/
def substAll (σ : String → Option Term) : List Term → List Term
  | [] => []
  | t :: ts => t.subst σ :: substAll σ ts

end

@[simp] theorem substAll_eq_map (σ : String → Option Term) (ts : List Term) :
    substAll σ ts = ts.map (subst σ) := by
  induction ts with
  | nil => rfl
  | cons t ts ih => simp [substAll, ih]

/-- The terms that are inserted into a term when its names are replaced. -/
def inserted (σ : String → Option Term) (t : Term) : List Term :=
  (t.constantLeaves ++ t.variableLeaves).filterMap σ

variable {σ : String → Option Term} {m : Images} {forbidden : List String} {s t : Term}

theorem mem_inserted : s ∈ t.inserted σ ↔
    ∃ name, (name ∈ t.constantLeaves ∨ name ∈ t.variableLeaves) ∧ σ name = some s := by
  simp only [inserted, List.mem_filterMap, List.mem_append]

theorem mem_inserted_app {name : String} {ts : List Term} (h : (app name ts).WellFormed) :
    s ∈ (app name ts).inserted σ ↔ ∃ t ∈ ts, s ∈ t.inserted σ := by
  simp only [mem_inserted, constantLeaves, constantLeavesOf_eq_flatMap h.args, variableLeaves,
    variableLeavesOf_eq_flatMap h.args, List.mem_flatMap]
  constructor
  · rintro ⟨name, ⟨t, ht, hname⟩ | ⟨t, ht, hname⟩, hs⟩
    · exact ⟨t, ht, name, .inl hname, hs⟩
    · exact ⟨t, ht, name, .inr hname, hs⟩
  · rintro ⟨t, ht, name, hname | hname, hs⟩
    · exact ⟨name, .inl ⟨t, ht, hname⟩, hs⟩
    · exact ⟨name, .inr ⟨t, ht, hname⟩, hs⟩

theorem WellFormed.subst (ht : t.WellFormed) (hσ : ∀ name s, σ name = some s → s.WellFormed) :
    (t.subst σ).WellFormed := by
  induction t with
  | const name =>
      rw [Term.subst]
      cases h : σ name with
      | none => exact ht
      | some s => exact hσ name s h
  | var name =>
      rw [Term.subst]
      cases h : σ name with
      | none => exact ht
      | some s => exact hσ name s h
  | app name ts ih =>
      refine ⟨ht.1, ?_, ?_⟩
      · simpa using ht.2.1
      · simpa using fun t htmem => ih t htmem (ht.args t htmem)
  | missing => exact ht.elim

/-! ### Names of the result -/

/-- What is collected from the result of a substitution is collected from the leaves that stay, from
the inserted terms and from the functions. -/
theorem mem_collected_subst {α : Type} (collect : Term → List α) (own : String × Nat → List α)
    (happ : ∀ name ts, (app name ts).WellFormed → ∀ a, a ∈ collect (app name ts) ↔
      a ∈ own (name, ts.length) ∨ ∃ t ∈ ts, a ∈ collect t)
    (ht : t.WellFormed) (hσ : ∀ name s, σ name = some s → s.WellFormed) {a : α} :
    a ∈ collect (t.subst σ) ↔
      (∃ c ∈ t.constantLeaves, σ c = none ∧ a ∈ collect (const c)) ∨
        (∃ x ∈ t.variableLeaves, σ x = none ∧ a ∈ collect (var x)) ∨
          (∃ s ∈ t.inserted σ, a ∈ collect s) ∨ ∃ e ∈ t.functionNodes, a ∈ own e := by
  induction t with
  | const name =>
      cases h : σ name with
      | none => simp [subst, h, mem_inserted, constantLeaves, variableLeaves, functionNodes]
      | some s => simp [subst, h, mem_inserted, constantLeaves, variableLeaves, functionNodes]
  | var name =>
      cases h : σ name with
      | none => simp [subst, h, mem_inserted, constantLeaves, variableLeaves, functionNodes]
      | some s => simp [subst, h, mem_inserted, constantLeaves, variableLeaves, functionNodes]
  | app name ts ih =>
      have hresult := ht.subst hσ
      rw [subst, substAll_eq_map] at hresult ⊢
      have hargs : (∃ t ∈ ts, a ∈ collect (t.subst σ)) ↔ ∃ t ∈ ts,
          (∃ c ∈ t.constantLeaves, σ c = none ∧ a ∈ collect (const c)) ∨
            (∃ x ∈ t.variableLeaves, σ x = none ∧ a ∈ collect (var x)) ∨
              (∃ s ∈ t.inserted σ, a ∈ collect s) ∨ ∃ e ∈ t.functionNodes, a ∈ own e :=
        exists_congr fun t => and_congr_right fun htmem => ih t htmem (ht.args t htmem)
      simp only [happ _ _ hresult, List.length_map, List.mem_map, exists_exists_and_eq_and, hargs,
        constantLeaves, constantLeavesOf_eq_flatMap ht.args, variableLeaves,
        variableLeavesOf_eq_flatMap ht.args, functionNodes, functionNodesOf_eq_flatMap ht.args,
        mem_inserted_app ht, List.mem_flatMap, List.mem_cons]
      grind
  | missing => exact ht.elim

theorem mem_constantLeaves_subst (ht : t.WellFormed) (hσ : ∀ name s, σ name = some s → s.WellFormed)
    {c : String} : c ∈ (t.subst σ).constantLeaves ↔
      (c ∈ t.constantLeaves ∧ σ c = none) ∨ ∃ s ∈ t.inserted σ, c ∈ s.constantLeaves := by
  rw [mem_collected_subst constantLeaves (fun _ => []) ?_ ht hσ]
  · simp [constantLeaves]
  · intro name ts h a
    simp [constantLeaves, constantLeavesOf_eq_flatMap h.args]

theorem mem_variableLeaves_subst (ht : t.WellFormed) (hσ : ∀ name s, σ name = some s → s.WellFormed)
    {x : String} : x ∈ (t.subst σ).variableLeaves ↔
      (x ∈ t.variableLeaves ∧ σ x = none) ∨ ∃ s ∈ t.inserted σ, x ∈ s.variableLeaves := by
  rw [mem_collected_subst variableLeaves (fun _ => []) ?_ ht hσ]
  · simp [variableLeaves]
  · intro name ts h a
    simp [variableLeaves, variableLeavesOf_eq_flatMap h.args]

theorem mem_functionNodes_subst (ht : t.WellFormed) (hσ : ∀ name s, σ name = some s → s.WellFormed)
    {e : String × Nat} : e ∈ (t.subst σ).functionNodes ↔
      e ∈ t.functionNodes ∨ ∃ s ∈ t.inserted σ, e ∈ s.functionNodes := by
  rw [mem_collected_subst functionNodes (fun e => [e]) ?_ ht hσ]
  · simp [functionNodes, or_comm]
  · intro name ts h a
    simp [functionNodes, functionNodesOf_eq_flatMap h.args]

/-! ### What is checked -/

theorem refuse_ne_ok (name : String) (u : Unit) : refuse name ≠ .ok u := by
  intro h
  obtain ⟨_, -, h⟩ := bind_eq_ok.1 h
  cases h

theorem checkAllowedAll_eq_ok {ts : List Term} {u : Unit} :
    checkAllowedAll forbidden ts = .ok u ↔ ∀ t ∈ ts, t.checkAllowed forbidden = .ok u := by
  induction ts with
  | nil => simp [checkAllowedAll]
  | cons t ts ih =>
      simp only [checkAllowedAll, bind_eq_ok, ih, List.forall_mem_cons]
      exact ⟨fun ⟨_, h⟩ => h, fun h => ⟨u, h⟩⟩

/-- A term passes the check exactly when none of its variables is forbidden. -/
theorem checkAllowed_eq_ok (hs : s.WellFormed) (hforbidden : ∀ x ∈ forbidden, isVariable x = true)
    {u : Unit} : s.checkAllowed forbidden = .ok u ↔ ∀ x ∈ s.variableLeaves, x ∉ forbidden := by
  induction s with
  | const c =>
      -- a constant is no variable, so it is not forbidden
      have hc : c ∉ forbidden := fun hmem => ne_of_isConstant hs (hforbidden c hmem) rfl
      simp [checkAllowed, hc, variableLeaves]
  | var x =>
      by_cases hx : x ∈ forbidden
      · simp [checkAllowed, hx, variableLeaves, refuse_ne_ok]
      · simp [checkAllowed, hx, variableLeaves]
  | app name ts ih =>
      rw [checkAllowed, checkAllowedAll_eq_ok, variableLeaves, variableLeavesOf_eq_flatMap hs.args]
      simp only [List.mem_flatMap]
      constructor
      · rintro h x ⟨t, ht, hx⟩
        exact (ih t ht (hs.args t ht)).1 (h t ht) x hx
      · intro h t ht
        exact (ih t ht (hs.args t ht)).2 fun x hx => h x ⟨t, ht, hx⟩
  | missing => exact hs.elim

theorem leafImage_eq_ok (hm : ∀ e ∈ m, e.2.WellFormed)
    (hforbidden : ∀ x ∈ forbidden, isVariable x = true) {leaf t' : Term} {name : String} :
    leafImage m forbidden leaf name = .ok t' ↔
      (∀ s, Table.find? m name = some s → ∀ x ∈ s.variableLeaves, x ∉ forbidden) ∧
        t' = (Table.find? m name).getD leaf := by
  rw [leafImage]
  cases h : Table.find? m name with
  | none => simp [eq_comm]
  | some s =>
      have hs : s.WellFormed := hm _ (Table.mem_of_find?_eq_some h)
      simp only [bind_eq_ok, checkAllowed_eq_ok hs hforbidden, pure_eq_ok]
      constructor
      · rintro ⟨_, hx, rfl⟩
        exact ⟨fun s' hs' => Option.some.inj hs' ▸ hx, rfl⟩
      · rintro ⟨hx, rfl⟩
        exact ⟨(), hx _ rfl, rfl⟩

theorem replaceAll_eq_mapM (ts : List Term) :
    replaceAll m forbidden ts = ts.mapM (replace m forbidden) := by
  induction ts with
  | nil => rfl
  | cons t ts ih => rw [replaceAll, List.mapM_cons, ih]

/-- Names in a term are replaced exactly when no image that is used has a forbidden variable. -/
theorem replace_eq_ok (ht : t.WellFormed) (hm : ∀ e ∈ m, e.2.WellFormed)
    (hforbidden : ∀ x ∈ forbidden, isVariable x = true) {t' : Term} :
    t.replace m forbidden = .ok t' ↔
      (∀ s ∈ t.inserted (Table.find? m), ∀ x ∈ s.variableLeaves, x ∉ forbidden) ∧
        t' = t.subst (Table.find? m) := by
  induction t generalizing t' with
  | const c =>
      simp [replace, leafImage_eq_ok hm hforbidden, mem_inserted, constantLeaves, variableLeaves, subst]
  | var x =>
      simp [replace, leafImage_eq_ok hm hforbidden, mem_inserted, constantLeaves, variableLeaves, subst]
  | app name ts ih =>
      simp only [replace, replaceAll_eq_mapM, bind_eq_ok, pure_eq_ok, mem_inserted_app ht, subst,
        substAll_eq_map, mapM_eq_ok_iff_map fun t htmem t' => ih t htmem (ht.args t htmem)]
      constructor
      · rintro ⟨_, ⟨h, rfl⟩, rfl⟩
        refine ⟨?_, rfl⟩
        rintro s ⟨t, htmem, hs⟩
        exact h t htmem s hs
      · rintro ⟨h, rfl⟩
        exact ⟨_, ⟨fun t htmem s hs => h s ⟨t, htmem, hs⟩, rfl⟩, rfl⟩
  | missing => exact ht.elim

theorem checkSubstitution_eq_ok {u : Unit} : checkSubstitution m forbidden = .ok u ↔
    (∀ e ∈ m, isReplaceable e.1 = true) ∧ ∀ x ∈ forbidden, isVariable x = true := by
  rw [checkSubstitution, bind_eq_ok]
  simp only [forM_eq_ok, checkName_bind_require_eq_ok (show isReplaceable "" = false from rfl),
    requireName_eq_ok (show isVariable "" = false from rfl)]
  exact ⟨fun ⟨_, h⟩ => h, fun h => ⟨(), h⟩⟩

/-- With nothing forbidden, substitution in a term always answers. -/
theorem substitute_nil_eq_ok (ht : t.WellFormed) (hm : ∀ e ∈ m, e.2.WellFormed)
    (hkeys : ∀ e ∈ m, isReplaceable e.1 = true) :
    t.substitute m [] = .ok (t.subst (Table.find? m)) := by
  have hcheck : checkSubstitution m [] = .ok () := checkSubstitution_eq_ok.2 ⟨hkeys, by simp⟩
  rw [substitute, ht.given_eq_ok, ok_bind, hcheck, ok_bind, replace_eq_ok ht hm (by simp)]
  simp

end Term

/-! ## Formulas -/

namespace Formula

/-- Replaces constants and free variables by their images, whatever is captured. -/
def subst (σ : String → Option Term) : Formula → Formula
  | equal l r => equal (l.subst σ) (r.subst σ)
  | rel name ts => rel name (ts.map (Term.subst σ))
  | neg f => neg (f.subst σ)
  | bin op l r => bin op (l.subst σ) (r.subst σ)
  | quant k x f => quant k x (f.subst (Function.update σ x none))
  | bare t => bare (t.subst σ)

/-- The terms that are inserted into a formula when its names are replaced, each with the variables
that are bound around its place, innermost first. -/
def insertions (σ : String → Option Term) (around : List String) :
    Formula → List (Term × List String)
  | equal l r => (l.inserted σ ++ r.inserted σ).map (·, around)
  | rel _ ts => (ts.flatMap (Term.inserted σ)).map (·, around)
  | neg f => f.insertions σ around
  | bin _ l r => l.insertions σ around ++ r.insertions σ around
  | quant _ x f => f.insertions (Function.update σ x none) (x :: around)
  | bare _ => []

variable {σ : String → Option Term} {m : Term.Images} {forbidden : List String} {f g : Formula}
  {s t : Term}

/-- Variables that are neither the first of a list nor among the further ones are not in it. -/
theorem notMem_of_head?_of_tail {around vars : List String}
    (hhead : ∀ x ∈ vars, around.head? ≠ some x) (htail : ∀ x ∈ around.tail, x ∉ vars) :
    ∀ x ∈ around, x ∉ vars := by
  intro x hx hmem
  cases around with
  | nil => cases hx
  | cons y around =>
      rcases List.mem_cons.1 hx with rfl | hx
      · exact hhead x hmem rfl
      · exact htail x hx hmem

/-! ### When substitution answers -/

theorem replaceArgument_eq_ok {bound : Option String} (ht : t.WellFormed)
    (hm : ∀ e ∈ m, e.2.WellFormed) (hcheck : Term.checkSubstitution m forbidden = .ok ())
    (hbound : ∀ x, bound = some x → isVariable x = true) {t' : Term} :
    replaceArgument m forbidden bound t = .ok t' ↔
      (t.root ∉ forbidden ∧ ∀ s ∈ t.inserted (Table.find? m), ∀ x ∈ s.variableLeaves,
        x ∉ refusedNames forbidden bound) ∧ t' = t.subst (Table.find? m) := by
  obtain ⟨hkeys, hforbidden⟩ := Term.checkSubstitution_eq_ok.1 hcheck
  have hrefused : ∀ x ∈ refusedNames forbidden bound, isVariable x = true := by
    intro x hx
    rcases List.mem_append.1 hx with hx | hx
    · exact hforbidden x hx
    · exact hbound x (Option.mem_toList.1 hx)
  have hcheck' : Term.checkSubstitution m (refusedNames forbidden bound) = .ok () :=
    Term.checkSubstitution_eq_ok.2 ⟨hkeys, hrefused⟩
  rw [replaceArgument, ht.given_eq_ok, ok_bind, ite_error_eq_ok, Term.substitute, ht.given_eq_ok,
    ok_bind, hcheck', ok_bind, Term.replace_eq_ok ht hm hrefused, List.contains_iff_mem, and_assoc]

theorem checkSubstitution_of_substituteBelow {negations : Bool} {bound : Option String}
    (hf : f.WellFormed) (h : f.substituteBelow negations forbidden m bound = .ok g) :
    Term.checkSubstitution m forbidden = .ok () := by
  cases f with
  | equal l r => exact (bind_eq_ok.1 h).choose_spec.1
  | rel name ts => exact (bind_eq_ok.1 h).choose_spec.1
  | neg f => exact (bind_eq_ok.1 h).choose_spec.1
  | bin op l r => exact (bind_eq_ok.1 h).choose_spec.1
  | quant k x f => exact (bind_eq_ok.1 h).choose_spec.1
  | bare t => exact hf.elim

/-- Below a quantifier, substitution answers exactly when no argument is a forbidden variable and no
inserted term has a forbidden variable or the innermost one that is bound around its place. -/
theorem substituteBelow_eq_ok (hf : f.WellFormed) (hm : ∀ e ∈ m, e.2.WellFormed)
    (hcheck : Term.checkSubstitution m forbidden = .ok ()) (around : List String)
    (haround : ∀ x ∈ around, isVariable x = true) :
    f.substituteBelow true forbidden m around.head? = .ok g ↔
      (∀ t ∈ f.terms, t.root ∉ forbidden) ∧
        (∀ i ∈ f.insertions (Table.find? m) around, ∀ x ∈ i.1.variableLeaves,
          x ∉ refusedNames forbidden i.2.head?) ∧ g = f.subst (Table.find? m) := by
  have hbound : ∀ x, around.head? = some x → isVariable x = true := fun x hx =>
    haround x (List.mem_of_mem_head? hx)
  induction f generalizing m around g with
  | equal l r =>
      simp only [substituteBelow, hcheck, ok_bind, bind_eq_ok, pure_eq_ok,
        replaceArgument_eq_ok hf.1 hm hcheck hbound, replaceArgument_eq_ok hf.2 hm hcheck hbound,
        terms, insertions, subst, List.forall_mem_map, List.forall_mem_append, List.forall_mem_cons]
      constructor
      · rintro ⟨_, ⟨⟨hl, hl'⟩, rfl⟩, _, ⟨⟨hr, hr'⟩, rfl⟩, rfl⟩
        exact ⟨⟨hl, hr, by simp⟩, ⟨hl', hr'⟩, rfl⟩
      · rintro ⟨⟨hl, hr, -⟩, ⟨hl', hr'⟩, rfl⟩
        exact ⟨_, ⟨⟨hl, hl'⟩, rfl⟩, _, ⟨⟨hr, hr'⟩, rfl⟩, rfl⟩
  | rel name ts =>
      simp only [substituteBelow, hcheck, ok_bind, bind_eq_ok, pure_eq_ok, terms, insertions, subst,
        mapM_eq_ok_iff_map fun t ht t' => replaceArgument_eq_ok (hf.2 t ht) hm hcheck hbound,
        List.forall_mem_map, List.mem_flatMap]
      constructor
      · rintro ⟨_, ⟨h, rfl⟩, rfl⟩
        refine ⟨fun t ht => (h t ht).1, ?_, rfl⟩
        rintro s ⟨t, ht, hs⟩
        exact (h t ht).2 s hs
      · rintro ⟨h, h', rfl⟩
        exact ⟨_, ⟨fun t ht => ⟨h t ht, fun s hs => h' s ⟨t, ht, hs⟩⟩, rfl⟩, rfl⟩
  | neg f ih =>
      simp only [substituteBelow, hcheck, ok_bind, require_true, bind_eq_ok, pure_eq_ok,
        ih hf hm hcheck around haround hbound, terms, insertions, subst]
      constructor
      · rintro ⟨_, ⟨h, h', rfl⟩, rfl⟩
        exact ⟨h, h', rfl⟩
      · rintro ⟨h, h', rfl⟩
        exact ⟨_, ⟨h, h', rfl⟩, rfl⟩
  | bin op l r ihl ihr =>
      simp only [substituteBelow, hcheck, ok_bind, bind_eq_ok, pure_eq_ok,
        ihl hf.1 hm hcheck around haround hbound, ihr hf.2 hm hcheck around haround hbound, terms,
        insertions, subst, List.forall_mem_append]
      constructor
      · rintro ⟨_, ⟨hl, hl', rfl⟩, _, ⟨hr, hr', rfl⟩, rfl⟩
        exact ⟨⟨hl, hr⟩, ⟨hl', hr'⟩, rfl⟩
      · rintro ⟨⟨hl, hr⟩, ⟨hl', hr'⟩, rfl⟩
        exact ⟨_, ⟨hl, hl', rfl⟩, _, ⟨hr, hr', rfl⟩, rfl⟩
  | quant k x f ih =>
      have hmem : ∀ e ∈ Table.erase m x, e ∈ m := fun e he => (List.mem_filter.1 he).1
      have hcheck' : Term.checkSubstitution (Table.erase m x) forbidden = .ok () := by
        obtain ⟨hkeys, hforbidden⟩ := Term.checkSubstitution_eq_ok.1 hcheck
        exact Term.checkSubstitution_eq_ok.2 ⟨fun e he => hkeys e (hmem e he), hforbidden⟩
      have haround' : ∀ y ∈ x :: around, isVariable y = true :=
        List.forall_mem_cons.2 ⟨hf.1, haround⟩
      have hbody := fun g => @ih (Table.erase m x) g hf.2 (fun e he => hm e (hmem e he)) hcheck'
        (x :: around) haround' fun y hy => haround' y (List.mem_of_mem_head? hy)
      rw [List.head?_cons] at hbody
      simp only [substituteBelow, hcheck, ok_bind, bind_eq_ok, pure_eq_ok, hbody, Table.find?_erase,
        terms, insertions, subst]
      constructor
      · rintro ⟨_, ⟨h, h', rfl⟩, rfl⟩
        exact ⟨h, h', rfl⟩
      · rintro ⟨h, h', rfl⟩
        exact ⟨_, ⟨h, h', rfl⟩, rfl⟩
  | bare t => exact hf.elim

/-- Substitution answers exactly when its arguments pass the check, no argument of an atomic part is a
forbidden variable, and no inserted term has a forbidden variable or the innermost one that is bound
around its place. -/
theorem substitute_eq_ok (hf : f.WellFormed) (hm : ∀ e ∈ m, e.2.WellFormed) :
    f.substitute m forbidden = .ok g ↔ Term.checkSubstitution m forbidden = .ok () ∧
      (∀ t ∈ f.terms, t.root ∉ forbidden) ∧
        (∀ i ∈ f.insertions (Table.find? m) [], ∀ x ∈ i.1.variableLeaves,
          x ∉ refusedNames forbidden i.2.head?) ∧ g = f.subst (Table.find? m) := by
  constructor
  · intro h
    have hcheck := checkSubstitution_of_substituteBelow hf h
    exact ⟨hcheck, (substituteBelow_eq_ok hf hm hcheck [] (by simp)).1 h⟩
  · rintro ⟨hcheck, h⟩
    exact (substituteBelow_eq_ok hf hm hcheck [] (by simp)).2 h

/-- With nothing forbidden, substitution answers exactly when no inserted term has the innermost
variable that is bound around its place. -/
theorem substitute_nil_eq_ok (hf : f.WellFormed) (hm : ∀ e ∈ m, e.2.WellFormed)
    (hkeys : ∀ e ∈ m, isReplaceable e.1 = true) : f.substitute m [] = .ok g ↔
      (∀ i ∈ f.insertions (Table.find? m) [], ∀ x ∈ i.1.variableLeaves, i.2.head? ≠ some x) ∧
        g = f.subst (Table.find? m) := by
  have hcheck : Term.checkSubstitution m [] = .ok () :=
    Term.checkSubstitution_eq_ok.2 ⟨hkeys, by simp⟩
  simp [substitute_eq_ok hf hm, hcheck, refusedNames]

theorem substitute_variables_eq_ok (hf : f.WellFormed)
    (hm : ∀ e ∈ m, isVariable e.1 = true ∧ e.2.WellFormed) : f.substitute m [] = .ok g ↔
      (∀ i ∈ f.insertions (Table.find? m) [], ∀ x ∈ i.1.variableLeaves, i.2.head? ≠ some x) ∧
        g = f.subst (Table.find? m) :=
  substitute_nil_eq_ok hf (fun e he => (hm e he).2) fun e he => Bool.or_eq_true_iff.2 (.inr (hm e he).1)

/-- Around the places in an atomic formula nothing further is bound. -/
theorem snd_of_mem_insertions_atomic {i : Term × List String} {around : List String}
    (hatomic : f.binders = []) (hi : i ∈ f.insertions σ around) : i.2 = around := by
  induction f generalizing σ with
  | equal l r =>
      obtain ⟨s, -, rfl⟩ := List.mem_map.1 hi
      rfl
  | rel name ts =>
      obtain ⟨s, -, rfl⟩ := List.mem_map.1 hi
      rfl
  | neg f ih => exact ih hatomic hi
  | bin op l r ihl ihr =>
      obtain ⟨hl, hr⟩ := List.append_eq_nil_iff.1 hatomic
      exact (List.mem_append.1 hi).elim (ihl hl) (ihr hr)
  | quant k x f ih => cases hatomic
  | bare t => exact absurd hi List.not_mem_nil

/-! ### Names of the result -/

theorem WellFormed.subst (hf : f.WellFormed) (hσ : ∀ name s, σ name = some s → s.WellFormed) :
    (f.subst σ).WellFormed := by
  induction f generalizing σ with
  | equal l r => exact ⟨hf.1.subst hσ, hf.2.subst hσ⟩
  | rel name ts =>
      refine ⟨hf.1, fun t' ht' => ?_⟩
      obtain ⟨t, ht, rfl⟩ := List.mem_map.1 ht'
      exact (hf.2 t ht).subst hσ
  | neg f ih => exact ih hf hσ
  | bin op l r ihl ihr => exact ⟨ihl hf.1 hσ, ihr hf.2 hσ⟩
  | quant k x f ih => exact ⟨hf.1, ih hf.2 (forall_update_none hσ x)⟩
  | bare t => exact hf.elim

@[simp] theorem relationNodes_subst (σ : String → Option Term) (f : Formula) :
    (f.subst σ).relationNodes = f.relationNodes := by
  induction f generalizing σ with
  | equal l r => rfl
  | rel name ts => simp [subst, relationNodes]
  | neg f ih => exact ih σ
  | bin op l r ihl ihr => simp [subst, relationNodes, ihl, ihr]
  | quant k x f ih => exact ih _
  | bare t => rfl

@[simp] theorem binders_subst (σ : String → Option Term) (f : Formula) :
    (f.subst σ).binders = f.binders := by
  induction f generalizing σ with
  | equal l r => rfl
  | rel name ts => rfl
  | neg f ih => exact ih σ
  | bin op l r ihl ihr => simp [subst, binders, ihl, ihr]
  | quant k x f ih => simp [subst, binders, ih]
  | bare t => rfl

/-- What is collected from the terms of the result is collected from those of the formula, as far as
it stays, and from the inserted terms. Below quantifiers fewer variables are replaced, but the same
constants. -/
theorem mem_terms_collected_subst {α : Type} {collect : Term → List α} {a : α} {stays : Prop}
    (hterm : ∀ (τ : String → Option Term) (t : Term), t.WellFormed →
      (∀ name s, τ name = some s → s.WellFormed) → (∀ c, isConstant c = true → τ c = σ c) →
        (a ∈ collect (t.subst τ) ↔ (a ∈ collect t ∧ stays) ∨ ∃ s ∈ t.inserted τ, a ∈ collect s))
    (hf : f.WellFormed) {τ : String → Option Term} (hτ : ∀ name s, τ name = some s → s.WellFormed)
    (hconst : ∀ c, isConstant c = true → τ c = σ c) (around : List String) :
    a ∈ (f.subst τ).terms.flatMap collect ↔
      (a ∈ f.terms.flatMap collect ∧ stays) ∨ ∃ i ∈ f.insertions τ around, a ∈ collect i.1 := by
  induction f generalizing τ around with
  | equal l r =>
      simp only [subst, terms, insertions, List.flatMap_cons, List.flatMap_nil, List.append_nil,
        List.mem_append, hterm τ l hf.1 hτ hconst, hterm τ r hf.2 hτ hconst, List.mem_map,
        exists_exists_and_eq_and]
      grind
  | rel name ts =>
      have hargs : (∃ t ∈ ts, a ∈ collect (t.subst τ)) ↔ ∃ t ∈ ts,
          (a ∈ collect t ∧ stays) ∨ ∃ s ∈ t.inserted τ, a ∈ collect s :=
        exists_congr fun t => and_congr_right fun ht => hterm τ t (hf.2 t ht) hτ hconst
      simp only [subst, terms, insertions, List.mem_flatMap, List.mem_map, exists_exists_and_eq_and,
        hargs]
      grind
  | neg f ih => exact ih hf hτ hconst around
  | bin op l r ihl ihr =>
      simp only [subst, terms, insertions, List.flatMap_append, List.mem_append,
        ihl hf.1 hτ hconst around, ihr hf.2 hτ hconst around]
      grind
  | quant k x f ih =>
      refine ih hf.2 (forall_update_none hτ x) (fun c hc => ?_) (x :: around)
      rw [Function.update_of_ne (ne_of_isConstant hc hf.1)]
      exact hconst c hc
  | bare t => exact hf.elim

theorem mem_constantNames_subst (hf : f.WellFormed) (hσ : ∀ name s, σ name = some s → s.WellFormed)
    (around : List String) {c : String} : c ∈ (f.subst σ).constantNames ↔
      (c ∈ f.constantNames ∧ σ c = none) ∨ ∃ i ∈ f.insertions σ around, c ∈ i.1.constantLeaves := by
  refine mem_terms_collected_subst (fun τ t ht hτ hconst => ?_) hf hσ (fun _ _ => rfl) around
  rw [Term.mem_constantLeaves_subst ht hτ]
  refine or_congr (and_congr_right fun hc => ?_) Iff.rfl
  rw [hconst c (ht.isConstant c hc)]

theorem mem_functionNodes_subst (hf : f.WellFormed)
    (hσ : ∀ name s, σ name = some s → s.WellFormed) (around : List String) {e : String × Nat} :
    e ∈ (f.subst σ).functionNodes ↔
      e ∈ f.functionNodes ∨ ∃ i ∈ f.insertions σ around, e ∈ i.1.functionNodes := by
  have h := @mem_terms_collected_subst σ f _ Term.functionNodes e True
    (fun τ t ht hτ _ => by rw [Term.mem_functionNodes_subst ht hτ, and_true]) hf σ hσ
    (fun _ _ => rfl) around
  rwa [and_true] at h

theorem mem_freeNames_subst (hf : f.WellFormed) (hσ : ∀ name s, σ name = some s → s.WellFormed)
    (around : List String) {y : String} (hy : y ∈ (f.subst σ).freeNames) :
    (y ∈ f.freeNames ∧ σ y = none) ∨ ∃ i ∈ f.insertions σ around, y ∈ i.1.variableLeaves := by
  induction f generalizing σ around with
  | equal l r =>
      simp only [subst, freeNames, List.mem_append, Term.mem_variableLeaves_subst hf.1 hσ,
        Term.mem_variableLeaves_subst hf.2 hσ] at hy
      simp only [freeNames, insertions, List.mem_map, exists_exists_and_eq_and, List.mem_append]
      grind
  | rel name ts =>
      have hresult : (rel name (ts.map (Term.subst σ))).WellFormed := hf.subst hσ
      rw [subst, freeNames_rel hresult, List.flatMap_map] at hy
      obtain ⟨t, ht, hy⟩ := List.mem_flatMap.1 hy
      rcases (Term.mem_variableLeaves_subst (hf.2 t ht) hσ).1 hy with ⟨hy, hnone⟩ | ⟨s, hs, hy⟩
      · rw [freeNames_rel hf]
        exact .inl ⟨List.mem_flatMap.2 ⟨t, ht, hy⟩, hnone⟩
      · exact .inr ⟨(s, around), List.mem_map.2 ⟨s, List.mem_flatMap.2 ⟨t, ht, hs⟩, rfl⟩, hy⟩
  | neg f ih => exact ih hf hσ around hy
  | bin op l r ihl ihr =>
      rcases List.mem_append.1 hy with hy | hy
      · rcases ihl hf.1 hσ around hy with ⟨hy, hnone⟩ | ⟨i, hi, hy⟩
        · exact .inl ⟨List.mem_append_left _ hy, hnone⟩
        · exact .inr ⟨i, List.mem_append_left _ hi, hy⟩
      · rcases ihr hf.2 hσ around hy with ⟨hy, hnone⟩ | ⟨i, hi, hy⟩
        · exact .inl ⟨List.mem_append_right _ hy, hnone⟩
        · exact .inr ⟨i, List.mem_append_right _ hi, hy⟩
  | quant k x f ih =>
      obtain ⟨hy, hyx⟩ := mem_freeNames_quant.1 hy
      rcases ih hf.2 (forall_update_none hσ x) (x :: around) hy with ⟨hy, hnone⟩ | hi
      · rw [Function.update_of_ne hyx] at hnone
        exact .inl ⟨mem_freeNames_quant.2 ⟨hy, hyx⟩, hnone⟩
      · exact .inr hi
  | bare t => exact hf.elim

/-- A free variable that is not replaced stays free. -/
theorem mem_freeNames_subst_of_none (hf : f.WellFormed)
    (hσ : ∀ name s, σ name = some s → s.WellFormed) {y : String} (hy : y ∈ f.freeNames)
    (hnone : σ y = none) : y ∈ (f.subst σ).freeNames := by
  induction f generalizing σ with
  | equal l r =>
      simp only [freeNames, List.mem_append] at hy
      simp only [subst, freeNames, List.mem_append, Term.mem_variableLeaves_subst hf.1 hσ,
        Term.mem_variableLeaves_subst hf.2 hσ]
      exact hy.imp (fun hy => .inl ⟨hy, hnone⟩) fun hy => .inl ⟨hy, hnone⟩
  | rel name ts =>
      have hresult : (rel name (ts.map (Term.subst σ))).WellFormed := hf.subst hσ
      rw [freeNames_rel hf] at hy
      obtain ⟨t, ht, hy⟩ := List.mem_flatMap.1 hy
      rw [subst, freeNames_rel hresult, List.flatMap_map]
      exact List.mem_flatMap.2
        ⟨t, ht, (Term.mem_variableLeaves_subst (hf.2 t ht) hσ).2 (.inl ⟨hy, hnone⟩)⟩
  | neg f ih => exact ih hf hσ hy hnone
  | bin op l r ihl ihr =>
      rcases List.mem_append.1 hy with hy | hy
      · exact List.mem_append_left _ (ihl hf.1 hσ hy hnone)
      · exact List.mem_append_right _ (ihr hf.2 hσ hy hnone)
  | quant k x f ih =>
      obtain ⟨hy, hyx⟩ := mem_freeNames_quant.1 hy
      refine mem_freeNames_quant.2 ⟨ih hf.2 (forall_update_none hσ x) hy ?_, hyx⟩
      rw [Function.update_of_ne hyx, hnone]
  | bare t => exact hf.elim

/-! ### Where terms are inserted -/

/-- What is bound around a formula is bound around all places in it. -/
theorem subset_of_mem_insertions {i : Term × List String} {around : List String}
    (hi : i ∈ f.insertions σ around) : around ⊆ i.2 := by
  induction f generalizing σ around with
  | equal l r =>
      obtain ⟨s, -, rfl⟩ := List.mem_map.1 hi
      exact List.Subset.refl around
  | rel name ts =>
      obtain ⟨s, -, rfl⟩ := List.mem_map.1 hi
      exact List.Subset.refl around
  | neg f ih => exact ih hi
  | bin op l r ihl ihr => exact (List.mem_append.1 hi).elim ihl ihr
  | quant k x f ih => exact fun y hy => ih hi (List.mem_cons_of_mem x hy)
  | bare t => exact absurd hi List.not_mem_nil

/-- Only images of names that occur are inserted. -/
theorem exists_image_of_mem_insertions (hf : f.WellFormed) {i : Term × List String}
    {around : List String} (hi : i ∈ f.insertions σ around) :
    ∃ name, (name ∈ f.constantNames ∨ name ∈ f.freeNames) ∧ σ name = some i.1 := by
  induction f generalizing σ around with
  | equal l r =>
      obtain ⟨s, hs, rfl⟩ := List.mem_map.1 hi
      simp only [List.mem_append, Term.mem_inserted] at hs
      simp only [mem_constantNames_equal, mem_freeNames_equal]
      grind
  | rel rname ts =>
      obtain ⟨s, hs, rfl⟩ := List.mem_map.1 hi
      obtain ⟨t, ht, hs⟩ := List.mem_flatMap.1 hs
      obtain ⟨name, hname, hs⟩ := Term.mem_inserted.1 hs
      refine ⟨name, ?_, hs⟩
      rw [freeNames_rel hf]
      exact hname.imp (fun h => List.mem_flatMap.2 ⟨t, ht, h⟩) fun h => List.mem_flatMap.2 ⟨t, ht, h⟩
  | neg f ih => exact ih hf hi
  | bin op l r ihl ihr =>
      simp only [mem_constantNames_bin, freeNames_bin, List.mem_append]
      rcases List.mem_append.1 hi with hi | hi
      · obtain ⟨name, hname, hs⟩ := ihl hf.1 hi
        exact ⟨name, hname.imp .inl .inl, hs⟩
      · obtain ⟨name, hname, hs⟩ := ihr hf.2 hi
        exact ⟨name, hname.imp .inr .inr, hs⟩
  | quant k x f ih =>
      obtain ⟨name, hname, hs⟩ := ih hf.2 hi
      have hne : name ≠ x := by
        rintro rfl
        rw [Function.update_self] at hs
        cases hs
      rw [Function.update_of_ne hne] at hs
      exact ⟨name, hname.imp_right fun h => mem_freeNames_quant.2 ⟨h, hne⟩, hs⟩
  | bare t => exact hf.elim

/-- The image of a name that occurs is inserted. -/
theorem exists_mem_insertions (hf : f.WellFormed) (around : List String) {name : String}
    (hname : name ∈ f.constantNames ∨ name ∈ f.freeNames) (hs : σ name = some s) :
    ∃ i ∈ f.insertions σ around, i.1 = s := by
  induction f generalizing σ around with
  | equal l r =>
      refine ⟨(s, around), List.mem_map.2 ⟨s, ?_, rfl⟩, rfl⟩
      simp only [mem_constantNames_equal, mem_freeNames_equal] at hname
      simp only [List.mem_append, Term.mem_inserted]
      grind
  | rel rname ts =>
      refine ⟨(s, around), List.mem_map.2 ⟨s, ?_, rfl⟩, rfl⟩
      simp only [mem_constantNames_rel, freeNames_rel hf, List.mem_flatMap] at hname
      simp only [List.mem_flatMap, Term.mem_inserted]
      grind
  | neg f ih => exact ih hf around hname hs
  | bin op l r ihl ihr =>
      simp only [mem_constantNames_bin, freeNames_bin, List.mem_append] at hname
      rcases or_or_or_comm.1 hname with h | h
      · obtain ⟨i, hi, his⟩ := ihl hf.1 around h hs
        exact ⟨i, List.mem_append_left _ hi, his⟩
      · obtain ⟨i, hi, his⟩ := ihr hf.2 around h hs
        exact ⟨i, List.mem_append_right _ hi, his⟩
  | quant k x f ih =>
      have hne : name ≠ x := by
        rcases hname with h | h
        · exact ne_of_isConstant (hf.2.isConstant name h) hf.1
        · exact (mem_freeNames_quant.1 h).2
      refine ih hf.2 (x :: around) (hname.imp_right fun h => (mem_freeNames_quant.1 h).1) ?_
      rw [Function.update_of_ne hne, hs]
  | bare t => exact hf.elim

/-! ### One name that is replaced -/

theorem find?_single_eq_none {x y : String} {t : Term} (h : x ≠ y) :
    Table.find? [(x, t)] y = none := by
  simp [h]

theorem wellFormed_of_find?_single {x name : String} {s t : Term} (ht : t.WellFormed)
    (h : Table.find? [(x, t)] name = some s) : s.WellFormed := by
  rw [Table.find?_cons, Table.find?_nil] at h
  split at h
  · rwa [← Option.some.inj h]
  · cases h

theorem fst_of_mem_insertions_single {x : String} {t : Term} (hf : f.WellFormed)
    {i : Term × List String} {around : List String}
    (hi : i ∈ f.insertions (Table.find? [(x, t)]) around) : i.1 = t := by
  obtain ⟨name, -, hname⟩ := exists_image_of_mem_insertions hf hi
  exact congrArg Prod.snd (List.mem_singleton.1 (Table.mem_of_find?_eq_some hname))

end Formula

/-! ## Substitution as a change of meaning -/

/-- A replaced term denotes what the term denotes when its names denote what their images do. -/
theorem Term.denote_subst {I J : Interpretation} {v w : String → String} {σ : String → Option Term}
    {t : Term} (ht : t.WellFormed) (happ : J.app = I.app)
    (hconst : ∀ c ∈ t.constantLeaves, J.const c = ((σ c).getD (.const c)).denote I v)
    (hvar : ∀ x ∈ t.variableLeaves, w x = ((σ x).getD (.var x)).denote I v) :
    (t.subst σ).denote I v = t.denote J w := by
  induction t with
  | const c => exact (hconst c (by simp [constantLeaves])).symm
  | var x => exact (hvar x (by simp [variableLeaves])).symm
  | app name ts ih =>
      simp only [constantLeaves, constantLeavesOf_eq_flatMap ht.args, List.mem_flatMap] at hconst
      simp only [variableLeaves, variableLeavesOf_eq_flatMap ht.args, List.mem_flatMap] at hvar
      have hargs : (ts.map (Term.subst σ)).map (denote I v) = ts.map (denote J w) := by
        rw [List.map_map]
        exact List.map_congr_left fun t htmem => ih t htmem (ht.args t htmem)
          (fun c hc => hconst c ⟨t, htmem, hc⟩) fun x hx => hvar x ⟨t, htmem, hx⟩
      simp only [subst, substAll_eq_map, denote, denoteAll_eq_map, hargs, happ]
  | missing => exact ht.elim

namespace Formula

/-- An image that is inserted below a quantifier denotes the same for all values of its variable. -/
theorem denote_update_image {I : Interpretation} {v : String → String} {σ : String → Option Term}
    {f : Formula} {x e name : String} {around : List String} (leaf : Term) (hf : f.WellFormed)
    (hσ : ∀ name s, σ name = some s → s.WellFormed)
    (hfresh : ∀ i ∈ f.insertions (Function.update σ x none) (x :: around), ∀ y ∈ i.2,
      y ∉ i.1.variableLeaves)
    (hleaf : leaf.WellFormed) (hx : x ∉ leaf.variableLeaves) (hne : name ≠ x)
    (hname : name ∈ f.constantNames ∨ name ∈ f.freeNames) :
    ((Function.update σ x none name).getD leaf).denote I (Function.update v x e) =
      ((σ name).getD leaf).denote I v := by
  rw [Function.update_of_ne hne]
  have himage : ((σ name).getD leaf).WellFormed ∧ x ∉ ((σ name).getD leaf).variableLeaves := by
    cases h : σ name with
    | none => exact ⟨hleaf, hx⟩
    | some s =>
        have h' : Function.update σ x none name = some s := by rw [Function.update_of_ne hne, h]
        obtain ⟨i, hi, rfl⟩ := exists_mem_insertions hf (x :: around) hname h'
        exact ⟨hσ name i.1 h, hfresh i hi x (subset_of_mem_insertions hi List.mem_cons_self)⟩
  exact Term.denote_congr himage.1 (fun _ _ => rfl) (fun _ _ => rfl) fun y hy =>
    Function.update_of_ne (ne_of_mem_of_not_mem hy himage.2) e v

/-- Where no inserted term has a variable that is bound around its place, the result of a substitution
is true exactly when the formula is true with the images' meanings for the names.

Below a quantifier the meanings of the images must not change with the value of its variable. They do
not, because the images that are inserted there do not have that variable. -/
theorem truth_subst {I J : Interpretation} {v w : String → String} {σ : String → Option Term}
    {f : Formula} (hf : f.WellFormed) (hσ : ∀ name s, σ name = some s → s.WellFormed)
    {around : List String}
    (hfresh : ∀ i ∈ f.insertions σ around, ∀ x ∈ i.2, x ∉ i.1.variableLeaves)
    (hdomain : J.domain = I.domain) (happ : J.app = I.app) (hrel : J.rel = I.rel)
    (hconst : ∀ c ∈ f.constantNames, J.const c = ((σ c).getD (.const c)).denote I v)
    (hfree : ∀ x ∈ f.freeNames, w x = ((σ x).getD (.var x)).denote I v) :
    (f.subst σ).truth I v = f.truth J w := by
  induction f generalizing σ around v w with
  | equal l r =>
      simp only [mem_constantNames_equal] at hconst
      simp only [mem_freeNames_equal] at hfree
      rw [subst, truth, truth,
        Term.denote_subst hf.1 happ (fun c hc => hconst c (.inl hc)) fun x hx => hfree x (.inl hx),
        Term.denote_subst hf.2 happ (fun c hc => hconst c (.inr hc)) fun x hx => hfree x (.inr hx)]
  | rel name ts =>
      simp only [mem_constantNames_rel] at hconst
      simp only [freeNames_rel hf, List.mem_flatMap] at hfree
      have hargs : (ts.map (Term.subst σ)).map (Term.denote I v) = ts.map (Term.denote J w) := by
        rw [List.map_map]
        exact List.map_congr_left fun t ht => Term.denote_subst (hf.2 t ht) happ
          (fun c hc => hconst c ⟨t, ht, hc⟩) fun x hx => hfree x ⟨t, ht, hx⟩
      rw [subst, truth, truth, hargs, hrel]
  | neg f ih => rw [subst, truth, truth, ih hf hσ hfresh hconst hfree]
  | bin op l r ihl ihr =>
      simp only [mem_constantNames_bin] at hconst
      simp only [freeNames_bin, List.mem_append] at hfree
      rw [subst, truth, truth,
        ihl hf.1 hσ (fun i hi => hfresh i (List.mem_append_left _ hi))
          (fun c hc => hconst c (.inl hc)) fun x hx => hfree x (.inl hx),
        ihr hf.2 hσ (fun i hi => hfresh i (List.mem_append_right _ hi))
          (fun c hc => hconst c (.inr hc)) fun x hx => hfree x (.inr hx)]
  | quant k x f ih =>
      rw [subst, truth, truth, hdomain]
      congr 1
      funext e
      refine ih hf.2 (forall_update_none hσ x) hfresh (fun c hc => ?_) fun y hy => ?_
      · have hcconst := hf.2.isConstant c hc
        rw [denote_update_image (.const c) hf.2 hσ hfresh hcconst (by simp [Term.variableLeaves])
          (ne_of_isConstant hcconst hf.1) (.inl hc)]
        exact hconst c hc
      · by_cases hyx : y = x
        · rw [hyx, Function.update_self, Function.update_self]
          exact (Function.update_self x e v).symm
        · have hvar : isVariable y = true := hf.2.isVariable y (freeNames_subset_variableNames f hy)
          rw [Function.update_of_ne hyx, denote_update_image (.var y) hf.2 hσ hfresh hvar
            (by simpa [Term.variableLeaves] using Ne.symm hyx) hyx (.inr hy)]
          exact hfree y (mem_freeNames_quant.2 ⟨hy, hyx⟩)
  | bare t => exact hf.elim

end Formula

end FormalLogic.Predicate
