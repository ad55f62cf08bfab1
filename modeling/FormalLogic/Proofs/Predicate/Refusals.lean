import FormalLogic.Proofs.Predicate.Substitution
import FormalLogic.Proofs.Predicate.UniqueReading

/-!
# Which substitutions are refused

A substitution fails only by reporting a variable. It does so for two reasons (`Formula.Refused`): a term
that is inserted has the variable where it is forbidden, or where the innermost quantifier around binds it;
or the variable is forbidden and an argument of a relation or equality by itself, whether it is replaced or
not.

The first reason does not arise where the inserted terms are harmless. The second one is about the
formula only, and remains (`Formula.substitute_legal`).
-/

namespace FormalLogic.Predicate

/-! ## Terms -/

namespace Term

variable {m : Images} {forbidden : List String} {s t : Term} {e : Failure}

/-- A term with the name of a variable at its root is that variable. -/
theorem WellFormed.eq_var (ht : t.WellFormed) (hroot : Predicate.isVariable t.root = true) :
    t = var t.root := by
  cases t with
  | const c => exact absurd rfl (ne_of_isConstant ht hroot)
  | var x => rfl
  | app name ts => exact absurd rfl (ne_of_isFunction (Bool.or_eq_true_iff.2 (.inr hroot)) ht.1)
  | missing => exact ht.elim

theorem exists_of_checkAllowedAll_eq_error {ts : List Term}
    (h : checkAllowedAll forbidden ts = .error e) : ∃ t ∈ ts, t.checkAllowed forbidden = .error e := by
  induction ts with
  | nil => cases h
  | cons t ts ih =>
      rcases bind_eq_error.1 h with h | ⟨_, -, h⟩
      · exact ⟨t, List.mem_cons_self, h⟩
      · obtain ⟨t', ht', he⟩ := ih h
        exact ⟨t', List.mem_cons_of_mem t ht', he⟩

/-- A term that does not pass the check has a forbidden variable, which is reported. -/
theorem exists_of_checkAllowed_eq_error (hs : s.WellFormed)
    (hforbidden : ∀ x ∈ forbidden, isVariable x = true) (h : s.checkAllowed forbidden = .error e) :
    ∃ x ∈ s.variableLeaves, x ∈ forbidden ∧ e = .forbiddenVariable x := by
  induction s with
  | const c =>
      have hc : c ∉ forbidden := fun hmem => ne_of_isConstant hs (hforbidden c hmem) rfl
      simp [checkAllowed, hc] at h
  | var x =>
      by_cases hx : x ∈ forbidden
      · have hname : requireName isVariable x = .ok () := (requireName_eq_ok rfl).2 hs
        rw [checkAllowed, if_pos (List.contains_iff_mem.2 hx), refuse, hname, ok_bind] at h
        exact ⟨x, by simp [variableLeaves], hx, (Except.error.inj h).symm⟩
      · simp [checkAllowed, hx] at h
  | app name ts ih =>
      obtain ⟨t, ht, he⟩ := exists_of_checkAllowedAll_eq_error h
      obtain ⟨x, hx, hrefused⟩ := ih t ht (hs.args t ht) he
      rw [variableLeaves, variableLeavesOf_eq_flatMap hs.args]
      exact ⟨x, List.mem_flatMap.2 ⟨t, ht, hx⟩, hrefused⟩
  | missing => exact hs.elim

theorem exists_of_leafImage_eq_error (hm : ∀ e ∈ m, e.2.WellFormed)
    (hforbidden : ∀ x ∈ forbidden, isVariable x = true) {leaf : Term} {name : String}
    (h : leafImage m forbidden leaf name = .error e) :
    ∃ s, Table.find? m name = some s ∧ ∃ x ∈ s.variableLeaves, x ∈ forbidden ∧
      e = .forbiddenVariable x := by
  rw [leafImage] at h
  cases hs : Table.find? m name with
  | none =>
      rw [hs] at h
      cases h
  | some s =>
      rw [hs] at h
      have hwf : s.WellFormed := hm _ (Table.mem_of_find?_eq_some hs)
      rcases bind_eq_error.1 h with h | ⟨_, -, h⟩
      · exact ⟨s, rfl, exists_of_checkAllowed_eq_error hwf hforbidden h⟩
      · cases h

/-- If names in a term cannot be replaced, a term that would be inserted has a forbidden variable, which is
reported. -/
theorem exists_of_replace_eq_error (ht : t.WellFormed) (hm : ∀ e ∈ m, e.2.WellFormed)
    (hforbidden : ∀ x ∈ forbidden, isVariable x = true) (h : t.replace m forbidden = .error e) :
    ∃ s ∈ t.inserted (Table.find? m), ∃ x ∈ s.variableLeaves, x ∈ forbidden ∧
      e = .forbiddenVariable x := by
  induction t with
  | const c =>
      obtain ⟨s, hs, hrefused⟩ := exists_of_leafImage_eq_error hm hforbidden h
      exact ⟨s, mem_inserted.2 ⟨c, .inl (by simp [constantLeaves]), hs⟩, hrefused⟩
  | var x =>
      obtain ⟨s, hs, hrefused⟩ := exists_of_leafImage_eq_error hm hforbidden h
      exact ⟨s, mem_inserted.2 ⟨x, .inr (by simp [variableLeaves]), hs⟩, hrefused⟩
  | app name ts ih =>
      rw [replace, replaceAll_eq_mapM] at h
      rcases bind_eq_error.1 h with h | ⟨_, -, h⟩
      · obtain ⟨t, htmem, he⟩ := exists_eq_error_of_mapM h
        obtain ⟨s, hs, hrefused⟩ := ih t htmem (ht.args t htmem) he
        exact ⟨s, (mem_inserted_app ht).2 ⟨t, htmem, hs⟩, hrefused⟩
      · cases h
  | missing => exact ht.elim

end Term

/-! ## Formulas -/

namespace Formula

/-- A variable for which a substitution is refused. -/
inductive Refused (f : Formula) (m : Term.Images) (forbidden around : List String) (x : String) : Prop
  /-- It is forbidden, and an argument by itself. -/
  | argument (hx : x ∈ forbidden) (ht : .var x ∈ f.terms)
  /-- A term that is inserted has it, and it is forbidden or bound by the innermost quantifier around. -/
  | inserted (i : Term × List String) (hi : i ∈ f.insertions (Table.find? m) around)
      (hx : x ∈ i.1.variableLeaves) (hrefused : x ∈ refusedNames forbidden i.2.head?)

variable {m m' : Term.Images} {forbidden around around' : List String} {f g : Formula} {t : Term}
  {x : String} {e : Failure}

/-- What is refused in a part is refused in the whole. -/
theorem Refused.mono (h : f.Refused m forbidden around x) (hterms : f.terms ⊆ g.terms)
    (hinsertions : f.insertions (Table.find? m) around ⊆ g.insertions (Table.find? m') around') :
    g.Refused m' forbidden around' x := by
  cases h with
  | argument hx ht => exact .argument hx (hterms ht)
  | inserted i hi hx hrefused => exact .inserted i (hinsertions hi) hx hrefused

/-- An argument in which names cannot be replaced makes the formula refused. -/
theorem exists_refused_of_replaceArgument (ht : t.WellFormed) (hm : ∀ e ∈ m, e.2.WellFormed)
    (hcheck : Term.checkSubstitution m forbidden = .ok ())
    (haround : ∀ x ∈ around, isVariable x = true) (hterm : t ∈ f.terms)
    (hinsertions : ∀ s ∈ t.inserted (Table.find? m), (s, around) ∈ f.insertions (Table.find? m) around)
    (h : replaceArgument m forbidden around.head? t = .error e) :
    ∃ x, e = .forbiddenVariable x ∧ f.Refused m forbidden around x := by
  obtain ⟨hkeys, hforbidden⟩ := Term.checkSubstitution_eq_ok.1 hcheck
  rw [replaceArgument, ht.given_eq_ok, ok_bind] at h
  by_cases hroot : t.root ∈ forbidden
  · rw [if_pos (List.contains_iff_mem.2 hroot)] at h
    have hvar : t = .var t.root := ht.eq_var (hforbidden _ hroot)
    exact ⟨t.root, (Except.error.inj h).symm, .argument hroot (hvar ▸ hterm)⟩
  · have hrefused : ∀ x ∈ refusedNames forbidden around.head?, isVariable x = true := by
      intro x hx
      rcases List.mem_append.1 hx with hx | hx
      · exact hforbidden x hx
      · exact haround x (List.mem_of_mem_head? (Option.mem_toList.1 hx))
    have hcheck' : Term.checkSubstitution m (refusedNames forbidden around.head?) = .ok () :=
      Term.checkSubstitution_eq_ok.2 ⟨hkeys, hrefused⟩
    rw [if_neg fun h => hroot (List.contains_iff_mem.1 h), Term.substitute, ht.given_eq_ok, ok_bind,
      hcheck', ok_bind] at h
    obtain ⟨s, hs, x, hx, hxrefused, rfl⟩ := Term.exists_of_replace_eq_error ht hm hrefused h
    exact ⟨x, rfl, .inserted (s, around) (hinsertions s hs) hx hxrefused⟩

/-- Below quantifiers, substitution fails only by reporting a variable for which it is refused. -/
theorem exists_refused_of_substituteBelow (hf : f.WellFormed) (hm : ∀ e ∈ m, e.2.WellFormed)
    (hcheck : Term.checkSubstitution m forbidden = .ok ()) (around : List String)
    (haround : ∀ x ∈ around, isVariable x = true)
    (h : f.substituteBelow true forbidden m around.head? = .error e) :
    ∃ x, e = .forbiddenVariable x ∧ f.Refused m forbidden around x := by
  induction f generalizing m around with
  | equal l r =>
      rw [substituteBelow, hcheck, ok_bind] at h
      rcases bind_eq_error.1 h with h | ⟨l', -, h⟩
      · refine exists_refused_of_replaceArgument hf.1 hm hcheck haround List.mem_cons_self (fun s hs => ?_) h
        exact List.mem_map_of_mem (List.mem_append_left _ hs)
      · rcases bind_eq_error.1 h with h | ⟨r', -, h⟩
        · refine exists_refused_of_replaceArgument hf.2 hm hcheck haround (by simp [terms])
            (fun s hs => ?_) h
          exact List.mem_map_of_mem (List.mem_append_right _ hs)
        · cases h
  | rel name ts =>
      rw [substituteBelow, hcheck, ok_bind] at h
      rcases bind_eq_error.1 h with h | ⟨ts', -, h⟩
      · obtain ⟨t, ht, h⟩ := exists_eq_error_of_mapM h
        refine exists_refused_of_replaceArgument (hf.2 t ht) hm hcheck haround ht (fun s hs => ?_) h
        exact List.mem_map_of_mem (List.mem_flatMap.2 ⟨t, ht, hs⟩)
      · cases h
  | neg f ih =>
      rw [substituteBelow, hcheck, ok_bind, require_true, ok_bind] at h
      rcases bind_eq_error.1 h with h | ⟨f', -, h⟩
      · obtain ⟨x, he, hx⟩ := ih hf hm hcheck around haround h
        exact ⟨x, he, hx.mono (List.Subset.refl _) (List.Subset.refl _)⟩
      · cases h
  | bin op l r ihl ihr =>
      rw [substituteBelow, hcheck, ok_bind] at h
      rcases bind_eq_error.1 h with h | ⟨l', -, h⟩
      · obtain ⟨x, he, hx⟩ := ihl hf.1 hm hcheck around haround h
        exact ⟨x, he, hx.mono (List.subset_append_left _ _) (List.subset_append_left _ _)⟩
      · rcases bind_eq_error.1 h with h | ⟨r', -, h⟩
        · obtain ⟨x, he, hx⟩ := ihr hf.2 hm hcheck around haround h
          exact ⟨x, he, hx.mono (List.subset_append_right _ _) (List.subset_append_right _ _)⟩
        · cases h
  | quant k y f ih =>
      have hmem : ∀ e ∈ Table.erase m y, e ∈ m := fun e he => (List.mem_filter.1 he).1
      have hcheck' : Term.checkSubstitution (Table.erase m y) forbidden = .ok () := by
        obtain ⟨hkeys, hforbidden⟩ := Term.checkSubstitution_eq_ok.1 hcheck
        exact Term.checkSubstitution_eq_ok.2 ⟨fun e he => hkeys e (hmem e he), hforbidden⟩
      rw [substituteBelow, hcheck, ok_bind] at h
      rcases bind_eq_error.1 h with h | ⟨f', -, h⟩
      · obtain ⟨x, he, hx⟩ := ih hf.2 (fun e he => hm e (hmem e he)) hcheck'
          (y :: around) (List.forall_mem_cons.2 ⟨hf.1, haround⟩) h
        refine ⟨x, he, hx.mono (List.Subset.refl _) ?_⟩
        rw [Table.find?_erase]
        exact List.Subset.refl _
      · cases h
  | bare t => exact hf.elim

/-- A substitution that inserts no forbidden variable, and none that is bound around the place, answers
with all names replaced, unless a forbidden variable is an argument by itself. In that case it is
refused, and such a variable is reported. -/
theorem substitute_legal (hf : f.WellFormed) (hm : ∀ e ∈ m, isReplaceable e.1 = true ∧ e.2.WellFormed)
    (hforbidden : ∀ x ∈ forbidden, isVariable x = true)
    (hlegal : ∀ i ∈ f.insertions (Table.find? m) [], ∀ x ∈ i.1.variableLeaves,
      x ∉ forbidden ∧ x ∉ i.2) :
    ((∀ x ∈ forbidden, .var x ∉ f.terms) →
        f.substitute m forbidden = .ok (f.subst (Table.find? m))) ∧
      ((∃ x ∈ forbidden, .var x ∈ f.terms) →
        ∃ x ∈ forbidden, .var x ∈ f.terms ∧
          f.substitute m forbidden = .error (.forbiddenVariable x)) := by
  have hwf : ∀ e ∈ m, e.2.WellFormed := fun e he => (hm e he).2
  have hcheck : Term.checkSubstitution m forbidden = .ok () :=
    Term.checkSubstitution_eq_ok.2 ⟨fun e he => (hm e he).1, hforbidden⟩
  have hallowed : ∀ i ∈ f.insertions (Table.find? m) [], ∀ x ∈ i.1.variableLeaves,
      x ∉ refusedNames forbidden i.2.head? := by
    intro i hi x hx hmem
    obtain ⟨hxforbidden, hxbound⟩ := hlegal i hi x hx
    rcases List.mem_append.1 hmem with hmem | hmem
    · exact hxforbidden hmem
    · exact hxbound (List.mem_of_mem_head? (Option.mem_toList.1 hmem))
  constructor
  · intro harguments
    refine (substitute_eq_ok hf hwf).2 ⟨hcheck, fun t ht hroot => ?_, hallowed, rfl⟩
    exact harguments _ hroot ((hf.terms t ht).eq_var (hforbidden _ hroot) ▸ ht)
  · rintro ⟨x, hx, ht⟩
    cases hresult : f.substitute m forbidden with
    | ok g => exact absurd hx (((substitute_eq_ok hf hwf).1 hresult).2.1 _ ht)
    | error e =>
        -- only an argument is left as a reason
        obtain ⟨y, rfl, hy⟩ := exists_refused_of_substituteBelow hf hwf hcheck [] (by simp) hresult
        cases hy with
        | argument hy hyterm => exact ⟨y, hy, hyterm, rfl⟩
        | inserted i hi hy hrefused => exact absurd hrefused (hallowed i hi y hy)

/-- Below two quantifiers, one of which binds a variable with an image, terms with a variable are
inserted. The forbidden variable occurs, but only inside an argument. -/
theorem substitute_legal_nested :
    let f : Formula := .forAll "w" (.exist "y"
      (.conj (.rel "R" [.app "f" [.var "z"], .var "w", .var "x"]) (.equal (.var "y") (.const "c"))))
    let m : Term.Images := [("w", .var "z"), ("x", .app "g" [.var "u"]), ("c", .var "u")]
    (∀ i ∈ f.insertions (Table.find? m) [], ∀ x ∈ i.1.variableLeaves, x ∉ ["z"] ∧ x ∉ i.2) ∧
      f.substitute m ["z"] = .ok (.forAll "w" (.exist "y"
        (.conj (.rel "R" [.app "f" [.var "z"], .var "w", .app "g" [.var "u"]])
          (.equal (.var "y") (.var "u"))))) := by
  intro f m
  have hlegal : ∀ i ∈ f.insertions (Table.find? m) [], ∀ x ∈ i.1.variableLeaves,
      x ∉ ["z"] ∧ x ∉ i.2 := by decide
  exact ⟨hlegal, (substitute_legal (by decide) (by decide) (by decide) hlegal).1 (by decide)⟩

/-- A variable is forbidden and is to be replaced by another one. The result would not have it, but the
substitution is refused. -/
theorem substitute_legal_refused :
    let f : Formula := .rel "R" [.var "x"]
    let m : Term.Images := [("x", .var "w")]
    f.WellFormed ∧ (∀ e ∈ m, isReplaceable e.1 = true ∧ e.2.WellFormed) ∧
      (∀ x ∈ ["x"], isVariable x = true) ∧
      (∀ i ∈ f.insertions (Table.find? m) [], ∀ x ∈ i.1.variableLeaves, x ∉ ["x"] ∧ x ∉ i.2) ∧
      f.substitute m ["x"] = .error (.forbiddenVariable "x") := by
  decide

end Formula

end FormalLogic.Predicate
