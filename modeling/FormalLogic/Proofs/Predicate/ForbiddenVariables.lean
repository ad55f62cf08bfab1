import FormalLogic.Proofs.Predicate.Substitution

/-!
# Which forbidden variable is reported

The variables of the result of a substitution are listed from left to right, each with a mark that says
whether an image brought it in or it stood in the term before (`Term.marked`). Checking the images one by
one, as they are inserted, comes to the same as looking through that list for the first variable that is
forbidden and was brought in (`Term.replace_eq_unlessForbidden`). So it is that variable which is reported,
and if there is none the substitution answers with the result (`Term.substitute_exact`). A forbidden variable
that stood in the term before is no reason to refuse.
-/

namespace FormalLogic.Predicate

/-! ## The first forbidden variable of a list -/

/-- Whether a marked variable was brought in and is forbidden. -/
def isOffending (forbidden : List String) (e : String × Bool) : Bool :=
  e.2 && forbidden.contains e.1

/-- A value that is refused if a variable of the list offends; the first such variable is reported. -/
def unlessForbidden {α : Type} (forbidden : List String) (marks : List (String × Bool)) (a : α) : Outcome α :=
  match marks.find? (isOffending forbidden) with
  | some e => .error (.forbiddenVariable e.1)
  | none => .ok a

section UnlessForbidden

variable {α β : Type} {forbidden : List String} {marks marks' : List (String × Bool)} {a : α} {x : String}

theorem unlessForbidden_map (f : α → β) :
    (do return f (← unlessForbidden forbidden marks a)) = unlessForbidden forbidden marks (f a) := by
  unfold unlessForbidden
  cases marks.find? (isOffending forbidden) with
  | none => rfl
  | some e => rfl

/-- Two lists are searched one after the other. -/
theorem unlessForbidden_bind (f : α → β) :
    (do unlessForbidden forbidden marks' (f (← unlessForbidden forbidden marks a))) =
      unlessForbidden forbidden (marks ++ marks') (f a) := by
  unfold unlessForbidden
  rw [List.find?_append]
  cases marks.find? (isOffending forbidden) with
  | none => rfl
  | some e => rfl

theorem isOffending_eq_true {e : String × Bool} :
    isOffending forbidden e = true ↔ e.2 = true ∧ e.1 ∈ forbidden := by
  simp [isOffending]

theorem find?_isOffending_eq_none :
    marks.find? (isOffending forbidden) = none ↔ ∀ x, (x, true) ∈ marks → x ∉ forbidden := by
  rw [List.find?_eq_none]
  constructor
  · exact fun h x hx hforbidden => h _ hx (isOffending_eq_true.2 ⟨rfl, hforbidden⟩)
  · intro h e he hoffending
    obtain ⟨hmark, hforbidden⟩ := isOffending_eq_true.1 hoffending
    exact h e.1 (hmark ▸ he) hforbidden

theorem unlessForbidden_eq_ok (h : ∀ x, (x, true) ∈ marks → x ∉ forbidden) :
    unlessForbidden forbidden marks a = .ok a := by
  rw [unlessForbidden, find?_isOffending_eq_none.2 h]

/-- There is a report exactly if some variable offends. -/
theorem exists_unlessForbidden_eq_error :
    (∃ x, unlessForbidden forbidden marks a = .error (.forbiddenVariable x)) ↔
      ∃ x, (x, true) ∈ marks ∧ x ∈ forbidden := by
  by_cases h : ∃ x, (x, true) ∈ marks ∧ x ∈ forbidden
  · refine ⟨fun _ => h, fun _ => ?_⟩
    cases hfind : marks.find? (isOffending forbidden) with
    | none =>
        obtain ⟨x, hx, hforbidden⟩ := h
        exact absurd hforbidden (find?_isOffending_eq_none.1 hfind x hx)
    | some e => exact ⟨e.1, by rw [unlessForbidden, hfind]⟩
  · refine ⟨?_, fun h' => absurd h' h⟩
    rintro ⟨x, hx⟩
    rw [unlessForbidden_eq_ok fun x hx hforbidden => h ⟨x, hx, hforbidden⟩] at hx
    cases hx

/-- The variable that is reported offends, and none in front of it does. -/
theorem exists_append_of_unlessForbidden
    (h : unlessForbidden forbidden marks a = .error (.forbiddenVariable x)) :
    x ∈ forbidden ∧ ∃ before after, marks = before ++ (x, true) :: after ∧
      ∀ y, (y, true) ∈ before → y ∉ forbidden := by
  unfold unlessForbidden at h
  split at h
  · rename_i e he
    obtain rfl : e.1 = x := by simpa using h
    obtain ⟨hoffending, before, after, hmarks, hbefore⟩ := List.find?_eq_some_iff_append.1 he
    obtain ⟨hmark, hforbidden⟩ := isOffending_eq_true.1 hoffending
    refine ⟨hforbidden, before, after, by rw [hmarks, ← hmark], fun y hy hyforbidden => ?_⟩
    have hspared := hbefore _ hy
    rw [isOffending_eq_true.2 ⟨rfl, hyforbidden⟩] at hspared
    cases hspared
  · cases h

end UnlessForbidden

namespace Term

/-! ## Marked variables -/

/-- The marked variables of what becomes of a leaf: those that its image brings in, or else those that are kept. -/
def markedLeaf (σ : String → Option Term) (name : String) (kept : List (String × Bool)) : List (String × Bool) :=
  match σ name with
  | some s => s.variableLeaves.map (·, true)
  | none => kept

mutual

/-- The variables of the result of a substitution, from left to right, each marked if an image brought it in. -/
def marked (σ : String → Option Term) : Term → List (String × Bool)
  | const name => markedLeaf σ name []
  | var name => markedLeaf σ name [(name, false)]
  | app _ ts => markedOf σ ts
  | missing => []

/-- The marked variables of the results of a substitution in terms. -/
def markedOf (σ : String → Option Term) : List Term → List (String × Bool)
  | [] => []
  | t :: ts => t.marked σ ++ markedOf σ ts

end

variable {σ : String → Option Term} {m : Images} {forbidden : List String} {s t : Term}

@[simp] theorem markedOf_eq_flatMap (ts : List Term) : markedOf σ ts = ts.flatMap (marked σ) := by
  induction ts with
  | nil => rfl
  | cons t ts ih => rw [markedOf, ih, List.flatMap_cons]

theorem map_fst_markedLeaf {kept : List (String × Bool)} {leaf : Term} (name : String)
    (hkept : kept.map Prod.fst = leaf.variableLeaves) :
    (markedLeaf σ name kept).map Prod.fst = ((σ name).getD leaf).variableLeaves := by
  rw [markedLeaf]
  cases σ name with
  | none => exact hkept
  | some s => simp [Function.comp_def]

theorem mem_markedLeaf {name x : String} {kept : List (String × Bool)} (hkept : ∀ x, (x, true) ∉ kept) :
    (x, true) ∈ markedLeaf σ name kept ↔ ∃ s, σ name = some s ∧ x ∈ s.variableLeaves := by
  rw [markedLeaf]
  cases σ name with
  | none => simp [hkept]
  | some s => simp

/-- Without their marks these are the variables of the result. -/
theorem map_fst_marked (ht : t.WellFormed) (hσ : ∀ name s, σ name = some s → s.WellFormed) :
    (t.marked σ).map Prod.fst = (t.subst σ).variableLeaves := by
  induction t with
  | const name => exact map_fst_markedLeaf name rfl
  | var name => exact map_fst_markedLeaf name rfl
  | app name ts ih =>
      have hresult : ∀ t ∈ ts.map (subst σ), t.WellFormed := by
        rintro _ h
        obtain ⟨t, htmem, rfl⟩ := List.mem_map.1 h
        exact (ht.args t htmem).subst hσ
      rw [marked, subst, variableLeaves, markedOf_eq_flatMap, substAll_eq_map,
        variableLeavesOf_eq_flatMap hresult, List.map_flatMap, List.flatMap_map]
      exact List.flatMap_congr fun t htmem => ih t htmem (ht.args t htmem)
  | missing => exact ht.elim

/-- The variables that were brought in are those of the terms that are inserted. -/
theorem mem_marked (ht : t.WellFormed) {x : String} :
    (x, true) ∈ t.marked σ ↔ ∃ s ∈ t.inserted σ, x ∈ s.variableLeaves := by
  induction t with
  | const name =>
      rw [marked, mem_markedLeaf (by simp)]
      simp [mem_inserted, constantLeaves, variableLeaves]
  | var name =>
      rw [marked, mem_markedLeaf (by simp)]
      simp [mem_inserted, constantLeaves, variableLeaves]
  | app name ts ih =>
      rw [marked, markedOf_eq_flatMap, List.mem_flatMap]
      simp only [mem_inserted_app ht]
      constructor
      · rintro ⟨t, htmem, hx⟩
        obtain ⟨s, hs, hx⟩ := (ih t htmem (ht.args t htmem)).1 hx
        exact ⟨s, ⟨t, htmem, hs⟩, hx⟩
      · rintro ⟨s, ⟨t, htmem, hs⟩, hx⟩
        exact ⟨t, htmem, (ih t htmem (ht.args t htmem)).2 ⟨s, hs, hx⟩⟩
  | missing => exact ht.elim

/-! ## Checking and replacing in order -/

theorem checkAllowedAll_eq_unlessForbidden {ts : List Term}
    (h : ∀ t ∈ ts, t.checkAllowed forbidden =
      unlessForbidden forbidden (t.variableLeaves.map (·, true)) ()) :
    checkAllowedAll forbidden ts =
      unlessForbidden forbidden ((ts.flatMap variableLeaves).map (·, true)) () := by
  induction ts with
  | nil => rfl
  | cons t ts ih =>
      obtain ⟨ht, hts⟩ := List.forall_mem_cons.1 h
      rw [checkAllowedAll, ht, ih hts, List.flatMap_cons, List.map_append]
      exact unlessForbidden_bind id

theorem replaceAll_eq_unlessForbidden {ts : List Term}
    (h : ∀ t ∈ ts, t.replace m forbidden = unlessForbidden forbidden (t.marked σ) (t.subst σ)) :
    replaceAll m forbidden ts =
      unlessForbidden forbidden (ts.flatMap (marked σ)) (ts.map (subst σ)) := by
  induction ts with
  | nil => rfl
  | cons t ts ih =>
      obtain ⟨ht, hts⟩ := List.forall_mem_cons.1 h
      rw [replaceAll, ht, ih hts, List.flatMap_cons, List.map_cons]
      simp only [unlessForbidden_map]
      exact unlessForbidden_bind fun t' => t' :: ts.map (subst σ)

section Order

variable (hforbidden : ∀ x ∈ forbidden, isVariable x = true)
include hforbidden

/-- A term is checked variable by variable. -/
theorem checkAllowed_eq_unlessForbidden (hs : s.WellFormed) :
    s.checkAllowed forbidden = unlessForbidden forbidden (s.variableLeaves.map (·, true)) () := by
  induction s with
  | const c =>
      have hc : c ∉ forbidden := fun hmem => ne_of_isConstant hs (hforbidden c hmem) rfl
      simp [checkAllowed, hc, variableLeaves, unlessForbidden]
  | var x =>
      by_cases hx : x ∈ forbidden
      · have hname : requireName isVariable x = .ok () := (requireName_eq_ok rfl).2 hs
        rw [checkAllowed, if_pos (List.contains_iff_mem.2 hx), refuse, hname, ok_bind]
        simp [variableLeaves, unlessForbidden, isOffending, hx]
      · simp [checkAllowed, hx, variableLeaves, unlessForbidden, isOffending]
  | app name ts ih =>
      rw [checkAllowed, variableLeaves, variableLeavesOf_eq_flatMap hs.args]
      exact checkAllowedAll_eq_unlessForbidden fun t ht => ih t ht (hs.args t ht)
  | missing => exact hs.elim

variable (hm : ∀ e ∈ m, e.2.WellFormed)
include hm

theorem leafImage_eq_unlessForbidden {name : String} {kept : List (String × Bool)}
    (hkept : ∀ x, (x, true) ∉ kept) (leaf : Term) :
    leafImage m forbidden leaf name = unlessForbidden forbidden (markedLeaf (Table.find? m) name kept)
      ((Table.find? m name).getD leaf) := by
  rw [leafImage, markedLeaf]
  cases hfind : Table.find? m name with
  | none => exact (unlessForbidden_eq_ok fun x hx => absurd hx (hkept x)).symm
  | some s =>
      have hs : s.WellFormed := hm _ (Table.mem_of_find?_eq_some hfind)
      dsimp only
      rw [checkAllowed_eq_unlessForbidden hforbidden hs]
      exact unlessForbidden_map fun _ => s

/-- Names are replaced from left to right, up to the first forbidden variable that is brought in. -/
theorem replace_eq_unlessForbidden (ht : t.WellFormed) :
    t.replace m forbidden =
      unlessForbidden forbidden (t.marked (Table.find? m)) (t.subst (Table.find? m)) := by
  induction t with
  | const name => exact leafImage_eq_unlessForbidden hforbidden hm (by simp) (const name)
  | var name => exact leafImage_eq_unlessForbidden hforbidden hm (by simp) (var name)
  | app name ts ih =>
      have hargs := replaceAll_eq_unlessForbidden fun t htmem => ih t htmem (ht.args t htmem)
      rw [replace, hargs, unlessForbidden_map, marked, markedOf_eq_flatMap, subst, substAll_eq_map]
  | missing => exact ht.elim

end Order

/-! ## Exactness -/

/-- A name of the term has an image with a forbidden variable. -/
def Offends (t : Term) (m : Images) (forbidden : List String) : Prop :=
  ∃ name, (name ∈ t.constants ∨ name ∈ t.vars) ∧
    ∃ s, Table.find? m name = some s ∧ ∃ x ∈ s.vars, x ∈ forbidden

theorem offends_iff (ht : t.WellFormed) :
    t.Offends m forbidden ↔ ∃ x, (x, true) ∈ t.marked (Table.find? m) ∧ x ∈ forbidden := by
  simp only [Offends, mem_marked ht, mem_inserted, mem_constants, mem_vars]
  constructor
  · rintro ⟨name, hname, s, hs, x, hx, hforbidden⟩
    exact ⟨x, ⟨s, ⟨name, hname, hs⟩, hx⟩, hforbidden⟩
  · rintro ⟨x, ⟨s, ⟨name, hname, hs⟩, hx⟩, hforbidden⟩
    exact ⟨name, hname, s, hs, x, hx, hforbidden⟩

/-- Substitution in a term reports a forbidden variable exactly if a name of the term has an image with one. It
then reports the first one, in the order of the result, that an image brings in, whatever forbidden variables of
the term itself stand before it. Otherwise all names with images are replaced at once. -/
theorem substitute_exact (ht : t.WellFormed) (hm : ∀ e ∈ m, isReplaceable e.1 = true ∧ e.2.WellFormed)
    (hforbidden : ∀ x ∈ forbidden, isVariable x = true) :
    ((∃ x, t.substitute m forbidden = .error (.forbiddenVariable x)) ↔ t.Offends m forbidden) ∧
      (t.marked (Table.find? m)).map Prod.fst = (t.subst (Table.find? m)).variableLeaves ∧
      (∀ x, t.substitute m forbidden = .error (.forbiddenVariable x) →
        x ∈ forbidden ∧ ∃ before after, t.marked (Table.find? m) = before ++ (x, true) :: after ∧
          ∀ y, (y, true) ∈ before → y ∉ forbidden) ∧
      (¬ t.Offends m forbidden → t.substitute m forbidden = .ok (t.subst (Table.find? m))) := by
  have hwf : ∀ e ∈ m, e.2.WellFormed := fun e he => (hm e he).2
  have hcheck : checkSubstitution m forbidden = .ok () :=
    checkSubstitution_eq_ok.2 ⟨fun e he => (hm e he).1, hforbidden⟩
  have hrun : t.substitute m forbidden =
      unlessForbidden forbidden (t.marked (Table.find? m)) (t.subst (Table.find? m)) := by
    rw [substitute, ht.given_eq_ok, ok_bind, hcheck, ok_bind, replace_eq_unlessForbidden hforbidden hwf ht]
  rw [hrun]
  refine ⟨exists_unlessForbidden_eq_error.trans (offends_iff ht).symm, ?_, ?_, fun hspared => ?_⟩
  · exact map_fst_marked ht fun _ _ h => hwf _ (Table.mem_of_find?_eq_some h)
  · exact fun x => exists_append_of_unlessForbidden
  · exact unlessForbidden_eq_ok fun x hx hx' => hspared ((offends_iff ht).2 ⟨x, hx, hx'⟩)

/-- The first variable of the result is forbidden too, but stood in the term before, so it is the second one that is
reported. With another variable forbidden all is replaced, and what is inserted at the end, itself a key, is left
as it is. -/
theorem substitute_exact_second_variable :
    let t : Term := .app "f" [.var "y", .app "g" [.const "c", .var "x"]]
    let m : Images := [("c", .app "h" [.const "d", .var "z", .var "y"]), ("x", .const "c")]
    t.substitute m ["y", "z"] = .error (.forbiddenVariable "z") ∧
      (∃ before after, t.marked (Table.find? m) = before ++ ("z", true) :: after ∧
        ∀ y, (y, true) ∈ before → y ∉ ["y", "z"]) ∧
      t.substitute m ["u"] =
        .ok (.app "f" [.var "y", .app "g" [.app "h" [.const "d", .var "z", .var "y"], .const "c"]]) := by
  intro t m
  have ht : t.WellFormed := by decide
  have hm : ∀ e ∈ m, isReplaceable e.1 = true ∧ e.2.WellFormed := by decide
  have hrun : t.substitute m ["y", "z"] = .error (.forbiddenVariable "z") := by decide
  have hspared : ¬ t.Offends m ["u"] := by
    rintro ⟨name, -, s, hs, x, hx, hxu⟩
    have himages : ∀ e ∈ m, ∀ x ∈ e.2.variableLeaves, x ∉ ["u"] := by decide
    exact himages _ (Table.mem_of_find?_eq_some hs) x (mem_vars.1 hx) hxu
  obtain ⟨-, -, hfirst, -⟩ := @substitute_exact m ["y", "z"] t ht hm (by decide)
  obtain ⟨-, -, -, hresult⟩ := @substitute_exact m ["u"] t ht hm (by decide)
  exact ⟨hrun, (hfirst "z" hrun).2, hresult hspared⟩

end Term

end FormalLogic.Predicate
