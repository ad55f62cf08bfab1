import FormalLogic.Predicate.Skeleton
import FormalLogic.Proofs.FreshNames
import FormalLogic.Proofs.Table
import FormalLogic.Proofs.Propositional.Semantics

/-!
# Tautologies among predicate formulas

A formula is a tautology if propositional logic alone makes it true: whatever truth values its outermost
atomic and quantified parts have (`Formula.evalParts`). The skeleton of a formula has a name in place of
each of these parts (`Formula.skeletonBy`), which leads back to the part (`exists_name_skeleton`), because
the names are drawn one after the other. So the skeleton is a tautology exactly when the formula is, whichever
names are drawn (`hasTautologicalSkeleton_iff`).

The parts that are new in an operand can also be passed back alone, and turned around for looking them up in
the next one: no part is new twice and no name is drawn twice, so this leads to the same skeleton, the same
parts and the same names (`skeletonWith_nil`).
-/

namespace FormalLogic.Predicate.Formula

/-- The truth value of a formula, given those of its outermost atomic and quantified parts. -/
def evalParts (w : Formula → Bool) : Formula → Bool
  | neg f => !f.evalParts w
  | bin op l r => op.eval (l.evalParts w) (r.evalParts w)
  | f => w f

theorem evalParts_imp {w : Formula → Bool} {l r : Formula} :
    (imp l r).evalParts w = true ↔ (l.evalParts w = true → r.evalParts w = true) := by
  rw [evalParts, Connective.eval]
  cases l.evalParts w <;> simp

/-- The outermost atomic and quantified parts of a formula, from left to right. -/
def outermostParts : Formula → List Formula
  | neg f => f.outermostParts
  | bin _ l r => l.outermostParts ++ r.outermostParts
  | f => [f]

/-- The propositional formula that has a variable in place of each outermost part. -/
def skeletonBy (name : Formula → String) : Formula → Propositional.Formula
  | neg f => .neg (f.skeletonBy name)
  | bin op l r => .bin op.toPropositional (l.skeletonBy name) (r.skeletonBy name)
  | f => .var (name f)

variable {known all new : Parts} {p : Propositional.Formula} {f g : Formula} {s s' s'' : FreshNames}
  {name : Formula → String}

theorem evalParts_congr_outermost {w w' : Formula → Bool} (h : ∀ g ∈ f.outermostParts, w g = w' g) :
    f.evalParts w = f.evalParts w' := by
  induction f with
  | neg f ih => exact congrArg _ (ih h)
  | bin op l r ihl ihr =>
      rw [evalParts, evalParts, ihl fun g hg => h g (List.mem_append_left _ hg),
        ihr fun g hg => h g (List.mem_append_right _ hg)]
  | _ => exact h _ List.mem_cons_self

theorem eval_skeletonBy (v : String → Bool) :
    (f.skeletonBy name).eval v = f.evalParts fun g => v (name g) := by
  induction f with
  | neg f ih => exact congrArg _ ih
  | bin op l r ihl ihr =>
      cases op with
      | and => exact congrArg₂ _ ihl ihr
      | or => exact congrArg₂ _ ihl ihr
      | implies => exact congrArg₂ _ ihl ihr
  | _ => rfl

/-! ## Names of parts -/

/-- A part keeps its variable when further parts are met. -/
theorem partName?_mono {x : String} (h : known <+: all) (hf : partName? known f = some x) :
    partName? all f = some x := by
  obtain ⟨more, rfl⟩ := h
  obtain ⟨e, he, rfl⟩ := Option.map_eq_some_iff.1 hf
  rw [partName?, List.find?_append, he]
  rfl

theorem partName?_append_self {x : String} (hf : partName? known f = none) :
    partName? (known ++ [(x, f)]) f = some x := by
  rw [partName?, List.find?_append, Option.map_eq_none_iff.1 hf]
  simp

theorem mem_of_partName? {x : String} (hf : partName? known f = some x) : (x, f) ∈ known := by
  obtain ⟨e, he, rfl⟩ := Option.map_eq_some_iff.1 hf
  obtain rfl : e.2 = f := by simpa using List.find?_some he
  exact List.mem_of_find?_eq_some he

theorem partName?_eq_none : partName? known f = none ↔ f ∉ known.map Prod.snd := by
  rw [partName?, Option.map_eq_none_iff, List.find?_eq_none, List.mem_map, not_exists]
  simp only [decide_eq_true_eq, not_and]

/-- The step of the skeleton for a part: its variable, or a fresh one. -/
def skeletonOfPart (known : Parts) (f : Formula) : Naming (Propositional.Formula × Parts) :=
  match partName? known f with
  | some x => return (.var x, known)
  | none => do
    let x ← freshVariable
    return (.var x, known ++ [(x, f)])

/-- Among the parts that are met those not yet known are new, each of them once, and names were drawn for
them. -/
structure Meets (known : Parts) (s : FreshNames) (parts : List Formula) (new : Parts)
    (s' : FreshNames) : Prop where
  drawn : s.Drawn s' (Table.keys new)
  nodup : (new.map Prod.snd).Nodup
  mem_iff : ∀ g, g ∈ new.map Prod.snd ↔ g ∈ parts ∧ g ∉ known.map Prod.snd

/-- Parts that are met one after the other. -/
theorem Meets.append {parts parts' : List Formula} {new met new' : Parts}
    (h : Meets known s parts new s') (hmet : met = known ++ new) (h' : Meets met s' parts' new' s'') :
    Meets known s (parts ++ parts') (new ++ new') s'' where
  drawn := by
    rw [Table.keys, List.map_append]
    exact h.drawn.append h'.drawn
  nodup := by
    rw [List.map_append, List.nodup_append]
    refine ⟨h.nodup, h'.nodup, ?_⟩
    rintro g hg _ hg' rfl
    refine ((h'.mem_iff g).1 hg').2 ?_
    rw [hmet, List.map_append]
    exact List.mem_append_right _ hg
  mem_iff g := by
    rw [List.map_append, List.mem_append, List.mem_append, h.mem_iff, h'.mem_iff, hmet,
      List.map_append, List.mem_append, h.mem_iff]
    tauto

theorem meets_skeletonOfPart : ∃ new, ((skeletonOfPart known f).run s).1.2 = known ++ new ∧
    Meets known s [f] new ((skeletonOfPart known f).run s).2 := by
  rw [skeletonOfPart]
  split
  · next x hx =>
      have hknown : f ∈ known.map Prod.snd := List.mem_map_of_mem (mem_of_partName? hx)
      refine ⟨[], (List.append_nil known).symm, .nil s, List.nodup_nil, fun g => ?_⟩
      refine ⟨fun hg => absurd hg List.not_mem_nil, fun hg => absurd hknown ?_⟩
      exact List.mem_singleton.1 hg.1 ▸ hg.2
  · next hx =>
      refine ⟨[(FreshNames.name "z" (s.variablesDrawn + 1), f)], rfl, (FreshNames.Drawn.nil s).next,
        List.nodup_singleton f, fun g => ?_⟩
      refine ⟨fun hg => ⟨hg, ?_⟩, And.left⟩
      rw [List.mem_singleton.1 hg]
      exact partName?_eq_none.1 hx

theorem meets_skeletonFrom : ∃ new, ((f.skeletonFrom known).run s).1.2 = known ++ new ∧
    Meets known s f.outermostParts new ((f.skeletonFrom known).run s).2 := by
  induction f generalizing known s with
  | neg f ih => exact ih
  | bin op l r ihl ihr =>
      obtain ⟨new, hnew, hmeets⟩ := @ihl known s
      obtain ⟨new', hnew', hmeets'⟩ := @ihr ((l.skeletonFrom known).run s).1.2
        ((l.skeletonFrom known).run s).2
      refine ⟨new ++ new', ?_, hmeets.append hnew hmeets'⟩
      exact hnew'.trans (by rw [hnew, List.append_assoc])
  | _ => exact meets_skeletonOfPart

theorem prefix_skeletonFrom : known <+: ((f.skeletonFrom known).run s).1.2 := by
  obtain ⟨new, hnew, -⟩ := @meets_skeletonFrom known f s
  rw [hnew]
  exact List.prefix_append known new

/-! ## Skeletons -/

section Names

variable (hname : ∀ g x, partName? all g = some x → name g = x)
include hname

theorem skeletonOfPart_eq (h : ((skeletonOfPart known f).run s).1.2 <+: all) :
    ((skeletonOfPart known f).run s).1.1 = .var (name f) := by
  rw [skeletonOfPart] at h ⊢
  split at h
  · next x hx => exact congrArg _ (hname f x (partName?_mono h hx)).symm
  · next hx => exact congrArg _ (hname f _ (partName?_mono h (partName?_append_self hx))).symm

/-- Every part has the name that it has at the end in all its places. -/
theorem skeletonFrom_eq (h : ((f.skeletonFrom known).run s).1.2 <+: all) :
    ((f.skeletonFrom known).run s).1.1 = f.skeletonBy name := by
  induction f generalizing known s with
  | neg f ih => exact congrArg _ (ih h)
  | bin op l r ihl ihr => exact congrArg₂ _ (ihl (prefix_skeletonFrom.trans h)) (ihr h)
  | _ => exact (skeletonOfPart_eq hname h :)

end Names

/-- The parts that come with the skeleton of a formula are its outermost ones. -/
theorem meets_skeleton (f : Formula) (s : FreshNames) :
    Meets [] s f.outermostParts (f.skeleton.run s).1.2 (f.skeleton.run s).2 := by
  obtain ⟨new, hnew, hmeets⟩ := @meets_skeletonFrom [] f s
  rw [skeleton, hnew]
  exact hmeets

/-- The skeleton of a formula has names in place of its outermost parts, and the names lead back to the
parts. -/
theorem exists_name_skeleton (f : Formula) (s : FreshNames) :
    ∃ name, (f.skeleton.run s).1.1 = f.skeletonBy name ∧
      ∀ g ∈ f.outermostParts, Table.find? (f.skeleton.run s).1.2 (name g) = some g := by
  have hmeets := meets_skeleton f s
  have hname : ∀ g x, partName? (f.skeleton.run s).1.2 g = some x →
      (partName? (f.skeleton.run s).1.2 g).getD "" = x := fun g x hx => by rw [hx, Option.getD_some]
  refine ⟨_, skeletonFrom_eq hname List.prefix_rfl, fun g hg => ?_⟩
  have hmet := (hmeets.mem_iff g).2 ⟨hg, List.not_mem_nil⟩
  obtain ⟨x, hx⟩ := Option.ne_none_iff_exists'.1 (mt partName?_eq_none.1 (not_not_intro hmet))
  rw [hname g x hx]
  exact Table.find?_eq_some_of_mem hmeets.drawn.nodup (mem_of_partName? hx)

/-- The skeleton of a formula is a tautology exactly when the formula is true by propositional logic
alone. -/
theorem hasTautologicalSkeleton_iff :
    (f.hasTautologicalSkeleton.run s).1 = true ↔ ∀ w, f.evalParts w = true := by
  obtain ⟨name, hskeleton, hname⟩ := exists_name_skeleton f s
  change (f.skeleton.run s).1.1.isTautology = true ↔ _
  rw [hskeleton, Propositional.Formula.isTautology_iff]
  refine ⟨fun h w => ?_, fun h v => (eval_skeletonBy v).trans (h _)⟩
  -- a variable gets the value of the one part that has it
  have hvalue := h fun x => (Table.find? (f.skeleton.run s).1.2 x).elim false w
  rw [eval_skeletonBy] at hvalue
  rw [← hvalue]
  refine evalParts_congr_outermost fun g hg => ?_
  rw [hname g hg]
  rfl

/-! ## New parts alone -/

theorem find?_map_swap (known : Parts) (f : Formula) :
    Table.find? (known.map Prod.swap) f = partName? known f := by
  induction known with
  | nil => rfl
  | cons e known ih =>
      obtain ⟨x, g⟩ := e
      rw [List.map_cons, Prod.swap_prod_mk, Table.find?_cons, ih, partName?, partName?, List.find?_cons]
      by_cases hg : g = f
      · simp [hg]
      · simp [hg]

theorem run_newPart (h : (skeletonOfPart known f).run s = ((p, known ++ new), s')) :
    (newPart (known.map Prod.swap) f).run s = ((p, new), s') := by
  rw [newPart, find?_map_swap]
  rw [skeletonOfPart] at h
  cases hx : partName? known f with
  | some x =>
      rw [hx] at h
      obtain ⟨hp, rfl⟩ := Prod.mk.inj h
      obtain ⟨rfl, hnew⟩ := Prod.mk.inj hp
      rw [List.self_eq_append_right.1 hnew]
      rfl
  | none =>
      rw [hx] at h
      obtain ⟨hp, rfl⟩ := Prod.mk.inj h
      obtain ⟨rfl, hnew⟩ := Prod.mk.inj hp
      rw [← List.append_cancel_left hnew]
      rfl

theorem Meets.nodup_parts {parts : List Formula} (h : Meets known s parts new s')
    (hknown : (known.map Prod.snd).Nodup) : ((known ++ new).map Prod.snd).Nodup := by
  rw [List.map_append, List.nodup_append]
  refine ⟨hknown, h.nodup, ?_⟩
  rintro g hg _ hg' rfl
  exact ((h.mem_iff g).1 hg').2 hg

theorem exists_run_skeletonFrom (known : Parts) (f : Formula) (s : FreshNames) : ∃ p new s',
    (f.skeletonFrom known).run s = ((p, known ++ new), s') ∧ Meets known s f.outermostParts new s' := by
  obtain ⟨new, hnew, hmeets⟩ := @meets_skeletonFrom known f s
  exact ⟨_, new, _, Prod.ext (Prod.ext rfl hnew) rfl, hmeets⟩

theorem run_skeletonFrom_bin {l r : Formula} {left right : Propositional.Formula} {met met' : Parts}
    (op : Connective) (hl : (l.skeletonFrom known).run s = ((left, met), s'))
    (hr : (r.skeletonFrom met).run s' = ((right, met'), s'')) :
    ((bin op l r).skeletonFrom known).run s = ((.bin op.toPropositional left right, met'), s'') := by
  rw [skeletonFrom, StateT.run_bind, hl]
  change StateT.run (_ >>= _) _ = _
  rw [StateT.run_bind, hr]
  rfl

/-- The skeleton is the same if the new parts alone are passed back, and turned around where they are looked
up. -/
theorem run_skeletonWith (hknown : (known.map Prod.snd).Nodup)
    (h : (f.skeletonFrom known).run s = ((p, known ++ new), s')) :
    (f.skeletonWith (known.map Prod.swap)).run s = ((p, new), s') := by
  induction f generalizing known new s s' p with
  | neg f ih =>
      obtain ⟨⟨⟨q, met⟩, t⟩, hf⟩ : ∃ a, (f.skeletonFrom known).run s = a := ⟨_, rfl⟩
      rw [skeletonFrom, StateT.run_bind, hf] at h
      cases h
      rw [skeletonWith, StateT.run_bind, ih hknown hf]
      rfl
  | bin op l r ihl ihr =>
      obtain ⟨left, newl, t, hl, hmeetsl⟩ := exists_run_skeletonFrom known l s
      obtain ⟨right, newr, t', hr, hmeetsr⟩ := exists_run_skeletonFrom (known ++ newl) r t
      have hparts := hmeetsl.nodup_parts hknown
      -- nothing that is new on the left is known, so both tables grow at their ends
      have hnames : (newl.map Prod.swap).foldl (fun t e => Table.put t e.1 e.2) (known.map Prod.swap) =
          (known ++ newl).map Prod.swap := by
        rw [Table.foldl_put_eq_append, List.map_append]
        rwa [← List.map_append, Table.keys, List.map_map]
      have hjoined : newr.foldl (fun t e => Table.put t e.1 e.2) newl = newl ++ newr :=
        Table.foldl_put_eq_append (hmeetsl.append rfl hmeetsr).drawn.nodup
      rw [run_skeletonFrom_bin op hl hr, List.append_assoc] at h
      obtain ⟨hp, rfl⟩ := Prod.mk.inj h
      obtain ⟨rfl, hnew⟩ := Prod.mk.inj hp
      rw [← List.append_cancel_left hnew, ← hjoined, skeletonWith, StateT.run_bind, ihl hknown hl]
      change StateT.run (_ >>= _) _ = _
      rw [StateT.run_bind, hnames, ihr hparts hr]
      rfl
  | _ => exact run_newPart h

/-- Both ways of going through a formula lead to the same skeleton. -/
theorem skeletonWith_nil (f : Formula) : f.skeletonWith [] = f.skeleton := by
  funext s
  have hknown : (([] : Parts).map Prod.snd).Nodup := List.nodup_nil
  exact run_skeletonWith hknown rfl

end FormalLogic.Predicate.Formula
