import FormalLogic.Predicate.Prover
import FormalLogic.Proofs.Predicate.Instantiation
import FormalLogic.Proofs.Predicate.Skeleton

/-!
# Steps of a prover

A line is justified if it is what its kind says: an instance of an assumption, the consequent of an earlier
conditional whose antecedent stands earlier too, a generalization of an earlier line, or a tautology
(`Line.Justified`). Nothing checks this when a line is added.

Steps are specified by what they ensure (`Proving.Ensures`): that they answer, and what holds then. Each of
them derives further lines from those before it (`Prover.Derives`), all of them justified, and ends with
the line whose position it answers with (`Prover.Ends`). Derivations compose, so a sequence of steps is
taken one by one.
-/

namespace FormalLogic.Predicate

/-! ## Justified lines -/

/-- A line at a position is what its kind says. Whether generalizations are allowed is a parameter. -/
def Line.Justified (general : Prop) (assumptions : List Schema) (lines : List Line) (k : Nat) :
    Line → Prop
  | .assumption f s m => s ∈ assumptions ∧ s.instantiate m = .ok f
  | .mp f i j => ∃ a c : Nat, (i = a ∧ a < k) ∧ (j = c ∧ c < k) ∧ ∃ la lc, lines[a]? = some la ∧
      lines[c]? = some lc ∧ lc.formula = .imp la.formula f
  | .ug f i => general ∧ ∃ a : Nat, (i = a ∧ a < k) ∧ ∃ la x, lines[a]? = some la ∧
      f = .forAll x la.formula
  | .tautology f => ∀ s, (f.hasTautologicalSkeleton.run s).1 = true

/-- All lines of a list are justified. -/
def Justified (general : Prop) (assumptions : List Schema) (lines : List Line) : Prop :=
  ∀ (k : Nat) (l : Line), lines[k]? = some l → l.Justified general assumptions lines k

variable {general : Prop} {assumptions : List Schema} {lines more : List Line}

/-- Further assumptions, and further lines behind, leave a line justified. -/
theorem Line.Justified.mono {l : Line} {k : Nat} (hl : l.Justified general assumptions lines k)
    {assumptions' : List Schema} (hsubset : assumptions ⊆ assumptions') (h : lines <+: more) :
    l.Justified general assumptions' more k := by
  have hget : ∀ {a : Nat} {l : Line}, lines[a]? = some l → more[a]? = some l := by
    intro a l ha
    obtain ⟨rest, rfl⟩ := h
    rw [List.getElem?_append_left (List.getElem?_eq_some_iff.1 ha).1, ha]
  cases l with
  | assumption f s m => exact ⟨hsubset hl.1, hl.2⟩
  | mp f i j =>
      obtain ⟨a, c, hi, hj, la, lc, ha, hc, hf⟩ := hl
      exact ⟨a, c, hi, hj, la, lc, hget ha, hget hc, hf⟩
  | ug f i =>
      obtain ⟨hgeneral, a, hi, la, x, ha, hf⟩ := hl
      exact ⟨hgeneral, a, hi, la, x, hget ha, hf⟩
  | tautology f => exact hl

@[simp] theorem Line.formula_shift (distance : Int) (l : Line) :
    (l.shift distance).formula = l.formula := by
  cases l <;> rfl

/-- A line stays justified when all lines are put behind others and the citations are moved along. -/
theorem Line.Justified.shift {l : Line} {k : Nat} (hl : l.Justified general assumptions lines k)
    {assumptions' : List Schema} (hsubset : assumptions ⊆ assumptions') (before : List Line) :
    (l.shift before.length).Justified general assumptions'
      (before ++ lines.map (Line.shift before.length)) (before.length + k) := by
  have hget : ∀ {a : Nat} {l : Line}, lines[a]? = some l →
      (before ++ lines.map (Line.shift before.length))[before.length + a]? =
        some (l.shift before.length) := by
    intro a l ha
    rw [List.getElem?_append_right (Nat.le_add_right _ _), Nat.add_sub_cancel_left,
      List.getElem?_map, ha]
    rfl
  cases l with
  | assumption f s m => exact ⟨hsubset hl.1, hl.2⟩
  | mp f i j =>
      obtain ⟨a, c, ⟨rfl, ha⟩, ⟨rfl, hc⟩, la, lc, hla, hlc, hf⟩ := hl
      refine ⟨before.length + a, before.length + c, ⟨?_, by omega⟩, ⟨?_, by omega⟩, _, _, hget hla,
        hget hlc, ?_⟩
      · omega
      · omega
      · simpa using hf
  | ug f i =>
      obtain ⟨hgeneral, a, ⟨rfl, ha⟩, la, x, hla, hf⟩ := hl
      refine ⟨hgeneral, before.length + a, ⟨?_, by omega⟩, _, x, hget hla, ?_⟩
      · omega
      · simpa using hf
  | tautology f => exact hl

/-- Lines that are justified behind justified lines make up justified lines with them. -/
theorem Justified.append (hlines : Justified general assumptions lines)
    (hmore : ∀ (k : Nat) (l : Line), more[k]? = some l →
      l.Justified general assumptions (lines ++ more) (lines.length + k)) :
    Justified general assumptions (lines ++ more) := by
  intro k l hk
  by_cases h : k < lines.length
  · rw [List.getElem?_append_left h] at hk
    exact (hlines k l hk).mono (List.Subset.refl _) (List.prefix_append lines more)
  · rw [List.getElem?_append_right (Nat.le_of_not_lt h)] at hk
    have hmore := hmore _ l hk
    rwa [Nat.add_sub_cancel' (Nat.le_of_not_lt h)] at hmore

/-! ## Derivations -/

namespace Prover

/-- Further lines were derived from the same assumptions. -/
structure Derives (general : Prop) (p p' : Prover) : Prop where
  assumptions : p'.assumptions = p.assumptions
  lines : p.lines <+: p'.lines
  justified : Justified general p.assumptions p.lines → Justified general p'.assumptions p'.lines

/-- A line has the given formula. -/
def Shows (p : Prover) (i : Int) (f : Formula) : Prop :=
  ∃ (a : Nat) (l : Line), i = a ∧ p.lines[a]? = some l ∧ l.formula = f

/-- The last line has the given position and formula. -/
def Ends (p : Prover) (i : Int) (f : Formula) : Prop :=
  ∃ (lines : List Line) (l : Line), p.lines = lines ++ [l] ∧ i = lines.length ∧ l.formula = f

variable {p p' p'' : Prover} {i : Int} {f : Formula}

theorem Derives.refl (general : Prop) (p : Prover) : p.Derives general p :=
  ⟨rfl, List.prefix_rfl, id⟩

theorem Derives.trans (h : p.Derives general p') (h' : p'.Derives general p'') :
    p.Derives general p'' :=
  ⟨h'.assumptions.trans h.assumptions, h.lines.trans h'.lines, h'.justified ∘ h.justified⟩

theorem Shows.mono (hf : p.Shows i f) (h : p.Derives general p') : p'.Shows i f := by
  obtain ⟨a, l, rfl, ha, hl⟩ := hf
  obtain ⟨rest, hrest⟩ := h.lines
  refine ⟨a, l, rfl, ?_, hl⟩
  rw [← hrest, List.getElem?_append_left (List.getElem?_eq_some_iff.1 ha).1, ha]

theorem Ends.shows (hf : p.Ends i f) : p.Shows i f := by
  obtain ⟨lines, l, hlines, rfl, hl⟩ := hf
  refine ⟨lines.length, l, rfl, ?_, hl⟩
  rw [hlines, List.getElem?_concat_length]

theorem Shows.fetch_eq_ok (hf : p.Shows i f) : ∃ l, fetch p.lines i = .ok l ∧ l.formula = f := by
  obtain ⟨a, l, rfl, ha, hl⟩ := hf
  exact ⟨l, fetch_natCast_eq_ok.2 ha, hl⟩

theorem Shows.unique {g : Formula} (hf : p.Shows i f) (hg : p.Shows i g) : f = g := by
  obtain ⟨l, hl, rfl⟩ := hf.fetch_eq_ok
  obtain ⟨l', hl', rfl⟩ := hg.fetch_eq_ok
  rw [Except.ok.inj (hl.symm.trans hl')]

theorem Shows.lt_length (hf : p.Shows i f) : i < p.lines.length := by
  obtain ⟨a, l, rfl, ha, -⟩ := hf
  exact Int.ofNat_lt.2 (List.getElem?_eq_some_iff.1 ha).1

@[simp] theorem tell_lines (p : Prover) (text : String) : (p.tell text).lines = p.lines := by
  rw [tell]
  split <;> rfl

@[simp] theorem tell_assumptions (p : Prover) (text : String) :
    (p.tell text).assumptions = p.assumptions := by
  rw [tell]
  split <;> rfl

@[simp] theorem push_lines (p : Prover) (l : Line) : (p.push l).lines = p.lines ++ [l] := by
  rw [push, tell_lines]

@[simp] theorem push_assumptions (p : Prover) (l : Line) :
    (p.push l).assumptions = p.assumptions := by
  rw [push, tell_assumptions]

theorem derives_push {l : Line}
    (hl : l.Justified general p.assumptions (p.lines ++ [l]) p.lines.length) :
    p.Derives general (p.push l) := by
  refine ⟨push_assumptions p l, ?_, fun h => ?_⟩
  · rw [push_lines]
    exact List.prefix_append _ _
  · rw [push_assumptions, push_lines]
    refine h.append fun k l' hk => ?_
    obtain ⟨rfl, rfl⟩ : k = 0 ∧ l = l' := by
      cases k with
      | zero => exact ⟨rfl, Option.some.inj hk⟩
      | succ k => simp at hk
    exact hl

end Prover

/-! ## Runs of steps -/

namespace Proving

/-- Steps answer and derive lines, and the answer, the prover and the names drawn meet a condition. -/
def Ensures {α : Type} (general : Prop) (p : Prover) (s : FreshNames) (x : Proving α)
    (Q : α → Prover → FreshNames → Prop) : Prop :=
  ∃ a p' s', (x.run.run p).run s = ((.ok a, p'), s') ∧ p.Derives general p' ∧ Q a p' s'

variable {α β : Type} {p : Prover} {s : FreshNames}

/-- After a step that answers, the next one runs on the answer. -/
theorem run_bind {x : Proving α} {a : α} {p' : Prover} {s' : FreshNames}
    (hx : (x.run.run p).run s = ((.ok a, p'), s')) (f : α → Proving β) :
    ((x >>= f).run.run p).run s = ((f a).run.run p').run s' := by
  rw [ExceptT.run_bind, StateT.run_bind, StateT.run_bind, hx]
  rfl

/-- Steps that answer did so one after the other. -/
theorem run_bind_eq_ok {x : Proving α} {f : α → Proving β} {b : β} {p'' : Prover} {s'' : FreshNames}
    (h : ((x >>= f).run.run p).run s = ((.ok b, p''), s'')) :
    ∃ a p' s', (x.run.run p).run s = ((.ok a, p'), s') ∧
      ((f a).run.run p').run s' = ((.ok b, p''), s'') := by
  rw [ExceptT.run_bind, StateT.run_bind, StateT.run_bind] at h
  cases hx : (x.run.run p).run s with
  | mk r s' =>
      obtain ⟨r, p'⟩ := r
      rw [hx] at h
      cases r with
      | error e => cases h
      | ok a => exact ⟨a, p', s', rfl, h⟩

theorem ensures_pure {a : α} {Q : α → Prover → FreshNames → Prop} (h : Q a p s) :
    Ensures general p s (pure a : Proving α) Q :=
  ⟨a, p, s, rfl, .refl general p, h⟩

theorem ensures_bind {x : Proving α} {f : α → Proving β} {R : α → Prover → FreshNames → Prop}
    {Q : β → Prover → FreshNames → Prop} (hx : Ensures general p s x R)
    (hf : ∀ a p' s', p.Derives general p' → R a p' s' → Ensures general p' s' (f a) Q) :
    Ensures general p s (x >>= f) Q := by
  obtain ⟨a, p', s', ha, hderives, hR⟩ := hx
  obtain ⟨b, p'', s'', hb, hderives', hQ⟩ := hf a p' s' hderives hR
  exact ⟨b, p'', s'', (run_bind ha f).trans hb, hderives.trans hderives', hQ⟩

/-- A look that answers is followed by the next step. -/
theorem ensures_lift_bind {x : Outcome α} {a : α} (hx : x = .ok a) {f : α → Proving β}
    {Q : β → Prover → FreshNames → Prop} (hf : Ensures general p s (f a) Q) :
    Ensures general p s (liftM x >>= f) Q := by
  subst hx
  exact hf

/-- A step with a known run is followed by the next one. -/
theorem ensures_run_bind {x : Proving α} {a : α} {p' : Prover} {s' : FreshNames}
    (hx : (x.run.run p).run s = ((.ok a, p'), s')) (hderives : p.Derives general p')
    {f : α → Proving β} {Q : β → Prover → FreshNames → Prop}
    (hf : Ensures general p' s' (f a) Q) : Ensures general p s (x >>= f) Q := by
  refine ensures_bind (R := fun a' p'' s'' => a' = a ∧ p'' = p' ∧ s'' = s')
    ⟨a, p', s', hx, hderives, rfl, rfl, rfl⟩ ?_
  rintro _ _ _ - ⟨rfl, rfl, rfl⟩
  exact hf

theorem ensures_get_bind {f : Prover → Proving β} {Q : β → Prover → FreshNames → Prop}
    (hf : Ensures general p s (f p) Q) : Ensures general p s (get >>= f) Q :=
  hf

/-- The next fresh variable is drawn. -/
theorem ensures_freshVariable_bind {f : String → Proving β} {Q : β → Prover → FreshNames → Prop}
    (hf : Ensures general p { s with variablesDrawn := s.variablesDrawn + 1 }
      (f (FreshNames.name "z" (s.variablesDrawn + 1))) Q) :
    Ensures general p s (liftM freshVariable >>= f) Q :=
  hf

/-- A step only looks, and sees the given answer. -/
def Looks (p : Prover) (x : Proving α) (a : α) : Prop :=
  ∀ s, (x.run.run p).run s = ((.ok a, p), s)

theorem Looks.bind {x : Proving α} {a : α} {f : α → Proving β}
    {Q : β → Prover → FreshNames → Prop} (hx : Looks p x a) (hf : Ensures general p s (f a) Q) :
    Ensures general p s (x >>= f) Q :=
  ensures_run_bind (hx s) (.refl general p) hf

theorem Looks.andThen {x : Proving α} {a : α} {f : α → Proving β} {b : β} (hx : Looks p x a)
    (hf : Looks p (f a) b) : Looks p (x >>= f) b :=
  fun s => (run_bind (hx s) f).trans (hf s)

theorem looks_lift {x : Outcome α} {a : α} (hx : x = .ok a) : Looks p (liftM x) a := by
  subst hx
  exact fun s => rfl

theorem Looks.bind_pure {x : Proving α} {a : α} (hx : Looks p x a) (f : α → β) :
    Looks p (do return f (← x)) (f a) :=
  fun s => run_bind (hx s) _

theorem looks_forM {check : α → Proving Unit} {l : List α} (h : ∀ a ∈ l, Looks p (check a) ()) :
    Looks p (l.forM check) () := by
  induction l with
  | nil => exact fun s => rfl
  | cons a l ih =>
      obtain ⟨ha, hl⟩ := List.forall_mem_cons.1 h
      intro s
      rw [List.forM_eq_forM, List.forM_cons, run_bind (ha s)]
      exact ih hl s

theorem looks_mapM {look : α → Proving β} {l : List α} {bs : List β}
    (h : List.Forall₂ (fun a b => Looks p (look a) b) l bs) : Looks p (l.mapM look) bs := by
  induction h with
  | nil => exact fun s => rfl
  | cons ha _ ih =>
      intro s
      rw [List.mapM_cons, run_bind (ha s)]
      exact (ih.bind_pure (_ :: ·)) s

end Proving

/-! ## Lines -/

theorem Instance.toFormula_ofFormula (f : Formula) : (Instance.ofFormula f).toFormula = .ok f := by
  cases f with
  | bare t => cases t <;> rfl
  | _ => rfl

/-- Instances that suit their names are taken as they are. -/
theorem instances_eq_ok {m : Instances} (hm : Instances.Proper m) :
    readInstances m = .ok m ∧ checkInstances m = .ok () := by
  rw [readInstances, checkInstances, mapM_eq_ok, List.forall₂_same, forM_eq_ok, ← forall₂_and]
  rintro ⟨key, i⟩ he
  have hsuits : i.Suits key := hm _ he
  cases i with
  | text x =>
      have hx : requireName isVariable x = .ok () := (requireName_eq_ok rfl).2 hsuits.2
      simp [checkName_eq_ok rfl hsuits.1, Instance.requireVariable, hx]
  | term t =>
      simp [checkName_of_name rfl hsuits.1 isVariable, isVariable_eq_false hsuits.1, hsuits.1,
        Instance.isTerm]
  | formula f =>
      obtain ⟨hconst, hvar⟩ := Bool.or_eq_false_iff.1 (isReplaceable_eq_false hsuits.1)
      simp [checkName_of_name rfl hsuits.1 isVariable, hvar, hconst, hsuits.1, Instance.isFormula]
  | missing => exact hsuits.elim

namespace Proving

variable {p : Prover} {s : FreshNames} {f h : Formula} {i j : Int}

/-- A step draws no names and answers with the position of the last line, which has the given formula. -/
def Adds (general : Prop) (p : Prover) (s : FreshNames) (x : Proving Int) (f : Formula) : Prop :=
  Ensures general p s x fun i p' s' => s' = s ∧ p'.Ends i f

theorem Adds.bind {α : Type} {x : Proving Int} {next : Int → Proving α}
    {Q : α → Prover → FreshNames → Prop} (hx : Adds general p s x f)
    (hnext : ∀ i p', p.Derives general p' → p'.Ends i f → Ensures general p' s (next i) Q) :
    Ensures general p s (x >>= next) Q := by
  refine ensures_bind hx ?_
  rintro i p' s' hderives ⟨rfl, hends⟩
  exact hnext i p' hderives hends

theorem adds_addLine {l : Line}
    (hl : l.Justified general p.assumptions (p.lines ++ [l]) p.lines.length) :
    Adds general p s (addLine l) l.formula :=
  ⟨p.lines.length, p.push l, s, rfl, Prover.derives_push hl, rfl, p.lines, l,
    Prover.push_lines p l, rfl, rfl⟩

theorem adds_tautology (hf : ∀ w, f.evalParts w = true) :
    Adds general p s (tautology (.ofFormula f)) f :=
  ensures_lift_bind (Instance.toFormula_ofFormula f)
    (adds_addLine fun _ => Formula.hasTautologicalSkeleton_iff.2 hf)

theorem adds_modusPonens (hi : p.Shows i h) (hj : p.Shows j (.imp h f)) :
    Adds general p s (modusPonens (.ofFormula f) i j) f := by
  refine ensures_lift_bind (Instance.toFormula_ofFormula f) (adds_addLine ?_)
  obtain ⟨a, la, rfl, ha, hla⟩ := hi
  obtain ⟨c, lc, rfl, hc, hlc⟩ := hj
  have halt := (List.getElem?_eq_some_iff.1 ha).1
  have hclt := (List.getElem?_eq_some_iff.1 hc).1
  refine ⟨a, c, ⟨rfl, halt⟩, ⟨rfl, hclt⟩, la, lc, ?_, ?_, ?_⟩
  · rw [List.getElem?_append_left halt, ha]
  · rw [List.getElem?_append_left hclt, hc]
  · rw [hlc, hla]

theorem adds_generalization (hgeneral : general) (hi : p.Shows i h) {x : String} :
    Adds general p s (generalization (.ofFormula (.forAll x h)) i) (.forAll x h) := by
  refine ensures_lift_bind (Instance.toFormula_ofFormula _) (adds_addLine ?_)
  obtain ⟨a, la, rfl, ha, hla⟩ := hi
  have halt := (List.getElem?_eq_some_iff.1 ha).1
  refine ⟨hgeneral, a, ⟨rfl, halt⟩, la, x, ?_, by rw [hla]⟩
  rw [List.getElem?_append_left halt, ha]

/-- Instances are read first, and the line has what was read. -/
theorem adds_instanceOf_read {schema : Schema} {m m' : Instances} (hschema : schema ∈ p.assumptions)
    (hread : readInstances m = .ok m') (hcheck : checkInstances m' = .ok ())
    (hf : schema.instantiate m' = .ok f) :
    Adds general p s (instanceOf (.ofFormula f) schema m) f := by
  have hline : Line.ofAssumption f schema m' = .ok (.assumption f schema m') := by
    rw [Line.ofAssumption, hcheck]
    rfl
  exact ensures_lift_bind (Instance.toFormula_ofFormula f)
    (ensures_lift_bind hread (ensures_lift_bind hline (adds_addLine ⟨hschema, hf⟩)))

theorem adds_instanceOf {schema : Schema} {m : Instances} (hschema : schema ∈ p.assumptions)
    (hm : Instances.Proper m) (hf : schema.instantiate m = .ok f) :
    Adds general p s (instanceOf (.ofFormula f) schema m) f :=
  adds_instanceOf_read hschema (instances_eq_ok hm).1 (instances_eq_ok hm).2 hf

theorem adds_assumption (hf : .ofFormula f ∈ p.assumptions)
    (hinstance : (Schema.ofFormula f).instantiate [] = .ok f) :
    Adds general p s (assumption (.ofFormula f)) f :=
  ensures_lift_bind (Instance.toFormula_ofFormula f)
    (adds_instanceOf hf (fun _ he => nomatch he) hinstance)

/-- Lines are added for the elements of a list, whatever was derived before. -/
theorem ensures_mapM {α : Type} {add : α → Proving Int} {v : α → Formula} {l : List α}
    (hadd : ∀ a ∈ l, ∀ p', p.Derives general p' → Adds general p' s (add a) (v a)) :
    Ensures general p s (l.mapM add) fun is p' s' =>
      s' = s ∧ List.Forall₂ (fun i a => p'.Shows i (v a)) is l := by
  induction l generalizing p with
  | nil => exact ensures_pure ⟨rfl, .nil⟩
  | cons a l ih =>
      obtain ⟨ha, hl⟩ := List.forall_mem_cons.1 hadd
      rw [List.mapM_cons]
      refine (ha p (.refl general p)).bind fun i p' hderives hends => ?_
      refine ensures_bind (ih fun a ha p'' h => hl a ha p'' (hderives.trans h)) ?_
      rintro is p'' s' hderives' ⟨rfl, his⟩
      exact ensures_pure ⟨rfl, .cons (hends.shows.mono hderives') his⟩

/-! ## Proofs that are cited -/

/-- Lines are added one after the other. -/
theorem run_addLines (distance : Int) (ls : List Line) (p : Prover) (s : FreshNames) :
    ∃ p', ((ls.forM fun l => do let _ ← addLine (l.shift distance)).run.run p).run s =
        ((.ok (), p'), s) ∧ p'.assumptions = p.assumptions ∧
          p'.lines = p.lines ++ ls.map (Line.shift distance) := by
  induction ls generalizing p with
  | nil => exact ⟨p, rfl, rfl, by simp⟩
  | cons l ls ih =>
      obtain ⟨p', hrun, hassumptions, hlines⟩ := ih (p.push (l.shift distance))
      refine ⟨p', hrun, ?_, ?_⟩
      · rw [hassumptions, Prover.push_assumptions]
      · rw [hlines, Prover.push_lines, List.map_cons, List.append_assoc, List.singleton_append]

/-- The formula of a line is looked up. -/
theorem looks_formulaAt {l : Line} (hl : fetch p.lines i = .ok l) :
    Looks p (formulaAt i) l.formula := by
  intro s
  change ((ExceptT.run (liftM (fetch p.lines i) >>= fun l => pure l.formula : Proving Formula)).run
    p).run s = _
  rw [hl]
  rfl

theorem looks_of_shows (hi : p.Shows i f) : Looks p (formulaAt i) f := by
  obtain ⟨l, hl, rfl⟩ := hi.fetch_eq_ok
  exact looks_formulaAt hl

/-- All lines of a proof are added, with their citations moved along. -/
theorem adds_appendProof {pf : Proof} (hsubset : pf.assumptions ⊆ p.assumptions)
    (hjustified : Justified general pf.assumptions pf.lines) {ls : List Line} {l : Line}
    (hlines : pf.lines = ls ++ [l]) (hl : l.formula = pf.conclusion) {asked : Instance}
    (hasked : asked.toFormula = .ok pf.conclusion) :
    Adds general p s (appendProof asked pf) pf.conclusion := by
  refine ensures_lift_bind hasked ?_
  refine ensures_lift_bind (a := ()) (require_eq_ok.2 (decide_eq_true rfl)) ?_
  refine ensures_get_bind (ensures_lift_bind (a := ()) (require_eq_ok.2 (subset_eq_true.2 hsubset)) ?_)
  obtain ⟨p', hrun, hassumptions, hlines'⟩ := run_addLines p.lines.length pf.lines p s
  have hends : p'.Ends ((p'.lines.length : Int) - 1) pf.conclusion := by
    refine ⟨p.lines ++ ls.map (Line.shift p.lines.length), l.shift p.lines.length, ?_, ?_, ?_⟩
    · rw [hlines', hlines, List.map_append, List.map_singleton, List.append_assoc]
    · rw [hlines', hlines]
      simp only [List.length_append, List.length_map, List.length_singleton]
      omega
    · rw [Line.formula_shift, hl]
  -- citations inside the proof move along with its lines, so they stay justified
  have hderives : p.Derives general p' := by
    refine ⟨hassumptions, ?_, fun h => ?_⟩
    · rw [hlines']
      exact List.prefix_append _ _
    · rw [hlines', hassumptions]
      refine h.append fun k line hk => ?_
      rw [List.getElem?_map] at hk
      obtain ⟨line', hline', rfl⟩ := Option.map_eq_some_iff.1 hk
      exact (hjustified k line' hline').shift hsubset p.lines
  refine ensures_run_bind hrun hderives (ensures_get_bind ((looks_of_shows hends.shows).bind ?_))
  exact ensures_lift_bind (a := ()) (require_eq_ok.2 (decide_eq_true rfl))
    (ensures_pure ⟨rfl, hends⟩)

/-! ## Propositional logic -/

theorem evalParts_chain {w : Formula → Bool} {hs : List Formula} :
    (chain f hs).evalParts w = true ↔
      ((∀ h ∈ hs, h.evalParts w = true) → f.evalParts w = true) := by
  induction hs with
  | nil => simp [chain]
  | cons h hs ih =>
      rw [chain, List.foldr_cons, ← chain, Formula.evalParts_imp, ih, List.forall_mem_cons, and_imp]

/-- From a chain of conditionals and its antecedents the conclusion is derived. -/
theorem adds_unchain {cited : List (Int × Formula)} (hcited : ∀ e ∈ cited, p.Shows e.1 e.2)
    (hi : p.Ends i (chain f (cited.map Prod.snd))) : Adds general p s (unchain f i cited) f := by
  induction cited generalizing p i with
  | nil => exact ensures_pure ⟨rfl, hi⟩
  | cons e cited ih =>
      obtain ⟨he, hcited⟩ := List.forall_mem_cons.1 hcited
      exact (adds_modusPonens he hi.shows).bind fun j p' hderives hends =>
        ih (fun e he => (hcited e he).mono hderives) hends

/-- A line is before the end. -/
theorem looks_lineRange (hi : p.Shows i f) :
    Looks p (do require (decide (i < (← get).lines.length)) .lineRange) () := by
  intro s
  change ((ExceptT.run (liftM (require (decide (i < p.lines.length)) .lineRange) :
    Proving Unit)).run p).run s = _
  rw [decide_eq_true hi.lt_length]
  rfl

theorem looks_formulaBefore (hi : p.Shows i f) : Looks p (formulaBefore i) f :=
  (looks_lineRange hi).andThen (looks_of_shows hi)

/-- What lines imply by propositional logic alone is derived from them, in whatever order they are cited. -/
theorem adds_tautologicalConsequence [SetOrder Int] {is : List Int} (hf : f.isMissing = false)
    (his : ∀ i ∈ is, ∃ h, p.Shows i h ∧ h.isBare = false)
    (himplies : ∀ w, (∀ i ∈ is, ∀ h, p.Shows i h → h.evalParts w = true) → f.evalParts w = true) :
    Adds general p s (tautologicalConsequence (.ofFormula f) is) f := by
  have : Nonempty Formula := ⟨.missing⟩
  choose! v hv using his
  have hmem : ∀ i, i ∈ SetOrder.list is ↔ i ∈ is := fun _ => SetOrder.mem_list
  refine ensures_lift_bind (Instance.toFormula_ofFormula f) ?_
  -- only which lines are cited matters from here on
  generalize SetOrder.list is = cited at hmem
  have hv : ∀ i ∈ cited, p.Shows i (v i) ∧ (v i).isBare = false := fun i hi => hv i ((hmem i).1 hi)
  have hlook : Looks p (cited.mapM fun i => do return (i, ← formulaAt i))
      (cited.map fun i => (i, v i)) :=
    looks_mapM (List.forall₂_map_right_iff.2 (List.forall₂_same.2 fun i hi =>
      (looks_of_shows (hv i hi).1).bind_pure (i, ·)))
  refine Looks.bind (looks_forM fun i hi => looks_lineRange (hv i hi).1) (hlook.bind ?_)
  have hshows : ∀ e ∈ cited.map fun i => (i, v i), p.Shows e.1 e.2 := by
    simpa using fun i hi => (hv i hi).1
  have htautology : ∀ w,
      (chain f ((cited.map fun i => (i, v i)).map Prod.snd)).evalParts w = true := by
    refine fun w => evalParts_chain.2 fun h => himplies w fun i hi g hg => ?_
    have hi := (hmem i).2 hi
    rw [hg.unique (hv i hi).1]
    exact h (v i) (List.mem_map_of_mem (List.mem_map_of_mem hi))
  have hpresent : (!f.isMissing && (cited.map fun i => (i, v i)).all fun c => !c.2.isBare) = true := by
    rw [hf, List.all_map, Bool.not_false, Bool.true_and, List.all_eq_true]
    exact fun i hi => by simp [(hv i hi).2]
  have hrest : Adds general p s (do
      let step ← tautology (.ofFormula (chain f ((cited.map fun i => (i, v i)).map Prod.snd)))
      unchain f step (cited.map fun i => (i, v i))) f :=
    (adds_tautology htautology).bind fun j p' hderives hends =>
      adds_unchain (fun e he => (hshows e he).mono hderives) hends
  dsimp only
  split
  · exact ensures_lift_bind (a := ()) (require_eq_ok.2 hpresent) hrest
  · exact hrest

/-! ## Kinds of lines -/

/-- Steps add lines behind those that are there, all of them of a kind. -/
def Writes {α : Type} (kind : Line → Prop) (x : Proving α) : Prop :=
  ∀ p s a p' s', (x.run.run p).run s = ((.ok a, p'), s') →
    ∃ new, p'.lines = p.lines ++ new ∧ ∀ l ∈ new, kind l

section Writes

variable {α β : Type} {kind : Line → Prop}

/-- What leaves the lines as they are adds none. -/
theorem writes_of_lines_eq {x : Proving α}
    (h : ∀ p s a p' s', (x.run.run p).run s = ((.ok a, p'), s') → p'.lines = p.lines) :
    Writes kind x := by
  intro p s a p' s' hrun
  exact ⟨[], by rw [h p s a p' s' hrun, List.append_nil], fun _ hl => nomatch hl⟩

theorem writes_pure (a : α) : Writes kind (pure a : Proving α) :=
  writes_of_lines_eq fun p s a p' s' h => by cases h; rfl

theorem writes_lift (x : Outcome α) : Writes kind (liftM x : Proving α) :=
  writes_of_lines_eq fun p s a p' s' h => by cases x <;> cases h; rfl

theorem writes_get : Writes kind (get : Proving Prover) :=
  writes_of_lines_eq fun p s a p' s' h => by cases h; rfl

theorem Writes.bind {x : Proving α} {f : α → Proving β} (hx : Writes kind x)
    (hf : ∀ a, Writes kind (f a)) : Writes kind (x >>= f) := by
  intro p s b p'' s'' h
  obtain ⟨a, p', s', ha, hb⟩ := run_bind_eq_ok h
  obtain ⟨new, hnew, hkind⟩ := hx p s a p' s' ha
  obtain ⟨more, hmore, hkind'⟩ := hf a p' s' b p'' s'' hb
  refine ⟨new ++ more, by rw [hmore, hnew, List.append_assoc], ?_⟩
  exact List.forall_mem_append.2 ⟨hkind, hkind'⟩

theorem writes_mapM {add : α → Proving β} {l : List α} (h : ∀ a ∈ l, Writes kind (add a)) :
    Writes kind (l.mapM add) := by
  induction l with
  | nil => exact writes_pure _
  | cons a l ih =>
      obtain ⟨ha, hl⟩ := List.forall_mem_cons.1 h
      rw [List.mapM_cons]
      exact ha.bind fun _ => (ih hl).bind fun _ => writes_pure _

theorem writes_forM {check : α → Proving Unit} {l : List α} (h : ∀ a ∈ l, Writes kind (check a)) :
    Writes kind (l.forM check) := by
  induction l with
  | nil => exact writes_pure _
  | cons a l ih =>
      obtain ⟨ha, hl⟩ := List.forall_mem_cons.1 h
      rw [List.forM_eq_forM, List.forM_cons]
      exact ha.bind fun _ => ih hl

theorem writes_addLine {l : Line} (hl : kind l) : Writes kind (addLine l) := by
  intro p s a p' s' h
  cases h
  exact ⟨[l], p.push_lines l, List.forall_mem_singleton.2 hl⟩

theorem writes_assumption (hf : kind (.assumption f (.ofFormula f) [])) :
    Writes kind (assumption (.ofFormula f)) := by
  have hrun : assumption (.ofFormula f) = addLine (.assumption f (.ofFormula f) []) := by
    rw [assumption, Instance.toFormula_ofFormula]
    change instanceOf (.ofFormula f) (.ofFormula f) [] = _
    rw [instanceOf, Instance.toFormula_ofFormula]
    rfl
  rw [hrun]
  exact writes_addLine hf

variable (hmp : ∀ f i j, kind (.mp f i j)) (htautology : ∀ f, kind (.tautology f))
include hmp

theorem writes_unchain (f : Formula) (i : Int) (cited : List (Int × Formula)) :
    Writes kind (unchain f i cited) := by
  induction cited generalizing i with
  | nil => exact writes_pure _
  | cons e cited ih =>
      exact ((writes_lift _).bind fun _ => writes_addLine (hmp _ _ _)).bind fun _ => ih _

include htautology

/-- Propositional logic takes tautologies and modus ponens. -/
theorem writes_tautologicalConsequence [SetOrder Int] (f : Instance) (is : List Int) :
    Writes kind (tautologicalConsequence f is) := by
  refine (writes_lift _).bind fun f => (writes_forM fun i _ => ?_).bind fun _ =>
    (writes_mapM fun i _ => ?_).bind fun cited => ?_
  · exact writes_get.bind fun _ => writes_lift _
  · exact (writes_get.bind fun _ => (writes_lift _).bind fun _ => writes_pure _).bind fun _ =>
      writes_pure _
  have hrest : Writes kind (do
      let step ← tautology (.ofFormula (chain f (cited.map Prod.snd)))
      unchain f step cited) :=
    ((writes_lift _).bind fun _ => writes_addLine (htautology _)).bind fun _ =>
      writes_unchain hmp _ _ _
  dsimp only
  split
  · exact (writes_lift _).bind fun _ => hrest
  · exact hrest

end Writes

/-! ## Ends of proofs -/

/-- A proof ends with its last line. -/
theorem run_qed (hf : p.Ends i f) : ∃ p', (qed.run.run p).run s =
    ((.ok (.make p.assumptions f p.lines), p'), s) := by
  obtain ⟨ls, l, hlines, -, rfl⟩ := hf
  have hlast : fetch p.lines (-1) = .ok l := by
    rw [fetch_neg_one_eq_ok, hlines, List.getLast?_concat]
  exact ⟨p.tell ("Conclusion: " ++ l.formula.text ++ ". QED\n\n"), run_bind (looks_formulaAt hlast s) _⟩

end Proving

/-- The proof of what was derived from the start has justified lines. -/
theorem Prover.Derives.justified_make {p : Prover}
    (h : (Prover.ofAssumptions assumptions false).Derives general p) (f : Formula) :
    Justified general (Proof.make p.assumptions f p.lines).assumptions p.lines := by
  have hsubset : p.assumptions ⊆ p.assumptions.eraseDups := fun s hs => List.mem_eraseDups.2 hs
  intro k l hl
  exact (h.justified (by simp [Justified, Prover.ofAssumptions]) k l hl).mono hsubset List.prefix_rfl

theorem Proof.concludes_eq_true {pf : Proof} :
    pf.concludes = true ↔ ∃ ls l, pf.lines = ls ++ [l] ∧ l.formula = pf.conclusion := by
  rcases pf.lines.eq_nil_or_concat with h | ⟨ls, l, h⟩
  · simp [concludes, h]
  · rw [List.concat_eq_append] at h
    simp only [concludes, h, List.getLast?_concat, decide_eq_true_eq]
    constructor
    · exact fun hl => ⟨ls, l, rfl, hl⟩
    · rintro ⟨ls', l', hlines, hl⟩
      obtain ⟨-, hlast⟩ := List.append_inj' hlines rfl
      rw [List.singleton_inj.1 hlast]
      exact hl

/-- A proof of a formula by justified lines, each of a kind. -/
structure Proof.Proves (general : Prop) (kind : Line → Prop) (pf : Proof) (f : Formula) : Prop where
  conclusion : pf.conclusion = f
  concludes : pf.concludes = true
  justified : Justified general pf.assumptions pf.lines
  lines : ∀ l ∈ pf.lines, kind l

/-- Steps make the proof of what they derive at their end. -/
theorem Prover.run_prove {s s' : FreshNames} {steps : Proving Int} {p : Prover} {i : Int} {f : Formula}
    (hrun : (steps.run.run (.ofAssumptions assumptions false)).run s = ((.ok i, p), s'))
    (hends : p.Ends i f) :
    (prove assumptions steps).run.run s = (.ok (.make p.assumptions f p.lines), s') := by
  obtain ⟨p', hqed⟩ := @Proving.run_qed p s' f i hends
  have hrun' := (Proving.run_bind hrun fun _ => Proving.qed).trans hqed
  change ((ExceptT.run (steps >>= fun _ => Proving.qed)).run (.ofAssumptions assumptions false) >>=
    fun r => pure r.1).run s = _
  rw [StateT.run_bind, hrun']
  rfl

theorem Prover.Ends.concludes_make {p : Prover} {i : Int} {f : Formula} (h : p.Ends i f) :
    (Proof.make p.assumptions f p.lines).concludes = true := by
  obtain ⟨ls, l, hlines, -, hl⟩ := h
  exact Proof.concludes_eq_true.2 ⟨ls, l, hlines, hl⟩

/-- What steps from assumptions derive at their end is what their proof proves. -/
theorem Prover.ensures_prove {s : FreshNames} {steps : Proving Int} {f : Formula} {kind : Line → Prop}
    (hsteps : Proving.Adds general (.ofAssumptions assumptions false) s steps f)
    (hwrites : steps.Writes kind) :
    Fallible.Ensures s (prove assumptions steps) fun pf s' => s' = s ∧ pf.Proves general kind f := by
  obtain ⟨i, p, s', hrun, hderives, rfl, hends⟩ := hsteps
  refine ⟨.make p.assumptions f p.lines, s', run_prove hrun hends, rfl, rfl, hends.concludes_make,
    hderives.justified_make f, ?_⟩
  obtain ⟨new, hnew, hkind⟩ := hwrites _ _ _ _ _ hrun
  rw [show (Proof.make p.assumptions f p.lines).lines = new from hnew]
  exact hkind

end FormalLogic.Predicate
