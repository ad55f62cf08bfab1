import FormalLogic.Propositional.Axioms
import FormalLogic.Propositional.Inlining
import FormalLogic.Proofs.Propositional.Specialization

/-!
# Inlining keeps proofs valid

A line can be replaced by lines that derive its formula, if the citations behind it move along
(`Derivation.splice`). When a line follows by a lemma, the lines of the lemma's proof, specialized to
that line, are such lines: what they assume is repeated from the cited lines (`Inlined`). Inlining goes
on from one use of the lemma to the next, and up to the place it has reached the lemma is not used any
more (`Inlining`).
-/

namespace FormalLogic.Propositional

open Formula Axioms

@[simp] theorem Line.formula_mapPremises (g : Int → Int) (l : Line) :
    (l.mapPremises g).formula = l.formula := rfl

@[simp] theorem Line.rule_mapPremises (g : Int → Int) (l : Line) :
    (l.mapPremises g).rule = l.rule := by
  simp [Line.rule, Line.mapPremises, Option.map_map, Function.comp_def]

/-! ## Replacing a line by a derivation of it -/

section Splicing

variable {as : List Formula} {rules : List InferenceRule} {front middle rest : List Line} {l : Line}

/-- Where a formula is shown after a line has been replaced by several that end in its formula: the
line itself is now the last of these. -/
theorem Shows.splice {k : Nat} {f : Formula} (h : Shows (front ++ l :: rest) k f)
    (hlast : middle.getLast?.map Line.formula = some l.formula) (g : Int → Int) :
    Shows (front ++ middle ++ rest.map (Line.mapPremises g))
      (if k < front.length then k else k + (middle.length - 1)) f := by
  obtain ⟨hpos, hmiddle⟩ := shows_append_getLast front hlast
  obtain ⟨l', hl', rfl⟩ := shows_iff.1 h
  rcases Nat.lt_trichotomy k front.length with hk | rfl | hk
  · rw [if_pos hk]
    rw [List.getElem?_append_left hk] at hl'
    exact ((shows_iff.2 ⟨l', hl', rfl⟩).append middle).append _
  · rw [if_neg (Nat.lt_irrefl _)]
    have hll' : l = l' := by simpa using hl'
    rw [← Nat.add_sub_assoc hpos, ← hll']
    exact hmiddle.append _
  · rw [if_neg (by omega)]
    obtain ⟨j, rfl⟩ : ∃ j, k = front.length + (j + 1) := ⟨k - front.length - 1, by omega⟩
    rw [List.getElem?_append_right (by omega), Nat.add_sub_cancel_left,
      List.getElem?_cons_succ] at hl'
    refine shows_iff.2 ⟨l'.mapPremises g, ?_, rfl⟩
    have hplace : front.length + (j + 1) + (middle.length - 1) = (front ++ middle).length + j := by
      rw [List.length_append]
      omega
    rw [hplace, List.getElem?_append_right (by omega), Nat.add_sub_cancel_left, List.getElem?_map,
      hl', Option.map_some]

/-- The last formula remains the last. -/
theorem Shows.splice_ends {f : Formula}
    (h : Shows (front ++ l :: rest) ((front ++ l :: rest).length - 1) f)
    (hlast : middle.getLast?.map Line.formula = some l.formula) (g : Int → Int) :
    Shows (front ++ middle ++ rest.map (Line.mapPremises g))
      ((front ++ middle ++ rest.map (Line.mapPremises g)).length - 1) f := by
  have hpos : 0 < middle.length := (shows_append_getLast front hlast).1
  have hplace : (front ++ middle ++ rest.map (Line.mapPremises g)).length - 1 =
      (front ++ l :: rest).length - 1 + (middle.length - 1) := by
    simp only [List.length_append, List.length_cons, List.length_map]
    omega
  have hends := h.splice hlast g
  rwa [if_neg (by simp only [List.length_append, List.length_cons]; omega), ← hplace] at hends

/-- A line of a derivation can be replaced by lines that derive its formula. -/
theorem Derivation.splice (h : Derivation as rules (front ++ l :: rest))
    (hmiddle : Derivation as rules (front ++ middle))
    (hlast : middle.getLast?.map Line.formula = some l.formula) :
    Derivation as rules
      (front ++ middle ++ rest.map (Line.shiftFrom front.length ((middle.length : Int) - 1))) := by
  have hpos : 0 < middle.length := (shows_append_getLast front hlast).1
  -- the citations of the last line lead to where the cited lines are now
  induction rest using List.reverseRecOn with
  | nil => simpa using hmiddle
  | append_singleton rest l' ih =>
      rw [← List.cons_append, ← List.append_assoc] at h
      obtain ⟨hrest, hl'⟩ := derivation_concat.1 h
      rw [List.map_append, List.map_singleton, ← List.append_assoc]
      refine derivation_concat.2 ⟨ih hrest, hl'.mapPremises
        (φ := fun k => if k < front.length then k else k + (middle.length - 1)) (fun k => ?_)
        fun k f hk => hk.splice hlast _⟩
      split <;> split <;> omega

/-- Only an assumption depends on what is assumed. -/
theorem Follows.of_inference {as' : List Formula} {earlier : List Line} {inf : Inference}
    (h : Follows as rules earlier l) (hinf : l.inference = some inf) :
    Follows as' rules earlier l := by
  refine ⟨h.present, ?_⟩
  have hjustified := h.justified
  rw [hinf] at hjustified ⊢
  exact hjustified

/-- A line by a rule is led to by the lines that it cites. -/
theorem Follows.exists_cited {earlier : List Line} {r : InferenceRule}
    (h : Follows as rules earlier l) (hrule : l.rule = r) (hr : r.isMissing = false) :
    ∃ (ks : List Nat) (cited : List Line), l.inference = some ⟨r, ks.map Nat.cast⟩ ∧
      List.Forall₂ (fun k l' => earlier[k]? = some l') ks cited ∧
      (InferenceRule.rule (cited.map Line.formula) l.formula).isSpecializationOf r = .ok true := by
  obtain ⟨f, inference⟩ := l
  cases inference with
  | none =>
      subst hrule
      simp [Line.rule, InferenceRule.isMissing] at hr
  | some inf =>
      obtain ⟨r', premises⟩ := inf
      obtain rfl : r' = r := hrule
      obtain ⟨-, ks, rfl, fs, hfs, hspec⟩ := h.justified
      obtain ⟨cited, hcited, rfl⟩ := forall₂_shows_iff.1 hfs
      exact ⟨ks, cited, rfl, hcited, hspec⟩

/-- A rule that no line uses is not needed. -/
theorem Derivation.erase {r : InferenceRule} {lines : List Line} (h : Derivation as (r :: rules) lines)
    (hr : ∀ l ∈ lines, l.rule ≠ r) : Derivation as rules lines := by
  intro k l hk
  have hl := h k l hk
  refine ⟨hl.present, ?_⟩
  have hjustified := hl.justified
  cases hinf : l.inference with
  | none => simpa [hinf] using hjustified
  | some inf =>
      rw [hinf] at hjustified
      obtain ⟨hrule, hfollows⟩ := hjustified
      refine ⟨(List.mem_cons.1 hrule).resolve_left fun heq => ?_, hfollows⟩
      apply hr l (List.mem_of_getElem? hk)
      rw [Line.rule, hinf, ← heq]
      rfl

end Splicing

/-! ## The lines of a lemma in the main proof -/

/-- What is kept while the lines of a specialized lemma are put behind the front of the main proof: what
stands there is a derivation, shows the same formulas as the lines that are done, and uses no other
rules than the two proofs do. -/
structure Inlined (as : List Formula) (rules : List InferenceRule) (front done middle : List Line) :
    Prop where
  derivation : Derivation as rules (front ++ middle)
  formulas : middle.map Line.formula = done.map Line.formula
  rule_mem : ∀ l ∈ middle, l.rule ∈ (front ++ done).map Line.rule

section Lines

variable {as : List Formula} {rules rules' : List InferenceRule}
variable {front done middle cited : List Line} {premises : List Int} {l l' : Line} {main : Proof}

theorem inlined_nil (h : Derivation as rules front) : Inlined as rules front [] [] :=
  ⟨by rwa [List.append_nil], rfl, by simp⟩

theorem Inlined.concat (h : Inlined as rules front done middle)
    (hl' : Follows as rules (front ++ middle) l') (hformula : l'.formula = l.formula)
    (hrule : l'.rule ∈ (front ++ (done ++ [l])).map Line.rule) :
    Inlined as rules front (done ++ [l]) (middle ++ [l']) := by
  refine ⟨?_, ?_, ?_⟩
  · rw [← List.append_assoc]
    exact derivation_concat.2 ⟨h.derivation, hl'⟩
  · simp only [List.map_append, List.map_singleton, h.formulas, hformula]
  · intro k hk
    rcases List.mem_append.1 hk with hk | hk
    · have := h.rule_mem k hk
      simp only [List.map_append, List.mem_append] at this ⊢
      tauto
    · rwa [List.mem_singleton.1 hk]

/-- A line of the lemma that is no assumption moves behind the front. -/
theorem Inlined.shift {inf : Inference} {bs : List Formula} (h : Inlined as rules front done middle)
    (hl : Follows bs rules' done l) (hinf : l.inference = some inf) (hrules : rules' ⊆ rules) :
    Inlined as rules front (done ++ [l]) (middle ++ [l.shift front.length]) := by
  refine h.concat ?_ rfl ?_
  · refine ((hl.of_inference hinf).mono (List.Subset.refl as) hrules).mapPremises
      (φ := (front.length + ·)) (fun k => by simp [Int.add_comm]) fun k f hk => ?_
    rw [Shows, List.map_append, h.formulas, ← List.length_map (f := Line.formula),
      List.getElem?_append_right (Nat.le_add_right _ _), Nat.add_sub_cancel_left]
    exact hk
  · rw [Line.shift, Line.rule_mapPremises]
    exact List.mem_map_of_mem (by simp)

/-- The next line of the lemma. An assumption becomes the cited line with its formula, any other line
moves behind the front. -/
theorem Inlined.inlinedLine (h : Inlined as rules front done middle)
    (hcited : (premises.mapM fun j => fetch main.lines j) = .ok cited) (hfront : cited ⊆ front)
    (hl : Follows (cited.map Line.formula) rules' done l) (hrules : rules' ⊆ rules) :
    ∃ l', main.inlinedLine premises front.length l = .ok [l'] ∧
      Inlined as rules front (done ++ [l]) (middle ++ [l']) := by
  unfold Proof.inlinedLine
  have hjustified := hl.justified
  cases hinf : l.inference with
  | none =>
      rw [hinf] at hjustified
      obtain ⟨m, hm, hml⟩ := List.mem_map.1 hjustified
      have hfound : (cited.find? fun m => decide (m.formula = l.formula)).isSome = true :=
        List.find?_isSome.2 ⟨m, hm, decide_eq_true hml⟩
      obtain ⟨m', hm'⟩ := Option.isSome_iff_exists.1 hfound
      have hformula : m'.formula = l.formula := by simpa using List.find?_some hm'
      have hmem : m' ∈ front := hfront (List.mem_of_find?_eq_some hm')
      refine ⟨m'.shiftFrom front.length front.length, ?_, h.concat ?_ hformula ?_⟩
      · rw [Line.isAssumption, hinf, Option.isNone_none, if_pos rfl, hcited, ok_bind, hm']
        rfl
      · -- the repeated line cites lines of the front, which stay where they are
        obtain ⟨k, hk⟩ := List.getElem?_of_mem hmem
        have hlt : k < front.length := (List.getElem?_eq_some_iff.1 hk).1
        have hm'' := h.derivation k m' (by rw [List.getElem?_append_left hlt, hk])
        refine hm''.mapPremises (φ := fun j => if j < front.length then j else j + front.length)
          (fun j => ?_) fun j f hj => ?_
        · split <;> split <;> omega
        · obtain ⟨hjk, hj⟩ := shows_take.1 hj
          rwa [if_pos (by omega)]
      · rw [Line.shiftFrom, Line.rule_mapPremises]
        exact List.mem_map_of_mem (List.mem_append_left _ hmem)
  | some inf =>
      refine ⟨l.shift front.length, ?_, h.shift hl hinf hrules⟩
      rw [Line.isAssumption, hinf, Option.isNone_some, if_neg Bool.false_ne_true]
      rfl

/-- The rest of the lemma's lines. -/
theorem Inlined.mapM {rest : List Line} (h : Inlined as rules front done middle)
    (hcited : (premises.mapM fun j => fetch main.lines j) = .ok cited) (hfront : cited ⊆ front)
    (hrest : Derivation (cited.map Line.formula) rules' (done ++ rest)) (hrules : rules' ⊆ rules) :
    ∃ more, rest.mapM (main.inlinedLine premises front.length) = .ok (more.map ([·])) ∧
      Inlined as rules front (done ++ rest) (middle ++ more) := by
  induction rest generalizing done middle with
  | nil => exact ⟨[], rfl, by simpa using h⟩
  | cons l rest ih =>
      have hl : Follows (cited.map Line.formula) rules' done l := by
        have := hrest done.length l (by simp)
        rwa [List.take_left] at this
      obtain ⟨l', hl', hconcat⟩ := h.inlinedLine hcited hfront hl hrules
      rw [List.append_cons done l rest] at hrest ⊢
      obtain ⟨more, hmore, hall⟩ := ih hconcat hrest
      refine ⟨l' :: more, ?_, by rwa [List.append_cons middle]⟩
      rw [List.mapM_cons, hl', ok_bind, hmore]
      rfl

end Lines

/-! ## One use of the lemma -/

/-- Lines that can stand in place of a line which follows by the statement of a lemma: as many as the
lemma's proof has, which derive the formula of the line from what stands in front of it, by rules that are
used there or in the lemma. -/
structure Replacement (d : Dialect) (as : List Formula) (rules : List InferenceRule) (lem : Proof)
    (front : List Line) (l : Line) (middle : List Line) : Prop where
  length_eq : middle.length = lem.lines.length
  derivation : Derivation as rules (front ++ middle)
  last : middle.getLast?.map Line.formula = some l.formula
  rule_mem : ∀ l' ∈ middle, l'.rule ∈ (front ++ lem.lines).map Line.rule
  wellFormed : ∀ l' ∈ middle, l'.formula.WellFormed d

/-- The lines of a specialized lemma, once they have been put in their place, can stand there. -/
theorem Inlined.replacement {d : Dialect} {as bs : List Formula} {rules : List InferenceRule}
    {lem q : Proof} {front middle : List Line} {l : Line}
    (h : Inlined as rules front q.lines middle) (hq : q.Establishes bs l.formula)
    (hqformulas : q.WellFormed d) (hqlines : q.lines.map Line.inference = lem.lines.map Line.inference) :
    Replacement d as rules lem front l middle := by
  have hlength : q.lines.length = lem.lines.length := by
    simpa using congrArg List.length hqlines
  have hqrule : q.lines.map Line.rule = lem.lines.map Line.rule := by
    have := congrArg (List.map fun i => (i.map Inference.rule).getD .missing) hqlines
    rw [List.map_map, List.map_map] at this
    exact this
  refine ⟨?_, h.derivation, ?_, ?_, ?_⟩
  · rw [← hlength]
    simpa using congrArg List.length h.formulas
  · rw [← List.getLast?_map, h.formulas, List.getLast?_eq_getElem?, List.length_map]
    exact hq.ends
  · intro l' hl'
    have := h.rule_mem l' hl'
    rwa [List.map_append, hqrule, ← List.map_append] at this
  · intro l' hl'
    have hmem : l'.formula ∈ q.lines.map Line.formula := h.formulas ▸ List.mem_map_of_mem hl'
    obtain ⟨l'', hl'', heq⟩ := List.mem_map.1 hmem
    exact heq ▸ hqformulas.lines l'' hl''

namespace Proof

theorem flatten_mapIdx_splice (front rest middle : List Line) (l : Line) (g : Line → Line) :
    ((front ++ l :: rest).mapIdx fun i x =>
      if (i : Int) < front.length then [x] else if (i : Int) = front.length then middle
      else [g x]).flatten = front ++ middle ++ rest.map g := by
  have hfront : (front.mapIdx fun i x =>
      if (i : Int) < front.length then [x] else if (i : Int) = front.length then middle
      else [g x]) = front.map ([·]) := by
    refine List.ext_getElem (by simp) fun i hi _ => ?_
    rw [List.length_mapIdx] at hi
    simp [hi]
  have hrest : (rest.mapIdx fun i x =>
      if ((i + 1 + front.length : Nat) : Int) < front.length then [x]
      else if ((i + 1 + front.length : Nat) : Int) = front.length then middle
      else [g x]) = rest.map fun x => [g x] := by
    refine List.ext_getElem (by simp) fun i hi _ => ?_
    rw [List.getElem_mapIdx, List.getElem_map, if_neg (by omega), if_neg (by omega)]
  rw [List.mapIdx_append, hfront, List.mapIdx_cons]
  rw [hrest, List.flatten_append, List.flatten_cons, if_neg (by omega), if_pos (by omega),
    ← List.flatMap_def, List.flatMap_singleton', ← List.flatMap_def, ← List.map_eq_flatMap,
    List.append_assoc]

/-- What inlining one use of a lemma answers with, once the lemma has been specialized and its lines have
been put in their place. -/
theorem inlineOnce_eq_ok {main lem special : Proof} {front rest middle cited : List Line} {l : Line}
    {premises : List Int} (hlem : lem.isValid = .ok true) (hmain : main.lines = front ++ l :: rest)
    (hl : l.inference = some ⟨lem.statement, premises⟩)
    (hcited : List.Forall₂ (fun j l => fetch main.lines j = .ok l) premises cited)
    (hspecial : lem.specialize (.rule (cited.map Line.formula) l.formula) = .ok special)
    (hmiddle : special.lines.mapM (main.inlinedLine premises front.length) =
      .ok (middle.map ([·]))) :
    main.inlineOnce front.length lem true =
      .ok (make main.statement ((main.rules ++ lem.rules).erase lem.statement)
        (front ++ middle ++
          rest.map (Line.shiftFrom front.length ((lem.lines.length : Int) - 1)))) := by
  have hplace : main.lines[front.length]? = some l := by simp [hmain]
  have hfetch : fetch main.lines (front.length : Int) = .ok l := fetch_natCast_eq_ok.2 hplace
  have hrule : l.rule = lem.statement := by simp [Line.rule, hl]
  have hcheck : main.checkInlining front.length lem = .ok () := by
    rw [checkInlining, hfetch, ok_bind, decide_eq_true hrule, require_true, ok_bind]
    exact requireValid_eq_ok.2 hlem
  have hruleForLine := (ruleForLine_eq_ok hplace hl).2 ⟨cited, hcited, rfl⟩
  rw [inlineOnce, hcheck, ok_bind, hfetch, ok_bind, hruleForLine, ok_bind, hspecial, ok_bind]
  simp only [hl, Option.map_some, Option.getD_some, hmiddle, ok_bind, if_true]
  rw [hmain, ← List.flatMap_def, List.flatMap_singleton', flatten_mapIdx_splice]
  rfl

/-- A line that follows by the statement of a lemma is led to by lines in front of it, by a specialization of
that statement. -/
theorem exists_cited_of_use {d : Dialect} {main lem : Proof} {as : List Formula}
    {rules : List InferenceRule} {front rest : List Line} {l : Line}
    (hmain : main.lines = front ++ l :: rest)
    (hmainformulas : ∀ l ∈ main.lines, l.formula.WellFormed d)
    (hderivation : Derivation as rules main.lines) (hl : l.rule = lem.statement)
    (hlem : lem.statement.isMissing = false) :
    ∃ premises cited, l.inference = some ⟨lem.statement, premises⟩ ∧ cited ⊆ front ∧
      List.Forall₂ (fun j l => fetch main.lines j = .ok l) premises cited ∧
      (InferenceRule.rule (cited.map Line.formula) l.formula).WellFormed d ∧
      (InferenceRule.rule (cited.map Line.formula) l.formula).isSpecializationOf lem.statement =
        .ok true := by
  have hplace : main.lines[front.length]? = some l := by simp [hmain]
  have htake : main.lines.take front.length = front := by rw [hmain, List.take_left]
  have hfollows : Follows as rules front l := htake ▸ hderivation _ l hplace
  obtain ⟨ks, cited, hinf, hcited, hspec⟩ := hfollows.exists_cited hl hlem
  have hfront : cited ⊆ front := fun l' hl' => by
    obtain ⟨k, -, hk⟩ := exists_left_of_forall₂ hcited l' hl'
    exact List.mem_of_getElem? hk
  have hfetch : List.Forall₂ (fun j l => fetch main.lines j = .ok l) (ks.map Nat.cast) cited := by
    refine List.forall₂_map_left_iff.2 (hcited.imp fun k l' hk => fetch_natCast_eq_ok.2 ?_)
    rw [hmain, List.getElem?_append_left (List.getElem?_eq_some_iff.1 hk).1, hk]
  exact ⟨_, cited, hinf, hfront, hfetch,
    rule_wellFormed hmainformulas (hmainformulas l (List.mem_of_getElem? hplace)) hfetch, hspec⟩

/-- A line that follows by the statement of an established lemma is replaced by lines that can stand in
its place. -/
theorem exists_inlineOnce {d : Dialect} {main lem : Proof} {as bs : List Formula} {c : Formula}
    {rules : List InferenceRule} {front rest : List Line} {l : Line} (hlem : lem.Establishes bs c)
    (hlemformulas : lem.WellFormed d) (hmain : main.lines = front ++ l :: rest)
    (hmainformulas : ∀ l ∈ main.lines, l.formula.WellFormed d)
    (hderivation : Derivation as rules main.lines) (hl : l.rule = lem.statement)
    (hrules : lem.rules ⊆ rules) :
    ∃ middle, main.inlineOnce front.length lem true =
        .ok (make main.statement ((main.rules ++ lem.rules).erase lem.statement)
          (front ++ middle ++
            rest.map (Line.shiftFrom front.length ((lem.lines.length : Int) - 1)))) ∧
      Replacement d as rules lem front l middle := by
  obtain ⟨premises, cited, hinf, hfront, hfetch, hstep, hspec⟩ :=
    exists_cited_of_use hmain hmainformulas hderivation hl (by rw [hlem.statement_eq]; rfl)
  -- the lemma for this line, and its lines put behind the front
  obtain ⟨q, hq, hqestablishes, hqformulas, hqrules, hqlines⟩ :=
    hlem.specialize hlemformulas hspec hstep.formulas
  have hstart : Inlined as rules front [] [] := by
    have hderived := hderivation.take front.length
    rw [hmain, List.take_left] at hderived
    exact inlined_nil hderived
  obtain ⟨middle, hmiddle, hinlined⟩ :=
    hstart.mapM (mapM_eq_ok.2 hfetch) hfront hqestablishes.derivation (hqrules ▸ hrules)
  simp only [List.nil_append] at hinlined
  exact ⟨middle, inlineOnce_eq_ok hlem.isValid hmain hinf hfetch hq hmiddle,
    hinlined.replacement hqestablishes hqformulas hqlines⟩

/-! ## All uses of the lemma -/

/-- What is kept while inlining goes through a proof: it remains a derivation of its conclusion by its
rules and the lemma, the lines in front do not use the lemma, and the rest is still to be looked at. -/
structure Inlining (d : Dialect) (lem : Proof) (as : List Formula) (c : Formula)
    (front rest : List Line) (pf : Proof) : Prop where
  lines_eq : pf.lines = front ++ rest
  statement_eq : pf.statement = .rule as c
  derivation : Derivation as (lem.statement :: pf.rules) pf.lines
  ends : Shows pf.lines (pf.lines.length - 1) c
  front_free : ∀ l ∈ front, l.rule ≠ lem.statement
  wellFormed : ∀ l ∈ pf.lines, l.formula.WellFormed d

section Loop

variable {d : Dialect} {pf lem : Proof} {as bs : List Formula} {b c : Formula}
variable {front rest : List Line} {l : Line}

/-- A line that does not use the lemma is passed. -/
theorem Inlining.pass (h : Inlining d lem as c front (l :: rest) pf) (hl : l.rule ≠ lem.statement) :
    Inlining d lem as c (front ++ [l]) rest pf := by
  refine { h with lines_eq := ?_, front_free := ?_ }
  · rw [h.lines_eq, List.append_cons]
  · intro l' hl'
    rcases List.mem_append.1 hl' with hl' | hl'
    · exact h.front_free l' hl'
    · rwa [List.mem_singleton.1 hl']

/-- When a line that uses the lemma has been replaced, what stands in its place is in front of what
follows. All that was used remains allowed. -/
theorem Inlining.splice {middle : List Line} {rules : List InferenceRule}
    (h : Inlining d lem as c front (l :: rest) pf)
    (hmiddle : Replacement d as (lem.statement :: rules) lem front l middle)
    (hself : ∀ l ∈ lem.lines, l.rule ≠ lem.statement) (hrules : pf.rules ⊆ lem.statement :: rules) :
    Inlining d lem as c (front ++ middle)
      (rest.map (Line.shiftFrom front.length ((lem.lines.length : Int) - 1)))
      ⟨pf.statement, rules, front ++ middle ++
        rest.map (Line.shiftFrom front.length ((lem.lines.length : Int) - 1))⟩ := by
  have hderivation := h.derivation.mono (List.Subset.refl as)
    (List.cons_subset.2 ⟨List.mem_cons_self, hrules⟩)
  rw [h.lines_eq] at hderivation
  have hspliced := hderivation.splice hmiddle.derivation hmiddle.last
  rw [hmiddle.length_eq] at hspliced
  refine ⟨rfl, h.statement_eq, hspliced, ?_, ?_, ?_⟩
  · have hends := h.ends
    rw [h.lines_eq] at hends
    exact hends.splice_ends hmiddle.last _
  · intro l' hl'
    rcases List.mem_append.1 hl' with hl' | hl'
    · exact h.front_free l' hl'
    · obtain ⟨l'', hl'', hrule⟩ := List.mem_map.1 (hmiddle.rule_mem l' hl')
      rw [← hrule]
      rcases List.mem_append.1 hl'' with hl'' | hl''
      · exact h.front_free l'' hl''
      · exact hself l'' hl''
  · have hwellFormed := h.wellFormed
    simp only [h.lines_eq, List.forall_mem_append, List.forall_mem_cons] at hwellFormed
    simp only [List.forall_mem_append, List.forall_mem_map]
    exact ⟨⟨hwellFormed.1, hmiddle.wellFormed⟩, hwellFormed.2.2⟩

/-- A line that uses the lemma is replaced, and what replaces it is in front of what follows. -/
theorem Inlining.replace (h : Inlining d lem as c front (l :: rest) pf) (hlem : lem.Establishes bs b)
    (hlemformulas : lem.WellFormed d) (hself : ∀ l ∈ lem.lines, l.rule ≠ lem.statement)
    (hl : l.rule = lem.statement) :
    ∃ middle rest' pf', pf.inlineOnce front.length lem true = .ok pf' ∧
      Inlining d lem as c (front ++ middle) rest' pf' ∧ middle.length = lem.lines.length ∧
      rest'.map Line.rule = rest.map Line.rule ∧ pf'.rules ⊆ pf.rules ++ lem.rules := by
  have hrules : ∀ r ∈ pf.rules ++ lem.rules, r ∈ lem.statement ::
      ((pf.rules ++ lem.rules).erase lem.statement).eraseDups := by
    intro r hr
    by_cases hrs : r = lem.statement
    · rw [hrs]
      exact List.mem_cons_self
    · exact List.mem_cons_of_mem _ (List.mem_eraseDups.2 ((List.mem_erase_of_ne hrs).2 hr))
  have hpfrules : pf.rules ⊆ lem.statement :: ((pf.rules ++ lem.rules).erase lem.statement).eraseDups :=
    fun r hr => hrules r (List.mem_append_left _ hr)
  have hderivation := h.derivation.mono (List.Subset.refl as)
    (List.cons_subset.2 ⟨List.mem_cons_self, hpfrules⟩)
  obtain ⟨middle, hrun, hmiddle⟩ := exists_inlineOnce hlem hlemformulas h.lines_eq h.wellFormed hderivation
    hl fun r hr => hrules r (List.mem_append_right _ hr)
  refine ⟨middle, _, _, hrun, h.splice hmiddle hself hpfrules, hmiddle.length_eq, ?_, ?_⟩
  · simp [Line.shiftFrom]
  · intro r hr
    exact List.mem_of_mem_erase (List.mem_eraseDups.1 hr)

/-- Going through the rest of the lines replaces all further uses of the lemma. -/
theorem Inlining.go {position : Nat} {ls : List Line} (h : Inlining d lem as c front rest pf)
    (hlem : lem.Establishes bs b) (hlemformulas : lem.WellFormed d)
    (hself : ∀ l ∈ lem.lines, l.rule ≠ lem.statement) (hposition : position = front.length)
    (hls : rest.map Line.rule = ls.map Line.rule) :
    ∃ q, inline.go lem pf position ls = .ok q ∧ q.Establishes as c ∧
      (∀ l ∈ q.lines, l.rule ≠ lem.statement) ∧ q.rules ⊆ pf.rules ++ lem.rules ∧
      q.lines.length = pf.lines.length +
        ls.countP (fun l => l.rule = lem.statement) * (lem.lines.length - 1) := by
  induction ls generalizing pf position front rest with
  | nil =>
      obtain rfl := List.map_eq_nil_iff.1 hls
      have hlines : pf.lines = front := by rw [h.lines_eq, List.append_nil]
      have hfree : ∀ l ∈ pf.lines, l.rule ≠ lem.statement := hlines ▸ h.front_free
      exact ⟨pf, rfl, ⟨h.statement_eq, h.derivation.erase hfree, h.ends⟩, hfree,
        List.subset_append_left _ _, by simp⟩
  | cons l' ls ih =>
      cases rest with
      | nil => simp at hls
      | cons l rest =>
          obtain ⟨hl, hls⟩ := List.cons.inj hls
          by_cases hrule : l'.rule = lem.statement
          · obtain ⟨middle, rest', pf', hrun, h', hlength, hrest', hrules⟩ :=
              h.replace hlem hlemformulas hself (hl.trans hrule)
            have hnext : position + lem.lines.length = (front ++ middle).length := by
              rw [List.length_append, hposition, hlength]
            obtain ⟨q, hq, hestablishes, hfree, hqrules, hqlength⟩ := ih h' hnext (hrest'.trans hls)
            refine ⟨q, ?_, hestablishes, hfree, ?_, ?_⟩
            · rw [inline.go, if_pos hrule, hposition, hrun, ok_bind, ← hposition, hq]
            · intro r hr
              have := hqrules hr
              have := @hrules r
              simp only [List.mem_append] at *
              tauto
            · have hpos := hlem.ends.lt_length
              have hrestlength : rest'.length = rest.length := by
                simpa using congrArg List.length hrest'
              rw [hqlength, h'.lines_eq, h.lines_eq, List.countP_cons_of_pos (by simpa using hrule),
                Nat.succ_mul]
              simp only [List.length_append, List.length_cons, hlength, hrestlength]
              omega
          · have hnext : position + 1 = (front ++ [l]).length := by simp [hposition]
            obtain ⟨q, hq, hrest⟩ := ih (h.pass (hl ▸ hrule)) hnext hls
            refine ⟨q, ?_, ?_⟩
            · rw [inline.go, if_neg hrule, hq]
            · simpa [List.countP_cons, hrule] using hrest

end Loop

/-- Inlining an accepted lemma that does not use itself into an accepted proof answers with an accepted
proof of the same statement, in which the lemma is not used and all rules are of the two proofs. Every
use of the lemma becomes as many lines as the lemma's proof has. -/
theorem inline_isValid {d : Dialect} {main lem : Proof} (hmain : main.isValid = .ok true)
    (hlem : lem.isValid = .ok true) (hmainformulas : main.WellFormed d)
    (hlemformulas : lem.WellFormed d) (hmainfront : ∀ l ∈ main.lines, ∀ j ∈ l.cited, 0 ≤ j)
    (hlemfront : ∀ l ∈ lem.lines, ∀ j ∈ l.cited, 0 ≤ j)
    (hself : ∀ l ∈ lem.lines, l.rule ≠ lem.statement) :
    ∃ q, main.inline lem = .ok q ∧ q.isValid = .ok true ∧ q.statement = main.statement ∧
      (∀ l ∈ q.lines, l.rule ≠ lem.statement) ∧ q.rules ⊆ main.rules ++ lem.rules ∧
      q.lines.length = main.lines.length +
        main.lines.countP (fun l => l.rule = lem.statement) * (lem.lines.length - 1) := by
  have hestablishes := hmainformulas.establishes hmain hmainfront
  have hstart : Inlining d lem main.statement.assumptions main.statement.conclusion [] main.lines
      main :=
    ⟨rfl, hestablishes.statement_eq, hestablishes.derivation.mono (List.Subset.refl _)
      (List.subset_cons_self _ _), hestablishes.ends, by simp, hmainformulas.lines⟩
  obtain ⟨q, hq, hqestablishes, hfree, hrules, hlength⟩ :=
    hstart.go (hlemformulas.establishes hlem hlemfront) hlemformulas hself rfl rfl
  exact ⟨q, hq, hqestablishes.isValid,
    hqestablishes.statement_eq.trans hestablishes.statement_eq.symm, hfree, hrules, hlength⟩

/-- A lemma that is used twice, the second time on a line that comes from its first use. -/
theorem inline_isValid_used_twice :
    let chain := InferenceRule.rule [p, imp p q, imp q r] r
    let lem := make chain [MP]
      [.assumed (imp q r), .assumed p, .assumed (imp p q), .inferred q MP [1, 2],
        .inferred r MP [3, 0]]
    let main := make (.rule [p, imp p q, imp q p] q) [chain, MP]
      [.assumed p, .assumed (imp p q), .assumed (imp q p), .inferred p chain [0, 1, 2],
        .inferred p chain [3, 1, 2], .inferred q MP [4, 1]]
    main.isValid = .ok true ∧ lem.isValid = .ok true ∧
      ∃ inlined, main.inline lem = .ok inlined ∧ inlined.isValid = .ok true ∧
        (∀ l ∈ inlined.lines, l.rule ≠ chain) ∧ inlined.lines.length = 14 := by
  intro chain lem main
  have hmain : main.isValid = .ok true := by decide
  have hlem : lem.isValid = .ok true := by decide
  obtain ⟨inlined, hinlined, hvalid, -, hfree, -, hlength⟩ :=
    inline_isValid (d := Connective.all) hmain hlem (by decide) (by decide) (by decide) (by decide)
      (by decide)
  exact ⟨hmain, hlem, inlined, hinlined, hvalid, hfree, hlength⟩

end Proof

end FormalLogic.Propositional
