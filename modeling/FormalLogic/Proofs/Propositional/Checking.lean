import FormalLogic.Propositional.Proof
import FormalLogic.Proofs.Propositional.Matching

/-!
# What the proof checker accepts

`Proof.lineValid_eq_true` says once what makes the checker accept a line, and `Proof.isValid_eq_true`
what makes it accept a proof. All that is known about accepted proofs is derived from these two.
-/

namespace FormalLogic.Propositional

/-- The positions that a line cites. -/
def Line.cited (l : Line) : List Int :=
  (l.inference.map Inference.premises).getD []

theorem InferenceRule.given_eq_ok {r r' : InferenceRule} :
    r.given = .ok r' ↔ r.isMissing = false ∧ r' = r := by
  rw [given, ite_error_eq_ok, Bool.not_eq_true, Except.ok.injEq, eq_comm (a := r)]

namespace Proof

/-- What justifies a line at a position: an assumption is one of the statement's, any other line follows
by a rule of the proof, all its citations are smaller numbers than its position, and the lines that they
denote lead to it by a specialization of the rule. -/
def Justified (pf : Proof) (k : Nat) (l : Line) : Prop :=
  match l.inference with
  | none => l.formula ∈ pf.statement.assumptions
  | some inf => inf.rule ∈ pf.rules ∧ (∀ j ∈ inf.premises, j < k) ∧
      ∃ cited, List.Forall₂ (fun j l => fetch pf.lines j = .ok l) inf.premises cited ∧
        (InferenceRule.rule (cited.map Line.formula) l.formula).isSpecializationOf inf.rule = .ok true

/-- A justified line cites smaller numbers, all of which denote lines. -/
theorem Justified.of_mem_cited {pf : Proof} {k : Nat} {l : Line} (h : pf.Justified k l) {j : Int}
    (hj : j ∈ l.cited) : j < k ∧ ∃ l', fetch pf.lines j = .ok l' := by
  unfold Justified at h
  unfold Line.cited at hj
  cases hinf : l.inference with
  | none =>
      rw [hinf] at hj
      simp at hj
  | some inf =>
      rw [hinf] at h hj
      obtain ⟨-, hlt, cited, hcited, -⟩ := h
      obtain ⟨l', -, hl'⟩ := exists_right_of_forall₂ hcited j hj
      exact ⟨hlt j hj, l', hl'⟩

theorem line_natCast {pf : Proof} {k : Nat} {l : Line} (hk : pf.lines[k]? = some l) :
    pf.line k = .ok l := by
  have hlt : k < pf.lines.length := (List.getElem?_eq_some_iff.1 hk).1
  rw [line, decide_eq_true (Int.ofNat_lt.2 hlt), require_true, ok_bind]
  exact fetch_natCast_eq_ok.2 hk

/-- The rule that leads to a line has the cited lines for assumptions. -/
theorem ruleForLine_eq_ok {pf : Proof} {k : Nat} {l : Line} {inf : Inference} {r : InferenceRule}
    (hk : pf.lines[k]? = some l) (hinf : l.inference = some inf) :
    pf.ruleForLine k = .ok r ↔
      ∃ cited, List.Forall₂ (fun j l => fetch pf.lines j = .ok l) inf.premises cited ∧
        r = .rule (cited.map Line.formula) l.formula := by
  rw [ruleForLine, line_natCast hk, ok_bind, hinf]
  simp only [bind_eq_ok, mapM_eq_ok, pure_eq_ok]
  exact exists_congr fun cited => and_congr_right fun _ => eq_comm

/-- The checker accepts exactly the justified lines. -/
theorem lineValid_eq_true {pf : Proof} {k : Nat} {l : Line} (hk : pf.lines[k]? = some l) :
    pf.lineValid k = .ok true ↔ pf.Justified k l := by
  rw [lineValid, line_natCast hk, ok_bind, Justified]
  cases hinf : l.inference with
  | none =>
      cases hst : pf.statement with
      | missing => simp [InferenceRule.given, InferenceRule.isMissing, InferenceRule.assumptions,
          bind, Except.bind]
      | rule as c => simp [InferenceRule.given, InferenceRule.isMissing]
  | some inf =>
      simp only
      split
      · rename_i hguard
        simp only [Bool.and_eq_true, List.contains_iff_mem, List.all_eq_true,
          decide_eq_true_eq] at hguard
        obtain ⟨hrule, hlt⟩ := hguard
        simp only [bind_eq_ok, ruleForLine_eq_ok hk hinf]
        constructor
        · rintro ⟨r, ⟨cited, hcited, rfl⟩, hspec⟩
          exact ⟨hrule, hlt, cited, hcited, hspec⟩
        · rintro ⟨-, -, cited, hcited, hspec⟩
          exact ⟨_, ⟨cited, hcited, rfl⟩, hspec⟩
      · rename_i hguard
        simp only [pure_eq_ok, Bool.false_eq_true, false_iff]
        rintro ⟨hrule, hlt, -⟩
        refine hguard ?_
        rw [Bool.and_eq_true, List.contains_iff_mem, List.all_eq_true]
        exact ⟨hrule, fun j hj => decide_eq_true (hlt j hj)⟩

/-- The checker refuses a line by a rule that the proof does not have, whatever the line cites. -/
theorem lineValid_of_notMem_rules {pf : Proof} {k : Nat} {l : Line} {inf : Inference}
    (hk : pf.lines[k]? = some l) (hinf : l.inference = some inf) (hrule : inf.rule ∉ pf.rules) :
    pf.lineValid k = .ok false := by
  rw [lineValid, line_natCast hk, ok_bind, hinf]
  simp [hrule]

/-- Going through positions as long as a check answers yes. -/
theorem allLinesValid_eq_true {check : Int → Outcome Bool} {ks : List Nat} :
    allLinesValid check ks = .ok true ↔ ∀ k ∈ ks, check k = .ok true := by
  induction ks with
  | nil => simp [allLinesValid]
  | cons k ks ih =>
      rw [allLinesValid, bind_eq_ok, List.forall_mem_cons, ← ih]
      constructor
      · rintro ⟨b, hb, h⟩
        cases b with
        | true => exact ⟨hb, h⟩
        | false => simp at h
      · rintro ⟨hk, hks⟩
        exact ⟨true, hk, hks⟩

/-- Going through all lines. -/
theorem allLinesValid_range {check : Int → Outcome Bool} {lines : List Line} :
    allLinesValid check (List.range lines.length) = .ok true ↔
      ∀ (k : Nat) l, lines[k]? = some l → check k = .ok true := by
  rw [allLinesValid_eq_true]
  constructor
  · intro h k l hk
    exact h k (List.mem_range.2 (List.getElem?_eq_some_iff.1 hk).1)
  · intro h k hk
    exact h k _ (List.getElem?_eq_getElem (List.mem_range.1 hk))

/-- A check that answers for all positions, and no for one of them, answers no. -/
theorem allLinesValid_eq_false {check : Int → Outcome Bool} {ks : List Nat}
    (hanswers : ∀ k ∈ ks, check k = .ok true ∨ check k = .ok false)
    (hno : ∃ k ∈ ks, check k = .ok false) : allLinesValid check ks = .ok false := by
  induction ks with
  | nil =>
      obtain ⟨k, hk, -⟩ := hno
      simp at hk
  | cons k ks ih =>
      obtain ⟨hk, hks⟩ := List.forall_mem_cons.1 hanswers
      rw [allLinesValid]
      rcases hk with hk | hk
      · rw [hk, ok_bind, if_pos rfl]
        refine ih hks ?_
        obtain ⟨j, hj, hcheck⟩ := hno
        rcases List.mem_cons.1 hj with rfl | hj
        · rw [hk] at hcheck
          cases hcheck
        · exact ⟨j, hj, hcheck⟩
      · rw [hk]
        rfl

/-- The checker accepts a proof exactly if all lines are justified and the last one is the
conclusion. -/
theorem isValid_eq_true {pf : Proof} :
    pf.isValid = .ok true ↔ (∀ k l, pf.lines[k]? = some l → pf.Justified k l) ∧
      pf.statement.isMissing = false ∧
      ∃ l, pf.lines.getLast? = some l ∧ l.formula = pf.statement.conclusion := by
  have hlines : allLinesValid pf.lineValid (List.range pf.lines.length) = .ok true ↔
      ∀ k l, pf.lines[k]? = some l → pf.Justified k l := by
    rw [allLinesValid_range]
    exact forall₃_congr fun k l hk => lineValid_eq_true hk
  rw [isValid, bind_eq_ok, ← hlines]
  constructor
  · rintro ⟨b, hb, h⟩
    cases b with
    | false => simp at h
    | true =>
        obtain ⟨statement, hst, h⟩ := bind_eq_ok.1 h
        obtain ⟨last, hlast, h⟩ := bind_eq_ok.1 h
        obtain ⟨hgiven, rfl⟩ := InferenceRule.given_eq_ok.1 hst
        refine ⟨hb, hgiven, last, fetch_neg_one_eq_ok.1 hlast, ?_⟩
        simpa using h
  · rintro ⟨hvalid, hgiven, last, hlast, hconcl⟩
    refine ⟨true, hvalid, bind_eq_ok.2 ⟨_, InferenceRule.given_eq_ok.2 ⟨hgiven, rfl⟩, ?_⟩⟩
    refine bind_eq_ok.2 ⟨last, fetch_neg_one_eq_ok.2 hlast, ?_⟩
    simp [hconcl]

/-- The checker refuses a proof whose lines are justified up to some that follow by rules that the proof
does not have. -/
theorem isValid_of_notMem_rules {pf : Proof} {done more : List Line} (hlines : pf.lines = done ++ more)
    (hdone : ∀ k l, done[k]? = some l → pf.Justified k l) (hne : more ≠ [])
    (hmore : ∀ l ∈ more, ∃ inf, l.inference = some inf ∧ inf.rule ∉ pf.rules) :
    pf.isValid = .ok false := by
  have hrefused : ∀ (k : Nat) l, pf.lines[k]? = some l → l ∈ more → pf.lineValid k = .ok false := by
    intro k l hk hl
    obtain ⟨inf, hinf, hrule⟩ := hmore l hl
    exact lineValid_of_notMem_rules hk hinf hrule
  have hvalid : allLinesValid pf.lineValid (List.range pf.lines.length) = .ok false := by
    refine allLinesValid_eq_false ?_ ?_
    · intro k hk
      have hget := List.getElem?_eq_getElem (List.mem_range.1 hk)
      rcases Nat.lt_or_ge k done.length with hlt | hge
      · left
        refine (lineValid_eq_true hget).2 (hdone k _ ?_)
        rw [← hget, hlines, List.getElem?_append_left hlt]
      · right
        refine hrefused k _ hget (List.mem_of_getElem? (i := k - done.length) ?_)
        rw [← hget, hlines, List.getElem?_append_right hge]
    · obtain ⟨l, hl⟩ := List.exists_mem_of_ne_nil more hne
      obtain ⟨k, hk⟩ := List.getElem?_of_mem (hlines ▸ List.mem_append_right done hl)
      exact ⟨k, List.mem_range.2 (List.getElem?_eq_some_iff.1 hk).1, hrefused k l hk hl⟩
  rw [isValid, hvalid]
  rfl

end Proof

end FormalLogic.Propositional
