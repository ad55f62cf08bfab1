import FormalLogic.Propositional.Synthesis
import FormalLogic.Proofs.Propositional.Decision
import Mathlib

/-!
# Every truth table has a formula

The clause of a row holds under exactly the assignments that agree with the row (`Valuation.Describes`), and no two
rows agree with the same valuation, so the disjunction of the clauses of the true rows has the values of the table
(`synthesize_realizes`). It is in disjunctive normal form, also in the special case of a table without a true row.

The same formula results from writing it down: the text is put together row by row with new parentheses around what
has been written, pairs of negation signs are struck out of it, of which there are none, and the text is read
(`tableText_of_trueRows`, `Formula.Realizes.readText_text`).
-/

namespace FormalLogic.Propositional

/-! ## Normal forms -/

namespace Formula

/-- A variable or the negation of one. -/
def IsLiteral : Formula → Prop
  | var _ => True
  | neg (var _) => True
  | _ => False

/-- Formulas of a kind joined by a connective, however the parentheses stand. -/
inductive Joined (op : Connective) (P : Formula → Prop) : Formula → Prop
  | single {f : Formula} (hf : P f) : Joined op P f
  | join {l r : Formula} (hl : Joined op P l) (hr : Joined op P r) : Joined op P (bin op l r)

/-- Disjunctive normal form: a disjunction of conjunctions of literals. -/
def IsDisjunctive : Formula → Prop :=
  Joined .or (Joined .and IsLiteral)

theorem Joined.wellFormed {op : Connective} {P : Formula → Prop} {d : Dialect} {f : Formula}
    (hf : f.Joined op P) (hop : op ∈ d)
    (hP : ∀ g, P g → (∀ x ∈ g.leafVariables, isVariable x = true) → g.WellFormed d)
    (hvars : ∀ x ∈ f.leafVariables, isVariable x = true) : f.WellFormed d := by
  induction hf with
  | single hg => exact hP _ hg hvars
  | join _ _ ihl ihr =>
      exact ⟨hop, ihl fun x hx => hvars x (List.mem_append_left _ hx),
        ihr fun x hx => hvars x (List.mem_append_right _ hx)⟩

theorem IsLiteral.wellFormed {d : Dialect} {f : Formula} (hf : f.IsLiteral)
    (hvars : ∀ x ∈ f.leafVariables, isVariable x = true) : f.WellFormed d := by
  cases f with
  | var x => exact hvars x List.mem_cons_self
  | neg g =>
      cases g with
      | var x => exact hvars x List.mem_cons_self
      | _ => exact hf.elim
  | _ => exact hf.elim

theorem IsDisjunctive.isMissing_eq_false {f : Formula} (hf : f.IsDisjunctive) :
    f.isMissing = false := by
  rcases hf with ⟨hliteral | _⟩ | _
  · cases f with
    | missing => exact hliteral.elim
    | _ => rfl
  · rfl
  · rfl

/-- A disjunctive normal form in variables is a formula of the language. -/
theorem IsDisjunctive.wellFormed {f : Formula} (hf : f.IsDisjunctive)
    (hvars : ∀ x ∈ f.leafVariables, isVariable x = true) : f.WellFormed Connective.all := by
  refine Joined.wellFormed hf (by decide) (fun g hg hvars => ?_) hvars
  exact Joined.wellFormed hg (by decide) (fun _ => IsLiteral.wellFormed) hvars

end Formula

/-! ## Joining to the left -/

section JoinLeft

variable {op : Connective} {fs : List Formula} {f : Formula}

theorem exists_joinLeft (op : Connective) (hfs : fs ≠ []) : ∃ f, joinLeft op fs = some f := by
  cases fs with
  | nil => exact absurd rfl hfs
  | cons g gs => exact ⟨_, rfl⟩

/-- What the first formula has, and what each join keeps, the joined formula has. -/
theorem joinLeft_induction {P : Formula → Prop} (h : joinLeft op fs = some f)
    (hfirst : ∀ g ∈ fs, P g) (hjoin : ∀ l, P l → ∀ g ∈ fs, P (.bin op l g)) : P f := by
  cases fs with
  | nil => cases h
  | cons g gs =>
      obtain rfl := Option.some.inj h
      have hrun : ∀ (rest : List Formula) (l : Formula), rest ⊆ gs → P l →
          P (rest.foldl (.bin op) l) := by
        intro rest
        induction rest with
        | nil => exact fun l _ hl => hl
        | cons g' rest ih =>
            intro l hrest hl
            obtain ⟨hg', hrest⟩ := List.cons_subset.1 hrest
            exact ih _ hrest (hjoin l hl g' (List.mem_cons_of_mem g hg'))
      exact hrun gs g (List.Subset.refl gs) (hfirst g List.mem_cons_self)

theorem joined_joinLeft {P : Formula → Prop} (h : joinLeft op fs = some f) (hfs : ∀ g ∈ fs, P g) :
    f.Joined op P :=
  joinLeft_induction h (fun g hg => .single (hfs g hg)) fun _ hl g hg => .join hl (.single (hfs g hg))

theorem leafVariables_joinLeft {names : List String} (h : joinLeft op fs = some f)
    (hfs : ∀ g ∈ fs, g.leafVariables ⊆ names) : f.leafVariables ⊆ names :=
  joinLeft_induction h hfs fun _ hl g hg => List.append_subset.2 ⟨hl, hfs g hg⟩

/-- If a value is that of a join exactly if both parts have it, it is that of the joined formula exactly if all
formulas have it. -/
theorem eval_joinLeft {b : Bool} (hop : ∀ x y, op.eval x y = b ↔ x = b ∧ y = b)
    (h : joinLeft op fs = some f) (v : String → Bool) :
    f.eval v = b ↔ ∀ g ∈ fs, g.eval v = b := by
  have hrun : ∀ (gs : List Formula) (g : Formula),
      (gs.foldl (.bin op) g).eval v = b ↔ ∀ g' ∈ g :: gs, g'.eval v = b := by
    intro gs
    induction gs with
    | nil => simp
    | cons g' gs ih =>
        intro g
        rw [List.foldl_cons, ih]
        simp only [List.forall_mem_cons, Formula.eval, hop, and_assoc]
  cases fs with
  | nil => cases h
  | cons g gs =>
      obtain rfl := Option.some.inj h
      exact hrun gs g

/-- A conjunction is true exactly if all its parts are. -/
theorem eval_joinLeft_and {v : String → Bool} (h : joinLeft .and fs = some f) :
    f.eval v = true ↔ ∀ g ∈ fs, g.eval v = true :=
  eval_joinLeft (by decide) h v

/-- A disjunction is true exactly if one of its parts is. -/
theorem eval_joinLeft_or {v : String → Bool} (h : joinLeft .or fs = some f) :
    f.eval v = true ↔ ∃ g ∈ fs, g.eval v = true := by
  rw [← not_iff_not, Bool.not_eq_true, eval_joinLeft (b := false) (by decide) h v]
  simp

end JoinLeft

/-! ## Clauses -/

/-- A clause of a valuation: a conjunction of literals in variables of the valuation, true under exactly the
assignments that agree with it. -/
structure Valuation.Describes (m : Valuation) (f : Formula) : Prop where
  conjunction : f.Joined .and Formula.IsLiteral
  leafVariables : f.leafVariables ⊆ Table.keys m
  eval : ∀ v, f.eval v = true ↔ ∀ e ∈ m, v e.1 = e.2

theorem isLiteral_literal (x : String) (b : Bool) : (literal x b).IsLiteral := by
  cases b <;> trivial

theorem leafVariables_literal (x : String) (b : Bool) : (literal x b).leafVariables = [x] := by
  cases b <;> rfl

theorem eval_literal {v : String → Bool} {x : String} {b : Bool} :
    (literal x b).eval v = true ↔ v x = b := by
  cases b <;> simp [literal, Formula.eval]

theorem Valuation.describes_of_clause {m : Valuation} {f : Formula} (h : clause m = some f) :
    m.Describes f := by
  refine ⟨joined_joinLeft h ?_, leafVariables_joinLeft h ?_, fun v => ?_⟩
  · rw [List.forall_mem_map]
    exact fun e _ => isLiteral_literal e.1 e.2
  · rw [List.forall_mem_map]
    intro e he
    rw [leafVariables_literal]
    exact List.cons_subset.2 ⟨List.mem_map_of_mem he, List.nil_subset _⟩
  · rw [eval_joinLeft_and h, List.forall_mem_map]
    exact forall₂_congr fun e _ => eval_literal

/-- A valuation of at least one variable has a clause. -/
theorem Valuation.exists_clause {m : Valuation} (hm : m ≠ []) : ∃ f, clause m = some f :=
  exists_joinLeft .and (by simpa using hm)

/-! ## Rows of a table -/

namespace Valuation

variable {names : List String} {row : List Bool}

/-- An assignment agrees with a row exactly if the row lists its values. -/
theorem forall_mem_zip_iff {v : String → Bool} (hrow : row.length = names.length) :
    (∀ e ∈ names.zip row, v e.1 = e.2) ↔ names.map v = row := by
  have hnames : (names.zip row).map (fun e => v e.1) = names.map v := by
    rw [← Function.comp_def, ← List.map_map, List.map_fst_zip hrow.ge]
  have hvalues : (names.zip row).map Prod.snd = row := List.map_snd_zip hrow.le
  rw [← List.map_inj_left, hnames, hvalues]

/-- The values of a row are read off it. -/
theorem map_value_zip (hnames : names.Nodup) (hrow : row.length = names.length) :
    names.map (value (names.zip row)) = row := by
  rw [← forall_mem_zip_iff hrow]
  intro e he
  have hkeys : (Table.keys (names.zip row)).Nodup := by
    rwa [Table.keys, List.map_fst_zip hrow.ge]
  rw [value, Table.find?_eq_some_of_mem hkeys he]
  rfl

/-- A valuation of the listed variables agrees with no other. -/
theorem agrees_iff_eq (hnames : names.Nodup) {m m' : Valuation} (hm : m ∈ all names)
    (hm' : m' ∈ all names) : (∀ e ∈ m, m'.value e.1 = e.2) ↔ m = m' := by
  rw [all_eq_map_zip hnames] at hm hm'
  obtain ⟨row, hrow, rfl⟩ := List.mem_map.1 hm
  obtain ⟨row', hrow', rfl⟩ := List.mem_map.1 hm'
  rw [forall_mem_zip_iff (length_of_mem_rows hrow), map_value_zip hnames (length_of_mem_rows hrow')]
  constructor
  · rintro rfl
    rfl
  · intro h
    rw [← map_value_zip hnames (length_of_mem_rows hrow'), ← h,
      map_value_zip hnames (length_of_mem_rows hrow)]

theorem length_rows (n : Nat) : (rows n).length = 2 ^ n := by
  induction n with
  | zero => rfl
  | succ n ih =>
      rw [rows, List.length_append, List.length_map, List.length_map, ih, Nat.pow_succ, Nat.mul_two]

theorem length_all (names : List String) : (all names).length = 2 ^ names.length := by
  rw [all, List.length_map, length_rows]

theorem nodup_all (hnames : names.Nodup) : (all names).Nodup := by
  rw [all_eq_map_zip hnames]
  refine List.Nodup.map_on ?_ (nodup_rows names.length)
  intro row hrow row' hrow' h
  rw [← map_value_zip hnames (length_of_mem_rows hrow), h,
    map_value_zip hnames (length_of_mem_rows hrow')]

end Valuation

/-! ## Formulas of a table -/

/-- The valuations of the rows of a table that have the value true. -/
def trueRows (names : List String) (values : List Bool) : List Valuation :=
  (((Valuation.all names).zip values).filter Prod.snd).map Prod.fst

/-- The table is that of the formula: a disjunctive normal form in the given variables, whose values in all
valuations of these variables are the given ones, in order. -/
structure Formula.Realizes (f : Formula) (names : List String) (values : List Bool) : Prop where
  disjunctive : f.IsDisjunctive
  vars : f.vars ⊆ names
  values_eq : (Valuation.all names).mapM (fun m => f.evaluate m) = .ok values

section Tables

variable {names : List String} {values : List Bool}

theorem mem_trueRows {m : Valuation} :
    m ∈ trueRows names values ↔ (m, true) ∈ (Valuation.all names).zip values := by
  simp [trueRows]

theorem trueRows_ne_nil (hlength : values.length = 2 ^ names.length) (htrue : true ∈ values) :
    trueRows names values ≠ [] := by
  obtain ⟨i, hi⟩ := List.getElem?_of_mem htrue
  have hlt : i < (Valuation.all names).length := by
    rw [Valuation.length_all, ← hlength]
    exact (List.getElem?_eq_some_iff.1 hi).1
  have hmem : (Valuation.all names)[i] ∈ trueRows names values := by
    rw [mem_trueRows]
    refine List.mem_of_getElem? (i := i) ?_
    rw [List.getElem?_zip_eq_some]
    exact ⟨List.getElem?_eq_getElem hlt, hi⟩
  exact List.ne_nil_of_mem hmem

theorem mem_all_of_mem_trueRows {m : Valuation} (hm : m ∈ trueRows names values) :
    m ∈ Valuation.all names :=
  (List.of_mem_zip (mem_trueRows.1 hm)).1

/-- A row is true exactly if it is the row of a true value. -/
theorem eq_true_iff_mem_trueRows (hnames : names.Nodup) (hlength : values.length = 2 ^ names.length)
    {m : Valuation} {b : Bool} (h : (m, b) ∈ (Valuation.all names).zip values) :
    b = true ↔ m ∈ trueRows names values := by
  have hkeys : (Table.keys ((Valuation.all names).zip values)).Nodup := by
    rw [Table.keys, List.map_fst_zip (by rw [Valuation.length_all, hlength])]
    exact Valuation.nodup_all hnames
  rw [mem_trueRows]
  constructor
  · rintro rfl
    exact h
  · intro h'
    have hb := Table.find?_eq_some_of_mem hkeys h
    rw [Table.find?_eq_some_of_mem hkeys h'] at hb
    exact (Option.some.inj hb).symm

/-- A formula with the values of the table in its rows realizes it. -/
theorem Formula.realizes_of_eval {f : Formula} (hf : f.IsDisjunctive) (hvars : f.leafVariables ⊆ names)
    (hlength : values.length = 2 ^ names.length)
    (heval : ∀ m b, (m, b) ∈ (Valuation.all names).zip values → f.eval m.value = b) :
    f.Realizes names values := by
  refine ⟨hf, fun x hx => hvars (mem_vars.1 hx), mapM_eq_ok.2 (List.forall₂_iff_zip.2 ⟨?_, ?_⟩)⟩
  · rw [Valuation.length_all, hlength]
  · intro m b h
    have hkeys : f.leafVariables ⊆ Table.keys m :=
      fun x hx => (Valuation.mem_keys_of_mem_all (List.of_mem_zip h).1).2 (hvars hx)
    rw [evaluate_of_subset hf.isMissing_eq_false hkeys, heval m b h]

/-! ### Tables with a true row -/

theorem clauseOf_eq_ok {m : Valuation} (hm : ∀ x ∈ Table.keys m, isVariable x = true) :
    clauseOf m = .ok (clause m) := by
  rw [clauseOf, clauseOfMarks, Mark.toValuation_map_truth hm]
  rfl

theorem isVariable_of_mem_all (hnames : ∀ x ∈ names, isVariable x = true) {m : Valuation}
    (hm : m ∈ Valuation.all names) : ∀ x ∈ Table.keys m, isVariable x = true :=
  fun x hx => hnames x ((Valuation.mem_keys_of_mem_all hm).1 hx)

/-- A table with a true row has the clauses of its true rows for a formula. -/
theorem synthesize_eq_joinLeft (hne : names ≠ []) (hnames : ∀ x ∈ names, isVariable x = true)
    (htrue : true ∈ values) :
    synthesize names (values.map .truth) =
      .ok (joinLeft .or ((trueRows names values).filterMap clause)) := by
  obtain ⟨first, rest, rfl⟩ := List.exists_cons_of_ne_nil hne
  have hvalues : (values.map Mark.truth).isEmpty = false := by
    simpa using List.ne_nil_of_mem htrue
  have hcontains : (values.map Mark.truth).contains (.truth true) = true := by
    simpa using htrue
  -- marks that are truth values count as what they are
  have hchosen : ((Valuation.all (first :: rest)).zip (values.map Mark.truth)).filter
        (fun row => row.2.counts) =
      (((Valuation.all (first :: rest)).zip values).filter Prod.snd).map
        (fun row => (row.1, Mark.truth row.2)) := by
    rw [List.zip_map_right, List.filter_map]
    rfl
  have hclauses := mapM_eq_ok_map (f := fun row : Valuation × Mark => clauseOf row.1)
    (g := fun row => clause row.1)
    (l := ((Valuation.all (first :: rest)).zip (values.map Mark.truth)).filter
      (fun row => row.2.counts))
    fun row hrow => clauseOf_eq_ok (isVariable_of_mem_all hnames
      (List.of_mem_zip (List.mem_filter.1 hrow).1).1)
  rw [synthesize]
  simp only [hvalues, hcontains, Bool.not_true, Bool.false_eq_true, if_false]
  rw [hclauses, ok_bind, hchosen, List.map_map, List.filterMap_map, trueRows, List.filterMap_map]
  rfl

theorem exists_clause_of_mem_all (hne : names ≠ []) {m : Valuation} (hm : m ∈ Valuation.all names) :
    ∃ g, clause m = some g := by
  refine Valuation.exists_clause ?_
  rintro rfl
  obtain ⟨x, hx⟩ := List.exists_mem_of_ne_nil names hne
  have hkey : x ∈ Table.keys ([] : Valuation) := (Valuation.mem_keys_of_mem_all hm).2 hx
  simp [Table.keys] at hkey

section TrueRow

variable {f : Formula} (hf : joinLeft .or ((trueRows names values).filterMap clause) = some f)

include hf

theorem isDisjunctive_of_trueRows : f.IsDisjunctive := by
  refine joined_joinLeft hf fun g hg => ?_
  obtain ⟨m, -, hg⟩ := List.mem_filterMap.1 hg
  exact (Valuation.describes_of_clause hg).conjunction

theorem leafVariables_of_trueRows : f.leafVariables ⊆ names := by
  refine leafVariables_joinLeft hf fun g hg x hx => ?_
  obtain ⟨m, hm, hg⟩ := List.mem_filterMap.1 hg
  exact (Valuation.mem_keys_of_mem_all (mem_all_of_mem_trueRows hm)).1
    ((Valuation.describes_of_clause hg).leafVariables hx)

/-- The clauses of the true rows are joined to a formula that is true under the assignments that agree with one
of these rows. -/
theorem eval_of_trueRows (hne : names ≠ []) {v : String → Bool} :
    f.eval v = true ↔ ∃ m ∈ trueRows names values, ∀ e ∈ m, v e.1 = e.2 := by
  rw [eval_joinLeft_or hf]
  constructor
  · rintro ⟨g, hg, hv⟩
    obtain ⟨m, hm, hg⟩ := List.mem_filterMap.1 hg
    exact ⟨m, hm, ((Valuation.describes_of_clause hg).eval v).1 hv⟩
  · rintro ⟨m, hm, hv⟩
    obtain ⟨g, hg⟩ := exists_clause_of_mem_all hne (mem_all_of_mem_trueRows hm)
    exact ⟨g, List.mem_filterMap.2 ⟨m, hm, hg⟩, ((Valuation.describes_of_clause hg).eval v).2 hv⟩

theorem realizes_of_trueRows (hne : names ≠ []) (hnodup : names.Nodup)
    (hlength : values.length = 2 ^ names.length) : f.Realizes names values := by
  refine Formula.realizes_of_eval (isDisjunctive_of_trueRows hf) (leafVariables_of_trueRows hf)
    hlength ?_
  intro m b h
  rw [Bool.eq_iff_iff, eval_of_trueRows hf hne, eq_true_iff_mem_trueRows hnodup hlength h]
  constructor
  · rintro ⟨m', hm', hagrees⟩
    have hall := mem_all_of_mem_trueRows hm'
    rwa [← (Valuation.agrees_iff_eq hnodup hall (List.of_mem_zip h).1).1 hagrees]
  · intro hm
    have hall := mem_all_of_mem_trueRows hm
    exact ⟨m, hm, (Valuation.agrees_iff_eq hnodup hall hall).2 rfl⟩

end TrueRow

theorem exists_joinLeft_trueRows (hne : names ≠ []) (hlength : values.length = 2 ^ names.length)
    (htrue : true ∈ values) :
    ∃ f, joinLeft .or ((trueRows names values).filterMap clause) = some f := by
  obtain ⟨m, hm⟩ := List.exists_mem_of_ne_nil _ (trueRows_ne_nil hlength htrue)
  obtain ⟨g, hg⟩ := exists_clause_of_mem_all hne (mem_all_of_mem_trueRows hm)
  exact exists_joinLeft .or (List.ne_nil_of_mem (List.mem_filterMap.2 ⟨m, hm, hg⟩))

/-! ### Tables without a true row -/

/-- The contradiction in a variable. -/
def contradiction (x : String) : Formula :=
  .bin .and (.var x) (.neg (.var x))

theorem text_contradiction (x : String) :
    (contradiction x).text = "(" ++ x ++ "&~" ++ x ++ ")" := by
  apply String.toList_injective
  simp [contradiction, Formula.text, Connective.symbol]

theorem contradictionIn_eq {x : String} (hx : isVariable x = true) :
    contradictionIn x = some (contradiction x) := by
  have hwell : (contradiction x).WellFormed Connective.all := ⟨by decide, hx, hx⟩
  rw [contradictionIn, ← text_contradiction, readText_text hwell]

theorem synthesize_eq_contradiction {first : String} {rest : List String}
    (hfirst : isVariable first = true) (hvalues : values ≠ []) (hfalse : true ∉ values) :
    synthesize (first :: rest) (values.map .truth) = .ok (some (contradiction first)) := by
  have hempty : (values.map Mark.truth).isEmpty = false := by simpa using hvalues
  have hcontains : (values.map Mark.truth).contains (.truth true) = false := by simpa using hfalse
  rw [synthesize]
  simp only [hempty, hcontains, Bool.not_false, Bool.false_eq_true, if_false, if_true,
    contradictionIn_eq hfirst]
  rfl

theorem realizes_contradiction {first : String} {rest : List String}
    (hlength : values.length = 2 ^ (first :: rest).length) (hfalse : true ∉ values) :
    (contradiction first).Realizes (first :: rest) values := by
  refine Formula.realizes_of_eval (.single (.join (.single trivial) (.single trivial))) ?_ hlength ?_
  · simp [contradiction, Formula.leafVariables]
  · intro m b h
    have hb : b = false := by
      rw [← Bool.not_eq_true]
      rintro rfl
      exact hfalse (List.of_mem_zip h).2
    simp [contradiction, Formula.eval, Connective.eval, hb]

end Tables

/-! ## The formula of a table as a text -/

/-- Texts joined by a connective, with new parentheses around what has been written so far. -/
def joinTexts (op : Connective) : List String → String
  | [] => ""
  | s :: ss => ss.foldl (fun t s => "(" ++ t ++ op.symbol ++ s ++ ")") s

/-- The clause of a valuation, written down. -/
def clauseText (m : Valuation) : String :=
  joinTexts .and (m.map fun e => if e.2 then e.1 else "~" ++ e.1)

/-- What a text is read as, written down again. -/
def rewritten (s : String) : String :=
  ((readText Connective.all s).1.getD .missing).text

/-- Strikes out pairs of negation signs from left to right. -/
def strikePairs : List Char → List Char
  | [] => []
  | [c] => [c]
  | c :: c' :: s => if c = '~' ∧ c' = '~' then strikePairs s else c :: strikePairs (c' :: s)

/-- The formula of a table, written down row by row. -/
def tableText (names : List String) (values : List Bool) : String :=
  if true ∈ values then
    let clauses := (trueRows names values).map fun m => rewritten (clauseText m)
    String.ofList (strikePairs (joinTexts .or clauses).toList)
  else "(" ++ names.headD "" ++ "&~" ++ names.headD "" ++ ")"

/-- Joining texts writes down the joined formulas. -/
theorem text_joinLeft {op : Connective} {fs : List Formula} {f : Formula}
    (h : joinLeft op fs = some f) : f.text = joinTexts op (fs.map Formula.text) := by
  cases fs with
  | nil => cases h
  | cons g gs =>
      obtain rfl := Option.some.inj h
      rw [List.map_cons, joinTexts, List.foldl_map]
      clear h
      induction gs generalizing g with
      | nil => rfl
      | cons g' gs ih => exact ih (.bin op g g')

theorem text_clause {m : Valuation} {f : Formula} (h : clause m = some f) : f.text = clauseText m := by
  have hliterals : ∀ e : String × Bool,
      (literal e.1 e.2).text = if e.2 then e.1 else "~" ++ e.1 := by
    rintro ⟨x, b⟩
    cases b <;> rfl
  rw [text_joinLeft h, clauseText, List.map_map]
  exact congrArg _ (List.map_congr_left fun e _ => hliterals e)

/-- Only the two signs of a pair are struck out. -/
theorem strikePairs_cons {c : Char} {s : List Char} (h : ¬ (c = '~' ∧ s.head? = some '~')) :
    strikePairs (c :: s) = c :: strikePairs s := by
  cases s with
  | nil => rfl
  | cons c' s =>
      rw [strikePairs, if_neg]
      rintro ⟨hc, hc'⟩
      exact h ⟨hc, by rw [hc']; rfl⟩

theorem strikePairs_append {s : List Char} (hs : '~' ∉ s) (t : List Char) :
    strikePairs (s ++ t) = s ++ strikePairs t := by
  induction s with
  | nil => rfl
  | cons c s ih =>
      have hc : c ≠ '~' := fun hc => hs (hc ▸ List.mem_cons_self)
      rw [List.cons_append, strikePairs_cons fun h => hc h.1, ih fun h => hs (List.mem_cons_of_mem c h)]
      rfl

theorem negationSign_notMem_of_isVariable {x : String} (hx : isVariable x = true) : '~' ∉ x.toList := by
  intro hmem
  rw [isVariable] at hx
  cases hlist : x.toList with
  | nil =>
      rw [hlist] at hmem
      cases hmem
  | cons c ds =>
      rw [hlist] at hx hmem
      simp only [Bool.and_eq_true, decide_eq_true_eq, List.all_eq_true] at hx
      obtain ⟨⟨-, hle⟩, hds⟩ := hx
      rcases List.mem_cons.1 hmem with rfl | hmem
      · exact absurd hle (by decide)
      · exact absurd (hds _ hmem) (by decide)

namespace Formula

/-- Nothing is struck out of a variable or a negated variable. -/
theorem IsLiteral.strikePairs_text {f : Formula} (hf : f.IsLiteral)
    (hvars : ∀ x ∈ f.leafVariables, isVariable x = true) (t : List Char) :
    strikePairs (f.text.toList ++ t) = f.text.toList ++ strikePairs t := by
  cases f with
  | var x => exact strikePairs_append (negationSign_notMem_of_isVariable (hvars x List.mem_cons_self)) t
  | neg g =>
      cases g with
      | var x =>
          have hx := hvars x List.mem_cons_self
          have hsign := negationSign_notMem_of_isVariable hx
          have hname : x.toList ≠ [] := text_ne_nil (f := var x) (d := Connective.all) hx
          have htext : (neg (var x)).text.toList = '~' :: x.toList := by simp [text]
          rw [htext, List.cons_append, strikePairs_cons, strikePairs_append hsign]
          · rfl
          · rintro ⟨-, hhead⟩
            rw [List.head?_append_of_ne_nil _ hname] at hhead
            exact hsign (List.mem_of_head? hhead)
      | _ => exact hf.elim
  | _ => exact hf.elim

/-- Joining leaves nothing to strike out. -/
theorem Joined.strikePairs_text {op : Connective} {P : Formula → Prop} {f : Formula}
    (hf : f.Joined op P)
    (hP : ∀ g, P g → (∀ x ∈ g.leafVariables, isVariable x = true) → ∀ t,
      strikePairs (g.text.toList ++ t) = g.text.toList ++ strikePairs t)
    (hvars : ∀ x ∈ f.leafVariables, isVariable x = true) (t : List Char) :
    strikePairs (f.text.toList ++ t) = f.text.toList ++ strikePairs t := by
  induction hf generalizing t with
  | single hg => exact hP _ hg hvars t
  | @join l r _ _ ihl ihr =>
      have hsymbol : '~' ∉ op.symbol.toList := by cases op <;> decide
      have htext : ∀ t, (bin op l r).text.toList ++ t =
          ['('] ++ (l.text.toList ++ (op.symbol.toList ++ (r.text.toList ++ ([')'] ++ t)))) := by
        simp [text]
      rw [htext, htext, strikePairs_append (by decide),
        ihl fun x hx => hvars x (List.mem_append_left _ hx), strikePairs_append hsymbol,
        ihr fun x hx => hvars x (List.mem_append_right _ hx), strikePairs_append (by decide)]

/-- Nothing is struck out of a disjunctive normal form. -/
theorem IsDisjunctive.strikePairs_text {f : Formula} (hf : f.IsDisjunctive)
    (hvars : ∀ x ∈ f.leafVariables, isVariable x = true) :
    strikePairs f.text.toList = f.text.toList := by
  have h := Joined.strikePairs_text hf
    (fun g hg => Joined.strikePairs_text hg fun _ => IsLiteral.strikePairs_text) hvars []
  rwa [List.append_nil, strikePairs, List.append_nil] at h

end Formula

section TableText

variable {names : List String} {values : List Bool} {f : Formula}

/-- Clauses are read as they are written. -/
theorem rewritten_clauseText (hne : names ≠ []) (hnames : ∀ x ∈ names, isVariable x = true)
    {m : Valuation} (hm : m ∈ Valuation.all names) :
    (clause m).map Formula.text = some (rewritten (clauseText m)) := by
  obtain ⟨g, hg⟩ := exists_clause_of_mem_all hne hm
  have hdescribes := Valuation.describes_of_clause hg
  have hwell : g.WellFormed Connective.all :=
    Formula.IsDisjunctive.wellFormed (.single hdescribes.conjunction)
      fun x hx => isVariable_of_mem_all hnames hm x (hdescribes.leafVariables hx)
  rw [hg, rewritten, ← text_clause hg, readText_text hwell]
  rfl

/-- The text of a table with a true row is that of the joined clauses. -/
theorem tableText_of_trueRows (hne : names ≠ []) (hnames : ∀ x ∈ names, isVariable x = true)
    (htrue : true ∈ values)
    (hf : joinLeft .or ((trueRows names values).filterMap clause) = some f) :
    tableText names values = f.text := by
  have hvars : ∀ x ∈ f.leafVariables, isVariable x = true :=
    fun x hx => hnames x (leafVariables_of_trueRows hf hx)
  have hclauses : ((trueRows names values).filterMap clause).map Formula.text =
      (trueRows names values).map fun m => rewritten (clauseText m) := by
    rw [List.map_filterMap, ← List.filterMap_eq_map]
    exact List.filterMap_congr fun m hm =>
      rewritten_clauseText hne hnames (mem_all_of_mem_trueRows hm)
  rw [tableText, if_pos htrue]
  simp only
  rw [← hclauses, ← text_joinLeft hf, (isDisjunctive_of_trueRows hf).strikePairs_text hvars,
    String.ofList_toList]

/-- A formula that realizes a table is read as it is written. -/
theorem Formula.Realizes.readText_text (h : f.Realizes names values)
    (hnames : ∀ x ∈ names, isVariable x = true) :
    readText Connective.all f.text = (some f, "") :=
  Propositional.readText_text
    (h.disjunctive.wellFormed fun x hx => hnames x (h.vars (mem_vars.2 hx)))

end TableText

/-! ## Every table is realized -/

/-- For variables that are all different, at least one, and a truth value for every valuation of them, a formula is
synthesized. It is a disjunction of conjunctions of literals in these variables, its values in all the valuations are
the given ones in their order, and it is what the text of the table is read as. -/
theorem synthesize_realizes {names : List String} {values : List Bool} (hne : names ≠ [])
    (hnodup : names.Nodup) (hnames : ∀ x ∈ names, isVariable x = true)
    (hlength : values.length = 2 ^ names.length) :
    ∃ f, synthesize names (values.map .truth) = .ok (some f) ∧ f.Realizes names values ∧
      readText Connective.all (tableText names values) = (some f, "") := by
  by_cases htrue : true ∈ values
  · obtain ⟨f, hf⟩ := exists_joinLeft_trueRows hne hlength htrue
    have hrealizes := realizes_of_trueRows hf hne hnodup hlength
    refine ⟨f, by rw [synthesize_eq_joinLeft hne hnames htrue, hf], hrealizes, ?_⟩
    rw [tableText_of_trueRows hne hnames htrue hf, hrealizes.readText_text hnames]
  · obtain ⟨first, rest, rfl⟩ := List.exists_cons_of_ne_nil hne
    have hvalues : values ≠ [] := by
      rintro rfl
      exact absurd hlength.symm (Nat.two_pow_pos _).ne'
    have hrealizes := realizes_contradiction hlength htrue
    refine ⟨contradiction first,
      synthesize_eq_contradiction (hnames first List.mem_cons_self) hvalues htrue, hrealizes, ?_⟩
    rw [tableText, if_neg htrue, List.headD_cons, ← text_contradiction,
      hrealizes.readText_text hnames]

/-- The table of equivalence, for variables that are not in ascending order. -/
theorem synthesize_realizes_equivalence :
    let names := ["q", "p1"]
    let values := [true, false, false, true]
    Valuation.all names = [[("q", false), ("p1", false)], [("q", false), ("p1", true)],
        [("q", true), ("p1", false)], [("q", true), ("p1", true)]] ∧
      ∃ f, synthesize names (values.map .truth) = .ok (some f) ∧ f.Realizes names values ∧
        readText Connective.all (tableText names values) = (some f, "") := by
  intro names values
  have hnames : ∀ x ∈ names, isVariable x = true := by
    simp only [names, List.forall_mem_cons]
    exact ⟨by decide, by decide, by simp⟩
  exact ⟨by decide, synthesize_realizes (by simp [names]) (by decide) hnames rfl⟩

end FormalLogic.Propositional
