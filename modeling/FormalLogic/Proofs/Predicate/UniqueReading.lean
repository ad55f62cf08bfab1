import FormalLogic.Predicate.Construction
import FormalLogic.Proofs.Predicate.FormulaReading

/-!
# Texts determine terms and formulas

Terms and formulas are compared by their texts. This is the same as comparing the trees, with names of any
letters, digits and numerals, also those that the reader would cut short: the first character of a text tells
the kind of tree, a name ends where a sign stands, and behind every part stands a sign. So a text at the front
of another one is that of one tree only (`Term.WellFormed.determined`, `Formula.text_append_inj`).

The trees in question are those that can be made node by node of their roots and parts (`Term.Built`,
`Formula.Built`), which are the well-formed ones.
-/

namespace FormalLogic.Predicate

variable {rest rest' : List Char}

/-! ## Names -/

/-- A name ends where no letter, digit or numeral follows. -/
theorem name_append_inj {n n' : List Char} (hn : ∀ c ∈ n, Text.isAlphanumeric c = true)
    (hn' : ∀ c ∈ n', Text.isAlphanumeric c = true) (hrest : Stops rest) (hrest' : Stops rest')
    (h : n ++ rest = n' ++ rest') : n = n' ∧ rest = rest' := by
  have htake : ∀ {n rest : List Char}, (∀ c ∈ n, Text.isAlphanumeric c = true) → Stops rest →
      (n ++ rest).takeWhile Text.isAlphanumeric = n := by
    intro n rest hn hrest
    have hstop : rest.takeWhile Text.isAlphanumeric = [] := by
      cases rest with
      | nil => rfl
      | cons d rest => rw [List.takeWhile_cons_of_neg (by simp [hrest d rfl])]
    rw [List.takeWhile_append_of_pos hn, hstop, List.append_nil]
  have hname : n = n' := by rw [← htake hn hrest, h, htake hn' hrest']
  subst hname
  exact ⟨rfl, List.append_cancel_left h⟩

/-- No function is a constant or variable. -/
theorem ne_of_isFunction {a b : String} (ha : isReplaceable a = true) (hb : isFunction b = true) :
    a ≠ b := by
  rintro rfl
  have hconstant : isNameWith startsConstant a = false :=
    isNameWith_eq_false hb fun c hc => (starts_of_startsFunction hc).2.1
  have hvariable : isNameWith startsVariable a = false :=
    isNameWith_eq_false hb fun c hc => (starts_of_startsFunction hc).2.2
  have hhole : (a == hole) = false := by
    refine beq_eq_false_iff_ne.2 ?_
    rintro rfl
    cases hb
  rw [isReplaceable, isConstant, hconstant, hhole, isVariable, hvariable] at ha
  cases ha

/-! ## Terms -/

namespace Term

/-- What is written behind the name at the root of a term. -/
def behindRoot : Term → List Char
  | app _ ts => '(' :: ((",".intercalate (texts ts)).toList ++ [')'])
  | _ => []

variable {t u : Term}

theorem toList_text (ht : t.WellFormed) : t.text.toList = t.root.toList ++ t.behindRoot := by
  cases t with
  | const name => simp [text, root, behindRoot]
  | var name => simp [text, root, behindRoot]
  | app name ts => simp [text, root, behindRoot]
  | missing => exact ht.elim

/-- The root of a term is the hole, or a name of letters, digits and numerals. -/
theorem root_cases (ht : t.WellFormed) :
    t = const hole ∨ t.root.toList ≠ [] ∧ ∀ c ∈ t.root.toList, Text.isAlphanumeric c = true := by
  have hnamed : ∀ {first : Char → Bool} {name : String}, isNameWith first name = true →
      name.toList ≠ [] ∧ ∀ c ∈ name.toList, Text.isAlphanumeric c = true := by
    intro first name h
    obtain ⟨c, cs, hlist, -, hall⟩ := exists_of_isNameWith h
    exact ⟨by simp [hlist], hlist ▸ hall⟩
  cases t with
  | const name =>
      rcases Bool.or_eq_true_iff.1 ht with hname | hname
      · exact .inr (hnamed hname)
      · exact .inl (by rw [eq_of_beq hname])
  | var name => exact .inr (hnamed ht)
  | app name ts => exact .inr (hnamed ht.1)
  | missing => exact ht.elim

theorem stops_behindRoot (t : Term) (hrest : Stops rest) : Stops (t.behindRoot ++ rest) := by
  cases t with
  | app name ts => exact stops_cons (by decide) _
  | const name => exact hrest
  | var name => exact hrest
  | missing => exact hrest

/-- The root of a term is read off its text. -/
theorem root_append_inj (ht : t.WellFormed) (hu : u.WellFormed) (hrest : Stops rest)
    (hrest' : Stops rest') (h : t.text.toList ++ rest = u.text.toList ++ rest') :
    t.root = u.root ∧ t.behindRoot ++ rest = u.behindRoot ++ rest' := by
  rw [toList_text ht, toList_text hu, List.append_assoc, List.append_assoc] at h
  -- the hole is no letter, digit or numeral, so no other name begins with it
  have hhole : ∀ {n s s' : List Char}, n ≠ [] → (∀ c ∈ n, Text.isAlphanumeric c = true) →
      '_' :: s ≠ n ++ s' := by
    intro n s s' hne hall heq
    obtain ⟨c, cs, rfl⟩ := List.exists_cons_of_ne_nil hne
    obtain ⟨rfl, -⟩ := List.cons.inj heq
    exact absurd (hall '_' List.mem_cons_self) (by decide)
  rcases root_cases ht with rfl | ⟨hne, hall⟩
  · rcases root_cases hu with rfl | ⟨hne', hall'⟩
    · exact ⟨rfl, (List.cons.inj h).2⟩
    · exact absurd h (hhole hne' hall')
  · rcases root_cases hu with rfl | ⟨hne', hall'⟩
    · exact absurd h.symm (hhole hne hall)
    · obtain ⟨hroot, hbehind⟩ := name_append_inj hall hall' (stops_behindRoot t hrest)
        (stops_behindRoot u hrest') h
      exact ⟨String.toList_injective hroot, hbehind⟩

/-- A term is determined by its text, whatever follows it that does not prolong a name. -/
def Determined (t : Term) : Prop :=
  ∀ {u : Term} {rest rest' : List Char}, u.WellFormed → Stops rest → Stops rest' →
    t.text.toList ++ rest = u.text.toList ++ rest' → t = u ∧ rest = rest'

/-- Further arguments are determined, if each of them is. -/
theorem further_append_inj {ts us : List Term} (hts : ∀ t ∈ ts, t.Determined)
    (hus : ∀ u ∈ us, u.WellFormed)
    (h : (ts.flatMap fun t => ',' :: t.text.toList) ++ ')' :: rest =
      (us.flatMap fun u => ',' :: u.text.toList) ++ ')' :: rest') : ts = us ∧ rest = rest' := by
  induction ts generalizing us with
  | nil =>
      cases us with
      | nil => exact ⟨rfl, (List.cons.inj h).2⟩
      | cons u us => exact absurd (List.cons.inj h).1 (by decide)
  | cons t ts ih =>
      cases us with
      | nil => exact absurd (List.cons.inj h).1 (by decide)
      | cons u us =>
          obtain ⟨ht, hts⟩ := List.forall_mem_cons.1 hts
          obtain ⟨hu, hus'⟩ := List.forall_mem_cons.1 hus
          simp only [List.flatMap_cons, List.cons_append, List.append_assoc] at h
          obtain ⟨htu, hbehind⟩ := ht hu (stops_behind_argument ts rest) (stops_behind_argument us rest')
            (List.cons.inj h).2
          obtain ⟨htsus, hrest⟩ := ih hts hus' hbehind
          exact ⟨congrArg₂ List.cons htu htsus, hrest⟩

/-- Arguments in brackets are determined, if each of them is. -/
theorem texts_append_inj {ts us : List Term} (hts : ∀ t ∈ ts, t.WellFormed ∧ t.Determined)
    (hus : ∀ u ∈ us, u.WellFormed)
    (h : (",".intercalate (texts ts)).toList ++ ')' :: rest =
      (",".intercalate (texts us)).toList ++ ')' :: rest') : ts = us ∧ rest = rest' := by
  -- a term does not begin with the closing bracket
  have hbracket : ∀ {t : Term} {s s' : List Char}, t.WellFormed → ')' :: s ≠ t.text.toList ++ s' := by
    intro t s s' ht heq
    obtain ⟨c, cs, hlist, hc⟩ := exists_toList_text ht
    rw [hlist] at heq
    obtain ⟨rfl, -⟩ := List.cons.inj heq
    exact absurd hc (by decide)
  cases ts with
  | nil =>
      cases us with
      | nil => exact ⟨rfl, (List.cons.inj h).2⟩
      | cons u us =>
          rw [toList_intercalate_texts, List.append_assoc] at h
          exact absurd h (hbracket (hus u List.mem_cons_self))
  | cons t ts =>
      obtain ⟨ht, hts⟩ := List.forall_mem_cons.1 hts
      rw [toList_intercalate_texts, List.append_assoc] at h
      cases us with
      | nil => exact absurd h.symm (hbracket ht.1)
      | cons u us =>
          obtain ⟨hu, hus'⟩ := List.forall_mem_cons.1 hus
          rw [toList_intercalate_texts, List.append_assoc] at h
          obtain ⟨htu, hbehind⟩ := ht.2 hu (stops_behind_argument ts rest) (stops_behind_argument us rest') h
          obtain ⟨htsus, hrest⟩ := further_append_inj (fun t h => (hts t h).2) hus' hbehind
          exact ⟨congrArg₂ List.cons htu htsus, hrest⟩

/-- Terms with the same root are the same, unless they apply a function. -/
theorem eq_or_app_of_root (ht : t.WellFormed) (hu : u.WellFormed) (h : t.root = u.root) :
    t = u ∨ ∃ name ts us, t = app name ts ∧ u = app name us := by
  have hconst : ∀ {name : String}, isConstant name = true → isReplaceable name = true := fun h =>
    Bool.or_eq_true_iff.2 (.inl h)
  have hvar : ∀ {name : String}, isVariable name = true → isReplaceable name = true := fun h =>
    Bool.or_eq_true_iff.2 (.inr h)
  cases t with
  | const a =>
      cases u with
      | const b => exact .inl (congrArg const h)
      | var b => exact absurd h (ne_of_isConstant ht hu)
      | app b us => exact absurd h (ne_of_isFunction (hconst ht) hu.1)
      | missing => exact hu.elim
  | var a =>
      cases u with
      | const b => exact absurd h.symm (ne_of_isConstant hu ht)
      | var b => exact .inl (congrArg var h)
      | app b us => exact absurd h (ne_of_isFunction (hvar ht) hu.1)
      | missing => exact hu.elim
  | app a ts =>
      cases u with
      | const b => exact absurd h.symm (ne_of_isFunction (hconst hu) ht.1)
      | var b => exact absurd h.symm (ne_of_isFunction (hvar hu) ht.1)
      | app b us => exact .inr ⟨a, ts, us, rfl, congrArg (app · us) h.symm⟩
      | missing => exact hu.elim
  | missing => exact ht.elim

/-- A term is determined by its text: the root tells its kind, and behind it stand the arguments. -/
theorem WellFormed.determined (ht : t.WellFormed) : t.Determined := by
  induction t with
  | missing => exact ht.elim
  | const name =>
      intro u rest rest' hu hrest hrest' h
      obtain ⟨hroot, hbehind⟩ := root_append_inj ht hu hrest hrest' h
      rcases eq_or_app_of_root ht hu hroot with rfl | ⟨_, _, _, happ, -⟩
      · exact ⟨rfl, hbehind⟩
      · cases happ
  | var name =>
      intro u rest rest' hu hrest hrest' h
      obtain ⟨hroot, hbehind⟩ := root_append_inj ht hu hrest hrest' h
      rcases eq_or_app_of_root ht hu hroot with rfl | ⟨_, _, _, happ, -⟩
      · exact ⟨rfl, hbehind⟩
      · cases happ
  | app name ts ih =>
      intro u rest rest' hu hrest hrest' h
      obtain ⟨hroot, hbehind⟩ := root_append_inj ht hu hrest hrest' h
      rcases eq_or_app_of_root ht hu hroot with rfl | ⟨_, _, us, happ, rfl⟩
      · exact ⟨rfl, List.append_cancel_left hbehind⟩
      · obtain ⟨rfl, rfl⟩ := app.inj happ
        simp only [behindRoot, List.cons_append, List.append_assoc, List.nil_append] at hbehind
        have hargs : ∀ t ∈ ts, t.WellFormed ∧ t.Determined := fun t htmem =>
          ⟨ht.args t htmem, ih t htmem (ht.args t htmem)⟩
        obtain ⟨htsus, hrest⟩ := texts_append_inj hargs hu.args (List.cons.inj hbehind).2
        exact ⟨congrArg (app name) htsus, hrest⟩

/-- Different terms have different texts. -/
theorem text_inj (ht : t.WellFormed) (hu : u.WellFormed) : t.text = u.text ↔ t = u := by
  refine ⟨fun h => ?_, congrArg text⟩
  exact (ht.determined hu stops_nil stops_nil (by rw [h])).1

end Term

/-! ## Formulas -/

namespace Formula

/-- The kinds of formulas. -/
inductive Kind
  | equality
  | relation
  | negation
  | combination
  | quantification
  deriving DecidableEq

/-- The kind of formula that begins with a character. -/
def Kind.ofFirst (c : Char) : Option Kind :=
  if startsTerm c then some equality
  else if startsRelation c then some relation
  else if c = '~' then some negation
  else if c = '(' then some combination
  else if c = 'A' ∨ c = 'E' then some quantification
  else none

/-- The kind of a formula. -/
def kind? : Formula → Option Kind
  | equal _ _ => some .equality
  | rel _ _ => some .relation
  | neg _ => some .negation
  | bin _ _ _ => some .combination
  | quant _ _ _ => some .quantification
  | bare _ => none

variable {f g : Formula}

/-- The first character of a text tells the kind of the formula. -/
theorem exists_toList_text (hf : f.WellFormed) :
    ∃ c s, f.text.toList = c :: s ∧ Kind.ofFirst c = f.kind? := by
  cases f with
  | equal l r =>
      obtain ⟨c, s, hlist, hc⟩ := Term.exists_toList_text hf.1
      refine ⟨c, s ++ '=' :: r.text.toList, by rw [toList_text_equal, hlist, List.cons_append], ?_⟩
      rw [Kind.ofFirst, if_pos hc, kind?]
  | rel name ts =>
      obtain ⟨c, cs, hlist, hc, -⟩ := exists_of_isNameWith hf.1
      refine ⟨c, _, by rw [toList_text_rel, hlist, List.cons_append], ?_⟩
      rw [Kind.ofFirst, startsTerm_eq_false hc, if_neg Bool.false_ne_true, if_pos hc, kind?]
  | neg f => exact ⟨'~', _, toList_text_neg f, rfl⟩
  | bin op l r => exact ⟨'(', _, toList_text_bin l r op, rfl⟩
  | quant q x f =>
      cases q with
      | universal => exact ⟨'A', _, toList_text_quant f .universal x, rfl⟩
      | existential => exact ⟨'E', _, toList_text_quant f .existential x, rfl⟩
  | bare t => exact hf.elim

theorem kind?_eq (hf : f.WellFormed) (hg : g.WellFormed)
    (h : f.text.toList ++ rest = g.text.toList ++ rest') : f.kind? = g.kind? := by
  obtain ⟨c, s, hlist, hc⟩ := exists_toList_text hf
  obtain ⟨d, s', hlist', hd⟩ := exists_toList_text hg
  rw [hlist, hlist'] at h
  rw [← hc, ← hd, (List.cons.inj h).1]

theorem symbol_append_inj {op op' : Connective} {s s' : List Char}
    (h : op.symbol.toList ++ s = op'.symbol.toList ++ s') : op = op' ∧ s = s' := by
  have hread := readConnective_symbol_append op s
  rw [h, readConnective_symbol_append op' s'] at hread
  exact Prod.mk.inj (Except.ok.inj hread.symm)

theorem quantifier_append_inj {q q' : Quantifier} {s s' : List Char}
    (h : q.symbol.toList ++ s = q'.symbol.toList ++ s') : q = q' ∧ s = s' := by
  obtain ⟨c, -, hsymbol, hq⟩ := q.exists_symbol
  obtain ⟨c', -, hsymbol', hq'⟩ := q'.exists_symbol
  rw [hsymbol, hsymbol'] at h
  obtain ⟨rfl, hs⟩ := List.cons.inj h
  exact ⟨Option.some.inj (hq.symm.trans hq'), hs⟩

/-- A formula at the front of a text is the only one there. -/
theorem text_append_inj (hf : f.WellFormed) (hg : g.WellFormed) (hrest : Stops rest)
    (hrest' : Stops rest') (h : f.text.toList ++ rest = g.text.toList ++ rest') :
    f = g ∧ rest = rest' := by
  have hnamed : ∀ {first : Char → Bool} {name : String}, isNameWith first name = true →
      ∀ c ∈ name.toList, Text.isAlphanumeric c = true := by
    intro first name hname
    obtain ⟨c, cs, hlist, -, hall⟩ := exists_of_isNameWith hname
    exact hlist ▸ hall
  induction f generalizing g rest rest' with
  | equal l r =>
      cases g with
      | equal l' r' =>
          simp only [toList_text_equal, List.append_assoc, List.cons_append] at h
          obtain ⟨hl, hbehind⟩ := hf.1.determined hg.1 (stops_cons (by decide) _)
            (stops_cons (by decide) _) h
          obtain ⟨hr, hrest⟩ := hf.2.determined hg.2 hrest hrest' (List.cons.inj hbehind).2
          exact ⟨congrArg₂ equal hl hr, hrest⟩
      | _ => cases kind?_eq hf hg h
  | rel name ts =>
      cases g with
      | rel name' us =>
          simp only [toList_text_rel, List.append_assoc, List.cons_append, List.nil_append] at h
          obtain ⟨hname, hbehind⟩ := name_append_inj (hnamed hf.1) (hnamed hg.1)
            (stops_cons (by decide) _) (stops_cons (by decide) _) h
          obtain ⟨hargs, hrest⟩ := Term.texts_append_inj
            (fun t ht => ⟨hf.2 t ht, (hf.2 t ht).determined⟩) hg.2 (List.cons.inj hbehind).2
          exact ⟨congrArg₂ rel (String.toList_injective hname) hargs, hrest⟩
      | _ => cases kind?_eq hf hg h
  | neg f ih =>
      cases g with
      | neg g =>
          simp only [toList_text_neg, List.cons_append] at h
          obtain ⟨hfg, hrest⟩ := ih (g := g) hf hg hrest hrest' (List.cons.inj h).2
          exact ⟨congrArg neg hfg, hrest⟩
      | _ => cases kind?_eq hf hg h
  | bin op l r ihl ihr =>
      cases g with
      | bin op' l' r' =>
          simp only [toList_text_bin, List.append_assoc, List.cons_append, List.nil_append] at h
          obtain ⟨hl, hbehind⟩ := ihl hf.1 hg.1 (stops_symbol op _) (stops_symbol op' _) (List.cons.inj h).2
          obtain ⟨rfl, hoperand⟩ := symbol_append_inj hbehind
          obtain ⟨hr, hbracket⟩ := ihr hf.2 hg.2 (stops_cons (by decide) _) (stops_cons (by decide) _) hoperand
          exact ⟨congrArg₂ (bin op) hl hr, (List.cons.inj hbracket).2⟩
      | _ => cases kind?_eq hf hg h
  | quant q x f ih =>
      cases g with
      | quant q' y g =>
          simp only [toList_text_quant, List.append_assoc, List.cons_append, List.nil_append] at h
          obtain ⟨rfl, hvariable⟩ := quantifier_append_inj h
          obtain ⟨hname, hbehind⟩ := name_append_inj (hnamed hf.1) (hnamed hg.1)
            (stops_cons (by decide) _) (stops_cons (by decide) _) hvariable
          obtain ⟨hfg, hbracket⟩ := ih hf.2 hg.2 (stops_cons (by decide) _) (stops_cons (by decide) _)
            (List.cons.inj hbehind).2
          exact ⟨congrArg₂ (quant q) (String.toList_injective hname) hfg, (List.cons.inj hbracket).2⟩
      | _ => cases kind?_eq hf hg h
  | bare t => exact hf.elim

/-- Different formulas have different texts. -/
theorem text_inj (hf : f.WellFormed) (hg : g.WellFormed) : f.text = g.text ↔ f = g := by
  refine ⟨fun h => ?_, congrArg text⟩
  exact (text_append_inj hf hg stops_nil stops_nil (by rw [h])).1

end Formula

/-! ## Trees that can be built -/

/-- A term that is made of a root and terms that were made before. -/
inductive Term.Built : Term → Prop
  | make {root : String} {arguments : Option (List Term)} {t : Term}
      (hargs : ∀ ts, arguments = some ts → ∀ u ∈ ts, u.Built)
      (h : Term.make root arguments = .ok t) : t.Built

/-- A formula that is made of a root and parts that were made before. -/
inductive Formula.Built : Formula → Prop
  | atomic {root : String} {ts : List Term} {f : Formula} (hargs : ∀ t ∈ ts, t.Built)
      (h : make root (.terms ts) .missing = .ok f) : f.Built
  | unary {root : String} {g f : Formula} (hg : g.Built)
      (h : make root (.formula g) .missing = .ok f) : f.Built
  | binary {root : String} {l r f : Formula} (hl : l.Built) (hr : r.Built)
      (h : make root (.formula l) r = .ok f) : f.Built
  | quantified {root x : String} {g f : Formula} (hg : g.Built)
      (h : make root (.name x) g = .ok f) : f.Built

namespace Term

theorem leaf_inversion {name : String} {t : Term} (h : leaf name = .ok t) :
    t = const name ∧ isConstant name = true ∨ t = var name ∧ isVariable name = true := by
  obtain ⟨b, hb, h⟩ := bind_eq_ok.1 h
  rw [checkName, ite_error_eq_ok, Except.ok.injEq] at hb
  split at h
  · rename_i hconstant
    exact .inl ⟨(pure_eq_ok.1 h).symm, hb.2.trans hconstant⟩
  · split at h
    · rename_i hvariable
      exact .inr ⟨(pure_eq_ok.1 h).symm, hvariable⟩
    · cases h

/-- What a root and arguments can make up. -/
theorem make_inversion {root : String} {arguments : Option (List Term)} {t : Term}
    (h : make root arguments = .ok t) :
    t = const root ∧ isConstant root = true ∨ t = var root ∧ isVariable root = true ∨
      ∃ ts, arguments = some ts ∧ ts ≠ [] ∧ t = app root ts ∧ isFunction root = true := by
  obtain ⟨b, -, h⟩ := bind_eq_ok.1 h
  split at h
  · obtain ⟨-, -, h⟩ := bind_eq_ok.1 h
    exact (leaf_inversion h).imp_right .inl
  · obtain ⟨_, hname, h⟩ := bind_eq_ok.1 h
    rcases arguments with _ | _ | ⟨u, ts⟩
    · cases h
    · cases h
    · exact .inr (.inr ⟨u :: ts, rfl, by simp, (pure_eq_ok.1 h).symm, require_eq_ok.1 hname⟩)

theorem make_function {name : String} (hname : isFunction name = true) {ts : List Term} (hts : ts ≠ []) :
    make name (some ts) = .ok (app name ts) := by
  have hreplaceable : checkName isReplaceable name = .ok false := by
    rw [checkName_of_name rfl hname, Except.ok.injEq, Bool.eq_false_iff]
    exact fun h => ne_of_isFunction h hname rfl
  obtain ⟨t, ts, rfl⟩ := List.exists_cons_of_ne_nil hts
  simp [make, hreplaceable, hname]

/-- The terms that can be made are the well-formed ones. -/
theorem built_iff {t : Term} : t.Built ↔ t.WellFormed := by
  constructor
  · intro h
    induction h with
    | make hargs h ih =>
        rcases make_inversion h with ⟨rfl, hname⟩ | ⟨rfl, hname⟩ | ⟨ts, harguments, hne, rfl, hname⟩
        · exact hname
        · exact hname
        · exact ⟨hname, hne, allWellFormed_iff.2 (ih ts harguments)⟩
  · intro ht
    induction t with
    | const name => exact .make (by simp) (make_constant ht)
    | var name => exact .make (by simp) (make_variable ht)
    | app name ts ih =>
        refine .make ?_ (make_function ht.1 ht.2.1)
        rintro _ ⟨⟩ u hu
        exact ih u hu (ht.args u hu)
    | missing => exact ht.elim

end Term

namespace Formula

section Making

variable {root x : String} {ts : List Term} {g further f : Formula}

theorem present_inversion (h : g.present = .ok f) : f = g ∧ g.isMissing = false := by
  rw [present, ite_error_eq_ok, Except.ok.injEq, Bool.not_eq_true] at h
  exact ⟨h.2.symm, h.1⟩

/-- A root and terms can make up an equality or a relation. -/
theorem make_terms_inversion (h : make root (.terms ts) further = .ok f) :
    (∃ l r, ts = [l, r] ∧ f = equal l r) ∨ f = rel root ts ∧ isRelation root = true := by
  unfold make at h
  split at h
  · split at h
    · rename_i l r hterms
      exact .inl ⟨l, r, Operand.terms.inj hterms, (pure_eq_ok.1 h).symm⟩
    · cases h
  · rw [bind_eq_ok] at h
    obtain ⟨b, hb, h⟩ := h
    rw [checkName, ite_error_eq_ok, Except.ok.injEq] at hb
    split at h
    · rename_i hrelation
      split at h
      · rename_i ts' hterms
        obtain rfl := Operand.terms.inj hterms
        exact .inr ⟨(pure_eq_ok.1 h).symm, hb.2.trans hrelation⟩
      · cases h
    · split at h
      · cases h
      · split at h <;> cases h

/-- A root and a formula can make up a negation or, with a further formula, a combination. -/
theorem make_formula_inversion (h : make root (.formula g) further = .ok f) :
    f = neg g ∨ ∃ op, f = bin op g further ∧ further.isMissing = false := by
  unfold make at h
  split at h
  · cases h
  · rw [bind_eq_ok] at h
    obtain ⟨b, -, h⟩ := h
    split at h
    · cases h
    · split at h
      · split at h
        · rename_i g' hoperand
          obtain rfl := Operand.formula.inj hoperand
          simp only [bind_eq_ok, pure_eq_ok] at h
          obtain ⟨g', hg', rfl⟩ := h
          exact .inl (congrArg neg (present_inversion hg').1)
        · cases h
      · split at h
        · rename_i op _
          simp only [bind_eq_ok, pure_eq_ok] at h
          obtain ⟨l, hl, r, hr, rfl⟩ := h
          obtain ⟨rfl, -⟩ := present_inversion hl
          obtain ⟨rfl, hgiven⟩ := present_inversion hr
          exact .inr ⟨op, rfl, hgiven⟩
        · cases h
        · cases h

/-- A root, a name and a formula can make up a quantification. -/
theorem make_name_inversion (h : make root (.name x) further = .ok f) :
    ∃ q, f = quant q x further ∧ isVariable x = true := by
  unfold make at h
  split at h
  · cases h
  · rw [bind_eq_ok] at h
    obtain ⟨b, -, h⟩ := h
    split at h
    · cases h
    · split at h
      · cases h
      · split at h
        · cases h
        · rename_i q _ _
          simp only [bind_eq_ok, pure_eq_ok, require_eq_ok, checkName, ite_error_eq_ok, Except.ok.injEq] at h
          obtain ⟨_, ⟨-, rfl⟩, -, hname, g, hg, rfl⟩ := h
          obtain ⟨rfl, -⟩ := present_inversion hg
          exact ⟨q, rfl, hname⟩
        · cases h

theorem make_rel (hname : isRelation root = true) : make root (.terms ts) .missing = .ok (rel root ts) := by
  have hequality : isEquality root = false := by
    refine beq_eq_false_iff_ne.2 ?_
    rintro rfl
    cases hname
  have hrelation : checkName isRelation root = .ok true := checkName_eq_ok rfl hname
  simp [make, hequality, hrelation]

theorem make_neg (hg : g.WellFormed) : make "~" (.formula g) .missing = .ok (neg g) := by
  change (do return neg (← g.present)) = Except.ok (neg g)
  rw [hg.present_eq_ok, ok_bind]
  rfl

theorem make_bin (op : Connective) (hg : g.WellFormed) (hfurther : further.WellFormed) :
    make op.symbol (.formula g) further = .ok (bin op g further) := by
  have hmake : make op.symbol (.formula g) further =
      (do return bin op (← g.present) (← further.present)) := by
    cases op <;> rfl
  rw [hmake, hg.present_eq_ok, ok_bind, hfurther.present_eq_ok]
  rfl

theorem make_quant (q : Quantifier) (hx : isVariable x = true) (hfurther : further.WellFormed) :
    make q.symbol (.name x) further = .ok (quant q x further) := by
  have hmake : make q.symbol (.name x) further = (do
      require (← checkName isVariable x) .wellFormed
      return quant q x (← further.present)) := by
    cases q <;> rfl
  rw [hmake, checkName_eq_ok rfl hx, ok_bind, require_true, ok_bind, hfurther.present_eq_ok]
  rfl

end Making

/-- The formulas that can be made are the well-formed ones. -/
theorem built_iff {f : Formula} : f.Built ↔ f.WellFormed := by
  constructor
  · intro h
    induction h with
    | atomic hargs h =>
        have hargs := fun t ht => Term.built_iff.1 (hargs t ht)
        rcases make_terms_inversion h with ⟨l, r, rfl, rfl⟩ | ⟨rfl, hname⟩
        · exact ⟨hargs l (by simp), hargs r (by simp)⟩
        · exact ⟨hname, hargs⟩
    | unary hg h ih =>
        rcases make_formula_inversion h with rfl | ⟨op, rfl, hgiven⟩
        · exact ih
        · cases hgiven
    | binary hl hr h ihl ihr =>
        rcases make_formula_inversion h with rfl | ⟨op, rfl, -⟩
        · exact ihl
        · exact ⟨ihl, ihr⟩
    | quantified hg h ih =>
        obtain ⟨q, rfl, hx⟩ := make_name_inversion h
        exact ⟨hx, ih⟩
  · intro hf
    induction f with
    | equal l r =>
        have hargs : ∀ t ∈ [l, r], t.Built := fun t ht => Term.built_iff.2 (hf.terms t ht)
        have hmake : make "=" (.terms [l, r]) .missing = .ok (equal l r) := rfl
        exact .atomic hargs hmake
    | rel name ts => exact .atomic (fun t ht => Term.built_iff.2 (hf.2 t ht)) (make_rel hf.1)
    | neg f ih => exact .unary (ih hf) (make_neg hf)
    | bin op l r ihl ihr => exact .binary (ihl hf.1) (ihr hf.2) (make_bin op hf.1 hf.2)
    | quant q x f ih => exact .quantified (ih hf.2) (make_quant q hf.1 hf.2)
    | bare t => exact hf.elim

end Formula

/-! ## Reading and comparing -/

/-- A term or formula that can be made, with names of letters and digits, is read back from its text, also if
further text stands behind it that does not prolong a name at its end; that text is left. Whatever their names,
terms that can be made are the same if their texts are, and so are formulas. -/
theorem trees_read_back :
    (∀ t : Term, t.Built → t.Legible → Term.parse t.text = .ok t ∧
      ∀ rest : String, Apart t.text.toList rest.toList → Term.readText (t.text ++ rest) = .ok (t, rest)) ∧
    (∀ f : Formula, f.Built → f.Legible → Formula.parse f.text = .ok f ∧
      ∀ rest : String, Apart f.text.toList rest.toList → Formula.readText (f.text ++ rest) = .ok (f, rest)) ∧
    (∀ t u : Term, t.Built → u.Built → (t.text = u.text ↔ t = u)) ∧
    ∀ f g : Formula, f.Built → g.Built → (f.text = g.text ↔ f = g) := by
  refine ⟨fun t ht hlegible => ?_, fun f hf hlegible => ?_, fun t u ht hu => ?_, fun f g hf hg => ?_⟩
  · have hwf := Term.built_iff.1 ht
    exact ⟨Term.parse_text hwf hlegible, fun rest => Term.readText_text_append hwf hlegible⟩
  · have hwf := Formula.built_iff.1 hf
    exact ⟨Formula.parse_text hwf hlegible, fun rest => Formula.readText_text_append hwf hlegible⟩
  · exact Term.text_inj (Term.built_iff.1 ht) (Term.built_iff.1 hu)
  · exact Formula.text_inj (Formula.built_iff.1 hf) (Formula.built_iff.1 hg)

/-- A formula that ends in the name of a variable is read back up to a bracket. -/
theorem trees_read_back_up_to_bracket :
    let f : Formula := .equal (.app "f" [.const "_", .var "x1"]) (.var "y1")
    f.text = "f(_,x1)=y1" ∧ Formula.readText "f(_,x1)=y1)z" = .ok (f, ")z") := by
  intro f
  have htext : f.text = "f(_,x1)=y1" := by decide
  have hwhole : f.text ++ ")z" = "f(_,x1)=y1)z" := by decide
  have hapart : Apart f.text.toList ")z".toList := (@stops_cons ')' (by decide) ['z']).apart _
  have hread := (trees_read_back.2.1 f (Formula.built_iff.2 (by decide)) (by decide)).2 ")z" hapart
  rw [hwhole] at hread
  exact ⟨htext, hread⟩

end FormalLogic.Predicate
