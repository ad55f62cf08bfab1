import FormalLogic.Proofs.Predicate.EqualityElimination.Sameness
import FormalLogic.Proofs.Predicate.QuantifierBlocks
import FormalLogic.Proofs.Predicate.Satisfaction
import Mathlib

/-!
# What is said of sameness

Where equality is replaced by a relation, axioms come with it: that the relation is reflexive, symmetric and
transitive, and that other relations do not tell apart what is the same. In a model, the first three say that
the relation is an equivalence of the elements (`Model.SameEquivalence`), and each of the others says that a
relation respects it (`Model.RespectsSame`).

The main statement is `Formula.isModelOf_allEqualitiesToSame`. Of a set of formulas, the relations that are
said to respect sameness are those of the last formula, and they must have arguments.
-/

namespace FormalLogic.Predicate

namespace Formula

/-! ## Equivalence -/

theorem sameAxioms_wellFormed : ∀ f ∈ sameAxioms, f.WellFormed := by decide

theorem isEqualityFree_sameAxioms : ∀ f ∈ sameAxioms, f.isEqualityFree = true := by decide

theorem truth_same {m : Model} {v : String → String} {s t : Term} :
    (same s t).truth m.interpretation v = true ↔
      m.Same (s.denote m.interpretation v) (t.denote m.interpretation v) :=
  Model.interpretation_rel

end Formula

open Formula

/-- Reflexivity, symmetry and transitivity are an equivalence. -/
theorem Model.holds_sameAxioms {m : Model} :
    (∀ f ∈ sameAxioms, m.Interprets f ∧ m.Holds f) ↔ m.SameEquivalence := by
  have hsentence : ∀ f ∈ sameAxioms, f.freeNames = [] := by decide
  have hholds : ∀ f ∈ sameAxioms, (m.Holds f ↔ f.truth m.interpretation (fun _ => "") = true) :=
    fun f hf => holds_iff_of_sentence (sameAxioms_wellFormed f hf) (hsentence f hf) _
  have hconstants : ∀ f ∈ sameAxioms, f.constantNames = [] := by decide
  have hfunctions : ∀ f ∈ sameAxioms, f.functionNodes = [] := by decide
  have hrelations : ∀ f ∈ sameAxioms, ∀ e, e ∈ f.relationNodes ↔ e = (sameName, 2) := by
    simp [sameAxioms, same, relationNodes]
  have hinterprets : ∀ f ∈ sameAxioms, (m.Interprets f ↔ Table.hasKey m.relations sameName = true ∧
      ∀ n, m.relationArity? sameName = some n → n = 2) := by
    intro f hf
    constructor
    · exact fun h => h.relations _ ((hrelations f hf _).2 rfl)
    · intro h
      refine ⟨by simp [hconstants f hf], by simp [hfunctions f hf], fun e he => ?_⟩
      rw [(hrelations f hf e).1 he]
      exact h
  have htruth : (∀ f ∈ sameAxioms, f.truth m.interpretation (fun _ => "") = true) ↔
      (∀ e ∈ m.domain, m.Same e e) ∧ (∀ d ∈ m.domain, ∀ e ∈ m.domain, m.Same e d → m.Same d e) ∧
        ∀ e ∈ m.domain, ∀ d ∈ m.domain, ∀ c ∈ m.domain, m.Same c d ∧ m.Same d e → m.Same c e := by
    simp only [sameAxioms, List.forall_mem_cons, truth_forAll, truth_imp, truth_conj, truth_same]
    simp [Term.denote]
  rw [forall₂_congr fun f hf => and_congr (hinterprets f hf) (hholds f hf)]
  constructor
  · intro h
    obtain ⟨hrefl, hsymm, htrans⟩ := htruth.1 fun f hf => (h f hf).2
    obtain ⟨hmeaning, hbinary⟩ := (h _ List.mem_cons_self).1
    exact ⟨hmeaning, hbinary, hrefl, fun d hd e he => hsymm e he d hd,
      fun c hc d hd e he hcd hde => htrans e he d hd c hc ⟨hcd, hde⟩⟩
  · intro h f hf
    refine ⟨⟨h.meaning, h.binary⟩, htruth.2 ⟨h.refl, fun d hd e he => h.symm e he d hd, ?_⟩ f hf⟩
    exact fun e he d hd c hc hcde => h.trans c hc d hd e he hcde.1 hcde.2

/-! ## Respect -/

namespace Formula

/-- The variables of the two tuples that are compared. -/
def comparedNames (n : Nat) : List String :=
  numbered "x" 1 n ++ numbered "y" 1 n

theorem isVariable_comparedNames {n : Nat} : ∀ x ∈ comparedNames n, isVariable x = true := by
  intro x hx
  rcases List.mem_append.1 hx with hx | hx
  · obtain ⟨k, -, rfl⟩ := List.mem_map.1 hx
    exact isVariable_name_of_starts rfl rfl k
  · obtain ⟨k, -, rfl⟩ := List.mem_map.1 hx
    exact isVariable_name_of_starts rfl rfl k

theorem nodup_comparedNames (n : Nat) : (comparedNames n).Nodup := by
  refine List.nodup_append.2 ⟨nodup_numbered "x" 1 n, nodup_numbered "y" 1 n, fun x hx y hy hxy => ?_⟩
  obtain ⟨i, -, rfl⟩ := List.mem_map.1 hx
  obtain ⟨j, -, rfl⟩ := List.mem_map.1 hy
  -- the letters differ
  have hlist := congrArg String.toList hxy
  rw [FreshNames.toList_name, FreshNames.toList_name] at hlist
  exact absurd (List.cons.inj hlist).1 (by decide)

/-- The elements of two tuples are the same, one by one. -/
def pairsSame (n : Nat) : List Formula :=
  ((numbered "x" 1 n).zip (numbered "y" 1 n)).map fun p => same (.var p.1) (.var p.2)

/-- If the elements of two tuples are the same, the relation passes from one to the other. -/
def respectBody (name : String) (n : Nat) (pairs : Formula) : Formula :=
  imp pairs (imp (rel name ((numbered "x" 1 n).map .var)) (rel name ((numbered "y" 1 n).map .var)))

/-- Respect is stated for relations with arguments. -/
theorem respectAxiom_eq_ok {name : String} {n : Nat} {g : Formula} : respectAxiom name n = .ok g ↔
    ∃ first others, pairsSame n = first :: others ∧
      g = forAllOf (comparedNames n) (respectBody name n (others.foldl conj first)) := by
  have hnames : ∀ letter, (((List.range n).map fun (i : Nat) => Text.decimal (i + 1)).map fun i => letter ++ i) =
      numbered letter 1 n := by
    intro letter
    rw [List.map_map]
    exact numbered_eq letter 1 n
  unfold respectAxiom
  simp only [hnames]
  rw [← pairsSame]
  cases pairsSame n with
  | nil => simp
  | cons first others =>
      change pure (forAllOf (comparedNames n) (respectBody name n (others.foldl conj first))) = Except.ok g ↔ _
      rw [pure_eq_ok]
      constructor
      · rintro rfl
        exact ⟨first, others, rfl, rfl⟩
      · rintro ⟨_, _, h, rfl⟩
        obtain ⟨rfl, rfl⟩ := List.cons.inj h
        rfl

theorem exists_respectAxiom {name : String} {n : Nat} :
    (∃ g, respectAxiom name n = .ok g) ↔ n ≠ 0 := by
  have hlength : (pairsSame n).length = n := by
    rw [pairsSame, List.length_map, List.length_zip, length_numbered, length_numbered, Nat.min_self]
  simp only [respectAxiom_eq_ok]
  constructor
  · rintro ⟨_, first, others, hpairs, -⟩ rfl
    rw [hpairs] at hlength
    cases hlength
  · intro hn
    obtain ⟨first, others, hpairs⟩ := List.exists_cons_of_length_pos (hlength ▸ Nat.pos_of_ne_zero hn)
    exact ⟨_, first, others, hpairs, rfl⟩

/-! ### Conjunctions -/

section Conjunctions

variable {first : Formula} {others : List Formula}

theorem truth_foldl_conj {I : Interpretation} {v : String → String} :
    (others.foldl conj first).truth I v = true ↔ ∀ f ∈ first :: others, f.truth I v = true := by
  induction others generalizing first with
  | nil => simp
  | cons g others ih => simp only [List.foldl_cons, ih, List.forall_mem_cons, truth_conj, and_assoc]

/-- What a conjunction has in common with its parts, it has if they all do. -/
theorem foldl_conj_of_forall {p : Formula → Prop} (hconj : ∀ {f g}, p f → p g → p (conj f g))
    (h : ∀ f ∈ first :: others, p f) : p (others.foldl conj first) := by
  induction others generalizing first with
  | nil => exact h first List.mem_cons_self
  | cons g others ih =>
      obtain ⟨hfirst, hg, hothers⟩ := by simpa only [List.forall_mem_cons] using h
      exact ih (List.forall_mem_cons.2 ⟨hconj hfirst hg, hothers⟩)

end Conjunctions

/-! ### The axiom -/

theorem forall_mem_pairsSame {n : Nat} {p : Formula → Prop} :
    (∀ f ∈ pairsSame n, p f) ↔
      ∀ q ∈ (numbered "x" 1 n).zip (numbered "y" 1 n), p (same (.var q.1) (.var q.2)) :=
  List.forall_mem_map

/-- The variables of the first and of the second tuple are among those that are compared. -/
theorem mem_comparedNames_of_zip {n : Nat} {q : String × String}
    (hq : q ∈ (numbered "x" 1 n).zip (numbered "y" 1 n)) : q.1 ∈ comparedNames n ∧ q.2 ∈ comparedNames n :=
  ⟨List.mem_append_left _ (List.of_mem_zip hq).1, List.mem_append_right _ (List.of_mem_zip hq).2⟩

/-- A formula over variables that are compared, with the relation and the one for equality only. -/
structure Compares (name : String) (n : Nat) (f : Formula) : Prop where
  wellFormed : f.WellFormed
  equalityFree : f.isEqualityFree = true
  terms : ∀ t ∈ f.terms, ∃ x, t = .var x
  freeNames : ∀ x ∈ f.freeNames, x ∈ comparedNames n
  relations : ∀ e ∈ f.relationNodes, e = (sameName, 2) ∨ e = (name, n)

namespace Compares

variable {name : String} {n : Nat}

theorem rel {root : String} {xs : List String} (hroot : isRelation root = true)
    (hxs : ∀ x ∈ xs, x ∈ comparedNames n)
    (hnode : (root, xs.length) = (sameName, 2) ∨ (root, xs.length) = (name, n)) :
    Compares name n (rel root (xs.map .var)) where
  wellFormed := ⟨hroot, List.forall_mem_map.2 fun x hx => isVariable_comparedNames x (hxs x hx)⟩
  equalityFree := rfl
  terms := List.forall_mem_map.2 fun x _ => ⟨x, rfl⟩
  freeNames := by
    have hwf : (Formula.rel root (xs.map Term.var)).WellFormed :=
      ⟨hroot, List.forall_mem_map.2 fun x hx => isVariable_comparedNames x (hxs x hx)⟩
    rw [freeNames_rel hwf]
    simpa [Term.variableLeaves] using hxs
  relations := by simpa [relationNodes] using hnode

theorem bin {op : Connective} {f g : Formula} (hf : Compares name n f) (hg : Compares name n g) :
    Compares name n (bin op f g) where
  wellFormed := ⟨hf.wellFormed, hg.wellFormed⟩
  equalityFree := by rw [isEqualityFree, hf.equalityFree, hg.equalityFree, Bool.and_self]
  terms := List.forall_mem_append.2 ⟨hf.terms, hg.terms⟩
  freeNames := List.forall_mem_append.2 ⟨hf.freeNames, hg.freeNames⟩
  relations := List.forall_mem_append.2 ⟨hf.relations, hg.relations⟩

/-- Bound by quantifiers, such a formula is a sentence without constants and functions. -/
theorem forAllOf {f : Formula} (h : Compares name n f) :
    Compares name n (forAllOf (comparedNames n) f) ∧ (forAllOf (comparedNames n) f).freeNames = [] := by
  have hsentence : (Formula.forAllOf (comparedNames n) f).freeNames = [] := by
    refine List.eq_nil_iff_forall_not_mem.2 fun x hx => ?_
    obtain ⟨hx, hnotMem⟩ := mem_freeNames_forAllOf.1 hx
    exact hnotMem (h.freeNames x hx)
  refine ⟨⟨forAllOf_wellFormed isVariable_comparedNames h.wellFormed, ?_, ?_, ?_, ?_⟩, hsentence⟩
  · rw [isEqualityFree_forAllOf]
    exact h.equalityFree
  · rw [terms_forAllOf]
    exact h.terms
  · rw [hsentence]
    exact fun x hx => absurd hx List.not_mem_nil
  · rw [relationNodes_forAllOf]
    exact h.relations

theorem interprets {m : Model} {f : Formula} (h : Compares name n f)
    (hsame : Table.hasKey m.relations sameName = true ∧ ∀ k, m.relationArity? sameName = some k → k = 2)
    (hname : Table.hasKey m.relations name = true ∧ ∀ k, m.relationArity? name = some k → k = n) :
    m.Interprets f where
  constants := by
    intro c hc
    obtain ⟨t, ht, hc⟩ := List.mem_flatMap.1 hc
    obtain ⟨x, rfl⟩ := h.terms t ht
    cases hc
  functions := by
    intro e he
    obtain ⟨t, ht, he⟩ := List.mem_flatMap.1 he
    obtain ⟨x, rfl⟩ := h.terms t ht
    cases he
  relations := by
    intro e he
    rcases h.relations e he with rfl | rfl
    · exact hsame
    · exact hname

end Compares

section RespectAxiom

variable {name : String} {n : Nat} {g : Formula} (h : respectAxiom name n = .ok g)
include h

/-- Respect is a sentence about the relation and the one for equality. -/
theorem compares_respectAxiom (hname : isRelation name = true) : Compares name n g ∧ g.freeNames = [] := by
  obtain ⟨first, others, hpairs, rfl⟩ := respectAxiom_eq_ok.1 h
  have hpair : ∀ f ∈ first :: others, Compares name n f := by
    rw [← hpairs, forall_mem_pairsSame]
    intro q hq
    obtain ⟨hx, hy⟩ := mem_comparedNames_of_zip hq
    have hnames : ∀ x ∈ [q.1, q.2], x ∈ comparedNames n :=
      List.forall_mem_cons.2 ⟨hx, List.forall_mem_singleton.2 hy⟩
    exact Compares.rel rfl hnames (.inl rfl)
  have hpairs : Compares name n (others.foldl conj first) := foldl_conj_of_forall Compares.bin hpair
  have hatom : ∀ letter, numbered letter 1 n ⊆ comparedNames n →
      Compares name n (rel name ((numbered letter 1 n).map .var)) := fun letter hletter =>
    Compares.rel hname (fun x hx => hletter hx) (.inr (by rw [length_numbered]))
  have hxs := hatom "x" (List.subset_append_left _ _)
  have hys := hatom "y" (List.subset_append_right _ _)
  exact (hpairs.bin (hxs.bin hys)).forAllOf

theorem truth_respectAxiom {m : Model} {v : String → String} : g.truth m.interpretation v = true ↔
    ∀ ds ∈ Model.tuples m.domain n, ∀ es ∈ Model.tuples m.domain n,
      List.Forall₂ m.Same ds es → ds ∈ m.rows name → es ∈ m.rows name := by
  obtain ⟨first, others, hpairs, rfl⟩ := respectAxiom_eq_ok.1 h
  have hlength : ∀ letter (w : String → String), ((numbered letter 1 n).map w).length = n :=
    fun letter w => by rw [List.length_map, length_numbered]
  have hbody : ∀ w, (respectBody name n (others.foldl conj first)).truth m.interpretation w = true ↔
      (List.Forall₂ m.Same ((numbered "x" 1 n).map w) ((numbered "y" 1 n).map w) →
        (numbered "x" 1 n).map w ∈ m.rows name → (numbered "y" 1 n).map w ∈ m.rows name) := by
    intro w
    have hsame : (∀ f ∈ first :: others, f.truth m.interpretation w = true) ↔
        List.Forall₂ m.Same ((numbered "x" 1 n).map w) ((numbered "y" 1 n).map w) := by
      rw [← hpairs, forall_mem_pairsSame, List.forall₂_map_left_iff, List.forall₂_map_right_iff,
        List.forall₂_iff_zip]
      simp only [truth_same, Term.denote, length_numbered, true_and, Prod.forall]
    rw [respectBody, truth_imp, truth_imp, truth_foldl_conj, hsame, truth, truth, List.map_map, List.map_map,
      Model.interpretation_rel, Model.interpretation_rel]
    rfl
  simp only [truth_forAllOf, hbody]
  constructor
  · intro hall ds hds es hes
    obtain ⟨hlds, hds⟩ := Model.mem_tuples.1 hds
    obtain ⟨hles, hes⟩ := Model.mem_tuples.1 hes
    -- all the variables are different, so they can be given the elements of both tuples
    have hlengths : (ds ++ es).length = (comparedNames n).length := by
      rw [comparedNames, List.length_append, List.length_append, length_numbered, length_numbered, hlds, hles]
    obtain ⟨w, hmap, hw⟩ := exists_map_eq (nodup_comparedNames n) hlengths v
    rw [comparedNames, List.map_append] at hmap
    obtain ⟨rfl, rfl⟩ := List.append_inj hmap (by rw [hlength, hlds])
    refine hall w hw fun x hx => ?_
    rcases List.mem_append.1 hx with hx | hx
    · exact hds _ (List.mem_map_of_mem hx)
    · exact hes _ (List.mem_map_of_mem hx)
  · intro hall w _ hdomain
    obtain ⟨hxs, hys⟩ := List.forall_mem_append.1 hdomain
    exact hall _ (Model.mem_tuples.2 ⟨hlength "x" w, List.forall_mem_map.2 hxs⟩) _
      (Model.mem_tuples.2 ⟨hlength "y" w, List.forall_mem_map.2 hys⟩)

/-- Respect holds in a model if the relation, with that number of arguments, respects sameness. -/
theorem holds_respectAxiom {m : Model} (hm : m.WellFormed) (hname : isRelation name = true)
    (hn : ∀ k, m.relationArity? name = some k → k = n) : m.Holds g ↔ m.RespectsSame name := by
  obtain ⟨hcompares, hsentence⟩ := compares_respectAxiom h hname
  rw [Model.holds_iff_of_sentence hcompares.wellFormed hsentence (fun _ => ""), truth_respectAxiom h,
    hm.respectsSame_iff hn]

end RespectAxiom

/-! ## Sets of formulas -/

section Sets

variable {fs : List Formula} {last : Formula} (hlast : fs.getLast? = some last)
  (hfs : ∀ f ∈ fs, f.WellFormed) (hfunctions : ∀ f ∈ fs, f.functions = [])
  (hsame : ∀ f ∈ fs, ∀ r ∈ f.relations, r.1 ≠ sameName) {gs : List Formula}
include hlast hfs hfunctions hsame

/-- What is answered for a set of formulas: these without equality, and the axioms. -/
theorem allEqualitiesToSame_eq_ok : allEqualitiesToSame fs = .ok gs ↔ ∃ respects,
    (last.relations.mapM fun r => respectAxiom r.1 r.2) = .ok respects ∧
      gs = (fs.map equalityToSame ++ sameAxioms ++ respects).eraseDups := by
  have hcheck : (fs.forM fun f => do
      let f ← f.named
      require f.functions.isEmpty .shape
      require (f.relations.all fun r => decide (r.1 ≠ sameName)) .distinctNames : Outcome Unit) = .ok () := by
    refine forM_eq_ok.2 fun f hf => ?_
    simp only [(hfs f hf).named_eq_ok, ok_bind, hfunctions f hf, List.isEmpty_nil, require_true,
      require_eq_ok, List.all_eq_true, decide_eq_true_eq]
    exact hsame f hf
  rw [allEqualitiesToSame, hcheck, ok_bind, hlast, Option.map_some, Option.getD_some, bind_eq_ok]
  simp only [pure_eq_ok, @eq_comm _ gs]

theorem exists_allEqualitiesToSame :
    (∃ gs, allEqualitiesToSame fs = .ok gs) ↔ ∀ r ∈ last.relations, r.2 ≠ 0 := by
  have hmapM : (∃ respects, (last.relations.mapM fun r => respectAxiom r.1 r.2) = .ok respects) ↔
      ∀ r ∈ last.relations, r.2 ≠ 0 := by
    rw [exists_mapM_eq_ok]
    exact forall₂_congr fun r _ => exists_respectAxiom
  rw [← hmapM]
  simp only [allEqualitiesToSame_eq_ok hlast hfs hfunctions hsame]
  constructor
  · rintro ⟨_, respects, h, -⟩
    exact ⟨respects, h⟩
  · rintro ⟨respects, h⟩
    exact ⟨_, respects, h, rfl⟩

variable (h : allEqualitiesToSame fs = .ok gs)
include h

/-- The formulas of the answer are those without equality, the equivalence, and respect for the relations of
the last formula. -/
theorem mem_allEqualitiesToSame {g : Formula} : g ∈ gs ↔ g ∈ fs.map equalityToSame ∨ g ∈ sameAxioms ∨
    ∃ r ∈ last.relations, respectAxiom r.1 r.2 = .ok g := by
  obtain ⟨respects, hrespects, rfl⟩ := (allEqualitiesToSame_eq_ok hlast hfs hfunctions hsame).1 h
  rw [List.mem_eraseDups, List.mem_append, List.mem_append, mem_of_mapM_eq_ok hrespects, or_assoc]

theorem allEqualitiesToSame_wellFormed : ∀ g ∈ gs, g.WellFormed ∧ g.isEqualityFree = true := by
  intro g hg
  rcases (mem_allEqualitiesToSame hlast hfs hfunctions hsame h).1 hg with hg | hg | ⟨r, hr, hg⟩
  · obtain ⟨f, hf, rfl⟩ := List.mem_map.1 hg
    exact ⟨(hfs f hf).equalityToSame, isEqualityFree_equalityToSame f⟩
  · exact ⟨sameAxioms_wellFormed g hg, isEqualityFree_sameAxioms g hg⟩
  · have hname := (hfs last (List.mem_of_getLast? hlast)).isRelation r (mem_relations.1 hr)
    obtain ⟨hcompares, -⟩ := compares_respectAxiom hg hname
    exact ⟨hcompares.wellFormed, hcompares.equalityFree⟩

end Sets

end Formula

open Formula

/-- In a model of the formulas without equality in which sameness is an equivalence, the axioms of respect hold
exactly if the relations of the formulas respect it. -/
theorem Model.holds_respectAxioms {m : Model} (hm : m.WellFormed) (hequivalence : m.SameEquivalence)
    {f : Formula} (hf : f.WellFormed) (hnames : m.Interprets f.equalityToSame)
    (harguments : ∀ r ∈ f.relations, r.2 ≠ 0) :
    (∀ r ∈ f.relations, ∀ g, respectAxiom r.1 r.2 = .ok g → m.Interprets g ∧ m.Holds g) ↔
      ∀ r ∈ f.relations, m.RespectsSame r.1 := by
  refine forall₂_congr fun r hr => ?_
  obtain ⟨g, hg⟩ := exists_respectAxiom.2 (harguments r hr)
  have hname : isRelation r.1 = true := hf.isRelation r (mem_relations.1 hr)
  have hmeaning := hnames.relations r ((relationNodes_equalityToSame f).1 (mem_relations.1 hr))
  have hinterprets : m.Interprets g :=
    (compares_respectAxiom hg hname).1.interprets ⟨hequivalence.meaning, hequivalence.binary⟩ hmeaning
  have hholds := holds_respectAxiom hg hm hname hmeaning.2
  constructor
  · exact fun h => hholds.1 (h g hg).2
  · intro h g' hg'
    rw [← Except.ok.inj (hg.symm.trans hg')]
    exact ⟨hinterprets, hholds.2 h⟩

/-- Equality is replaced in a set of formulas without functions exactly if all relations of the last formula
have arguments. The answer is free of equality. Its models are those of the formulas without equality in which
sameness is an equivalence that the relations of the last formula respect; if every relation of the formulas
occurs in the last one, all of them respect it. -/
theorem Formula.isModelOf_allEqualitiesToSame {fs : List Formula} {last : Formula}
    (hlast : fs.getLast? = some last) (hfs : ∀ f ∈ fs, f.WellFormed) (hfunctions : ∀ f ∈ fs, f.functions = [])
    (hsame : ∀ f ∈ fs, ∀ r ∈ f.relations, r.1 ≠ sameName) :
    ((∃ gs, allEqualitiesToSame fs = .ok gs) ↔ ∀ r ∈ last.relations, r.2 ≠ 0) ∧
      ∀ gs, allEqualitiesToSame fs = .ok gs → (∀ g ∈ gs, g.isEqualityFree = true) ∧
        ∀ m : Model, m.WellFormed →
          (m.isModelOf gs = .ok true ↔ m.isModelOf (fs.map equalityToSame) = .ok true ∧
            m.SameEquivalence ∧ ∀ r ∈ last.relations, m.RespectsSame r.1) ∧
          ((∀ f ∈ fs, f.relations ⊆ last.relations) → m.isModelOf gs = .ok true →
            m.SameEquivalence ∧ ∀ f ∈ fs, ∀ r ∈ f.relations, m.RespectsSame r.1) := by
  refine ⟨exists_allEqualitiesToSame hlast hfs hfunctions hsame, fun gs hgs => ?_⟩
  have hanswer := allEqualitiesToSame_wellFormed hlast hfs hfunctions hsame hgs
  refine ⟨fun g hg => (hanswer g hg).2, fun m hm => ?_⟩
  have hlastMem : last ∈ fs := List.mem_of_getLast? hlast
  have hmapped : ∀ g ∈ fs.map equalityToSame, g.WellFormed :=
    List.forall_mem_map.2 fun f hf => (hfs f hf).equalityToSame
  have hmodel : m.isModelOf gs = .ok true ↔ m.isModelOf (fs.map equalityToSame) = .ok true ∧
      m.SameEquivalence ∧ ∀ r ∈ last.relations, m.RespectsSame r.1 := by
    have hsplit : (∀ g ∈ gs, m.Interprets g ∧ m.Holds g) ↔
        (∀ g ∈ fs.map equalityToSame, m.Interprets g ∧ m.Holds g) ∧
          (∀ g ∈ sameAxioms, m.Interprets g ∧ m.Holds g) ∧
            ∀ r ∈ last.relations, ∀ g, respectAxiom r.1 r.2 = .ok g → m.Interprets g ∧ m.Holds g := by
      simp only [mem_allEqualitiesToSame hlast hfs hfunctions hsame hgs]
      grind
    rw [Model.isModelOf_eq_true hm fun g hg => (hanswer g hg).1, Model.isModelOf_eq_true hm hmapped, hsplit,
      Model.holds_sameAxioms]
    refine and_congr_right fun hholds => and_congr_right fun hequivalence => ?_
    exact Model.holds_respectAxioms hm hequivalence (hfs last hlastMem)
      (hholds _ (List.mem_map_of_mem hlastMem)).1
      ((exists_allEqualitiesToSame hlast hfs hfunctions hsame).1 ⟨gs, hgs⟩)
  refine ⟨hmodel, fun hsubset hgs => ?_⟩
  obtain ⟨-, hequivalence, hrespects⟩ := hmodel.1 hgs
  exact ⟨hequivalence, fun f hf r hr => hrespects r (hsubset f hf hr)⟩

/-- A relation of two arguments occurs in both formulas, and the model has two elements that are the same. -/
theorem Formula.isModelOf_allEqualitiesToSame_two_classes :
    let fs : List Formula := [.forAll "x" (.imp (.rel "R" [.var "x", .var "x"]) (.equal (.var "x") (.const "c"))),
      .rel "R" [.const "c", .const "d"]]
    let m : Model := ⟨["0", "1", "2"], [("c", "0"), ("d", "1")],
      [("R", [["0", "0"], ["0", "1"], ["1", "0"], ["1", "1"]]),
        ("SAME", [["0", "0"], ["0", "1"], ["1", "0"], ["1", "1"], ["2", "2"]])], []⟩
    m.WellFormed ∧ ∃ gs, allEqualitiesToSame fs = .ok gs ∧ (∀ g ∈ gs, g.isEqualityFree = true) ∧
      m.isModelOf gs = .ok true ∧ m.SameEquivalence ∧ m.RespectsSame "R" := by
  intro fs m
  have hm : m.WellFormed := ⟨by cbv, by decide⟩
  have hfs : ∀ f ∈ fs, f.WellFormed := by decide
  have hfunctions : ∀ f ∈ fs, f.functions = [] := by
    simp only [fs, List.forall_mem_cons]
    exact ⟨by cbv, by cbv, by simp⟩
  have hrelations : ∀ f ∈ fs, f.relations = [("R", 2)] := by
    simp only [fs, List.forall_mem_cons]
    exact ⟨by cbv, by cbv, by simp⟩
  have hsame : ∀ f ∈ fs, ∀ r ∈ f.relations, r.1 ≠ sameName := by
    intro f hf
    rw [hrelations f hf]
    decide
  have hlast : fs.getLast? = some (.rel "R" [.const "c", .const "d"]) := rfl
  have hlastMem := List.mem_of_getLast? hlast
  obtain ⟨hanswers, hmodels⟩ := isModelOf_allEqualitiesToSame hlast hfs hfunctions hsame
  obtain ⟨gs, hgs⟩ := hanswers.2 (by rw [hrelations _ hlastMem]; decide)
  have hrun : (allEqualitiesToSame fs >>= m.isModelOf) = .ok true := by cbv
  rw [hgs, ok_bind] at hrun
  obtain ⟨hfree, hmodels⟩ := hmodels gs hgs
  obtain ⟨hequivalence, hrespects⟩ := (hmodels m hm).2
    (fun f hf => by rw [hrelations f hf, hrelations _ hlastMem]; exact List.Subset.refl _) hrun
  refine ⟨hm, gs, hgs, hfree, hrun, hequivalence, hrespects _ hlastMem ("R", 2) ?_⟩
  rw [hrelations _ hlastMem]
  decide

/-- A relation of a formula that is not the last need not respect sameness in a model of the answer, and there
is no answer for a relation without arguments. -/
theorem Formula.allEqualitiesToSame_fails :
    let m : Model := ⟨["0", "1"], [("c", "0")],
      [("R", [["0"]]), ("S", [["0"], ["1"]]), ("SAME", [["0", "0"], ["0", "1"], ["1", "0"], ["1", "1"]])], []⟩
    m.WellFormed ∧
      (allEqualitiesToSame [.rel "R" [.const "c"], .rel "S" [.const "c"]] >>= m.isModelOf) = .ok true ∧
      ¬ m.RespectsSame "R" ∧ allEqualitiesToSame [.rel "R" []] = .error (.unmet .wellFormed) := by
  intro m
  have hsame : m.Same "0" "1" := by decide
  refine ⟨⟨by cbv, by decide⟩, by cbv, fun hrespects => ?_, by cbv⟩
  have hmem : ["1"] ∈ m.rows "R" := hrespects ["0"] (by decide) ["1"] (.cons hsame .nil)
  exact absurd hmem (by decide)

end FormalLogic.Predicate
