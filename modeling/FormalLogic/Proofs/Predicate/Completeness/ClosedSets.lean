import FormalLogic.Predicate.Completeness
import FormalLogic.Proofs.Predicate.Abstraction
import FormalLogic.Proofs.Predicate.Capture

/-!
# Closed sets of sentences

What the closure test accepts is said once, by `Sentences.Closed`. In a model whose elements are the
constants of the sentences, a quantified sentence is a matter of its instances at constants
(`ConstantModel.holds_quant`). So a quantified sentence of a closed set that is false has an instance in
the set that is false too, and going from instance to instance ends with a false sentence without
quantifiers, in whatever order the elements are tried (`Closed.exists_descend`).
-/

namespace FormalLogic.Predicate

/-! ## Instances at constants -/

namespace Formula

/-- The formula with a constant for a variable. -/
def instanceAt (x c : String) (f : Formula) : Formula :=
  f.subst (Table.find? [(x, .const c)])

@[simp] theorem leadingQuantifiers_subst (σ : String → Option Term) (f : Formula) :
    Sentences.leadingQuantifiers (f.subst σ) = Sentences.leadingQuantifiers f := by
  induction f generalizing σ with
  | quant k x f ih => exact congrArg (· + 1) (ih _)
  | _ => rfl

section InstanceAt

variable {f : Formula} {k : Quantifier} {x c : String}

theorem substitute_const (hf : f.WellFormed) (hx : isVariable x = true) (hc : isConstant c = true) :
    f.substitute [(x, .const c)] [] = .ok (f.instanceAt x c) :=
  substitute_single_eq_ok hf hx hc fun _ hy => nomatch hy

theorem wellFormed_image (hc : isConstant c = true) (name : String) (t : Term)
    (h : Table.find? [(x, .const c)] name = some t) : t.WellFormed :=
  wellFormed_of_find?_single (t := .const c) hc h

theorem WellFormed.instanceAt (hf : f.WellFormed) (hc : Predicate.isConstant c = true) :
    (f.instanceAt x c).WellFormed :=
  hf.subst (wellFormed_image hc)

/-- An instance of a sentence is a sentence. -/
theorem freeNames_instanceAt (hf : f.WellFormed) (hc : isConstant c = true)
    (hsentence : (quant k x f).freeNames = []) : (f.instanceAt x c).freeNames = [] := by
  refine List.eq_nil_iff_forall_not_mem.2 fun y hy => ?_
  rcases mem_freeNames_subst hf (wellFormed_image hc) [] hy with ⟨hy, hnone⟩ | ⟨i, hi, hy⟩
  · have hyx : y ≠ x := by
      rintro rfl
      simp at hnone
    have hfree : y ∈ (quant k x f).freeNames := mem_freeNames_quant.2 ⟨hy, hyx⟩
    rw [hsentence] at hfree
    exact List.not_mem_nil hfree
  · rw [fst_of_mem_insertions_single hf hi] at hy
    exact List.not_mem_nil hy

/-- An instance at a constant that denotes itself is true exactly when the formula is true of it. -/
theorem truth_instanceAt (hf : f.WellFormed) (hx : isVariable x = true) (hc : isConstant c = true)
    {I : Interpretation} (hI : I.const c = c) (v : String → String) :
    (f.instanceAt x c).truth I v = f.truth I (Function.update v x c) := by
  refine truth_subst (J := I) hf (wellFormed_image hc) (?_ : ∀ i ∈ f.insertions _ [], _) rfl rfl rfl
    ?_ ?_
  · intro i hi y _ hy
    rw [fst_of_mem_insertions_single hf hi] at hy
    exact List.not_mem_nil hy
  · intro d hd
    rw [find?_single_eq_none (ne_of_isConstant (hf.isConstant d hd) hx).symm]
    rfl
  · intro y _
    by_cases hyx : y = x
    · rw [hyx, Function.update_self]
      simpa [Term.denote] using hI.symm
    · rw [Function.update_of_ne hyx, find?_single_eq_none (Ne.symm hyx)]
      rfl

end InstanceAt

end Formula

/-- An instance at a constant that has a meaning has meanings for its names, if the formula does. -/
theorem Model.Interprets.instanceAt {m : Model} {f : Formula} {k : Quantifier} {x c : String}
    (h : m.Interprets (.quant k x f)) (hf : f.WellFormed) (hc : isConstant c = true)
    (hkey : Table.hasKey m.constants c = true) : m.Interprets (f.instanceAt x c) := by
  refine Model.interprets_subst hf ⟨h.constants, h.functions, h.relations⟩ ?_ ?_
  · intro e he
    rw [List.mem_singleton.1 he]
    exact hc
  · intro e he
    rw [List.mem_singleton.1 he, Model.checkTermNames_eq_ok]
    refine ⟨fun d hd => ?_, fun e he => ?_⟩
    · rw [List.mem_singleton.1 (Term.mem_constants.1 hd)]
      exact hkey
    · exact absurd (mem_sortedSignature.1 he) List.not_mem_nil

/-! ## The closure test -/

namespace Sentences

variable {S : List Formula}

/-- A set of sentences in prenex normal form that decides every primitive sentence over its constants,
contains every instance of its universal sentences, and a witness for each of its existential ones. -/
structure Closed (S : List Formula) : Prop where
  wellFormed : ∀ f ∈ S, f.WellFormed
  prenex : ∀ f ∈ S, f.isPrenex = true
  sentence : ∀ f ∈ S, f.freeNames = []
  decided : ∀ f ∈ S, ∀ r ∈ f.relationNodes, ∀ cs : List String, cs.length = r.2 →
    (∀ c ∈ cs, c ∈ constants S) →
      .rel r.1 (cs.map Term.const) ∈ S ∨ .neg (.rel r.1 (cs.map Term.const)) ∈ S
  universal : ∀ x f, .quant .universal x f ∈ S → ∀ c ∈ constants S, f.instanceAt x c ∈ S
  existential : ∀ x f, .quant .existential x f ∈ S → ∃ c ∈ constants S, f.instanceAt x c ∈ S

theorem mem_constants (hS : ∀ f ∈ S, f.WellFormed) {c : String} :
    c ∈ constants S ↔ ∃ f ∈ S, c ∈ f.constantNames := by
  rw [constants, mem_sortedSet, List.mem_flatMap]
  exact exists_congr fun f => and_congr_right fun hf => Formula.mem_constants (hS f hf)

theorem isConstant_of_mem (hS : ∀ f ∈ S, f.WellFormed) {c : String} (hc : c ∈ constants S) :
    isConstant c = true := by
  obtain ⟨f, hf, hc⟩ := (mem_constants hS).1 hc
  exact (hS f hf).isConstant c hc

theorem isEmpty_freeVariables {f : Formula} :
    f.freeVariables.isEmpty = true ↔ f.freeNames = [] := by
  simp only [List.isEmpty_iff, List.eq_nil_iff_forall_not_mem, Formula.mem_freeVariables]

theorem check_eq_ok (hS : ∀ f ∈ S, f.WellFormed) {u : Unit} :
    check S = .ok u ↔ ∀ f ∈ S, f.isPrenex = true ∧ f.freeNames = [] := by
  rw [check, forM_eq_ok]
  refine forall₂_congr fun f hf => ?_
  rw [(hS f hf).given_eq_ok, ok_bind, bind_eq_ok, (hS f hf).proper_eq_ok]
  simp only [ok_bind, require_eq_ok, isEmpty_freeVariables, exists_const]

theorem rows_eq_tuples (elements : List String) (n : Nat) :
    rows elements n = Model.tuples elements n := by
  induction n with
  | zero => rfl
  | succ n ih => simp only [rows, Model.tuples, ih]

theorem decidesPrimitives_iff : decidesPrimitives S = true ↔
    ∀ f ∈ S, ∀ r ∈ f.relationNodes, ∀ cs : List String, cs.length = r.2 →
      (∀ c ∈ cs, c ∈ constants S) →
        .rel r.1 (cs.map Term.const) ∈ S ∨ .neg (.rel r.1 (cs.map Term.const)) ∈ S := by
  simp only [decidesPrimitives, primitives, List.all_eq_true, List.mem_flatMap, List.mem_eraseDups,
    List.mem_map, Bool.or_eq_true, List.contains_iff_mem, rows_eq_tuples, Model.mem_tuples,
    Formula.mem_relations]
  constructor
  · intro h f hf r hr cs hlength hcs
    exact h _ ⟨r, ⟨f, hf, hr⟩, cs, ⟨hlength, hcs⟩, rfl⟩
  · rintro h p ⟨r, ⟨f, hf, hr⟩, cs, ⟨hlength, hcs⟩, rfl⟩
    exact h f hf r hr cs hlength hcs

theorem containsInstance_eq_ok {f : Formula} {x c : String} (hf : f.WellFormed)
    (hx : isVariable x = true) (hc : isConstant c = true) :
    containsInstance S x f c = .ok (S.contains (f.instanceAt x c)) := by
  rw [containsInstance, Formula.substitute_const hf hx hc]
  rfl

theorem containsInstances_eq_true (hS : ∀ f ∈ S, f.WellFormed) : containsInstances S = .ok true ↔
    ∀ x f, .quant .universal x f ∈ S → ∀ c ∈ constants S, f.instanceAt x c ∈ S := by
  have hall : ∀ x f, .quant .universal x f ∈ S →
      ((constants S).allM (containsInstance S x f) = .ok true ↔
        ∀ c ∈ constants S, f.instanceAt x c ∈ S) := by
    intro x f hf
    obtain ⟨hx, hf⟩ := hS _ hf
    rw [allM_eq_true]
    refine forall₂_congr fun c hc => ?_
    rw [containsInstance_eq_ok hf hx (isConstant_of_mem hS hc), Except.ok.injEq,
      List.contains_iff_mem]
  rw [containsInstances, allM_eq_true]
  constructor
  · intro h x f hf
    exact (hall x f hf).1 (h _ hf)
  · intro h f hf
    split
    · exact (hall _ _ hf).2 (h _ _ hf)
    · rfl

theorem containsWitnesses_eq_true (hS : ∀ f ∈ S, f.WellFormed) : containsWitnesses S = .ok true ↔
    ∀ x f, .quant .existential x f ∈ S → ∃ c ∈ constants S, f.instanceAt x c ∈ S := by
  have hany : ∀ x f, .quant .existential x f ∈ S →
      ((constants S).anyM (containsInstance S x f) = .ok true ↔
        ∃ c ∈ constants S, f.instanceAt x c ∈ S) := by
    intro x f hf
    obtain ⟨hx, hf⟩ := hS _ hf
    rw [anyM_eq_ok fun c hc => containsInstance_eq_ok hf hx (isConstant_of_mem hS hc),
      Except.ok.injEq, List.any_eq_true]
    simp only [List.contains_iff_mem]
  rw [containsWitnesses, allM_eq_true]
  constructor
  · intro h x f hf
    exact (hany x f hf).1 (h _ hf)
  · intro h f hf
    split
    · exact (hany _ _ hf).2 (h _ _ hf)
    · rfl

/-- The closure test accepts exactly the closed sets. -/
theorem isClosed_eq_true (hS : ∀ f ∈ S, f.WellFormed) : isClosed S = .ok true ↔ Closed S := by
  rw [isClosed, bind_eq_ok]
  simp only [check_eq_ok hS]
  constructor
  · rintro ⟨-, hcheck, h⟩
    split at h
    · rename_i hdecides
      obtain ⟨b, hinstances, h⟩ := bind_eq_ok.1 h
      split at h
      · rename_i hb
        subst hb
        exact ⟨hS, fun f hf => (hcheck f hf).1, fun f hf => (hcheck f hf).2,
          decidesPrimitives_iff.1 hdecides, (containsInstances_eq_true hS).1 hinstances,
          (containsWitnesses_eq_true hS).1 h⟩
      · simp at h
    · simp at h
  · intro h
    refine ⟨(), fun f hf => ⟨h.prenex f hf, h.sentence f hf⟩, ?_⟩
    rw [if_pos (decidesPrimitives_iff.2 h.decided), (containsInstances_eq_true hS).2 h.universal,
      ok_bind, if_pos rfl]
    exact (containsWitnesses_eq_true hS).2 h.existential

/-! ## Models on the constants -/

/-- A model whose elements are the constants of the sentences, each of which stands for itself. -/
structure ConstantModel (S : List Formula) (m : Model) : Prop where
  wellFormed : m.WellFormed
  mem_domain : ∀ c, c ∈ m.domain ↔ c ∈ constants S
  self : ∀ c ∈ constants S, Table.find? m.constants c = some c

/-- The truth value of a sentence in a model. -/
abbrev holds (m : Model) (f : Formula) : Bool :=
  f.truth m.interpretation (m.valuation [])

section ConstantModel

variable {m : Model} {f g : Formula} {k : Quantifier} {x c : String}

theorem ConstantModel.hasKey (hm : ConstantModel S m) (hc : c ∈ constants S) :
    Table.hasKey m.constants c = true := by
  rw [Table.hasKey, hm.self c hc]
  rfl

theorem ConstantModel.const_eq (hm : ConstantModel S m) (hc : c ∈ constants S) :
    m.interpretation.const c = c := by
  change (Table.find? m.constants c).getD m.anyElement = c
  rw [hm.self c hc]
  rfl

theorem ConstantModel.evaluate_eq_ok (hm : ConstantModel S m) (hf : f.WellFormed)
    (hsentence : f.freeNames = []) (hnames : m.Interprets f) : m.evaluate f [] = .ok (holds m f) := by
  refine Model.evaluate_eq_ok hm.wellFormed (by simp) hf ((Model.checkNames_eq_ok hf).2 hnames) ?_
  intro x hx
  rw [Formula.mem_freeVariables, hsentence] at hx
  exact absurd hx List.not_mem_nil

/-- A quantified sentence is a matter of its instances. -/
theorem ConstantModel.holds_quant (hS : ∀ f ∈ S, f.WellFormed) (hm : ConstantModel S m)
    (hf : (Formula.quant k x f).WellFormed) :
    holds m (.quant k x f) = k.eval m.domain fun c => holds m (f.instanceAt x c) := by
  have hinstance : ∀ c ∈ m.domain, f.truth m.interpretation
      (Function.update (m.valuation []) x c) = holds m (f.instanceAt x c) := by
    intro c hc
    rw [hm.mem_domain] at hc
    exact (Formula.truth_instanceAt hf.2 hf.1 (isConstant_of_mem hS hc) (hm.const_eq hc) _).symm
  rw [holds, Formula.truth, Model.interpretation_domain]
  exact Quantifier.eval_congr k hinstance

/-- The search for an instance goes by truth values and membership. -/
theorem firstUnsatisfied_eq_ok (hf : f.WellFormed) (hx : isVariable x = true) {cs : List String}
    (hcs : ∀ c ∈ cs, isConstant c = true)
    (hevaluate : ∀ c ∈ cs, m.evaluate (f.instanceAt x c) [] = .ok (holds m (f.instanceAt x c))) :
    firstUnsatisfied S m k x f cs = .ok ((cs.map (f.instanceAt x)).find? fun g =>
      !holds m g && (decide (k = .universal) || S.contains g)) := by
  induction cs with
  | nil => rfl
  | cons c cs ih =>
      obtain ⟨hc, hcs⟩ := List.forall_mem_cons.1 hcs
      obtain ⟨hvalue, hevaluate⟩ := List.forall_mem_cons.1 hevaluate
      rw [firstUnsatisfied, Term.make_constant hc, ok_bind, Formula.substitute_const hf hx hc, ok_bind,
        hvalue, ok_bind, ih hcs hevaluate, List.map_cons]
      cases hholds : holds m (f.instanceAt x c) with
      | true => simp [hholds]
      | false =>
          by_cases hfound : (decide (k = .universal) || S.contains (f.instanceAt x c)) = true
          · rw [if_neg Bool.false_ne_true, if_pos hfound,
              List.find?_cons_of_pos (by rw [hholds, hfound]; rfl)]
            rfl
          · rw [if_neg Bool.false_ne_true, if_neg hfound,
              List.find?_cons_of_neg (by rw [hholds]; exact hfound)]

theorem isQuantifierFree_of_leadingQuantifiers (hprenex : f.isPrenex = true)
    (h : leadingQuantifiers f = 0) : f.isQuantifierFree = true := by
  cases f with
  | quant k x f => simp [leadingQuantifiers] at h
  | _ => exact hprenex

variable {elements : List String} (hS : Closed S) (hm : ConstantModel S m)
  (helements : ∀ c, c ∈ elements ↔ c ∈ m.domain)
include hS hm helements

/-- A quantified sentence of a closed set that is false has an instance in the set that is false, and the
search finds one, whatever the order of the elements. -/
theorem Closed.exists_firstUnsatisfied (hf : .quant k x f ∈ S) (hnames : m.Interprets (.quant k x f))
    (hfalse : holds m (.quant k x f) = false) :
    ∃ c ∈ constants S, firstUnsatisfied S m k x f elements = .ok (some (f.instanceAt x c)) ∧
      f.instanceAt x c ∈ S ∧ holds m (f.instanceAt x c) = false := by
  have hwf := hS.wellFormed _ hf
  have hmem : ∀ c, c ∈ elements ↔ c ∈ constants S := fun c => (helements c).trans (hm.mem_domain c)
  have hconstant : ∀ c ∈ elements, isConstant c = true := fun c hc =>
    isConstant_of_mem hS.wellFormed ((hmem c).1 hc)
  have hsearch := firstUnsatisfied_eq_ok (S := S) (m := m) (k := k) hwf.2 hwf.1 hconstant fun c hc =>
    hm.evaluate_eq_ok (hwf.2.instanceAt (hconstant c hc))
      (Formula.freeNames_instanceAt hwf.2 (hconstant c hc) (hS.sentence _ hf))
      (hnames.instanceAt hwf.2 (hconstant c hc) (hm.hasKey ((hmem c).1 hc)))
  rw [hm.holds_quant hS.wellFormed hwf] at hfalse
  -- there is an instance as it is searched for
  have hexists : ∃ c ∈ m.domain, holds m (f.instanceAt x c) = false ∧
      (k = .universal ∨ f.instanceAt x c ∈ S) := by
    cases k with
    | universal =>
        obtain ⟨c, hc, hcfalse⟩ := List.all_eq_false.1 hfalse
        exact ⟨c, hc, Bool.eq_false_iff.2 hcfalse, .inl rfl⟩
    | existential =>
        obtain ⟨c, hc, hwitness⟩ := hS.existential x f hf
        rw [← hm.mem_domain] at hc
        exact ⟨c, hc, Bool.eq_false_iff.2 (List.any_eq_false.1 hfalse c hc), .inr hwitness⟩
  obtain ⟨c, hc, hcfalse, hcfound⟩ := hexists
  have hsome : (elements.map (f.instanceAt x)).find? (fun g =>
      !holds m g && (decide (k = .universal) || S.contains g)) |>.isSome := by
    refine List.find?_isSome.2 ⟨_, List.mem_map_of_mem ((helements c).2 hc), ?_⟩
    simpa [hcfalse] using hcfound
  obtain ⟨g, hg⟩ := Option.isSome_iff_exists.1 hsome
  obtain ⟨d, hd, rfl⟩ := List.mem_map.1 (List.mem_of_find?_eq_some hg)
  have hgfound := List.find?_some hg
  simp only [Bool.and_eq_true, Bool.not_eq_true', Bool.or_eq_true, decide_eq_true_eq,
    List.contains_iff_mem] at hgfound
  have hd := (hmem d).1 hd
  refine ⟨d, hd, by rw [hsearch, hg], ?_, hgfound.1⟩
  rcases hgfound.2 with rfl | hfound
  · exact hS.universal x f hf d hd
  · exact hfound

theorem Closed.checkUnsatisfied_eq_ok (hf : f ∈ S) (hnames : m.Interprets f) (hfalse : holds m f = false) :
    checkUnsatisfied S m elements f = .ok () := by
  have hwf := hS.wellFormed f hf
  have hconstants : elements.forM (requireName isConstant) = .ok () := by
    refine forM_eq_ok.2 fun c hc => (requireName_eq_ok rfl).2 ?_
    exact isConstant_of_mem hS.wellFormed ((hm.mem_domain c).1 ((helements c).1 hc))
  rw [checkUnsatisfied, hconstants, ok_bind, hwf.given_eq_ok, ok_bind, hS.prenex f hf, require_true,
    ok_bind, hwf.proper_eq_ok, ok_bind, isEmpty_freeVariables.2 (hS.sentence f hf), require_true,
    ok_bind, List.contains_iff_mem.2 hf, require_true, ok_bind,
    hm.evaluate_eq_ok hwf (hS.sentence f hf) hnames, ok_bind, hfalse]
  rfl

/-- From a false sentence of a closed set one gets down to a false one without quantifiers. All sentences
on the way have their meaning in the model. -/
theorem Closed.exists_descend {n : Nat} (hf : f ∈ S) (hn : leadingQuantifiers f ≤ n)
    (hnames : m.Interprets f) (hfalse : holds m f = false) :
    ∃ q ∈ S, descend S m elements n f = .ok (some q) ∧ q.isQuantifierFree = true ∧ m.Interprets q ∧
      holds m q = false := by
  induction n generalizing f with
  | zero =>
      have hfree := isQuantifierFree_of_leadingQuantifiers (hS.prenex f hf) (Nat.le_zero.1 hn)
      refine ⟨f, hf, ?_, hfree, hnames, hfalse⟩
      rw [descend, hS.checkUnsatisfied_eq_ok hm helements hf hnames hfalse, ok_bind]
      rfl
  | succ n ih =>
      have hcheck := hS.checkUnsatisfied_eq_ok hm helements hf hnames hfalse
      cases f with
      | quant k x f =>
          obtain ⟨c, hc, hfirst, hmem, hcfalse⟩ := hS.exists_firstUnsatisfied hm helements hf hnames
            hfalse
          have hwf := hS.wellFormed _ hf
          have hcnames := hnames.instanceAt hwf.2 (isConstant_of_mem hS.wellFormed hc) (hm.hasKey hc)
          have hle : leadingQuantifiers (f.instanceAt x c) ≤ n := by
            rw [Formula.instanceAt, Formula.leadingQuantifiers_subst]
            exact Nat.le_of_succ_le_succ hn
          obtain ⟨q, hq, hdescend, hrest⟩ := ih hmem hle hcnames hcfalse
          refine ⟨q, hq, ?_, hrest⟩
          rw [descend, hcheck, ok_bind]
          simp only [hfirst, ok_bind, hdescend]
      | _ =>
          refine ⟨_, hf, ?_, hS.prenex _ hf, hnames, hfalse⟩
          rw [descend, hcheck, ok_bind]
          · rfl
          · nofun

end ConstantModel

end Sentences

end FormalLogic.Predicate
