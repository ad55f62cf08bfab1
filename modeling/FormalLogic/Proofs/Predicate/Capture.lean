import FormalLogic.Proofs.Predicate.Substitution
import Mathlib

/-!
# What substitution does to values

To replace names by terms is to change their meanings: the result has the value that the formula has in
the model and under the assignment that give each replaced name the value of its image
(`Model.withImages`, `Model.assignImages`). That holds unless a term is inserted that has a variable bound
by a quantifier around the place and further out than the innermost one (`evaluate_substitute`). Such a
variable is not refused, and then the two values can differ (`evaluate_substitute_captured`).
-/

namespace FormalLogic.Predicate

namespace Model

/-- The values of the images of the names of a kind. -/
def imageValues (m : Model) (images : Term.Images) (a : Assignment) (kind : String → Bool) :
    List (String × String) :=
  images.filterMap fun e =>
    if kind e.1 then (m.evaluateTerm e.2 a).toOption.map (e.1, ·) else none

/-- The model that gives each constant that is replaced the value of its image. -/
def withImages (m : Model) (images : Term.Images) (a : Assignment) : Model :=
  { m with constants := Table.putAll m.constants (m.imageValues images a isConstant) }

/-- The assignment that gives each variable that is replaced the value of its image. -/
def assignImages (m : Model) (images : Term.Images) (a : Assignment) : Assignment :=
  Table.putAll a (m.imageValues images a isVariable)

/-- Where the images have values, the keys of a kind have them too. -/
theorem find?_imageValues {m : Model} {images : Term.Images} {a : Assignment} {d : Term → String}
    (hvalue : ∀ e ∈ images, m.evaluateTerm e.2 a = .ok (d e.2)) (kind : String → Bool)
    (key : String) : Table.find? (m.imageValues images a kind) key =
      if kind key then (Table.find? images key).map d else none := by
  induction images with
  | nil => simp [imageValues]
  | cons e images ih =>
      obtain ⟨key', t⟩ := e
      have ih := ih fun e he => hvalue e (List.mem_cons_of_mem _ he)
      have ht : m.evaluateTerm t a = .ok (d t) := hvalue _ List.mem_cons_self
      rw [imageValues] at ih ⊢
      by_cases hkind : kind key' = true
      · rw [List.filterMap_cons_some (by simp [hkind, ht, Except.toOption]; rfl), Table.find?_cons, ih,
          Table.find?_cons]
        by_cases hkey : key' = key
        · rw [hkey] at hkind
          simp [hkey, hkind]
        · simp [hkey]
      · rw [List.filterMap_cons_none (by simp [hkind]), ih, Table.find?_cons]
        by_cases hkey : key' = key
        · rw [hkey] at hkind
          simp [hkind]
        · simp [hkey]

/-- The result of a substitution has meanings for its names, if the formula and the images do. -/
theorem interprets_subst {m : Model} {f : Formula} (hf : f.WellFormed) (hfnames : m.Interprets f)
    {images : Term.Images} (hwf : ∀ e ∈ images, e.2.WellFormed)
    (hnames : ∀ e ∈ images, m.checkTermNames e.2.constants e.2.functions = .ok ()) :
    m.Interprets (f.subst (Table.find? images)) := by
  have hσ : ∀ name s, Table.find? images name = some s → s.WellFormed := fun _ _ h =>
    hwf _ (Table.mem_of_find?_eq_some h)
  have himage : ∀ i ∈ f.insertions (Table.find? images) [],
      (∀ c ∈ i.1.constants, Table.hasKey m.constants c = true) ∧
        ∀ e ∈ i.1.functions, m.functionArity? e.1 = some e.2 := by
    intro i hi
    obtain ⟨name, -, hname⟩ := Formula.exists_image_of_mem_insertions hf hi
    exact checkTermNames_eq_ok.1 (hnames _ (Table.mem_of_find?_eq_some hname))
  constructor
  · intro c hc
    rcases (Formula.mem_constantNames_subst hf hσ []).1 hc with ⟨hc, -⟩ | ⟨i, hi, hc⟩
    · exact hfnames.constants c hc
    · exact (himage i hi).1 c (Term.mem_constants.2 hc)
  · intro e he
    rcases (Formula.mem_functionNodes_subst hf hσ []).1 he with he | ⟨i, hi, he⟩
    · exact hfnames.functions e he
    · exact (himage i hi).2 e (mem_sortedSignature.2 he)
  · rw [Formula.relationNodes_subst]
    exact hfnames.relations

section Images

variable {m : Model} (hm : m.WellFormed) {a : Assignment} (ha : ∀ e ∈ a, e.2 ∈ m.domain)
  {images : Term.Images} (hwf : ∀ e ∈ images, e.2.WellFormed)
  (hnames : ∀ e ∈ images, m.checkTermNames e.2.constants e.2.functions = .ok ())
  (hcovered : ∀ e ∈ images, ∀ x ∈ e.2.vars, Table.hasKey a x = true)
include hm ha hwf hnames hcovered

theorem evaluateTerm_image {e : String × Term} (he : e ∈ images) :
    m.evaluateTerm e.2 a = .ok (e.2.denote m.interpretation (m.valuation a)) ∧
      e.2.denote m.interpretation (m.valuation a) ∈ m.domain :=
  evaluateTerm_eq_ok hm ha (hwf e he) (hnames e he) (hcovered e he)

theorem mem_imageValues {kind : String → Bool} {e : String × String}
    (he : e ∈ m.imageValues images a kind) : kind e.1 = true ∧ e.2 ∈ m.domain := by
  obtain ⟨image, himage, he⟩ := List.mem_filterMap.1 he
  obtain ⟨hvalue, hmem⟩ := evaluateTerm_image hm ha hwf hnames hcovered himage
  by_cases hkind : kind image.1 = true
  · rw [if_pos hkind, hvalue] at he
    obtain rfl := Option.some.inj he
    exact ⟨hkind, hmem⟩
  · rw [if_neg hkind] at he
    cases he

theorem withImages_wellFormed : (m.withImages images a).WellFormed := by
  obtain ⟨hconstants, hrelations, hfunctions, hm'⟩ := make_eq_ok.1 hm.made
  refine ⟨make_eq_ok.2 ⟨fun c hc => ?_, hrelations, hfunctions, ?_⟩, hm.once⟩
  · rcases Table.mem_putAll hc with hc | hc
    · obtain ⟨hname, hmem⟩ := mem_imageValues hm ha hwf hnames hcovered hc
      refine ⟨(requireName_eq_ok rfl).2 hname, ?_⟩
      rw [withImages, hm.domain_eq]
      exact hmem
    · exact hconstants c hc
  · exact congrArg (fun n : Model => { n with constants := (m.withImages images a).constants }) hm'

theorem assignImages_mem : ∀ e ∈ m.assignImages images a, e.2 ∈ m.domain := by
  intro e he
  rcases Table.mem_putAll he with he | he
  · exact (mem_imageValues hm ha hwf hnames hcovered he).2
  · exact ha e he

theorem withImages_const {c : String} (hc : isConstant c = true) :
    (m.withImages images a).interpretation.const c =
      ((Table.find? images c).getD (.const c)).denote m.interpretation (m.valuation a) := by
  have hvalue := fun e he => (@evaluateTerm_image m hm a ha images hwf hnames hcovered e he).1
  change (Table.find? (Table.putAll m.constants _) c).getD m.anyElement = _
  rw [Table.find?_putAll, find?_imageValues hvalue, if_pos hc]
  cases Table.find? images c with
  | none => rfl
  | some t => rfl

theorem valuation_assignImages {x : String} (hx : isVariable x = true) :
    (m.withImages images a).valuation (m.assignImages images a) x =
      ((Table.find? images x).getD (.var x)).denote m.interpretation (m.valuation a) := by
  have hvalue := fun e he => (@evaluateTerm_image m hm a ha images hwf hnames hcovered e he).1
  change (Table.find? (Table.putAll a _) x).getD m.anyElement = _
  rw [Table.find?_putAll, find?_imageValues hvalue, if_pos hx]
  cases Table.find? images x with
  | none => rfl
  | some t => rfl

end Images

end Model

/-- Where substitution answers and no inserted term has a variable that is bound around its place by a
quantifier other than the innermost, the value of the result is that of the formula with the values of
the images for the names that are replaced. -/
theorem evaluate_substitute {f g : Formula} {images : Term.Images} {forbidden : List String}
    (hf : f.WellFormed) (himages : ∀ e ∈ images, e.2.WellFormed)
    (hresult : f.substitute images forbidden = .ok g)
    (houter : ∀ i ∈ f.insertions (Table.find? images) [], ∀ x ∈ i.2.tail, x ∉ i.1.variableLeaves)
    {m : Model} (hm : m.WellFormed) (hnames : m.checkNames f = .ok ())
    (himageNames : ∀ e ∈ images, m.checkTermNames e.2.constants e.2.functions = .ok ())
    {a : Assignment} (ha : ∀ e ∈ a, e.2 ∈ m.domain)
    (hcovered : ∀ x ∈ f.freeVariables, Table.hasKey a x = true)
    (himageCovered : ∀ e ∈ images, ∀ x ∈ e.2.vars, Table.hasKey a x = true) :
    ∃ b, m.evaluate g a = .ok b ∧
      (m.withImages images a).evaluate f (m.assignImages images a) = .ok b := by
  obtain ⟨-, -, hinnermost, rfl⟩ := (Formula.substitute_eq_ok hf himages).1 hresult
  have hσ : ∀ name s, Table.find? images name = some s → s.WellFormed := fun _ _ h =>
    himages _ (Table.mem_of_find?_eq_some h)
  have hfnames := (Model.checkNames_eq_ok hf).1 hnames
  -- the innermost variable is refused by the check, and the others do not occur by assumption
  have hfresh : ∀ i ∈ f.insertions (Table.find? images) [], ∀ x ∈ i.2, x ∉ i.1.variableLeaves := by
    intro i hi
    refine Formula.notMem_of_head?_of_tail (fun x hx hhead => ?_) (houter i hi)
    exact hinnermost i hi x hx (by simp [Formula.refusedNames, hhead])
  have hgnames := Model.interprets_subst hf hfnames himages himageNames
  have hgcovered : ∀ x ∈ (f.subst (Table.find? images)).freeVariables, Table.hasKey a x = true := by
    intro x hx
    rcases Formula.mem_freeNames_subst hf hσ [] (Formula.mem_freeVariables.1 hx) with
      ⟨hx, -⟩ | ⟨i, hi, hx⟩
    · exact hcovered x (Formula.mem_freeVariables.2 hx)
    · obtain ⟨name, -, hname⟩ := Formula.exists_image_of_mem_insertions hf hi
      exact himageCovered _ (Table.mem_of_find?_eq_some hname) x (Term.mem_vars.2 hx)
  have hfnames' : (m.withImages images a).Interprets f :=
    ⟨fun c hc => Table.hasKey_putAll_of_hasKey _ (hfnames.constants c hc), hfnames.functions,
      hfnames.relations⟩
  have hfcovered : ∀ x ∈ f.freeVariables, Table.hasKey (m.assignImages images a) x = true :=
    fun x hx => Table.hasKey_putAll_of_hasKey _ (hcovered x hx)
  have htruth : (f.subst (Table.find? images)).truth m.interpretation (m.valuation a) =
      f.truth (m.withImages images a).interpretation
        ((m.withImages images a).valuation (m.assignImages images a)) := by
    refine Formula.truth_subst hf hσ hfresh rfl rfl rfl (fun c hc => ?_) fun x hx => ?_
    · exact Model.withImages_const hm ha himages himageNames himageCovered (hf.isConstant c hc)
    · exact Model.valuation_assignImages hm ha himages himageNames himageCovered
        (hf.isVariable x (Formula.freeNames_subset_variableNames f hx))
  refine ⟨_, Model.evaluate_eq_ok hm ha (hf.subst hσ)
    ((Model.checkNames_eq_ok (hf.subst hσ)).2 hgnames) hgcovered, ?_⟩
  rw [htruth]
  exact Model.evaluate_eq_ok
    (Model.withImages_wellFormed hm ha himages himageNames himageCovered)
    (Model.assignImages_mem hm ha himages himageNames himageCovered) hf
    ((Model.checkNames_eq_ok hf).2 hfnames') hfcovered

/-- Two elements, a function that exchanges them and a relation between both and the second. -/
def exchanging : Model where
  domain := ["0", "1"]
  constants := [("c", "1")]
  relations := [("R", [["0", "1"], ["1", "1"]])]
  functions := [("f", [(["0"], "1"), (["1"], "0")])]

/-- Below two quantifiers a variable and a constant are replaced by terms with another variable: the
formula is false, and the result is true, as the formula is with the values of the terms. -/
theorem evaluate_substitute_exchanging :
    let f : Formula := .forAll "x" (.exist "y"
      (.conj (.rel "R" [.var "x", .var "w"]) (.equal (.var "y") (.const "c"))))
    let g : Formula := .forAll "x" (.exist "y"
      (.conj (.rel "R" [.var "x", .app "f" [.var "u"]]) (.equal (.var "y") (.var "u"))))
    let images : Term.Images := [("w", .app "f" [.var "u"]), ("c", .var "u")]
    let a : Assignment := [("w", "0"), ("u", "0")]
    f.substitute images [] = .ok g ∧ exchanging.evaluate f a = .ok false ∧
      exchanging.evaluate g a = .ok true ∧
      ∃ b, exchanging.evaluate g a = .ok b ∧
        (exchanging.withImages images a).evaluate f (exchanging.assignImages images a) = .ok b := by
  intro f g images a
  have hresult : f.substitute images [] = .ok g := by decide
  have hmodel : exchanging.WellFormed := ⟨by cbv, by decide⟩
  have hnames : exchanging.checkNames f = .ok () := by cbv
  have himageNames : ∀ e ∈ images,
      exchanging.checkTermNames e.2.constants e.2.functions = .ok () :=
    List.forall_mem_cons.2 ⟨by cbv, List.forall_mem_cons.2 ⟨by cbv, by simp⟩⟩
  have hfree : ∀ x ∈ f.freeNames, Table.hasKey a x = true := by decide
  have himageFree : ∀ e ∈ images, ∀ x ∈ e.2.variableLeaves, Table.hasKey a x = true := by decide
  exact ⟨hresult, by cbv, by cbv, evaluate_substitute (by decide) (by decide) hresult (by decide)
    hmodel hnames himageNames (by decide) (fun x hx => hfree x (Formula.mem_freeVariables.1 hx))
    fun e he x hx => himageFree e he x (Term.mem_vars.1 hx)⟩

/-- A variable of an inserted term that the outer one of two quantifiers binds is not refused. The
result is then a formula about all elements, while the formula is about one. -/
theorem evaluate_substitute_captured :
    let f : Formula := .forAll "x" (.exist "y" (.rel "R" [.var "w"]))
    let g : Formula := .forAll "x" (.exist "y" (.rel "R" [.var "x"]))
    let images : Term.Images := [("w", .var "x")]
    let m : Model := ⟨["0", "1"], [], [("R", [["0"]])], []⟩
    let a : Assignment := [("w", "0"), ("x", "0")]
    f.substitute images [] = .ok g ∧ m.WellFormed ∧ m.evaluate g a = .ok false ∧
      (m.withImages images a).evaluate f (m.assignImages images a) = .ok true := by
  intro f g images m a
  exact ⟨by decide, ⟨by cbv, by decide⟩, by cbv, by cbv⟩

end FormalLogic.Predicate
