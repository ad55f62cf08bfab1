import FormalLogic.Predicate.Reading
import FormalLogic.Predicate.Skeleton
import FormalLogic.Predicate.Substitution
import FormalLogic.Propositional.Tautology

/-!
# Schemas

A schema stands for all formulas that result from it by replacing its templates: a constant by a term,
a variable by a variable, and a relation, which has at most one argument, by a formula. In that formula
the underscore marks the places of the argument.
-/

namespace FormalLogic.Predicate

/-- What is put in place of a template, or given where a term or formula is wanted: a text, a term or
a formula, or nothing. -/
inductive Instance
  | text (s : String)
  | term (t : Term)
  | formula (f : Formula)
  | missing
  deriving DecidableEq, Repr

instance : Coe String Instance := ⟨.text⟩

/-- Names with what is put in their place. -/
abbrev Instances := List (String × Instance)

namespace Instance

/-- A term as an instance. -/
def ofTerm (t : Term) : Instance :=
  if t.isMissing then missing else term t

/-- A formula as an instance. -/
def ofFormula : Formula → Instance
  | .bare t => ofTerm t
  | f => formula f

/-- How an instance is shown: texts stand in quotes. -/
def shown : Instance → String
  | text s => Text.quoted s
  | term t => t.text
  | formula f => f.text
  | missing => "None"

/-- The formula that an instance is or is the text of. A term stands as it is. -/
def toFormula : Instance → Outcome Formula
  | text s => Formula.parse s
  | formula f => .ok f
  | term t => .ok (.bare t)
  | missing => .ok .missing

/-- The term that an instance is or is the text of. A formula is taken for a name. -/
def toTerm : Instance → Outcome Term
  | text s => Term.parse s
  | term t => .ok t
  | formula f => .ok (.const f.text)
  | missing => .ok .missing

/-- Requires an instance to be the name of a variable. -/
def requireVariable : Instance → Outcome Unit
  | text s => requireName isVariable s
  | _ => .error .wrongSort

/-- Whether an instance is a term. -/
def isTerm : Instance → Bool
  | term _ => true
  | _ => false

/-- Whether an instance is a formula. -/
def isFormula : Instance → Bool
  | formula _ => true
  | _ => false

/-- Whether an instance is of the sort that the name calls for: a term for a constant or variable and
a formula for a relation. Nothing is of either sort. -/
def fits (key : String) (i : Instance) : Bool :=
  decide (i = missing) || if isReplaceable key then i.isTerm else i.isFormula

end Instance

/-- Requires that variables are replaced by names of variables, constants by terms and relations by
formulas. -/
def checkInstances (m : Instances) : Outcome Unit :=
  m.forM fun e => do
    if ← checkName isVariable e.1 then e.2.requireVariable
    else if isConstant e.1 then require e.2.isTerm .template
    else do
      require (isRelation e.1) .template
      require e.2.isFormula .template

/-- Reads the texts among instances of constants and relations. -/
def readInstances (m : Instances) : Outcome Instances :=
  m.mapM fun e => do
    if ← checkName isVariable e.1 then
      e.2.requireVariable
      return e
    else if isConstant e.1 then
      match e.2 with
      | .text s => return (e.1, .term (← Term.parse s))
      | i => do
        require i.isTerm .template
        return (e.1, i)
    else do
      require (isRelation e.1) .template
      match e.2 with
      | .text s => return (e.1, .formula (← Formula.parse s))
      | i => do
        require i.isFormula .template
        return (e.1, i)

/-! ## Instantiation -/

namespace Formula

/-- A variable that is refused in an argument of a relation is reported with that relation. -/
def reportIn {α : Type} (relation : String) : Outcome α → Outcome α
  | .error (.forbiddenVariable x) => .error (.boundVariable x relation)
  | x => x

/-- Replaces constants and variables by terms and relations by formulas. The result is missing where
a relation that is replaced has two arguments or more. -/
def instantiatePart (terms : Term.Images) (relations : List (String × Formula))
    (bound : List String) : Formula → Outcome Formula
  | equal l r => (equal l r).substitute terms bound
  | rel name ts =>
    match Table.find? relations name with
    | none => reportIn name ((rel name ts).substitute terms bound)
    | some f =>
      match ts with
      | [] => .ok f
      | [t] => reportIn name do
        let t' ← t.substitute terms bound
        f.substitute [(hole, t')] bound
      | _ => .ok missing
  | neg f => do
    let f' ← f.instantiatePart terms relations bound
    return neg (← f'.present)
  | bin op l r => do
    let l' ← l.instantiatePart terms relations bound
    let r' ← r.instantiatePart terms relations bound
    return bin op (← l'.present) (← r'.present)
  | quant q x f => do
    let f' ← f.instantiatePart terms relations bound
    let x' := ((Table.find? terms x).map Term.text).getD x
    return quant q x' (← f'.present)
  | bare _ => .error .absent

/-- Replaces constants and variables by terms and relations by formulas. Variables may be replaced by
variables only; the bound variables must not be inserted. -/
def instantiateWith (terms : Term.Images) (relations : List (String × Formula))
    (bound : List String) (f : Formula) : Outcome Formula := do
  terms.forM fun e => do
    require (← checkName isReplaceable e.1) .substitutable
    if isVariable e.1 then require (isVariable (← e.2.given).root) .template
  relations.forM fun e => requireName isRelation e.1
  bound.forM (requireName isVariable)
  f.instantiatePart terms relations bound

end Formula

/-- A schema: a formula and the set of its templates. -/
structure Schema where
  formula : Formula
  templates : List String
  deriving DecidableEq, Repr

namespace Schema

/-- A schema without templates. -/
def ofFormula (f : Formula) : Schema := ⟨f, []⟩

/-- Makes a schema. A template is a constant, a variable, or a relation that occurs without arguments
only or with one argument only. -/
def make (f : Formula) (templates : List String) : Outcome Schema := do
  let templates := sortedSet templates
  templates.forM fun t => do
    require (← checkName (fun s => isReplaceable s || isRelation s) t) .template
    if isRelation t then
      let f ← f.given
      let arities := ((f.relations.filter fun r => decide (r.1 = t)).map Prod.snd)
      require (decide (arities = [0]) || decide (arities = [1])) .template
  return ⟨f, templates⟩

/-- The text of a schema. -/
def text (s : Schema) : String :=
  "Schema: " ++ s.formula.text ++ " [templates: " ++
    (if s.templates.isEmpty then "none" else ", ".intercalate s.templates) ++ "]"

/-- Reads the texts that are given for variables; none if a key is no template. -/
def readVariables (s : Schema) : Instances → Outcome (Option Instances)
  | [] => .ok (some [])
  | (key, i) :: rest =>
    if s.templates.contains key then do
      let i' ← match isVariable key, i with
        | true, .text x => do pure (Instance.term (← Term.make x none))
        | _, _ => pure i
      return (← s.readVariables rest).map ((key, i') :: ·)
    else .ok none

/-- What is put in place of a constant or variable. -/
def termImage? : String × Instance → Option (String × Term)
  | (key, .term t) => if isReplaceable key then some (key, t) else none
  | (key, .missing) => if isReplaceable key then some (key, .missing) else none
  | _ => none

/-- What is put in place of a relation. -/
def relationImage? : String × Instance → Option (String × Formula)
  | (key, .formula f) => if isReplaceable key then none else some (key, f)
  | (key, .missing) => if isReplaceable key then none else some (key, .missing)
  | _ => none

/-- An instantiation that would capture a variable has a missing result. -/
def missingIfCaptured : Outcome Formula → Outcome Formula
  | .error (.forbiddenVariable _) => .ok .missing
  | .error (.boundVariable _ _) => .ok .missing
  | x => x

/-- The instance of a schema by terms for its constants and variables and formulas for its relations. -/
def instanceBy (s : Schema) (images : Instances) : Outcome Formula :=
  missingIfCaptured
    (s.formula.instantiateWith (images.filterMap termImage?) (images.filterMap relationImage?) [])

/-- The instance of a schema. It is missing if a key is no template, or if a variable would be
captured. -/
def instantiate (s : Schema) (m : Instances) : Outcome Formula := do
  match ← s.readVariables m with
  | none => return .missing
  | some images =>
    if images.all fun e => e.2.fits e.1 then s.instanceBy images else .error .wrongSort

end Schema

/-! ## Proofs by skeletons -/

/-- Checks the maps that lead from a propositional axiom to a schema. -/
def checkAxiomMaps {α β : Type} (m : List (String × α)) (parts : List (String × β)) :
    Outcome Unit := do
  Formula.checkParts m
  Formula.checkParts parts

/-- Checks that a formula has the given tautology for its skeleton, with the given parts. -/
def checkSkeletonProof (f : Formula) (skeleton : Propositional.Formula)
    (parts : Formula.Parts) : Outcome Unit := do
  let pf ← skeleton.proveTautology
  require (pf.statement.assumptions.isEmpty && subset pf.rules Propositional.Axioms.basic)
    .axiomRules
  pf.requireValid
  require (decide ((← Formula.ofSkeleton parts pf.statement.conclusion) = f)) .shape

end FormalLogic.Predicate
