import FormalLogic.Predicate.Formula
import FormalLogic.Text.Quoted

/-!
# Models

A model has a domain of elements and gives meanings to names: an element to a constant, a set of
tuples to a relation, and a total table to a function. In such a model a term has a value under every
assignment of its variables, and a formula a truth value under every assignment of its free variables.
-/

namespace FormalLogic.Predicate

/-- Elements for variables. -/
abbrev Assignment := List (String × String)

/-- A model. The domain and the sets of tuples are in ascending order. -/
structure Model where
  domain : List String
  constants : List (String × String)
  relations : List (String × List (List String))
  functions : List (String × List (List String × String))
  deriving DecidableEq, Repr

namespace Model

/-! ## Making models -/

/-- The number of arguments of a relation, where it has tuples. -/
def tupleLength? (tuples : List (List String)) : Option Nat :=
  tuples.head?.map List.length

/-- Requires the tuples of a relation to be of one length and to lie in the domain. -/
def checkRelation (domain : List String) (r : String × List (List String)) : Outcome Unit := do
  requireName isRelation r.1
  require (r.2.all fun t => decide (some t.length = tupleLength? r.2)) .interpretation
  require (r.2.all fun t => subset t domain) .interpretation

/-- Requires the table of a function to give an element for every tuple of one nonzero length. -/
def checkFunction (domain : List String) (f : String × List (List String × String)) :
    Outcome Unit := do
  requireName isFunction f.1
  match f.2 with
  | [] => .error (.unmet .interpretation)
  | (first, _) :: _ =>
    require (decide (0 < first.length)) .interpretation
    require (decide (f.2.length = Nat.pow domain.length first.length)) .interpretation
    require (f.2.all fun e => decide (e.1.length = first.length) && subset e.1 domain &&
      domain.contains e.2) .interpretation

/-- Makes a model of its parts. -/
def make (domain : List String) (constants : List (String × String))
    (relations : List (String × List (List String)))
    (functions : List (String × List (List String × String))) : Outcome Model := do
  let domain := sortedSet domain
  constants.forM fun c => do
    requireName isConstant c.1
    require (domain.contains c.2) .interpretation
  let relations := relations.map fun r => (r.1, sortedRows r.2)
  relations.forM (checkRelation domain)
  functions.forM (checkFunction domain)
  return ⟨domain, constants, relations, functions⟩

/-- The number of arguments of a relation of the model, if it has tuples. -/
def relationArity? (m : Model) (name : String) : Option Nat :=
  (Table.find? m.relations name).bind tupleLength?

/-- The number of arguments of a function of the model. -/
def functionArity? (m : Model) (name : String) : Option Nat :=
  (Table.find? m.functions name).bind fun t => t.head?.map fun e => e.1.length

/-- The text of a model. -/
def text (m : Model) : String :=
  let tupleText (t : List String) := Text.tuple (t.map Text.quoted)
  let constants := Text.table (m.constants.map fun c => (Text.quoted c.1, Text.quoted c.2))
  let relations := Text.table (m.relations.map fun r =>
    (Text.quoted r.1, Text.constantSet (r.2.map tupleText)))
  let functions := Text.table (m.functions.map fun f =>
    (Text.quoted f.1, Text.table (f.2.map fun e => (tupleText e.1, Text.quoted e.2))))
  "Universe=" ++ Text.constantSet (m.domain.map Text.quoted) ++ "; Constant Meanings=" ++ constants ++
    "; Relation Meanings=" ++ relations ++
    if m.functions.isEmpty then "" else "; Function Meanings=" ++ functions

/-! ## Values -/

mutual

/-- The value of a term under an assignment. -/
def termValue (m : Model) (a : Assignment) : Term → Outcome String
  | .const name => Failure.unknownKey.orElse (Table.find? m.constants name)
  | .var name => Failure.unknownKey.orElse (Table.find? a name)
  | .app name ts => do
    let values ← m.termValues a ts
    let table ← Failure.unknownKey.orElse (Table.find? m.functions name)
    Failure.unknownKey.orElse (Table.find? table values)
  | .missing => .error .absent

/-- The values of terms under an assignment. -/
def termValues (m : Model) (a : Assignment) : List Term → Outcome (List String)
  | [] => .ok []
  | t :: ts => do
    let v ← m.termValue a t
    return v :: (← m.termValues a ts)

end

/-- Whether a condition holds of all elements of a list, tried in order up to the first for which it
does not. -/
def forEvery (p : String → Outcome Bool) : List String → Outcome Bool
  | [] => .ok true
  | e :: es => do if ← p e then forEvery p es else return false

/-- Whether a condition holds of some element of a list, tried in order up to the first for which it
does. -/
def forSome (p : String → Outcome Bool) : List String → Outcome Bool
  | [] => .ok false
  | e :: es => do if ← p e then return true else forSome p es

/-- The truth value of a formula under an assignment. -/
def formulaValue (m : Model) (a : Assignment) : Formula → Outcome Bool
  | .equal l r => do
    let v ← m.termValue a l
    return decide (v = (← m.termValue a r))
  | .rel name ts => do
    let values ← m.termValues a ts
    let tuples ← Failure.unknownKey.orElse (Table.find? m.relations name)
    return tuples.contains values
  | .neg f => do return !(← m.formulaValue a f)
  | .bin op l r => do
    let v ← m.formulaValue a l
    return op.eval v (← m.formulaValue a r)
  | .quant .universal x f => forEvery (fun e => m.formulaValue (Table.put a x e) f) m.domain
  | .quant .existential x f => forSome (fun e => m.formulaValue (Table.put a x e) f) m.domain
  | .bare _ => .error .absent

/-! ## Evaluation -/

/-- Requires that constants have meanings, and functions too, with the numbers of arguments that they
are used with. -/
def checkTermNames (m : Model) (constants : List String) (functions : List (String × Nat)) :
    Outcome Unit := do
  require (constants.all (Table.hasKey m.constants)) .meaning
  require (functions.all fun f => decide (m.functionArity? f.1 = some f.2)) .meaning

/-- Requires that all names of a formula have meanings. A relation without tuples may be used with any
number of arguments. -/
def checkNames (m : Model) (f : Formula) : Outcome Unit := do
  let f ← f.named
  m.checkTermNames f.constants f.functions
  require (f.relations.all fun r => Table.hasKey m.relations r.1 &&
    match m.relationArity? r.1 with
    | some n => decide (n = r.2)
    | none => true) .meaning

/-- The value of a term whose names must have meanings and whose variables must be assigned. -/
def evaluateTerm (m : Model) (t : Term) (a : Assignment) : Outcome String := do
  let t ← t.given
  m.checkTermNames t.constants t.functions
  require (t.vars.all (Table.hasKey a)) .covered
  m.termValue a t

/-- The truth value of a formula whose names must have meanings and whose free variables must be
assigned. -/
def evaluate (m : Model) (f : Formula) (a : Assignment) : Outcome Bool := do
  m.checkNames f
  require (f.freeVariables.all (Table.hasKey a)) .covered
  m.formulaValue a f

/-- All assignments of elements to a list of variables, in lexicographic order. -/
def assignments (domain : List String) : List String → List Assignment
  | [] => [[]]
  | x :: xs => domain.flatMap fun e => (assignments domain xs).map ((x, e) :: ·)

/-- Whether a formula holds under all assignments of its free variables. -/
def satisfies (m : Model) (f : Formula) : Outcome Bool :=
  go (assignments m.domain f.freeVariables)
where
  /-- Tries assignments up to the first under which the formula fails. -/
  go : List Assignment → Outcome Bool
    | [] => .ok true
    | a :: as => do if ← m.evaluate f a then go as else return false

/-- Whether all formulas of a list hold under all assignments. -/
def isModelOf (m : Model) (fs : List Formula) : Outcome Bool := do
  fs.forM m.checkNames
  go fs
where
  /-- Tries formulas up to the first that fails. -/
  go : List Formula → Outcome Bool
    | [] => .ok true
    | f :: fs => do if ← m.satisfies f then go fs else return false

end Model

end FormalLogic.Predicate
