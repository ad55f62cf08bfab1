import FormalLogic.FreshNames
import FormalLogic.Predicate.Model

/-!
# Functions as relations

A function is the same as its graph: the relation that holds of a value followed by arguments with
that value. The relation is named like the function, with a capital letter. In a formula, every
application of a function is given a fresh variable, which a quantifier in front binds to the value.
-/

namespace FormalLogic.Predicate

/-! ## Names -/

/-- Changes the first character of a name. -/
def mapFirst (g : Char → Char) (name : String) : String :=
  match name.toList with
  | [] => ""
  | c :: cs => String.ofList (g c :: cs)

/-- The relation with the name of a function. -/
def graphName (function : String) : String :=
  mapFirst Char.toUpper function

/-- The function with the name of a relation. -/
def ofGraphName (relation : String) : String :=
  mapFirst Char.toLower relation

/-- The name of the graph of a function. -/
def functionToRelation (name : String) : Outcome String := do
  requireName isFunction name
  return graphName name

/-- The name of the function of a graph. -/
def relationToFunction (name : String) : Outcome String := do
  requireName isRelation name
  return ofGraphName name

/-! ## Models -/

namespace Model

/-- The tuple of the graph for an entry of a function's table. Each argument contributes its
characters, so that the tuple has the right length for elements of one character. -/
def graphTuple (e : List String × String) : List String :=
  e.2 :: e.1.flatMap fun arg => arg.toList.map fun c => String.ofList [c]

/-- The model with relations in place of functions. -/
def functionsToRelations (m : Model) : Outcome Model := do
  m.functions.forM fun f => require (!Table.hasKey m.relations (graphName f.1)) .distinctNames
  let graphs := m.functions.map fun f => (graphName f.1, f.2.map graphTuple)
  make m.domain m.constants (m.relations ++ graphs) []

/-- The table of a function whose graph has the given tuples; none if two values are given for the
same arguments. -/
def tableOfGraph (table : List (List String × String)) :
    List (List String) → Outcome (Option (List (List String × String)))
  | [] => .ok (some table)
  | [] :: _ => .error .outOfRange
  | (value :: args) :: rest =>
    match Table.find? table args with
    | some v => if v = value then tableOfGraph table rest else .ok none
    | none => tableOfGraph (table ++ [(args, value)]) rest

/-- Turns the chosen relations into tables of functions; none if one of them is no graph. -/
def graphsToTables (chosen : List String) : List (String × List (List String)) →
    Outcome (Option (List (String × List (List String × String))))
  | [] => .ok (some [])
  | (name, tuples) :: rest =>
    if chosen.contains name then do
      match ← tableOfGraph [] tuples with
      | none => return none
      | some table =>
        match ← graphsToTables chosen rest with
        | none => return none
        | some tables => return some ((ofGraphName name, table) :: tables)
    else graphsToTables chosen rest

/-- Whether every table has an entry for all tuples of the length of its first one. -/
def tablesTotal (m : Model) : List (String × List (List String × String)) → Outcome Bool
  | [] => .ok true
  | (_, []) :: _ => .error .noTuple
  | (_, (args, v) :: rest) :: others =>
    if ((args, v) :: rest).length = m.domain.length ^ args.length then m.tablesTotal others
    else .ok false

/-- The model with functions in place of their graphs; none if one of the relations is not the graph
of a total function. -/
def relationsToFunctions (m : Model) (names : List String) : Outcome (Option Model) := do
  names.forM fun f => do
    requireName isFunction f
    require (!Table.hasKey m.functions f) .distinctNames
    require (Table.hasKey m.relations (graphName f)) .meaning
  let chosen := names.map graphName
  match ← graphsToTables chosen m.relations with
  | none => return none
  | some tables =>
    if ← m.tablesTotal tables then
      return some (← make m.domain m.constants
        (m.relations.filter fun r => !chosen.contains r.1) tables)
    else return none

end Model

/-! ## Terms -/

/-- A step that gives a name to the value of a function: the variable is equal to the function, applied
to constants and variables. -/
structure CompiledStep where
  target : String
  function : String
  args : List Term
  deriving DecidableEq, Repr

namespace CompiledStep

/-- A step as an equality. -/
def equality (s : CompiledStep) : Formula :=
  .equal (.var s.target) (.app s.function s.args)

/-- A step as an atomic formula of the graph. -/
def graphAtom (s : CompiledStep) : Formula :=
  .rel (graphName s.function) (.var s.target :: s.args)

end CompiledStep

mutual

/-- Names all applications in a term, arguments before what they are arguments of, and gives the
constant or variable that has the value of the whole. -/
def Term.compileSteps : Term → Fallible (List CompiledStep × Term)
  | .const name => return ([], .const name)
  | .var name => return ([], .var name)
  | .app name ts => do
    let (steps, args) ← Term.compileArguments ts
    let z ← freshVariable
    return (steps ++ [⟨z, name, args⟩], .var z)
  | .missing => throw .absent

/-- Names all applications in a list of terms. -/
def Term.compileArguments : List Term → Fallible (List CompiledStep × List Term)
  | [] => return ([], [])
  | t :: ts => do
    let (steps, t') ← t.compileSteps
    let (steps', ts') ← Term.compileArguments ts
    return (steps ++ steps', t' :: ts')

end

/-- The steps that compute a term, which must apply a function. -/
def Term.compile (t : Term) : Fallible (List CompiledStep) := do
  let t ← t.given
  require t.isApp .shape
  return (← t.compileSteps).1

/-! ## Formulas -/

namespace Formula

/-- Puts steps in front of a formula, each as a quantification over its variable. -/
def boundBy (f : Formula) (steps : List CompiledStep) : Formula :=
  steps.foldr (fun s g => forAll s.target (imp s.graphAtom g)) f

/-- Requires that no name is both that of a relation and that of a function's graph, and that no
variable could be a fresh one. -/
def checkGraphNames (fs : List Formula) : Outcome Unit := do
  let fs ← fs.mapM named
  let graphs := fs.flatMap fun f => f.functions.map fun g => graphName g.1
  let relations := fs.flatMap fun f => f.relations.map Prod.fst
  require (graphs.all fun g => !relations.contains g) .distinctNames
  require (fs.all fun f => f.vars.all fun x => decide (x.toList.head? ≠ some 'z')) .distinctNames

/-- Replaces the functions of a formula by relations. -/
def withoutFunctions : Formula → Fallible Formula
  | equal l r => do
    let (steps, l') ← l.compileSteps
    let (steps', r') ← r.compileSteps
    return (equal l' r').boundBy (steps ++ steps')
  | rel name ts => do
    let (steps, ts') ← Term.compileArguments ts
    return (rel name ts').boundBy steps
  | neg f => do return neg (← f.withoutFunctions)
  | bin op l r => do
    let l' ← l.withoutFunctions
    return bin op l' (← r.withoutFunctions)
  | quant q x f => do return quant q x (← f.withoutFunctions)
  | bare _ => throw .absent

/-- Replaces the functions of a formula by relations with the names of their graphs. -/
def functionsToRelations (f : Formula) : Fallible Formula := do
  checkGraphNames [f]
  f.withoutFunctions

/-- The variables `z3, z4, …` for the arguments of a graph. -/
def graphArguments (n : Nat) : List String :=
  (List.range n).map fun (i : Nat) => "z" ++ Text.decimal (i + 3)

/-- Every argument has a value, and only one, under the relation of a step. -/
def graphAxioms (s : CompiledStep) : List Formula :=
  let names := graphArguments s.args.length
  let args := names.map Term.var
  let atom (t : String) := rel (graphName s.function) (.var t :: args)
  let close (f : Formula) := names.foldl (fun g x => forAll x g) f
  [close (exist s.target (atom s.target)),
    close (forAll "z1" (forAll "z2"
      (imp (conj (atom "z1") (atom "z2")) (equal (.var "z1") (.var "z2")))))]

/-- Replaces the functions of a relation formula by relations, and adds that these are graphs. Other
formulas are left as they are. -/
def graphFormulas : Formula → Fallible (List Formula)
  | rel name ts => do
    let (steps, ts') ← Term.compileArguments ts
    return (rel name ts').boundBy steps :: steps.flatMap graphAxioms
  | f => return [f]

/-- Replaces the functions of relation formulas in a set by relations with the names of their graphs.
There must be a formula in the set. -/
def allFunctionsToRelations (fs : List Formula) : Fallible (List Formula) := do
  if fs.isEmpty then throw .wrongSort
  checkGraphNames fs
  let parts ← fs.mapM graphFormulas
  return parts.flatten.eraseDups

end Formula

end FormalLogic.Predicate
