import FormalLogic.Predicate.FunctionElimination

/-!
# Equality as a relation

Equality is replaced by the relation `SAME`, together with axioms that make it an equivalence which the
relations respect. Conversely, a model of these axioms is turned into one in which `SAME` is equality,
by choosing one element of every class.
-/

namespace FormalLogic.Predicate

/-- The name of the relation that stands for equality. -/
def sameName : String := "SAME"

namespace Formula

/-- The formula that two terms are the same. -/
def same (s t : Term) : Formula :=
  rel sameName [s, t]

/-- Replaces equality by the relation. -/
def equalityToSame : Formula → Formula
  | equal l r => same l r
  | rel name ts => rel name ts
  | neg f => neg f.equalityToSame
  | bin op l r => bin op l.equalityToSame r.equalityToSame
  | quant q x f => quant q x f.equalityToSame
  | bare t => bare t

/-- The relation is reflexive, symmetric and transitive. -/
def sameAxioms : List Formula :=
  let x := Term.var "x"
  let y := Term.var "y"
  let z := Term.var "z"
  [forAll "x" (same x x), forAll "y" (forAll "x" (imp (same x y) (same y x))),
    forAll "z" (forAll "y" (forAll "x" (imp (conj (same x y) (same y z)) (same x z))))]

/-- A relation with arguments respects the relation that stands for equality. -/
def respectAxiom (name : String) (arity : Nat) : Outcome Formula := do
  let numbers := (List.range arity).map fun (i : Nat) => Text.decimal (i + 1)
  let xs := numbers.map fun i => "x" ++ i
  let ys := numbers.map fun i => "y" ++ i
  match (xs.zip ys).map fun p => same (.var p.1) (.var p.2) with
  | [] => .error (.unmet .wellFormed)
  | first :: others =>
    let pairs := others.foldl conj first
    let body := imp pairs (imp (rel name (xs.map .var)) (rel name (ys.map .var)))
    return (xs ++ ys).foldl (fun f x => forAll x f) body

/-- Replaces equality in a set of formulas without functions, and adds the axioms. The relations that
are said to respect it are those of the last formula. -/
def allEqualitiesToSame (fs : List Formula) : Outcome (List Formula) := do
  fs.forM fun f => do
    let f ← f.named
    require f.functions.isEmpty .shape
    require (f.relations.all fun r => decide (r.1 ≠ sameName)) .distinctNames
  let relations := (fs.getLast?.map relations).getD []
  let respects ← relations.mapM fun r => respectAxiom r.1 r.2
  return (fs.map equalityToSame ++ sameAxioms ++ respects).eraseDups

end Formula

namespace Model

/-- Adds the relation that holds of equal elements. -/
def addSame (m : Model) : Outcome Model := do
  require (!Table.hasKey m.relations sameName) .distinctNames
  make m.domain m.constants (m.relations ++ [(sameName, m.domain.map fun e => [e, e])])
    m.functions

/-! ## Choosing representatives -/

/-- The representatives of the elements met so far, and those that still stand for a class. -/
structure Classes where
  chosen : List (String × String) := []
  classes : List String := []
  deriving DecidableEq, Repr

namespace Classes

/-- Requires an element to stand for a class. -/
def requireClass (c : Classes) (e : String) : Outcome Unit :=
  if c.classes.contains e then .ok () else .error .unknownKey

/-- Takes account of two elements being the same. When two classes meet, the one of the second element
is given up, and that element is represented by the first element itself. -/
def join (c : Classes) (a b : String) : Outcome Classes :=
  if a = b then
    match Table.find? c.chosen a with
    | some _ => .ok c
    | none => .ok ⟨Table.put c.chosen a a, c.classes ++ [a]⟩
  else
    match Table.find? c.chosen a, Table.find? c.chosen b with
    | none, none => .ok ⟨Table.put (Table.put c.chosen a a) b a, c.classes ++ [a]⟩
    | none, some r => do
      c.requireClass r
      return { c with chosen := Table.put c.chosen a r }
    | some r, none => do
      c.requireClass r
      return { c with chosen := Table.put c.chosen b r }
    | some r, some s =>
      if r = s then .ok c
      else do
        c.requireClass s
        let c' : Classes := { c with classes := c.classes.erase s }
        c'.requireClass r
        return { c' with chosen := Table.put c.chosen b a }

/-- Takes account of all pairs of a relation. -/
def joinAll (c : Classes) : List (List String) → Outcome Classes
  | [] => .ok c
  | [a, b] :: rest => do (← c.join a b).joinAll rest
  | _ :: _ => .error (.unmet .interpretation)

/-- The representative of an element. -/
def representative (c : Classes) (e : String) : Outcome String :=
  Failure.unknownKey.orElse (Table.find? c.chosen e)

end Classes

/-- The model of the classes of the relation that stands for equality. -/
def sameToEquality (m : Model) : Outcome Model := do
  require (decide (m.relationArity? sameName = some 2)) .shape
  require m.functions.isEmpty .shape
  let c ← ({} : Classes).joinAll ((Table.find? m.relations sameName).getD [])
  let constants ← m.constants.mapM fun k => do return (k.1, ← c.representative k.2)
  let others := m.relations.filter fun r => decide (r.1 ≠ sameName)
  let relations ← others.mapM fun r => do
    return (r.1, ← r.2.mapM fun t => t.mapM c.representative)
  make c.classes constants relations []

end Model

end FormalLogic.Predicate
