import FormalLogic.Propositional.Conversion
import FormalLogic.Propositional.Draft
import FormalLogic.Propositional.Substitution
import FormalLogic.Tour.Item

/-!
# Tours of propositional syntax
-/

namespace FormalLogic.Tour

open Propositional

/-- Formulas over all connectives. -/
def formulaTexts : List String :=
  ["~(p&q76)", "((p->q)->(~q->~p))", "(p|(q&~r))", "((p<->q)+r)", "(T-&F)", "(p-|q)",
    "((p->q)->((q->r)->(p->r)))", "~~~p12", "(((p&q)|r)->~(s&t))", "(p->(q->(r->(s->t))))"]

/-- A formula over all connectives, read from its text. -/
def formula (s : String) : Outcome Formula := Formula.parse Connective.all s

/-- A table of formulas, read from their texts. -/
def images (m : List (String × String)) : Outcome (List (String × Formula)) :=
  m.mapM fun e => do return (e.1, ← formula e.2)

/-- Reads texts, good and bad ones. -/
def parsing : Session := fun n => do
  let d := Connective.all
  let good ← ((cycle formulaTexts n).mapM fun s => do
    let f ← Formula.parse d s
    return item [item f, item (Formula.isText d s), item f.vars, item f.operators,
      item (decide (readText d s = (some f, "")))] : Outcome _)
  let bad := ["", "~", "(p", "(p)", "&p", "(p&)", "(p&q", "a", ")", "(&p)"].map (readText d)
  return .row (good ++ bad.map item ++
    [item (Formula.isText d "p"), item (Formula.isText d "pq"), item (Formula.isText d "T"),
      .nothing, .nothing])

/-! ## Substitution -/

/-- What is put in place of connectives and constants. -/
def operatorImages : List (String × String) :=
  [("&", "~(~p|~q)"), ("~", "(p-&p)"), ("->", "(~p|q)"), ("T", "(p|~p)"), ("F", "(p&~p)")]

/-- Replaces connectives, then variables. -/
def substitution : Session := fun n => do
  let base := ["((x&y)&~z)", "(T->F)", "(p<->q)", "~(p|q)", "(p->(q->r))", "((p+q)-|r)"]
  let operators ← images operatorImages
  let vars ← images [("p", "(q&r)"), ("q", "~s")]
  let d := Connective.all
  let pairs ← ((cycle base n).mapM fun s => do
    let f ← formula s
    let g ← f.substituteOperators d operators
    let h ← g.substituteVariables vars false false
    let h' ← (← formula g.text).substituteVariables vars false false
    return [item h, item h'] : Outcome _)
  let f := Formula.var "p"
  let refused := refusals [
    (do let _ ← f.substituteVariables [("T", f)] false false : Outcome Unit),
    (do let _ ← f.substituteOperators d [("p", f)] : Outcome Unit),
    (do let _ ← f.substituteOperators d [("&", .var "r")] : Outcome Unit)]
  return .row (pairs.flatten ++ [item refused])

/-! ## Dialects -/

/-- Texts of which the first part is a formula in every dialect. -/
def basicTexts : List String :=
  ["~(p&q76)", "((p->q)->(~q->~p))", "(p|(q&~r))", "((p->q)->((q->r)->(p->r)))", "~~~p12", "(T&F)",
    "p12x", "Tx"]

/-- Reads texts in a dialect. -/
def dialect (d : Dialect) (n : Int) : Outcome (List Item) := do
  let good := (cycle basicTexts n).map fun s => [item (readText d s), item (Formula.isText d s)]
  let bad := ["", "~", "(p", "(p)", "&p", "(p&q", "a", ")"].map (readText d)
  let f ← Formula.parse d "(p->q)"
  let g ← Formula.parse d "(p->q)"
  return good.flatten ++ bad.map item ++
    [item [item f, item (decide (f = g)), item (!decide (f ≠ g)), .digest, item f.vars,
      item f.operators],
      item (isVariable "p"), item (isConstant "T"), item (isUnary "p")]

/-- Reads texts in the dialect of the basic connectives, in which nothing is replaced. -/
def basicDialect (n : Int) : Outcome (List Item) := do
  Formula.checkKeys false [("p", .var "r")]
  return (← dialect Connective.basic n) ++
    [.nothing, .nothing, .nothing, .nothing, item (Formula.isText Connective.basic "(p+q)")]

/-- Reads texts in the dialect of all connectives, and replaces in the given way. -/
def fullDialect (n : Int) (replaced : Formula → Outcome (List Item)) : Outcome (List Item) := do
  let d := Connective.all
  let f ← formula "(p->q)"
  let refused := refusals [
    (do let _ ← f.copyVariables d [("T", f)] : Outcome Unit),
    (do let _ ← f.substituteVariables [("T", f)] false false : Outcome Unit),
    (do let _ ← Formula.checkOperatorImages d [("p", f)] : Outcome Unit)]
  return (← dialect d n) ++ (← replaced f) ++
    [.nothing, .nothing, item (Formula.isText d "(p"), item refused]

/-- Replacements in formulas over all connectives. -/
def replacements : Outcome (List Item) := do
  let d := Connective.all
  let arrow ← images [("->", "(~p|q)")]
  let p ← images [("p", "(q&r)")]
  let pairs ← formulaTexts.mapM fun s => do
    let f ← formula s
    return [item (← f.substituteOperators d arrow),
      item (← f.substituteVariables p false false)]
  let constants ← images [("T", "(p|~p)"), ("F", "(p&~p)"), ("~", "(p-&p)")]
  let replaced ← ["(T&F)", "((T|F)&~T)", "(F->(T&F))", "(~T&~F)", "(~(p&q)|~r)"].mapM fun s => do
    return item (← (← formula s).substituteOperators d constants)
  let vars ← [("((p->q)|r)", "z"), ("((p->T)|r)", "~s"), ("((p->q)|~r)", "z")].mapM fun e => do
    let m ← images [("p", "(q&r)"), ("r", e.2)]
    return item (← (← formula e.1).substituteVariables m false false)
  let f := Formula.var "p"
  let refused := refusals [
    (do let _ ← f.substituteVariables [("T", f)] false false : Outcome Unit),
    (do let _ ← f.substituteVariables [("~", f)] false true : Outcome Unit),
    (do let _ ← f.substituteVariables [("", f)] false false : Outcome Unit),
    (do let _ ← f.substituteOperators d [("p", f)] : Outcome Unit),
    (do let _ ← f.substituteOperators d [("&", .var "r")] : Outcome Unit),
    (do let _ ← f.substituteOperators d [("", f)] : Outcome Unit)]
  return pairs.flatten ++ replaced ++ vars ++ [item refused]

/-- Reads texts with the draft reader. -/
def drafts (n : Int) : Outcome (List Item) := do
  let read (s : String) : Outcome Item := do
    return item ((← Draft.readText s).1.map Draft.Piece.text)
  let good ← (cycle basicTexts n).mapM read
  let f ← Formula.parse Connective.basic "(~p&q)"
  let operator := (readConnective Connective.basic ['&', 'q']).map fun o => o.value.symbol
  return good ++ [.nothing, .nothing, .nothing, .nothing, item operator, .nothing, .nothing, .nothing,
    ← read "(T|F)",
    item [item f, item f.vars, item f.operators, .digest, item (decide (f = f)),
      item (!decide (f ≠ f))],
    refusal (Draft.parse "p"), item (isVariable "p"), item (isConstant "p"), item (isUnary "~"),
    .nothing, .nothing, .nothing, .nothing,
    refusal (Formula.make Connective.basic "&" [])]

/-- Reads texts in all dialects. -/
def dialects : Session := fun n => do
  let basic ← basicDialect n
  let replacing ← fullDialect n fun f => do
    let g ← f.substituteVariables [("p", .var "r")] false false
    return [item g, item (← f.substituteOperators Connective.all [("&", f)])]
  let copying ← fullDialect n fun f => do
    return [item (← f.copyVariables Connective.all [("p", .var "r")]), .nothing]
  return .row (basic ++ basic ++ replacing ++ copying ++ (← replacements) ++ (← drafts n))

/-! ## Conversion -/

/-- Converts formulas to smaller sets of connectives. -/
def conversion : Session := fun n => do
  let converted ← ((cycle (formulaTexts.drop 3) n).mapM fun s => do
    let f ← formula s
    return [f.toNotAndOr, f.toNotAnd, f.toNand, f.toImpliesNot, f.toImpliesFalse].map item
    : Outcome _)
  return .row converted.flatten

end FormalLogic.Tour
