import FormalLogic.Propositional.Reading
import FormalLogic.Propositional.Semantics

/-!
# Formulas from truth tables

A clause holds in exactly one valuation of its variables: it is the conjunction of the variables that
are true there and the negations of the others. The disjunction of the clauses of all rows with the
value true has the given truth table. If no row has it, a contradiction in the first variable does.
-/

namespace FormalLogic.Propositional

/-- A variable, or its negation if its value is false. -/
def literal (name : String) (value : Bool) : Formula :=
  if value then .var name else .neg (.var name)

/-- Joins formulas by a connective, associating to the left. -/
def joinLeft (op : Connective) : List Formula → Option Formula
  | [] => none
  | f :: fs => some (fs.foldl (.bin op) f)

/-- The clause that holds in the given valuation only. -/
def clause (m : Valuation) : Option Formula :=
  joinLeft .and (m.map fun e => literal e.1 e.2)

/-- The clause of entries that must be a valuation. -/
def clauseOfMarks (entries : List (String × Mark)) : Outcome (Option Formula) := do
  return clause (← Mark.toValuation entries)

/-- The clause of a valuation whose keys must be variables. -/
def clauseOf (m : Valuation) : Outcome (Option Formula) :=
  clauseOfMarks (m.map fun e => (e.1, .truth e.2))

/-- The contradiction that a text is read as when it is put in place of a variable. -/
def contradictionIn (name : String) : Option Formula :=
  (readText Connective.all ("(" ++ name ++ "&~" ++ name ++ ")")).1

/-- A formula with the given values in the valuations of the given variables. Rows beyond the
shorter of the two lists are left out of account, except that a true value in any row excludes the
contradiction. -/
def synthesize (names : List String) (values : List Mark) : Outcome (Option Formula) := do
  match names with
  | [] => .error (.unmet .nonempty)
  | first :: _ =>
    if values.isEmpty then return none
    else if !values.contains (.truth true) then return contradictionIn first
    else
      let chosen := ((Valuation.all names).zip values).filter fun row => row.2.counts
      let clauses ← chosen.mapM fun row => clauseOf row.1
      return joinLeft .or (clauses.filterMap id)

end FormalLogic.Propositional
