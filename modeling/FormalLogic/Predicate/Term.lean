import FormalLogic.Predicate.Name
import FormalLogic.Table

/-!
# Terms

A term is a constant, a variable, or a function applied to terms. Functions on terms come in pairs,
one for a term and one for a list of terms.

An argument may not have been given. Its place holds the term `missing`, which has a text of its own.
Names are collected from an application up to its first missing argument; looking into a missing term
fails.
-/

namespace FormalLogic.Predicate

/-- A term, or the place of one that was not given. -/
inductive Term
  | const (name : String)
  | var (name : String)
  | app (name : String) (args : List Term)
  | missing
  deriving Repr

/-! ## Equality -/

mutual

/-- Decides equality of terms. -/
def Term.decEq : (s t : Term) → Decidable (s = t)
  | .const a, .const b => if h : a = b then isTrue (by rw [h]) else isFalse (by simp [h])
  | .var a, .var b => if h : a = b then isTrue (by rw [h]) else isFalse (by simp [h])
  | .app a ss, .app b ts =>
    if h : a = b then
      match Term.decEqList ss ts with
      | isTrue h' => isTrue (by rw [h, h'])
      | isFalse h' => isFalse (by simp [h'])
    else isFalse (by simp [h])
  | .missing, .missing => isTrue rfl
  | .const _, .var _ => isFalse (by simp)
  | .const _, .app _ _ => isFalse (by simp)
  | .const _, .missing => isFalse (by simp)
  | .var _, .const _ => isFalse (by simp)
  | .var _, .app _ _ => isFalse (by simp)
  | .var _, .missing => isFalse (by simp)
  | .app _ _, .const _ => isFalse (by simp)
  | .app _ _, .var _ => isFalse (by simp)
  | .app _ _, .missing => isFalse (by simp)
  | .missing, .const _ => isFalse (by simp)
  | .missing, .var _ => isFalse (by simp)
  | .missing, .app _ _ => isFalse (by simp)

/-- Decides equality of lists of terms. -/
def Term.decEqList : (ss ts : List Term) → Decidable (ss = ts)
  | [], [] => isTrue rfl
  | [], _ :: _ => isFalse (by simp)
  | _ :: _, [] => isFalse (by simp)
  | s :: ss, t :: ts =>
    match Term.decEq s t with
    | isTrue h =>
      match Term.decEqList ss ts with
      | isTrue h' => isTrue (by rw [h, h'])
      | isFalse h' => isFalse (by simp [h'])
    | isFalse h => isFalse (by simp [h])

end

instance : DecidableEq Term := Term.decEq

namespace Term

/-- The name at the root of a term. -/
def root : Term → String
  | const name => name
  | var name => name
  | app name _ => name
  | missing => ""

/-- The arguments of the root. -/
def args : Term → List Term
  | app _ ts => ts
  | _ => []

/-- Whether a term applies a function. -/
def isApp : Term → Bool
  | app _ _ => true
  | _ => false

/-- Whether no term was given. -/
def isMissing : Term → Bool
  | missing => true
  | _ => false

/-- A term that is looked into, and must have been given. -/
def given (t : Term) : Outcome Term :=
  if t.isMissing then .error .absent else .ok t

/-! ## Text -/

mutual

/-- The text of a term. -/
def text : Term → String
  | const name => name
  | var name => name
  | app name ts => name ++ "(" ++ ",".intercalate (texts ts) ++ ")"
  | missing => "None"

/-- The texts of terms. -/
def texts : List Term → List String
  | [] => []
  | t :: ts => t.text :: texts ts

end

@[simp] theorem texts_eq_map (ts : List Term) : texts ts = ts.map text := by
  induction ts with
  | nil => rfl
  | cons t ts ih => simp [texts, ih]

/-! ## Names in a term -/

mutual

/-- The constants of a term, from left to right. -/
def constantLeaves : Term → List String
  | const name => [name]
  | var _ => []
  | app _ ts => constantLeavesOf ts
  | missing => []

/-- The constants of terms, up to the first missing one. -/
def constantLeavesOf : List Term → List String
  | [] => []
  | missing :: _ => []
  | t :: ts => t.constantLeaves ++ constantLeavesOf ts

end

mutual

/-- The variables of a term, from left to right. -/
def variableLeaves : Term → List String
  | const _ => []
  | var name => [name]
  | app _ ts => variableLeavesOf ts
  | missing => []

/-- The variables of terms, up to the first missing one. -/
def variableLeavesOf : List Term → List String
  | [] => []
  | missing :: _ => []
  | t :: ts => t.variableLeaves ++ variableLeavesOf ts

end

mutual

/-- The functions of a term with their numbers of arguments, from left to right. -/
def functionNodes : Term → List (String × Nat)
  | const _ => []
  | var _ => []
  | app name ts => (name, ts.length) :: functionNodesOf ts
  | missing => []

/-- The functions of terms, up to the first missing one. -/
def functionNodesOf : List Term → List (String × Nat)
  | [] => []
  | missing :: _ => []
  | t :: ts => t.functionNodes ++ functionNodesOf ts

end

/-- The set of constants of a term. -/
def constants (t : Term) : List String :=
  sortedSet t.constantLeaves

/-- The set of variables of a term. -/
def vars (t : Term) : List String :=
  sortedSet t.variableLeaves

end Term

/-- A set of names with numbers of arguments, in ascending order. -/
def sortedSignature (l : List (String × Nat)) : List (String × Nat) :=
  l.eraseDups.mergeSort fun a b => if a.1 = b.1 then decide (a.2 ≤ b.2) else decide (a.1 ≤ b.1)

namespace Term

/-- The set of functions of a term. -/
def functions (t : Term) : List (String × Nat) :=
  sortedSignature t.functionNodes

/-- The leaf with the given name, which must be that of a constant or a variable. -/
def leaf (name : String) : Outcome Term := do
  if ← checkName isConstant name then return const name
  else if isVariable name then return var name
  else .error (.unmet .wellFormed)

/-- Makes a term of a root and its arguments. A constant or variable takes none, a function at least
one. -/
def make (root : String) (arguments : Option (List Term)) : Outcome Term := do
  if ← checkName isReplaceable root then
    require arguments.isNone .wellFormed
    leaf root
  else
    require (isFunction root) .wellFormed
    match arguments with
    | some (t :: ts) => return app root (t :: ts)
    | _ => .error (.unmet .wellFormed)

/-! ## Substitution -/

/-- Images of constants and variables. -/
abbrev Images := List (String × Term)

/-- Reports the insertion of a forbidden name, which must be a variable. -/
def refuse (name : String) : Outcome Unit := do
  requireName isVariable name
  .error (.forbiddenVariable name)

mutual

/-- Refuses a term with a forbidden name among its leaves; the first such leaf is reported, unless a
term is missing before it. -/
def checkAllowed (forbidden : List String) : Term → Outcome Unit
  | const name => if forbidden.contains name then refuse name else .ok ()
  | var name => if forbidden.contains name then refuse name else .ok ()
  | app _ ts => checkAllowedAll forbidden ts
  | missing => .error .absent

/-- Refuses terms with a forbidden name among their leaves. -/
def checkAllowedAll (forbidden : List String) : List Term → Outcome Unit
  | [] => .ok ()
  | t :: ts => do
    t.checkAllowed forbidden
    checkAllowedAll forbidden ts

end

/-- The image of a leaf, which must not contain a forbidden variable. -/
def leafImage (m : Images) (forbidden : List String) (t : Term) (name : String) : Outcome Term :=
  match Table.find? m name with
  | some s => do
    s.checkAllowed forbidden
    return s
  | none => .ok t

mutual

/-- Replaces constants and variables by their images, simultaneously. -/
def replace (m : Images) (forbidden : List String) : Term → Outcome Term
  | const name => leafImage m forbidden (const name) name
  | var name => leafImage m forbidden (var name) name
  | app name ts => do return app name (← replaceAll m forbidden ts)
  | missing => .error .absent

/-- Replaces constants and variables in terms. -/
def replaceAll (m : Images) (forbidden : List String) : List Term → Outcome (List Term)
  | [] => .ok []
  | t :: ts => do
    let t' ← t.replace m forbidden
    return t' :: (← replaceAll m forbidden ts)

end

/-- Requires the keys of a substitution to be constants and variables and the forbidden names to be
variables. -/
def checkSubstitution (m : Images) (forbidden : List String) : Outcome Unit := do
  m.forM fun e => do require (← checkName isReplaceable e.1) .substitutable
  forbidden.forM (requireName isVariable)

/-- Replaces constants and variables by their images; no image that is used may contain a forbidden
variable. -/
def substitute (m : Images) (forbidden : List String) (t : Term) : Outcome Term := do
  let t ← t.given
  checkSubstitution m forbidden
  t.replace m forbidden

end Term

end FormalLogic.Predicate
