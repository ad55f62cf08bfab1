import FormalLogic.Propositional.Reading

/-!
# Substitution in propositional formulas

Variables are replaced simultaneously: what a replacement brings in is not replaced again. The same
holds for operators, whose images are formulas in the operand places `p` and `q`.

The image of a name may be missing. A formula that is such a name then has a missing result, and a
formula with such a name below its root cannot be built.

Formulas can also be copied while each operand is looked up by its text, and each root by its symbol, in a
table of images. With a table of variables, or of operators, this comes to the same.
-/

namespace FormalLogic.Propositional

/-- Images of names. -/
abbrev Substitution := List (String × Formula)

namespace Formula

/-! ## Variables -/

/-- Replaces every variable by its image. -/
def subst (σ : String → Formula) : Formula → Formula
  | var name => σ name
  | const value => const value
  | neg f => neg (f.subst σ)
  | bin op l r => bin op (l.subst σ) (r.subst σ)
  | missing => missing

/-- The images given by a table; a variable without an entry stays. -/
def imageIn (m : Substitution) (name : String) : Formula :=
  (Table.find? m name).getD (var name)

/-- Replaces leaves by images that may be missing. -/
def substPartial (m : Substitution) : Formula → Outcome Formula
  | var name => .ok ((Table.find? m name).getD (var name))
  | const value => .ok ((Table.find? m (constText value)).getD (const value))
  | neg f => do
    let f' ← f.substPartial m
    return neg (← f'.present)
  | bin op l r => do
    let l' ← l.substPartial m
    let r' ← r.substPartial m
    return bin op (← l'.present) (← r'.present)
  | missing => .error .absent

/-- Requires of every key that it is a variable, or also a constant where these are allowed. -/
def checkKeys (allowConstants : Bool) (m : Substitution) : Outcome Unit :=
  m.forM fun e => do
    let leaf ← checkVariable e.1
    require (leaf || (allowConstants && isConstant e.1)) .substitutable

/-- Replaces variables, and constants where these are allowed, by their images. Missing images are
left out of account if so asked. -/
def substituteVariables (m : Substitution) (skipMissing allowConstants : Bool) (f : Formula) :
    Outcome Formula := do
  let f ← f.given
  checkKeys allowConstants m
  f.substPartial (if skipMissing then m.filter fun e => !e.2.isMissing else m)

/-! ## Operators -/

/-- The places of the operands in the image of an operator. -/
def operandPlaces : List String := ["p", "q"]

/-- Replaces every operator and constant by its image, applied to the operands. -/
def substOperators (m : Substitution) : Formula → Formula
  | var name => var name
  | const value => (Table.find? m (constText value)).getD (const value)
  | neg f =>
    match Table.find? m "~" with
    | some g => g.subst (imageIn [("p", f.substOperators m)])
    | none => neg (f.substOperators m)
  | bin op l r =>
    match Table.find? m op.symbol with
    | some g => g.subst (imageIn [("p", l.substOperators m), ("q", r.substOperators m)])
    | none => bin op (l.substOperators m) (r.substOperators m)
  | missing => missing

/-- Requires of every entry that its key is an operator or a constant and its image a formula in
the operand places. -/
def checkOperatorImages (d : Dialect) (m : Substitution) : Outcome Unit :=
  m.forM fun e => do
    require (isBinary d e.1 || isUnary e.1 || isConstant e.1) .substitutable
    let g ← e.2.given
    require (subset g.vars operandPlaces) .operandPlaces

/-- Replaces operators and constants by their images. -/
def substituteOperators (d : Dialect) (m : Substitution) (f : Formula) : Outcome Formula := do
  let f ← f.given
  checkOperatorImages d m
  return f.substOperators m

/-- The image of one operand of a formula under a table of images by text, applied to the operands
of that operand. -/
def substituteOperand (m : Substitution) (operand : Option Formula) : Outcome Formula := do
  let f ← Failure.absent.orElse operand
  let image ← Failure.unknownKey.orElse (Table.find? m f.text)
  match f with
  | neg g => return (← image.given).subst (imageIn [("p", g)])
  | bin _ l r => return (← image.given).subst (imageIn [("p", l), ("q", r)])
  | _ => return image

/-! ## Copying through a table -/

/-- The text is that of a leaf. -/
def isLeafText (s : String) : Bool :=
  isVariable s || isConstant s

section Copying

variable (whole : Formula → Outcome Formula) (d : Dialect) (m : Substitution)

/-- Puts operands under the image of a root, if it is a leaf or the root has none. What becomes of any
other image is a parameter. -/
def rebuild (root : String) (operands : List Formula) : Outcome Formula :=
  match Table.find? m root with
  | none => make d root operands
  | some image => if isLeafText image.text then make d image.text operands else whole image

/-- The image that a table has for the text of an operand, or else what becomes of the operand otherwise. -/
def imageOr (operand : Formula) (otherwise : Outcome Formula) : Outcome Formula :=
  match Table.find? m operand.text with
  | some image => .ok image
  | none => otherwise

/-- Copies a formula through a table of images by text. Operands that are keys are replaced by their
images, and so are roots. -/
def copyThrough : Formula → Outcome Formula
  | var name => rebuild whole d m name []
  | const value => rebuild whole d m (constText value) []
  | neg f => do
    let f' ← imageOr m f f.copyThrough
    rebuild whole d m "~" [f']
  | bin op l r => do
    let l' ← imageOr m l l.copyThrough
    let r' ← imageOr m r r.copyThrough
    rebuild whole d m op.symbol [l', r']
  | missing => .error .absent

end Copying

/-- Copies a formula through a table that is asked again for the text of an image, unless it is a leaf. -/
def copyChained (d : Dialect) (m : Substitution) (f : Formula) : Outcome Formula :=
  f.copyThrough (fun image => Failure.unknownKey.orElse (Table.find? m image.text)) d m

/-- Copies a formula in this way through a table whose keys must be variables. -/
def copyVariables (d : Dialect) (m : Substitution) (f : Formula) : Outcome Formula := do
  let f ← f.given
  checkKeys false m
  f.copyChained d m

/-- Replaces variables, and constants where these are allowed, by copying. -/
def variablesByText (d : Dialect) (m : Substitution) (skipMissing allowConstants : Bool) (f : Formula) :
    Outcome Formula := do
  let f ← f.given
  checkKeys allowConstants m
  f.copyThrough .ok d (if skipMissing then m.filter fun e => !e.2.isMissing else m)

/-- Applies the image of a root to operands, or puts them under the root if it has none. -/
def applyImage (d : Dialect) (m : Substitution) (root : String) (first second : Formula) :
    Outcome Formula :=
  match Table.find? m root with
  | some image => image.variablesByText d [("p", first), ("q", second)] true false
  | none => make d root [first, second]

/-- What becomes of an operand whose text is a key, or else otherwise. -/
def operandOr (m : Substitution) (operand : Formula) (otherwise : Outcome Formula) : Outcome Formula :=
  if Table.hasKey m operand.text then substituteOperand m (some operand) else otherwise

/-- Copies a formula through a table of images of operators and constants. Operands that are keys are
replaced on their own. -/
def copyOperators (d : Dialect) (m : Substitution) : Formula → Outcome Formula
  | var name => applyImage d m name missing missing
  | const value => applyImage d m (constText value) missing missing
  | neg f => do
    let f' ← operandOr m f (f.copyOperators d m)
    applyImage d m "~" f' missing
  | bin op l r => do
    let l' ← operandOr m l (l.copyOperators d m)
    let r' ← operandOr m r (r.copyOperators d m)
    applyImage d m op.symbol l' r'
  | missing => .error .absent

/-- Replaces operators and constants by copying. -/
def operatorsByText (d : Dialect) (m : Substitution) (f : Formula) : Outcome Formula := do
  let f ← f.given
  checkOperatorImages d m
  f.copyOperators d m

/-! ## Listing the nodes in order -/

/-- Visits the nodes of a formula from left to right and lists their symbols. A node whose text is
a key is replaced by its image, which is listed as a whole; the visit goes on with the second operand
of the image. The fuel bounds the depth of the visit. -/
def visit (m : Substitution) : Nat → Formula → Outcome (Formula × List String)
  | 0, _ => .error .endless
  | fuel + 1, f => do
    let left ← match f.first? with
      | some g => do pure (← visit m fuel g).2
      | none => pure []
    let (result, shown) := match Table.find? m f.text with
      | some image => (image, image.text)
      | none => (f, f.root)
    let right ← match result.second? with
      | some g => do pure (← visit m fuel g).2
      | none => pure []
    return (result, left ++ shown :: right)

/-- The number of nodes in all images. -/
def imageSizes (m : Substitution) : Nat :=
  m.foldl (fun n e => n + e.2.size) 0

/-- Visits all nodes. A visit that goes deeper than there are nodes in the formula and the images
has met a node twice on its way down and would not end. -/
def visitAll (m : Substitution) (f : Formula) : Outcome (Formula × List String) :=
  if f.isMissing then .ok (missing, [])
  else visit m (f.size + imageSizes m + 1) f

end Formula

end FormalLogic.Propositional
