import DocQuery.Pool
/-!
# DocQuery.Pool.Flatten

Expressions flattened into instructions: first those of the parts in their order,
then the one that refers to them.
-/

namespace DocQuery

namespace Pool

/-- Adds instructions to a pool and says where the last of them is. -/
abbrev Writer := StateM Pool

/-- Adds an instruction. -/
def write (instruction : Instruction) : Writer OpRef := do
  let pool ← get
  set (instruction :: pool)
  return pool.length

variable {α σ : Type}

/-- Adds the parts of a step, to whatever store they are added to. -/
def writeStep : PathStep (α × StateM σ OpRef) → StateM σ (PathStep OpRef)
  | .member name => return .member name
  | .index place => return .index place
  | .indexOf (_, place) => return .indexOf (← place)
  | .all => return .all
  | .filter (_, condition) => return .filter (← condition)
  | .items => return .items

/-- Adds the parts of one layer. -/
def writeParts : Form (α × StateM σ OpRef) → StateM σ (Form OpRef)
  | .constant value => return .constant value
  | .parameter name => return .parameter name
  | .documents => return .documents
  | .document entries => do
    return .document (← entries.mapM fun (name, _, part) => return (name, ← part))
  | .array items => return .array (← items.mapM fun (_, item) => item)
  | .path root steps => return .path root (← steps.mapM writeStep)
  | .map (_, source) (_, selector) => return .map (← source) (← selector)
  | .filter (_, source) (_, predicate) => return .filter (← source) (← predicate)
  | .sort (_, source) (_, key) order => do
    let source ← source
    let key ← key
    let order ← order.mapM fun (_, order) => order
    return .sort source key order
  | .call function args => return .call function (← args.mapM fun (_, arg) => arg)
  | .generate generator site => return .generate generator site
  | .binary op (_, left) (_, right) => return .binary op (← left) (← right)
  | .quantified quantifier op (_, left) (_, right) =>
    return .quantified quantifier op (← left) (← right)
  | .logic op (_, left) (_, right) => return .logic op (← left) (← right)
  | .conditional (_, test) (_, ifTrue) (_, ifFalse) =>
    return .conditional (← test) (← ifTrue) (← ifFalse)

/-- The pattern that a node writes out. -/
def patternOf? (node : Node) : Option Text.Glob :=
  match node.form with
  | .constant (.string pattern) => some (Text.Glob.ofText pattern.toList)
  | _ => none

/-- The operation of one layer. -/
def writeOp (form : Form (Node × StateM σ OpRef)) : StateM σ Op := do
  match form with
  | .binary (.comparison .like) (_, left) (right, _) =>
    match patternOf? right with
    | some pattern => return .like none (← left) pattern
    | none => return .layer (← writeParts form)
  | .quantified quantifier .like (_, left) (right, _) =>
    match patternOf? right with
    | some pattern => return .like (some quantifier) (← left) pattern
    | none => return .layer (← writeParts form)
  | form => return .layer (← writeParts form)

/-- Adds the instructions of a node. -/
def writeNode : Node → Writer OpRef :=
  Node.fold fun info form => do
    let op ← writeOp form
    write { op, isScalar := info.isScalar, source := info.source }

end Pool

/-- The instructions of an expression. Its own is the last of them. -/
def Node.flatten (node : Node) : Pool := ((Pool.writeNode node).run []).2

end DocQuery
