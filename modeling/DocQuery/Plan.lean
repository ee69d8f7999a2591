import DocQuery.Builtin.Apply
import DocQuery.Eval.Comparison
import DocQuery.Eval.Sequence
import DocQuery.Node
/-!
# DocQuery.Plan

Expressions as functions of the context. The function of an expression is put
together from those of its parts once, before anything is evaluated. There is no
such function for a sort.
-/

namespace DocQuery

/-- How an expression is evaluated: to one value or to any number. -/
inductive Plan where
  | scalar (run : Context → Except EvalError Value)
  | sequence (run : Context → Results)

namespace Plan

/-- The expression yields one value. -/
def isScalar : Plan → Bool
  | .scalar _ => true
  | .sequence _ => false

/-- The values of the expression; one value is a sequence of it. -/
def values : Plan → Context → Results
  | .scalar run, ctx => Results.ofOne (run ctx)
  | .sequence run, ctx => run ctx

/-- The one value of the expression with this text; a sequence has none. -/
def value (source : String) : Plan → Context → Except EvalError Value
  | .scalar run, ctx => run ctx
  | .sequence _, _ => .error (.notScalar source)

/-- A plan, or why there is none. -/
abbrev Attempt := Except EvalError Plan

/-- A part of an expression and the plan made of it. -/
abbrev Part := Node × Attempt

/-- The plan of a part that is to yield one value. -/
def scalarPart (part : Part) : Except EvalError (Context → Except EvalError Value) :=
  part.2.map (value part.1.source)

/-- The plan of a part that is to yield a sequence. -/
def sequencePart (part : Part) : Except EvalError (Context → Results) :=
  part.2.map values

/-- The values of functions, one after the other. -/
def runAll (runs : List (Context → Except EvalError Value)) (ctx : Context) :
    Except EvalError (List Value) :=
  runs.mapM fun run => run ctx

/-- The values of named functions, one after the other. -/
def runNamed (runs : List (String × (Context → Except EvalError Value))) (ctx : Context) :
    Except EvalError (List (String × Value)) :=
  runs.mapM fun (name, run) => return (name, ← run ctx)

/-! ## Paths -/

/-- A step that yields one value. -/
inductive Move where
  | member (name : String)
  | index (place : Int)
  | indexOf (place : Context → Except EvalError Value) (source : String)

/-- The value that a step leads to. -/
def Move.run (ctx : Context) (value : Value) : Move → Except EvalError Value
  | .member name => .ok (value.member name)
  | .index place => .ok (value.element place)
  | .indexOf place source => do value.elementAt (← place ctx) source

/-- The step as a move; a step that yields any number of values is none. -/
def move (source : String) : PathStep Part → Except EvalError Move
  | .member name => .ok (.member name)
  | .index place => .ok (.index place)
  | .indexOf part => (scalarPart part).map fun run => .indexOf run part.1.source
  | .all | .filter _ | .items => .error (.notScalar source)

/-- The value that moves lead to from the beginning of a path. -/
def travel (root : PathRoot) (field : String) (moves : List Move) (ctx : Context) :
    Except EvalError Value := do
  let binding := match root with
    | .document => ctx.root
    | .current => ctx.current
  match binding with
  | some value => moves.foldlM (fun value move => move.run ctx value) value
  | none => .error (.noRootDocument field)

/-- The plan of a path. -/
def ofPath (source : String) (root : PathRoot) (steps : List (PathStep Part)) : Attempt := do
  let field := match steps with
    | .member name :: _ => name
    | _ => ""
  match steps.getLast? with
  | some (.filter part) =>
    let moves ← steps.dropLast.mapM (move source)
    let condition ← scalarPart part
    return .sequence fun ctx =>
      match travel root field moves ctx with
      | .error error => Results.failed error
      | .ok value =>
        (Results.ofValues value.elements).keep fun element => condition (ctx.withCurrent element)
  | some .items =>
    let moves ← steps.dropLast.mapM (move source)
    return .sequence fun ctx => Results.ofExcept ((travel root field moves ctx).map Value.spread)
  | some .all =>
    let moves ← steps.dropLast.mapM (move source)
    return .sequence fun ctx => Results.ofExcept ((travel root field moves ctx).map Value.elements)
  | _ =>
    let moves ← steps.mapM (move source)
    return .scalar (travel root field moves)

/-! ## Calls and operators -/

/-- The argument that a plan makes: a sequence is given as one array. -/
def argument : Plan → Context → Except EvalError Value
  | .scalar run, ctx => run ctx
  | .sequence run, ctx => (run ctx).collect.map Value.array

/-- The plan of a call. -/
def ofCall (function : Builtin) (args : List Part) : Attempt := do
  let runs ← args.mapM fun part => part.2.map argument
  let invoke (ctx : Context) : Except EvalError CallResult := do
    function.apply ctx.collation (← runAll runs ctx)
  if function.isScalar then return .scalar fun ctx => (invoke ctx).map CallResult.toValue
  else return .sequence fun ctx => Results.ofExcept ((invoke ctx).map CallResult.toValues)

/-- The pattern that a part writes out. -/
def patternOf? (part : Part) : Option Text.Glob :=
  match part.1.form with
  | .constant (.string pattern) => some (Text.Glob.ofText pattern.toList)
  | _ => none

/-- The plan of a comparison of one value. -/
def ofComparison (op : ComparisonOp) (left right : Part) : Attempt := do
  match op, patternOf? right with
  | .like, some pattern =>
    let left ← scalarPart left
    return .scalar fun ctx => do
      return .boolean (Comparison.isLike ctx.collation pattern (← left ctx))
  | op, _ =>
    let right ← scalarPart right
    let left ← scalarPart left
    return .scalar fun ctx => do
      let a ← left ctx
      let b ← right ctx
      return .boolean (← Comparison.apply ctx.collation op a b)

/-- The plan of a comparison of the elements of a sequence. -/
def ofQuantified (quantifier : Quantifier) (op : ComparisonOp) (left right : Part) : Attempt := do
  match op, patternOf? right with
  | .like, some pattern =>
    let left ← sequencePart left
    return .scalar fun ctx => do
      return .boolean (← quantifier.holds
        (fun value => .ok (Comparison.isLike ctx.collation pattern value)) (left ctx))
  | op, _ =>
    let right ← scalarPart right
    let left ← sequencePart left
    return .scalar fun ctx => do
      let b ← right ctx
      return .boolean (← quantifier.holds (fun a => Comparison.apply ctx.collation op a b)
        (left ctx))

/-- The plan of an arithmetic operator. -/
def ofArithmetic (op : ArithmeticOp) (left right : Part) : Attempt := do
  let right ← scalarPart right
  let left ← scalarPart left
  return .scalar fun ctx => do
    let a ← left ctx
    let b ← right ctx
    Arithmetic.apply op a b

/-- The plan of a logic operator. The right side is evaluated only if it decides. -/
def ofLogic (op : LogicOp) (left right : Part) : Attempt := do
  let left ← scalarPart left
  let right ← scalarPart right
  return .scalar fun ctx => do
    let a := (← left ctx).isTrue
    let decided := match op with
      | .and => !a
      | .or => a
    if decided then return .boolean a else return .boolean (← right ctx).isTrue

/-- The plan of a choice between two parts. -/
def ofConditional (isScalar : Bool) (test ifTrue ifFalse : Part) : Attempt := do
  let test ← scalarPart test
  if isScalar then
    let ifTrue ← scalarPart ifTrue
    let ifFalse ← scalarPart ifFalse
    return .scalar fun ctx => do
      if (← test ctx).isTrue then ifTrue ctx else ifFalse ctx
  else
    let ifTrue ← sequencePart ifTrue
    let ifFalse ← sequencePart ifFalse
    return .sequence fun ctx =>
      match test ctx with
      | .error error => Results.failed error
      | .ok result => if result.isTrue then ifTrue ctx else ifFalse ctx

/-! ## Sequences -/

/-- The plan of a selector on each element of a sequence. -/
def ofMap (source selector : Part) : Attempt := do
  let source ← sequencePart source
  match ← selector.2 with
  | .scalar run =>
    return .sequence fun ctx => (source ctx).mapEach fun element => run (ctx.withCurrent element)
  | .sequence run =>
    return .sequence fun ctx =>
      (source ctx).flatMapEach fun element => run (ctx.withCurrent element)

/-- The plan of a predicate on each element of a sequence. -/
def ofFilter (source predicate : Part) : Attempt := do
  let source ← sequencePart source
  let predicate ← scalarPart predicate
  return .sequence fun ctx => (source ctx).keep fun element => predicate (ctx.withCurrent element)

/-! ## Expressions -/

/-- The plan of one layer. -/
def ofLayer (info : NodeInfo) : Form Part → Attempt
  | .constant value => return .scalar fun _ => .ok value
  | .parameter name => return .scalar fun ctx => .ok (ctx.parameter name)
  | .documents => return .sequence fun ctx => Results.ofValues ctx.documents
  | .document entries => do
    let runs ← entries.mapM fun (name, part) => return (name, ← scalarPart part)
    return .scalar fun ctx => (runNamed runs ctx).map Value.ofEntries
  | .array items => do
    let runs ← items.mapM scalarPart
    return .scalar fun ctx => (runAll runs ctx).map Value.array
  | .path root steps => ofPath info.source root steps
  | .map source selector => ofMap source selector
  | .filter source predicate => ofFilter source predicate
  | .sort _ _ _ => .error (.unsupported "SORT")
  | .call function args => ofCall function args
  | .generate generator site => return .scalar fun ctx => .ok (generator.value site ctx)
  | .binary (.arithmetic op) left right => ofArithmetic op left right
  | .binary (.comparison op) left right => ofComparison op left right
  | .quantified quantifier op left right => ofQuantified quantifier op left right
  | .logic op left right => ofLogic op left right
  | .conditional test ifTrue ifFalse => ofConditional info.isScalar test ifTrue ifFalse

end Plan

/-- The plan of an expression. -/
def Node.plan (node : Node) : Except EvalError Plan := node.fold Plan.ofLayer

end DocQuery
