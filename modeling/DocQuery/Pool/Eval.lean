import DocQuery.Builtin.Apply
import DocQuery.Eval.Comparison
import DocQuery.Eval.Sequence
import DocQuery.Pool
/-!
# DocQuery.Pool.Eval

The evaluation of instructions. What an instruction refers to stands in front of it,
so a list of instructions is evaluated by its last one, given the evaluation of
those in front. What is done with the parts does not ask how they are referred to.

An instruction is evaluated for one value or for a sequence. One that yields a
sequence has no single value, and one that yields one value is a sequence of it.
-/

namespace DocQuery

namespace Pool

/-- How the parts of an expression are evaluated. -/
structure Evaluator (ν : Type) where
  isScalar : ν → Bool
  source : ν → String
  /-- The one value that a part yields. -/
  scalar : ν → Context → Except EvalError Value
  /-- The values that a part yields. -/
  values : ν → Context → Results

/-- Where nothing can be referred to. -/
def Evaluator.empty : Evaluator OpRef where
  isScalar _ := true
  source _ := ""
  scalar _ _ := .error (.notScalar "")
  values _ _ := Results.failed (.notScalar "")

section

variable {ν : Type} (parts : Evaluator ν)

/-- What a path starts from. -/
def origin (ctx : Context) (root : PathRoot) (field : String) : Except EvalError Value :=
  let binding := match root with
    | .document => ctx.root
    | .current => ctx.current
  match binding with
  | some value => .ok value
  | none => .error (.noRootDocument field)

/-- The name that a path is known by: that of its first step. -/
def firstField : List (PathStep ν) → String
  | .member name :: _ => name
  | _ => ""

/-- What the steps lead to, none of which may yield any number of values. -/
def follow (source : String) (ctx : Context) :
    Value → List (PathStep ν) → Except EvalError Value
  | value, [] => .ok value
  | value, .member name :: rest => follow source ctx (value.member name) rest
  | value, .index place :: rest => follow source ctx (value.element place) rest
  | value, .indexOf place :: rest => do
    let index ← parts.scalar place ctx
    follow source ctx (← value.elementAt index (parts.source place)) rest
  | _, .all :: _ | _, .filter _ :: _ | _, .items :: _ => .error (.notScalar source)

/-- The value that a path of single steps leads to. -/
def resolve (source : String) (ctx : Context) (root : PathRoot) (steps : List (PathStep ν))
    (field : String) : Except EvalError Value := do
  follow parts source ctx (← origin ctx root field) steps

/-- The arguments of a function. A sequence is given as one array. -/
def arguments (ctx : Context) : List ν → Except EvalError (List Value)
  | [] => .ok []
  | arg :: rest => do
    let value ←
      if parts.isScalar arg then parts.scalar arg ctx
      else (parts.values arg ctx).collect.map Value.array
    return value :: (← arguments ctx rest)

/-- The result of a call. -/
def invoke (ctx : Context) (function : Builtin) (args : List ν) :
    Except EvalError CallResult := do
  function.apply ctx.collation (← arguments parts ctx args)

/-- The values of entries. -/
def entryValues (ctx : Context) : List (String × ν) → Except EvalError (List (String × Value))
  | [] => .ok []
  | (name, part) :: rest => do
    let value ← parts.scalar part ctx
    return (name, value) :: (← entryValues ctx rest)

/-- The values of items. -/
def itemValues (ctx : Context) : List ν → Except EvalError (List Value)
  | [] => .ok []
  | part :: rest => do
    let value ← parts.scalar part ctx
    return value :: (← itemValues ctx rest)

/-- The result of an operator on two values. -/
def operate (c : Collation) (op : BinaryOp) (a b : Value) : Except EvalError Value :=
  match op with
  | .arithmetic op => Arithmetic.apply op a b
  | .comparison op => (Comparison.apply c op a b).map Value.boolean

/-- The one value of an action that yields one. The text is that of its expression. -/
def stepScalar (source : String) (action : Action ν) (ctx : Context) : Except EvalError Value :=
  match action with
  | .like none left pattern => do
    let value ← parts.scalar left ctx
    return .boolean (Comparison.isLike ctx.collation pattern value)
  | .like (some quantifier) left pattern =>
    (quantifier.holds (fun value => .ok (Comparison.isLike ctx.collation pattern value))
      (parts.values left ctx)).map Value.boolean
  | .layer form =>
    match form with
    | .constant value => .ok value
    | .parameter name => .ok (ctx.parameter name)
    | .document entries => (entryValues parts ctx entries).map Value.ofEntries
    | .array items => (itemValues parts ctx items).map Value.array
    | .path root steps => resolve parts source ctx root steps (firstField steps)
    | .call function args => (invoke parts ctx function args).map CallResult.toValue
    | .generate generator site => .ok (generator.value site ctx)
    | .binary op left right => do
      let a ← parts.scalar left ctx
      let b ← parts.scalar right ctx
      operate ctx.collation op a b
    | .quantified quantifier op left right => do
      let b ← parts.scalar right ctx
      let holds ← quantifier.holds (fun a => Comparison.apply ctx.collation op a b)
        (parts.values left ctx)
      return .boolean holds
    | .logic op left right => do
      let a := (← parts.scalar left ctx).isTrue
      match op, a with
      | .and, false => return .boolean false
      | .or, true => return .boolean true
      | _, _ => return .boolean (← parts.scalar right ctx).isTrue
    | .conditional test ifTrue ifFalse => do
      if (← parts.scalar test ctx).isTrue then parts.scalar ifTrue ctx
      else parts.scalar ifFalse ctx
    | .documents | .map _ _ | .filter _ _ | .sort _ _ _ => .error (.notScalar source)

/-- The values that a path yields. -/
def pathValues (source : String) (ctx : Context) (root : PathRoot)
    (steps : List (PathStep ν)) : Results :=
  let field := firstField steps
  let before := resolve parts source ctx root steps.dropLast field
  match steps.getLast? with
  | some (.filter condition) =>
    match before with
    | .error error => Results.failed error
    | .ok value =>
      (Results.ofValues value.elements).keep fun element =>
        parts.scalar condition (ctx.withCurrent element)
  | some .items => Results.ofExcept (before.map Value.spread)
  | some .all => Results.ofExcept (before.map Value.elements)
  | _ => Results.ofOne (resolve parts source ctx root steps field)

/-- The elements of a sequence in the order of their keys. -/
def sortedValues (ctx : Context) (source key : ν) (order : Option ν) :
    Except EvalError (List Value) := do
  let descending ← match order with
    | some order => (parts.scalar order ctx).map Value.isDescending
    | none => .ok false
  (parts.values source ctx).sortBy ctx.collation descending fun element =>
    parts.scalar key (ctx.withCurrent element)

/-- The values of an action that yields any number. -/
def stepValues (source : String) (action : Action ν) (ctx : Context) : Results :=
  match action with
  | .like _ _ _ => Results.failed (.notScalar source)
  | .layer form =>
    match form with
    | .documents => Results.ofValues ctx.documents
    | .path root steps => pathValues parts source ctx root steps
    | .map sequence selector =>
      if parts.isScalar selector then
        (parts.values sequence ctx).mapEach fun element =>
          parts.scalar selector (ctx.withCurrent element)
      else
        (parts.values sequence ctx).flatMapEach fun element =>
          parts.values selector (ctx.withCurrent element)
    | .filter sequence predicate =>
      (parts.values sequence ctx).keep fun element =>
        parts.scalar predicate (ctx.withCurrent element)
    | .sort sequence key order => Results.ofExcept (sortedValues parts ctx sequence key order)
    | .call function args =>
      Results.ofExcept ((invoke parts ctx function args).map CallResult.toValues)
    | .conditional test ifTrue ifFalse =>
      match parts.scalar test ctx with
      | .error error => Results.failed error
      | .ok result =>
        if result.isTrue then parts.values ifTrue ctx else parts.values ifFalse ctx
    | .constant _ | .parameter _ | .document _ | .array _ | .generate _ _
    | .binary _ _ _ | .quantified _ _ _ _ | .logic _ _ _ =>
      Results.failed (.notScalar source)

/-- The one value of an action; where it yields a sequence there is none. -/
def actionScalar (isScalar : Bool) (source : String) (action : Action ν) (ctx : Context) :
    Except EvalError Value :=
  if isScalar then stepScalar parts source action ctx else .error (.notScalar source)

/-- The values of an action; one value is a sequence of it. -/
def actionValues (isScalar : Bool) (source : String) (action : Action ν) (ctx : Context) :
    Results :=
  if isScalar then Results.ofOne (stepScalar parts source action ctx)
  else stepValues parts source action ctx

end

/-- The evaluation of one more instruction. -/
def Evaluator.add (parts : Evaluator OpRef) (instruction : Instruction) (place : OpRef) :
    Evaluator OpRef where
  isScalar ref := if ref = place then instruction.isScalar else parts.isScalar ref
  source ref := if ref = place then instruction.source else parts.source ref
  scalar ref ctx :=
    if ref = place then
      actionScalar parts instruction.isScalar instruction.source instruction.op ctx
    else parts.scalar ref ctx
  values ref ctx :=
    if ref = place then
      actionValues parts instruction.isScalar instruction.source instruction.op ctx
    else parts.values ref ctx

/-- The evaluation of the instructions of a pool. -/
def evaluator : Pool → Evaluator OpRef
  | [] => Evaluator.empty
  | instruction :: earlier => (evaluator earlier).add instruction earlier.length

/-- The one value of the last instruction. -/
def evalScalar (pool : Pool) (ctx : Context) : Except EvalError Value :=
  (evaluator pool).scalar pool.root ctx

/-- The values of the last instruction. -/
def evalValues (pool : Pool) (ctx : Context) : Results :=
  (evaluator pool).values pool.root ctx

end Pool

end DocQuery
