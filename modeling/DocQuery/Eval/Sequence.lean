import DocQuery.Eval.Context
import DocQuery.Eval.Sorting
import DocQuery.Value.Order
/-!
# DocQuery.Eval.Sequence

Sequences of results, filtered, mapped and sorted. An element without a value keeps
its place as an error, except that a sort has one error in place of all elements.
-/

namespace DocQuery

namespace Results

/-- The elements for which a condition is true. -/
def keep (condition : Value → Except EvalError Value) : Results → Results
  | [] => []
  | .error error :: rest => .error error :: keep condition rest
  | .ok value :: rest =>
    match condition value with
    | .error error => .error error :: keep condition rest
    | .ok result => if result.isTrue then .ok value :: keep condition rest else keep condition rest

/-- What each element is made into. -/
def mapEach (f : Value → Except EvalError Value) (results : Results) : Results :=
  results.map (· >>= f)

/-- What each element is made into, one after the other. -/
def flatMapEach (f : Value → Results) (results : Results) : Results :=
  results.flatMap fun
    | .ok value => f value
    | .error error => [.error error]

/-- The elements with their keys. -/
def withKeys (key : Value → Except EvalError Value) :
    Results → Except EvalError (List (Value × Value))
  | [] => .ok []
  | element :: rest => do
    let value ← element
    let k ← key value
    return (k, value) :: (← withKeys key rest)

/-- An element with the first key has to stand in front of one with the second. -/
def precedes (c : Collation) (descending : Bool) (a b : Value) : Bool :=
  if descending then (Value.compare c a b).isGT else (Value.compare c a b).isLT

/-- Elements in the order of their keys, unless the keys turn out to be in no order. -/
def sortPairs (c : Collation) (descending : Bool) (pairs : List (Value × Value)) :
    Except EvalError (List Value) :=
  match Sorting.sort (fun a b => precedes c descending a.1 b.1) pairs with
  | some sorted => .ok (sorted.map Prod.snd)
  | none => .error .noTotalOrder

/-- The elements in the order of their keys. -/
def sortBy (c : Collation) (descending : Bool) (key : Value → Except EvalError Value)
    (results : Results) : Except EvalError (List Value) := do
  sortPairs c descending (← results.withKeys key)

end Results

/-- The order that a value stands for is the descending one. -/
def Value.isDescending (order : Value) : Bool :=
  decide (order.toInt64? = some (-1))

/-- An `Except` as a sequence: its value, or its error alone. -/
def Results.ofOne (result : Except EvalError Value) : Results := [result]

/-- The values that were found, or the error alone. -/
def Results.ofExcept (found : Except EvalError (List Value)) : Results :=
  match found with
  | .ok values => ofValues values
  | .error error => failed error

end DocQuery
