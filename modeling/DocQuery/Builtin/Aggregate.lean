import DocQuery.Eval.Arithmetic
import DocQuery.Value.Order
/-!
# DocQuery.Builtin.Aggregate

What is made of all the values of a sequence: sums and means, the least and the
greatest, and sequences without repetition.
-/

namespace DocQuery.Aggregate

/-- The sum of the numbers among the values. -/
def sum (values : List Value) : Except EvalError Value :=
  (values.filter Value.isNumber).foldlM (Arithmetic.apply .add) (.int32 0)

/-- The mean of the numbers among the values; zero if there are none. -/
def average (values : List Value) : Except EvalError Value := do
  let numbers := values.filter Value.isNumber
  if numbers.isEmpty then return .int32 0
  let total ← sum numbers
  return match total.toDouble? with
    | some x => .double (x.div (Double.ofInt numbers.length))
    | none => .null

/-- The first of the least values. -/
def least? (c : Collation) : List Value → Option Value
  | [] => none
  | first :: rest =>
    some (rest.foldl (fun best v => if (Value.compare c best v).isGT then v else best) first)

/-- The last of the greatest values. -/
def greatest? (c : Collation) : List Value → Option Value
  | [] => none
  | first :: rest =>
    some (rest.foldl (fun best v => if (Value.compare c best v).isGT then best else v) first)

/-- The values without those that are the same as one in front of them. -/
def distinct (c : Collation) (values : List Value) : List Value :=
  values.foldl
    (fun kept v => if kept.any (fun other => Value.same c other v) then kept else kept ++ [v]) []

/-- The values that are the same as none of the others. -/
def except (c : Collation) (values others : List Value) : List Value :=
  distinct c (values.filter fun v => !others.any (fun other => Value.same c v other))

/-- The texts of the values with a separator between them. -/
def join (separator : String) (values : List Value) : Value :=
  .string (separator.intercalate (values.map Value.text))

end DocQuery.Aggregate
