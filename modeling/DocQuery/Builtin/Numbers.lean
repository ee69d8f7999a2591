import DocQuery.Eval.Arithmetic
/-!
# DocQuery.Builtin.Numbers

Functions on numbers.
-/

namespace DocQuery.Numbers

/-- The magnitude of an integer in 32 bits, else in 64 bits, else as a floating-point
number. -/
def absoluteInt (narrow : Bool) (n : Int) : Value :=
  if narrow && decide (Number.FitsInt32 n.natAbs) then .int32 (Int32.ofInt n.natAbs)
  else if Number.FitsInt64 n.natAbs then .int64 (Int64.ofInt n.natAbs)
  else .double (Double.ofInt n.natAbs)

/-- The magnitude of a number; nothing for a value that has none. -/
def absolute? : Value → Option Value
  | .int32 n => some (absoluteInt true n.toInt)
  | .int64 n => some (absoluteInt false n.toInt)
  | .double x => some (.double x.abs)
  | .decimal d =>
    let unsigned := String.ofList (d.text.toList.dropWhile (· == '-'))
    some (((Decimal.read? unsigned).map Value.decimal).getD .null)
  | .null => some .null
  | _ => none

/-- The number of places that can be rounded to. -/
def places (digits : Int) : Nat := min digits.toNat 15

/-- A number rounded to some places, a half away from zero. -/
def roundTo (x : Double) (digits : Int) : Double :=
  let factor := Double.ofInt (Int.pow 10 (places digits))
  ((x.mul factor).roundHalfAway).div factor

/-- A value rounded to some places; nothing for a value that cannot be rounded. -/
def round? (digits : Int) : Value → Option Value
  | .int32 n => some (.int32 n)
  | .int64 n => some (.int64 n)
  | .double x => some (.double (roundTo x digits))
  | .decimal d => some (Value.decimalOf (roundTo d.toDouble digits))
  | _ => none

end DocQuery.Numbers
