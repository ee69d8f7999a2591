import DocQuery.Eval.Error
import DocQuery.Number.Layout
import DocQuery.Operator
import DocQuery.Value.Json
/-!
# DocQuery.Eval.Arithmetic

The arithmetic of values. Integers are computed exactly in 32 bits, else in 64 bits,
and only where that does not do as floating-point numbers. Addition also joins texts
and moves points in time. Operands that do not go together make null.
-/

namespace DocQuery

namespace ArithmeticOp

/-- The exact result if it can be had in a width. Where a quotient does not fit the
width, neither does it yield the remainder. -/
def resultIn (op : ArithmeticOp) (fits : Int → Bool) (a b : Int) : Option Int :=
  match op with
  | .add => if fits (a + b) then some (a + b) else none
  | .subtract => if fits (a - b) then some (a - b) else none
  | .multiply => if fits (a * b) then some (a * b) else none
  | .divide => if fits (a.tdiv b) then some (a.tdiv b) else none
  | .modulo => if fits (a.tdiv b) then some (a.tmod b) else none

/-- The operator divides. -/
def divides : ArithmeticOp → Bool
  | .divide | .modulo => true
  | _ => false

/-- The result in floating-point numbers. -/
def onDoubles (op : ArithmeticOp) (a b : Double) : Double :=
  match op with
  | .add => a.add b
  | .subtract => a.sub b
  | .multiply => a.mul b
  | .divide => a.div b
  | .modulo => a.rem b

/-- The result of integers in 64 bits, else as a floating-point number. -/
def onInt64 (op : ArithmeticOp) (a b : Int) : Value :=
  match op.resultIn (fun n => decide (Number.FitsInt64 n)) a b with
  | some n => .int64 (Int64.ofInt n)
  | none => .double (op.onDoubles (Double.ofInt a) (Double.ofInt b))

/-- The result of integers, in 32 bits if `narrow` and if that does. -/
def onIntegers (op : ArithmeticOp) (narrow : Bool) (a b : Int) : Except EvalError Value :=
  if op.divides && b == 0 then .error .zeroDivision
  else if narrow then
    match op.resultIn (fun n => decide (Number.FitsInt32 n)) a b with
    | some n => .ok (.int32 (Int32.ofInt n))
    | none => .ok (op.onInt64 a b)
  else .ok (op.onInt64 a b)

end ArithmeticOp

/-- The decimal that a floating-point number is written as; null where there is none. -/
def Value.decimalOf (x : Double) : Value :=
  let text := if x.isFinite then String.ofList (Number.Layout.plain.write x) else ""
  ((Decimal.read? text).map Value.decimal).getD .null

namespace Arithmetic

/-- The text that a value adds to another one. -/
def joinedText : Value → String
  | .null => ""
  | value => value.text

/-- The point some milliseconds later; null if the calendar does not reach it. -/
def shift (t : DateTime) (millis : Int) : Value :=
  ((t.addNanos? (millis * 1000000)).map Value.dateTime).getD .null

/-- The value is a decimal. -/
def isDecimal : Value → Bool
  | .decimal _ => true
  | _ => false

/-- The value is a floating-point number. -/
def isDouble : Value → Bool
  | .double _ => true
  | _ => false

/-- The result of two numbers. A decimal makes the result a decimal, unless the other
is a floating-point number. -/
def ofNumbers (op : ArithmeticOp) (a b : Value) : Except EvalError Value :=
  match a, b with
  | .int32 m, .int32 n => op.onIntegers true m.toInt n.toInt
  | .int32 m, .int64 n => op.onIntegers false m.toInt n.toInt
  | .int64 m, .int32 n => op.onIntegers false m.toInt n.toInt
  | .int64 m, .int64 n => op.onIntegers false m.toInt n.toInt
  | a, b =>
    let x := op.onDoubles a.asDouble b.asDouble
    if (isDecimal a || isDecimal b) && !isDouble a && !isDouble b then .ok (Value.decimalOf x)
    else .ok (.double x)

/-- The result of an operator. -/
def apply (op : ArithmeticOp) (a b : Value) : Except EvalError Value :=
  match op, a, b with
  | .add, .string s, b => .ok (.string (s ++ joinedText b))
  | .add, a, .string s => .ok (.string (joinedText a ++ s))
  | .add, .dateTime t, n => .ok (if n.isNumber then shift t n.asInt else .null)
  | .add, n, .dateTime t => .ok (if n.isNumber then shift t n.asInt else .null)
  | .subtract, .dateTime t, n => .ok (if n.isNumber then shift t (-n.asInt) else .null)
  | op, a, b => if a.isNumber && b.isNumber then ofNumbers op a b else .ok .null

end Arithmetic

end DocQuery
