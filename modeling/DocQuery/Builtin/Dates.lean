import DocQuery.Calendar.DatePart
import DocQuery.Eval.Error
/-!
# DocQuery.Builtin.Dates

Functions on points in time.
-/

namespace DocQuery.Dates

/-- The number that a part of a point in time is. -/
def part (part : DatePart) (t : DateTime) : Value :=
  let n : Int := match part with
    | .year => t.date.civil.year
    | .month => t.date.civil.month
    | .day => t.date.civil.day
    | .hour => t.hour
    | .minute => t.minute
    | .second => t.secondOfMinute
  .int32 (Int32.ofInt n)

/-- The date with this year, month and day; null if there is none. The year is taken
in 32 bits. -/
def ofCivil (year month day : Int) : Value :=
  let date? : Option Date := do
    guard (0 ≤ month ∧ 0 ≤ day)
    Date.ofCivil? ⟨(Int32.ofInt year).toInt, month.toNat, day.toNat⟩
  match date? with
  | some date => .dateTime (DateTime.ofDate date)
  | none => .null

/-- The part with this name. -/
def partOf (function name : String) : Except EvalError DatePart :=
  match DatePart.ofText? name with
  | some part => .ok part
  | none => .error (.invalidArgument function ("unknown date part `" ++ name ++ "`"))

/-- The point some parts later; null if the calendar does not reach it. -/
def add (part : DatePart) (amount : Int) (t : DateTime) : Value :=
  ((part.add? t amount).map Value.dateTime).getD .null

/-- The parts from one point to another. -/
def difference (part : DatePart) (start stop : DateTime) : Value :=
  .int64 (Int64.ofInt (part.difference start stop))

end DocQuery.Dates
