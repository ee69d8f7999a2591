import DocQuery.Calendar.DateTime
import DocQuery.Text.Ascii
/-!
# DocQuery.Calendar.DatePart

The parts in which time is added and differences are counted. Years and months
follow the calendar; the smaller parts are fixed spans of time.
-/

namespace DocQuery

/-- A part of a point in time. -/
inductive DatePart where
  | year | month | day | hour | minute | second
deriving DecidableEq, Repr

namespace DatePart

/-- The part with this name. A short name is exact in its case: `M` is the month
and `m` the minute. -/
def ofText? (s : String) : Option DatePart :=
  match s with
  | "y" | "yyyy" => some .year
  | "M" => some .month
  | "d" | "dd" => some .day
  | "h" | "hh" => some .hour
  | "m" | "mm" => some .minute
  | "s" | "ss" => some .second
  | _ =>
    match Text.lowerName s with
    | "year" => some .year
    | "month" => some .month
    | "day" => some .day
    | "hour" => some .hour
    | "minute" => some .minute
    | "second" => some .second
    | _ => none

/-- The seconds of a part of fixed length. -/
def seconds : DatePart → Nat
  | .year | .month => 0
  | .day => secondsPerDay
  | .hour => 3600
  | .minute => 60
  | .second => 1

/-- The point some parts later, or earlier, if the calendar reaches that far. -/
def add? (part : DatePart) (t : DateTime) (amount : Int) : Option DateTime :=
  match part with
  | .year => t.addMonths? (amount * 12)
  | .month => t.addMonths? amount
  | part => t.addNanos? (amount * part.seconds * nanosPerSecond)

/-- The parts from one point to another. Years and months are counted by the
calendar, without regard to the smaller parts; of the others only full ones count. -/
def difference (part : DatePart) (start stop : DateTime) : Int :=
  let a := start.date.civil
  let b := stop.date.civil
  match part with
  | .year => b.year - a.year
  | .month => (b.year - a.year) * 12 + b.month - a.month
  | part => (DateTime.elapsedSeconds start stop).tdiv part.seconds

end DatePart

end DocQuery
