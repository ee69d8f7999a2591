import DocQuery.Calendar.Date
/-!
# DocQuery.Calendar.DateTime

Points in time: a day, a second of the day and the nanoseconds within it, all in
universal time. The last second of a minute may run on for a leap second; its
nanoseconds are then counted on from 10⁹.

Elapsed time is a whole number of nanoseconds. Only the leap seconds written in
the two points themselves are counted.
-/

namespace DocQuery

/-- The nanoseconds of a second. -/
def nanosPerSecond : Nat := 1000000000

/-- The seconds of a day. -/
def secondsPerDay : Nat := 86400

/-- A point in time. -/
structure DateTime where
  date : Date
  second : Nat
  nano : Nat
  second_lt : second < secondsPerDay
  nano_lt : nano < 2 * nanosPerSecond
deriving DecidableEq, Repr

namespace DateTime

/-- The point with these parts, if they are in range. -/
def ofParts? (date : Date) (second nano : Nat) : Option DateTime :=
  if h : second < secondsPerDay ∧ nano < 2 * nanosPerSecond then
    some ⟨date, second, nano, h.1, h.2⟩
  else none

/-- The beginning of a day. -/
def ofDate (date : Date) : DateTime :=
  ⟨date, 0, 0, by decide, by decide⟩

/-- Within a leap second. -/
def isLeapSecond (t : DateTime) : Bool := nanosPerSecond ≤ t.nano

/-- The whole seconds since the beginning of 1970. -/
def unixSeconds (t : DateTime) : Int := t.date.number * secondsPerDay + t.second

/-- The point this many seconds after the beginning of 1970, with these nanoseconds. -/
def ofUnix? (seconds : Int) (nano : Nat) : Option DateTime := do
  let date ← Date.ofNumber? (seconds / secondsPerDay)
  ofParts? date (seconds % secondsPerDay).toNat nano

/-- The point this many nanoseconds after the beginning of 1970. -/
def ofUnixNanos? (nanos : Int) : Option DateTime :=
  ofUnix? (nanos / nanosPerSecond) (nanos % nanosPerSecond).toNat

/-- The point this many milliseconds after the beginning of 1970. -/
def ofUnixMillis? (millis : Int) : Option DateTime :=
  ofUnixNanos? (millis * 1000000)

/-- The point some nanoseconds later, or earlier. Within a leap second time first
runs to its end or back to its beginning, and from there on as if the leap second
were not there. -/
def addNanos? (t : DateTime) (delta : Int) : Option DateTime :=
  let seconds := delta.tdiv nanosPerSecond
  let fraction := delta.tmod nanosPerSecond
  let plain (second : Int) (nano : Int) :=
    ofUnixNanos? ((t.date.number * secondsPerDay + second) * nanosPerSecond + nano + delta)
  if t.isLeapSecond then
    if 0 < seconds || (0 < fraction && 2 * nanosPerSecond ≤ t.nano + fraction) then
      plain t.second (t.nano - nanosPerSecond)
    else if seconds < 0 then plain (t.second + 1) (t.nano - nanosPerSecond)
    else ofParts? t.date t.second (t.nano + fraction).toNat
  else plain t.second t.nano

/-- The point some months later, or earlier, at the same time of the day. -/
def addMonths? (t : DateTime) (months : Int) : Option DateTime :=
  (t.date.addMonths? months).map fun date => { t with date }

/-- The nanoseconds from one point to another. A leap second counts if it lies
between the two times of the day. -/
def elapsedNanos (start stop : DateTime) : Int :=
  let leap : Int :=
    if start.second < stop.second && start.isLeapSecond then 1
    else if stop.second < start.second && stop.isLeapSecond then -1
    else 0
  (stop.unixSeconds - start.unixSeconds + leap) * nanosPerSecond + (stop.nano - start.nano)

/-- The whole seconds from one point to another, toward zero. -/
def elapsedSeconds (start stop : DateTime) : Int :=
  (elapsedNanos start stop).tdiv nanosPerSecond

/-- Points in time are ordered by day, by second and by nanosecond. -/
def compare (a b : DateTime) : Ordering :=
  (Ord.compare a.date.number b.date.number).then
    ((Ord.compare a.second b.second).then (Ord.compare a.nano b.nano))

/-- The hour of the day. -/
def hour (t : DateTime) : Nat := t.second / 3600

/-- The minute of the hour. -/
def minute (t : DateTime) : Nat := t.second / 60 % 60

/-- The second of the minute. -/
def secondOfMinute (t : DateTime) : Nat := t.second % 60

end DateTime

end DocQuery
