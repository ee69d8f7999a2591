import DocQuery.Calendar.DateTime
import DocQuery.Number.Integer
import DocQuery.Text.Blank
/-!
# DocQuery.Calendar.Text

Points in time as text. They are written in one form: date, `T`, time with
milliseconds, `Z`; a year outside the four digits carries a sign. They are read in
four forms, tried in this order:

* with four-digit year, two-digit parts and an offset from universal time;
* without an offset, date and time joined by `T`;
* the same with blanks, or nothing, in place of `T`;
* a date alone, which stands for its beginning.

The forms without an offset take parts of fewer digits, blanks before each part
and a year with a sign.
-/

namespace DocQuery

namespace DateTime

/-- A number with at least `width` digits. -/
def padded (width n : Nat) : List Char :=
  let digits := Number.toDigits n
  List.replicate (width - digits.length) '0' ++ digits

/-- The year: four digits, or a sign and at least four digits. -/
def yearText (year : Int) : List Char :=
  if 0 ≤ year ∧ year ≤ 9999 then padded 4 year.toNat
  else (if year < 0 then '-' else '+') :: padded 4 year.natAbs

/-- The written form, cut to milliseconds. A leap second is second 60. -/
def toText (t : DateTime) : String :=
  let c := t.date.civil
  let leap := if t.isLeapSecond then 1 else 0
  String.ofList <|
    yearText c.year ++ '-' :: padded 2 c.month ++ '-' :: padded 2 c.day
      ++ 'T' :: padded 2 t.hour ++ ':' :: padded 2 t.minute
      ++ ':' :: padded 2 (t.secondOfMinute + leap)
      ++ '.' :: padded 3 (t.nano % nanosPerSecond / 1000000) ++ ['Z']

/-! ### Reading the parts

Each reader takes a part from the front of a text and gives it with the rest. -/

/-- At least `least` and at most `most` digits. -/
def takeNumber? (least most : Nat) (s : List Char) : Option (Nat × List Char) :=
  let digits := (s.take most).takeWhile Char.isDigit
  if digits.length < least then none
  else some (Number.digitsValue digits, s.drop digits.length)

/-- One given character. -/
def takeChar? (c : Char) : List Char → Option (List Char)
  | [] => none
  | d :: rest => if c = d then some rest else none

/-- An optional fraction of a second in nanoseconds. Digits after the ninth are
passed over. -/
def takeFraction? : List Char → Option (Nat × List Char)
  | '.' :: rest => do
    let (n, after) ← takeNumber? 1 9 rest
    let used := rest.length - after.length
    return (n * Nat.pow 10 (9 - used), after.dropWhile Char.isDigit)
  | s => some (0, s)

/-- An offset from universal time in seconds: `Z`, or a sign, two digits of hours,
a colon and two digits of minutes below 60. -/
def takeOffset? : List Char → Option (Int × List Char)
  | 'Z' :: rest => some (0, rest)
  | 'z' :: rest => some (0, rest)
  | sign :: rest => do
    guard (sign = '+' ∨ sign = '-' ∨ sign = '\u2212')
    let (hours, rest) ← takeNumber? 2 2 rest
    let rest ← takeChar? ':' rest
    let (minutes, rest) ← takeNumber? 2 2 rest
    guard (minutes < 60)
    let seconds := Int.ofNat (hours * 3600 + minutes * 60)
    return (if sign = '+' then seconds else -seconds, rest)
  | [] => none

/-- A year of at most four digits, or a sign and any number of digits. -/
def takeYear? (s : List Char) : Option (Int × List Char) :=
  match Text.trimStart s with
  | '-' :: rest => (takeNumber? 1 rest.length rest).map fun (n, rest) => (-Int.ofNat n, rest)
  | '+' :: rest => (takeNumber? 1 rest.length rest).map fun (n, rest) => (Int.ofNat n, rest)
  | rest => (takeNumber? 1 4 rest).map fun (n, rest) => (Int.ofNat n, rest)

/-- One or two digits after optional blanks. -/
def takePart? (s : List Char) : Option (Nat × List Char) :=
  takeNumber? 1 2 (Text.trimStart s)

/-! ### Putting them together -/

/-- The point with these parts, if they are in range; second 60 is a leap second. -/
def ofClock? (c : Civil) (hour minute second nano : Nat) : Option DateTime := do
  let date ← Date.ofCivil? c
  guard (hour < 24 ∧ minute < 60 ∧ second ≤ 60)
  let start := hour * 3600 + minute * 60
  if second = 60 then ofParts? date (start + 59) (nano + nanosPerSecond)
  else ofParts? date (start + second) nano

/-- The same time of the day at another offset: `seconds` earlier. -/
def subSeconds? (t : DateTime) (seconds : Int) : Option DateTime :=
  ofUnix? (t.unixSeconds - seconds) t.nano

/-- The form with an offset. -/
def readOffsetForm? (s : List Char) : Option DateTime := do
  let (year, s) ← takeNumber? 4 4 s
  let (month, s) ← takeNumber? 2 2 (← takeChar? '-' s)
  let (day, s) ← takeNumber? 2 2 (← takeChar? '-' s)
  let s ← takeChar? 'T' s <|> takeChar? 't' s <|> takeChar? ' ' s
  let (hour, s) ← takeNumber? 2 2 s
  let (minute, s) ← takeNumber? 2 2 (← takeChar? ':' s)
  let (second, s) ← takeNumber? 2 2 (← takeChar? ':' s)
  let (nano, s) ← takeFraction? s
  let (offset, s) ← takeOffset? s
  guard (s.isEmpty ∧ offset.natAbs ≤ (23 * 60 + 59) * 60)
  let t ← ofClock? ⟨year, month, day⟩ hour minute second nano
  t.subSeconds? offset

/-- Year, month and day with dashes between them. -/
def takeCivil? (s : List Char) : Option (Civil × List Char) := do
  let (year, s) ← takeYear? s
  let (month, s) ← takePart? (← takeChar? '-' s)
  let (day, s) ← takePart? (← takeChar? '-' s)
  return (⟨year, month, day⟩, s)

/-- The forms without an offset; `join` passes over what stands between date and time. -/
def readLocalForm? (join : List Char → Option (List Char)) (s : List Char) :
    Option DateTime := do
  let (civil, s) ← takeCivil? s
  let (hour, s) ← takePart? (← join s)
  let (minute, s) ← takePart? (← takeChar? ':' s)
  let (second, s) ← takePart? (← takeChar? ':' s)
  let (nano, s) ← takeFraction? s
  guard s.isEmpty
  ofClock? civil hour minute second nano

/-- The form of a date alone. -/
def readDateForm? (s : List Char) : Option DateTime := do
  let (civil, s) ← takeCivil? s
  guard s.isEmpty
  (Date.ofCivil? civil).map ofDate

/-- Reads a point in time in any of the four forms, blanks around it aside. -/
def read? (text : String) : Option DateTime :=
  let s := Text.trim text.toList
  readOffsetForm? s
    <|> readLocalForm? (takeChar? 'T') s
    <|> readLocalForm? (fun s => some (Text.trimStart s)) s
    <|> readDateForm? s

end DateTime

end DocQuery
