/-!
# DocQuery.Number.Integer

Decimal integers: their digits, and reading them with an optional sign into a
number of 32 or 64 bits. A number that does not fit is refused, never wrapped.
-/

namespace DocQuery.Number

/-- The number that a sequence of decimal digits stands for. -/
def digitsValue (digits : List Char) : Nat :=
  digits.foldl (fun n c => n * 10 + (c.toNat - 48)) 0

/-- The decimal digits of a number, without leading zeros; zero is `0`. -/
def toDigits (n : Nat) : List Char :=
  Nat.toDigits 10 n

/-- The decimal text of an integer. -/
def intText (n : Int) : String :=
  if n < 0 then String.ofList ('-' :: toDigits n.natAbs) else String.ofList (toDigits n.natAbs)

/-- One or more digits and nothing else. -/
def readNat? (s : List Char) : Option Nat :=
  if s.isEmpty || !s.all Char.isDigit then none else some (digitsValue s)

/-- An optional sign, then one or more digits. -/
def readInt? : List Char → Option Int
  | '-' :: rest => (readNat? rest).map (- Int.ofNat ·)
  | '+' :: rest => (readNat? rest).map Int.ofNat
  | s => (readNat? s).map Int.ofNat

/-- The number fits 32 bits. -/
abbrev FitsInt32 (n : Int) : Prop := -2147483648 ≤ n ∧ n < 2147483648

/-- The number fits 64 bits. -/
abbrev FitsInt64 (n : Int) : Prop := -9223372036854775808 ≤ n ∧ n < 9223372036854775808

theorem fitsInt32_toInt (x : Int32) : FitsInt32 x.toInt := ⟨x.le_toInt, x.toInt_lt⟩

theorem fitsInt64_toInt (x : Int64) : FitsInt64 x.toInt := ⟨x.le_toInt, x.toInt_lt⟩

/-- The number in 32 bits, if it fits. -/
def toInt32? (n : Int) : Option Int32 :=
  if FitsInt32 n then some (Int32.ofInt n) else none

/-- The number in 64 bits, if it fits. -/
def toInt64? (n : Int) : Option Int64 :=
  if FitsInt64 n then some (Int64.ofInt n) else none

/-- The nearest number of 64 bits. -/
def clampInt64 (n : Int) : Int64 :=
  if n < -9223372036854775808 then Int64.minValue
  else if 9223372036854775808 ≤ n then Int64.maxValue
  else Int64.ofInt n

/-- Reads a number of 32 bits. -/
def readInt32? (s : List Char) : Option Int32 := do toInt32? (← readInt? s)

/-- Reads a number of 64 bits. -/
def readInt64? (s : List Char) : Option Int64 := do toInt64? (← readInt? s)

end DocQuery.Number
