import DocQuery.Number.Integer
/-!
# DocQuery.Number.Double

Binary floating-point numbers of 64 bits, given by their bit pattern.

The patterns of one sign, read as numbers (`code`), are in the order of the
magnitudes they stand for: zero is code 0, the next magnitude code 1, and so on up
to infinity; the codes above that are no numbers. Each finite magnitude is a whole
number of units of 2⁻¹⁰⁷⁴ (`units`), so conversions, comparisons, remainders and
rounding are exact arithmetic on natural numbers. Only the four operations and the
power are left to the machine's arithmetic.

A result that is no number takes the sign bit, as the usual processors set it,
unless an operand was no number already; then that operand is the result.
-/

namespace DocQuery

/-- A floating-point number, by its bits. -/
structure Double where
  bits : UInt64
deriving DecidableEq, Repr, Inhabited

namespace Double

/-! ### The parts of a number -/

/-- The code of infinity, the largest that is a number. -/
def infinityCode : Nat := 0x7FF * Nat.pow 2 52

/-- The bits without the sign. -/
def code (x : Double) : Nat := x.bits.toNat % Nat.pow 2 63

/-- The sign bit is set. -/
def isNegative (x : Double) : Bool := Nat.pow 2 63 ≤ x.bits.toNat

/-- The bits stand for no number. -/
def isNaN (x : Double) : Bool := infinityCode < x.code

/-- The bits stand for a finite number. -/
def isFinite (x : Double) : Bool := x.code < infinityCode

/-- The number with this sign and this code. -/
def ofCode (negative : Bool) (code : Nat) : Double :=
  ⟨UInt64.ofNat (if negative then Nat.pow 2 63 + code else code)⟩

/-- The infinity of a sign. -/
def infinity (negative : Bool) : Double := ofCode negative infinityCode

/-- The zero of a sign. -/
def zero (negative : Bool) : Double := ofCode negative 0

/-- What an operation without a result gives. -/
def invalid : Double := ofCode true (infinityCode + Nat.pow 2 51)

/-- The magnitude of a finite number in units of 2⁻¹⁰⁷⁴. -/
def units (x : Double) : Nat :=
  let field := x.code / Nat.pow 2 52
  let fraction := x.code % Nat.pow 2 52
  if field = 0 then fraction else (Nat.pow 2 52 + fraction) * Nat.pow 2 (field - 1)

/-- The number of units in one. -/
def unitsPerOne : Nat := Nat.pow 2 1074

/-! ### Rounding -/

/-- The quotient rounded to the nearest whole number, a half to the even one. -/
def roundHalfEven (a b : Nat) : Nat :=
  let q := a / b
  let r := a % b
  if 2 * r < b then q else if b < 2 * r then q + 1 else q + q % 2

/-- The code of the magnitude nearest to `num / den`, a tie to the even code. The
quotient is cut to 53 bits or to whole units, whichever is coarser; since codes
are in order, rounding up to the next power of two needs no special case. -/
def nearestCode (num den : Nat) : Nat :=
  let scaled := num * unitsPerOne
  let shift := (scaled / den).log2 - 52
  min infinityCode (shift * Nat.pow 2 52 + roundHalfEven scaled (den * Nat.pow 2 shift))

/-- The number nearest to `num / den`. -/
def ofRatio (negative : Bool) (num den : Nat) : Double :=
  ofCode negative (nearestCode num den)

/-- The number nearest to an integer. -/
def ofInt (n : Int) : Double := ofRatio (n < 0) n.natAbs 1

/-- The number nearest to `digits · 10 ^ exponent`. Beyond 310 places before the
point nothing is finite, and beyond 330 places after it everything is zero. -/
def ofDecimal (negative : Bool) (digits : Nat) (exponent : Int) : Double :=
  let point := (Number.toDigits digits).length + exponent
  if digits = 0 || point < -330 then zero negative
  else if 310 < point then infinity negative
  else if 0 ≤ exponent then ofRatio negative (digits * Nat.pow 10 exponent.toNat) 1
  else ofRatio negative digits (Nat.pow 10 (-exponent).toNat)

/-! ### Order -/

/-- The place of a number among the numbers; the two zeros share one place. -/
def rank (x : Double) : Int :=
  if x.isNegative then - Int.ofNat x.code else Int.ofNat x.code

/-- The place of a bit pattern among the bit patterns: those with a sign first,
from the largest code to the smallest, then those without. -/
def bitRank (x : Double) : Int :=
  if x.isNegative then - Int.ofNat x.code - 1 else Int.ofNat x.code

/-- Numbers are ordered by size. Where a pattern that is no number takes part,
the patterns themselves are ordered. -/
def compare (x y : Double) : Ordering :=
  if x.isNaN || y.isNaN then Ord.compare x.bitRank y.bitRank
  else Ord.compare x.rank y.rank

/-! ### Whole numbers -/

/-- The whole part, toward zero. -/
def truncate (x : Double) : Int :=
  let whole := Int.ofNat (x.units / unitsPerOne)
  if x.isNegative then - whole else whole

/-- The number has no fractional part. -/
def isWhole (x : Double) : Bool :=
  x.isFinite && x.units % unitsPerOne == 0

/-- The whole part as a number of 64 bits: what is too large becomes the nearest
such number, and what is no number becomes zero. -/
def toInt64 (x : Double) : Int64 :=
  if x.isNaN then 0
  else if x.isFinite then Number.clampInt64 x.truncate
  else if x.isNegative then Int64.minValue
  else Int64.maxValue

/-- The nearest whole number, a half away from zero. -/
def roundHalfAway (x : Double) : Double :=
  if x.isFinite then
    ofRatio x.isNegative ((2 * x.units + unitsPerOne) / (2 * unitsPerOne)) 1
  else x

/-- The magnitude. -/
def abs (x : Double) : Double := ofCode false x.code

/-! ### Arithmetic -/

/-- The number as the machine's. -/
def toFloat (x : Double) : Float := Float.ofBits x.bits

/-- The result of a machine operation on two numbers. -/
def ofOperation (x y : Double) (result : Float) : Double :=
  if result.isNaN then
    if x.isNaN then x else if y.isNaN then y else invalid
  else ⟨result.toBits⟩

/-- The sum. -/
def add (x y : Double) : Double := ofOperation x y (x.toFloat + y.toFloat)

/-- The difference. -/
def sub (x y : Double) : Double := ofOperation x y (x.toFloat - y.toFloat)

/-- The product. -/
def mul (x y : Double) : Double := ofOperation x y (x.toFloat * y.toFloat)

/-- The quotient. -/
def div (x y : Double) : Double := ofOperation x y (x.toFloat / y.toFloat)

/-- The power. -/
def pow (x y : Double) : Double := ofOperation x y (Float.pow x.toFloat y.toFloat)

/-- The remainder of the division toward zero, with the sign of the dividend. -/
def rem (x y : Double) : Double :=
  if x.isNaN then x
  else if y.isNaN then y
  else if !x.isFinite || y.code = 0 then invalid
  else if !y.isFinite then x
  else ofRatio x.isNegative (x.units % y.units) unitsPerOne

end Double

end DocQuery
