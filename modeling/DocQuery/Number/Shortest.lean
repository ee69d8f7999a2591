import DocQuery.Number.Double
/-!
# DocQuery.Number.Shortest

The fewest decimal digits that read back as a given floating-point number. Of the
decimals with that many digits the nearest one is taken; an exact tie is left to
the caller.

The numbers that round to a magnitude form an interval; its ends belong to it
when the code is even. On each decimal grid only the two neighbours of the
magnitude have to be looked at: if a point of the grid lies in the interval, so
does one of those two.
-/

namespace DocQuery.Number

/-- `0.d₁d₂d₃… · 10 ^ point`, the first and the last digit different from zero. -/
structure Scientific where
  digits : List Char
  point : Int
deriving DecidableEq, Repr

/-- Where an exact tie between two shortest decimals goes. -/
inductive Tie where
  /-- To the one whose last digit is even. -/
  | toEven
  /-- To the larger one. -/
  | up
deriving DecidableEq, Repr

/-- The number of digits before the point of a positive number of units; not
positive if the first digit comes after the point. -/
def pointOf (units : Nat) : Int :=
  (toDigits (units * Nat.pow 10 400 / Double.unitsPerOne)).length - 400

/-- A magnitude between the ends of the interval that rounds to it, all in
quarters of a unit. -/
structure Interval where
  value : Nat
  low : Nat
  high : Nat
  /-- The ends belong to the interval. -/
  closed : Bool

/-- The interval of the numbers that round to the magnitude of `x`. Below a power
of two the gap to the next magnitude is half as wide. -/
def intervalOf (x : Double) : Interval :=
  let field := x.code / Nat.pow 2 52
  let gap := Nat.pow 2 (field - 1)
  let value := 4 * x.units
  { value
    low := value - (if x.code % Nat.pow 2 52 = 0 && 1 < field then gap else 2 * gap)
    high := value + 2 * gap
    closed := x.code % 2 == 0 }

/-- The point `n · step / scale` lies in the interval. -/
def Interval.holds (interval : Interval) (step scale n : Nat) : Bool :=
  if interval.closed then
    interval.low * scale ≤ n * step && n * step ≤ interval.high * scale
  else interval.low * scale < n * step && n * step < interval.high * scale

/-- The point of the grid of multiples of `step / scale` that is nearest to the
magnitude among its two neighbours in the interval. -/
def Interval.gridPoint? (interval : Interval) (tie : Tie) (step scale : Nat) : Option Nat :=
  let below := interval.value * scale / step
  let above := below + 1
  let toBelow := interval.value * scale - below * step
  let toAbove := above * step - interval.value * scale
  match interval.holds step scale below, interval.holds step scale above with
  | true, true =>
    if toBelow < toAbove then some below
    else if toAbove < toBelow then some above
    else match tie with
      | .toEven => some (below + below % 2)
      | .up => some above
  | true, false => some below
  | false, true => some above
  | false, false => none

/-- The decimal `n · 10 ^ exponent` without trailing zeros. -/
def Scientific.ofNat (n : Nat) (exponent : Int) : Scientific :=
  let digits := toDigits n
  ⟨(digits.reverse.dropWhile (· == '0')).reverse, digits.length + exponent⟩

/-- The decimal with `count` digits that reads back, if there is one; else the one
with more digits, for as many tries as are left. -/
def shortestFrom (interval : Interval) (tie : Tie) (point : Int) (count : Nat) :
    Nat → Scientific
  | 0 => ⟨[], point⟩
  | tries + 1 =>
    let exponent := point - count
    let step := 4 * Double.unitsPerOne * Nat.pow 10 exponent.toNat
    let scale := Nat.pow 10 (-exponent).toNat
    match interval.gridPoint? tie step scale with
    | some n => .ofNat n exponent
    | none => shortestFrom interval tie point (count + 1) tries

/-- The fewest digits that read back as the positive finite number `x`. Seventeen
always do. -/
def shortest (tie : Tie) (x : Double) : Scientific :=
  shortestFrom (intervalOf x) tie (pointOf x.units) 1 17

end DocQuery.Number
