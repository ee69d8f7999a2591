import DocQuery.Number.Shortest
/-!
# DocQuery.Number.Layout

How floating-point numbers are written. A layout fixes what the shortest digits
leave open: which exponents are written out in positional notation, how a whole
number ends, and where ties go. The library writes doubles in three ways: as JSON
numbers, as plain decimals, and, in the canonical text of an expression, with a
fixed number of places.
-/

namespace DocQuery.Number

/-- The decisions of one way of writing a double. -/
structure Layout where
  tie : Tie
  /-- A number with this decimal point is written without an exponent. -/
  positional : Int → Bool
  /-- What follows the digits of a whole number. -/
  wholeEnd : List Char

/-- JSON numbers: an exponent below 10⁻⁵ and from 10¹⁶ on, and a whole number ends
in `.0`. -/
def Layout.json : Layout where
  tie := .toEven
  positional point := -5 < point && point ≤ 16
  wholeEnd := ['.', '0']

/-- Plain decimals: never an exponent, and a whole number has no point. -/
def Layout.plain : Layout where
  tie := .up
  positional _ := true
  wholeEnd := []

/-- The digits with the point in its place. -/
def Layout.positionalText (layout : Layout) (s : Scientific) : List Char :=
  if s.point ≤ 0 then
    '0' :: '.' :: List.replicate (-s.point).toNat '0' ++ s.digits
  else if s.digits.length ≤ s.point.toNat then
    s.digits ++ List.replicate (s.point.toNat - s.digits.length) '0' ++ layout.wholeEnd
  else s.digits.take s.point.toNat ++ '.' :: s.digits.drop s.point.toNat

/-- One digit, the others after a point, and the exponent with its sign. -/
def exponentText (s : Scientific) : List Char :=
  let exponent := s.point - 1
  let mantissa := match s.digits with
    | [] => []
    | [d] => [d]
    | d :: rest => d :: '.' :: rest
  mantissa ++ 'e' :: (if exponent < 0 then '-' else '+') :: toDigits exponent.natAbs

/-- The text of a finite number. -/
def Layout.write (layout : Layout) (x : Double) : List Char :=
  let body :=
    if x.code = 0 then '0' :: layout.wholeEnd
    else
      let s := shortest layout.tie x
      if layout.positional s.point then layout.positionalText s else exponentText s
  if x.isNegative then '-' :: body else body

/-- The exact value rounded to nine places, a half to the even digit, without the
trailing zeros that are not needed to keep one place. -/
def writePlaces (x : Double) : List Char :=
  let scaled := toDigits (Double.roundHalfEven (x.units * Nat.pow 10 9) Double.unitsPerOne)
  let padded := List.replicate (10 - scaled.length) '0' ++ scaled
  let whole := padded.take (padded.length - 9)
  let places := ((padded.drop (padded.length - 9)).reverse.dropWhile (· == '0')).reverse
  let body := whole ++ '.' :: (if places.isEmpty then ['0'] else places)
  if x.isNegative then '-' :: body else body

end DocQuery.Number
