import DocQuery.Number.Double
import DocQuery.Text.Blank
/-!
# DocQuery.Number.Decimal

Reading decimal notation as a floating-point number, and decimals that keep the
text they were given in.

A decimal is digits with at most one point among, before or after them, and
perhaps an exponent; a sign may stand in front. Infinity and not-a-number have
names, in any case of letters.
-/

namespace DocQuery

namespace Number

/-- An exponent mark with its digits, or nothing at all. -/
def readExponent? : List Char → Option Int
  | [] => some 0
  | c :: rest => if c = 'e' || c = 'E' then readInt? rest else none

/-- Unsigned decimal notation: the digits as one number, and the power of ten
they are multiplied by. -/
def readDecimal? (s : List Char) : Option (Nat × Int) :=
  let whole := s.takeWhile Char.isDigit
  let afterWhole := s.dropWhile Char.isDigit
  let (fraction, rest) := match afterWhole with
    | '.' :: tail => (tail.takeWhile Char.isDigit, tail.dropWhile Char.isDigit)
    | _ => ([], afterWhole)
  if whole.isEmpty && fraction.isEmpty then none
  else (readExponent? rest).map fun exponent =>
    (digitsValue (whole ++ fraction), exponent - fraction.length)

/-- An unsigned number or one of the names. -/
def readMagnitude? (negative : Bool) (s : List Char) : Option Double :=
  match readDecimal? s with
  | some (digits, exponent) => some (Double.ofDecimal negative digits exponent)
  | none =>
    let name := String.ofList (s.map Char.toLower)
    if name = "inf" || name = "infinity" then some (Double.infinity negative)
    else if name = "nan" then
      some (Double.ofCode negative (Double.infinityCode + Nat.pow 2 51))
    else none

end Number

/-- Reads a floating-point number, correctly rounded. -/
def Double.read? : List Char → Option Double
  | '-' :: rest => Number.readMagnitude? true rest
  | '+' :: rest => Number.readMagnitude? false rest
  | s => Number.readMagnitude? false s

/-- A decimal number, kept as it was written. -/
structure Decimal where
  text : String
deriving DecidableEq, Repr, Inhabited

namespace Decimal

/-- The character is a sign. -/
def isSign (c : Char) : Bool := c == '-' || c == '+'

/-- The characters of decimal notation. -/
def isNotation (c : Char) : Bool :=
  c.isDigit || c == '.' || c == 'e' || c == 'E' || isSign c

/-- Reads a finite decimal. Blanks at the ends are dropped, and plus signs in front. -/
def read? (s : String) : Option Decimal :=
  let trimmed := Text.trim s.toList
  match trimmed.dropWhile isSign with
  | [] => none
  | c :: rest =>
    if (c.isDigit || c == '.') && (c :: rest).all isNotation then
      match Double.read? trimmed with
      | some x => if x.isFinite then some ⟨String.ofList (trimmed.dropWhile (· == '+'))⟩ else none
      | none => none
    else none

/-- The nearest floating-point number. -/
def toDouble (d : Decimal) : Double :=
  (Double.read? d.text.toList).getD (Double.zero false)

end Decimal

end DocQuery
