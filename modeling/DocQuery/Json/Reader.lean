import DocQuery.Json
import DocQuery.Bytes.Hex
/-!
# DocQuery.Json.Reader

Reading JSON text. Containers nest at most 127 deep. A name given twice in an
object keeps its first place and takes the last value.

A number with a point or an exponent, or one too long for 64 bits, is read in two
steps: its leading digits as a significand of at most 64 bits, rounded to a
floating-point number, and then one multiplication or division by a power of ten.
The result can miss the nearest number by a little. A number too large for a
floating-point number is refused.
-/

namespace DocQuery.Json

/-- The blanks of JSON. -/
def isBlank (c : Char) : Bool :=
  c == ' ' || c == '\n' || c == '\t' || c == '\r'

/-- The text from its first character that is not blank. -/
def skipBlanks (s : List Char) : List Char := s.dropWhile isBlank

/-! ### Strings -/

/-- The character that a short escape stands for. -/
def unescape? : Char → Option Char
  | '"' => some '"'
  | '\\' => some '\\'
  | '/' => some '/'
  | 'b' => some '\x08'
  | 'f' => some '\x0c'
  | 'n' => some '\n'
  | 'r' => some '\r'
  | 't' => some '\t'
  | _ => none

/-- The first half of a character written as a pair. -/
def isHighHalf (n : Nat) : Bool := 0xD800 ≤ n && n ≤ 0xDBFF

/-- The second half of a character written as a pair. -/
def isLowHalf (n : Nat) : Bool := 0xDC00 ≤ n && n ≤ 0xDFFF

/-- The characters up to the closing quote, and the rest after it. A half of a
pair must be followed, or preceded, by the other half; control characters have to
be escaped. -/
def readChars? : List Char → Option (List Char × List Char)
  | [] => none
  | '"' :: rest => some ([], rest)
  | '\\' :: 'u' :: a :: b :: c :: d :: rest => do
    let n ← Bytes.hexNumber? [a, b, c, d]
    if isHighHalf n then
      match rest with
      | '\\' :: 'u' :: e :: f :: g :: h :: rest => do
        let low ← Bytes.hexNumber? [e, f, g, h]
        guard (isLowHalf low)
        let (chars, rest) ← readChars? rest
        return (Char.ofNat (0x10000 + (n - 0xD800) * 0x400 + (low - 0xDC00)) :: chars, rest)
      | _ => none
    else if isLowHalf n then none
    else do
      let (chars, rest) ← readChars? rest
      return (Char.ofNat n :: chars, rest)
  | '\\' :: c :: rest => do
    let meant ← unescape? c
    let (chars, rest) ← readChars? rest
    return (meant :: chars, rest)
  | c :: rest => do
    guard (0x20 ≤ c.toNat ∧ c ≠ '\\')
    let (chars, rest) ← readChars? rest
    return (c :: chars, rest)

/-! ### Numbers -/

/-- Appends digits to a number as long as it stays below 2⁶⁴; the digits that are
left over come with it. -/
def absorb (n : Nat) : List Char → Nat × List Char
  | [] => (n, [])
  | c :: rest =>
    let next := n * 10 + (c.toNat - 48)
    if next < Nat.pow 2 64 then absorb next rest else (n, c :: rest)

/-- A significand times a power of ten. Powers of ten go to 10³⁰⁸; smaller numbers
are divided several times, larger ones refused. -/
def scale? (x : Double) (exponent : Int) : Option Double :=
  if exponent < -308 then
    if x.code = 0 then some x
    else scale? (x.div (Double.ofDecimal false 1 308)) (exponent + 308)
  else if exponent < 0 then some (x.div (Double.ofDecimal false 1 (-exponent)))
  else if exponent ≤ 308 then
    let product := x.mul (Double.ofDecimal false 1 exponent)
    if product.isFinite then some product else none
  else if x.code = 0 then some x
  else none
termination_by (-exponent).toNat
decreasing_by omega

/-- The parts of a number as written. -/
structure Numeral where
  negative : Bool
  whole : List Char
  /-- The digits after the point, if there is a point. -/
  fraction : Option (List Char)
  /-- The sign and the digits of the exponent, if there is one. -/
  exponent : Option (Bool × List Char)

/-- The value of a number with its sign set aside. -/
def Numeral.magnitude? (n : Numeral) : Option Double :=
  let (significand, left) := absorb 0 n.whole
  let fraction := n.fraction.getD []
  let (significand, unused) := absorb significand fraction
  let exponent : Int := left.length - (fraction.length - unused.length)
  match n.exponent with
  | none => scale? (Double.ofInt significand) exponent
  | some (negative, digits) =>
    let n := Number.digitsValue digits
    if Nat.pow 2 31 ≤ n then
      if significand ≠ 0 && !negative then none else some (Double.zero false)
    else scale? (Double.ofInt significand) (if negative then exponent - n else exponent + n)

/-- The value of a number. A whole number that fits is kept exactly, but for a
negative zero. -/
def Numeral.value? (n : Numeral) : Option JsonNumber :=
  let whole := Number.digitsValue n.whole
  let signed (x : Double) : Double := if n.negative then Double.ofCode true x.code else x
  match n.fraction, n.exponent with
  | none, none =>
    if n.negative then
      if whole = 0 then some (.double (Double.zero true))
      else if whole ≤ Nat.pow 2 63 then some (.whole (- whole))
      else n.magnitude?.map fun x => .double (signed x)
    else if whole < Nat.pow 2 64 then some (.whole whole)
    else n.magnitude?.map .double
  | _, _ => n.magnitude?.map fun x => .double (signed x)

/-- The digits at the front of a text, at least one, and the rest. -/
def takeDigits? (s : List Char) : Option (List Char × List Char) :=
  let digits := s.takeWhile Char.isDigit
  if digits.isEmpty then none else some (digits, s.dropWhile Char.isDigit)

/-- The parts of the number at the front of a text, and the rest. Only a lone zero
starts with a zero. -/
def takeNumeral? (s : List Char) : Option (Numeral × List Char) := do
  let (negative, s) := match s with
    | '-' :: rest => (true, rest)
    | s => (false, s)
  let (whole, s) ← takeDigits? s
  guard (whole.head? ≠ some '0' ∨ whole.length = 1)
  let (fraction, s) ← match s with
    | '.' :: rest => (takeDigits? rest).map fun (digits, rest) => (some digits, rest)
    | s => some (none, s)
  let (exponent, s) ← match s with
    | [] => some (none, [])
    | c :: rest =>
      if c = 'e' ∨ c = 'E' then
        let (minus, rest) := match rest with
          | '-' :: rest => (true, rest)
          | '+' :: rest => (false, rest)
          | rest => (false, rest)
        (takeDigits? rest).map fun (digits, rest) => (some (minus, digits), rest)
      else some (none, c :: rest)
  return (⟨negative, whole, fraction, exponent⟩, s)

/-! ### Values -/

/-- A value that is no container, from the front of a text. -/
def readScalar? : List Char → Option (Json × List Char)
  | 'n' :: 'u' :: 'l' :: 'l' :: rest => some (.null, rest)
  | 't' :: 'r' :: 'u' :: 'e' :: rest => some (.bool true, rest)
  | 'f' :: 'a' :: 'l' :: 's' :: 'e' :: rest => some (.bool false, rest)
  | '"' :: rest => (readChars? rest).map fun (chars, rest) => (.string (String.ofList chars), rest)
  | s => do
    let (numeral, rest) ← takeNumeral? s
    return (.number (← numeral.value?), rest)

/-- The items up to the closing bracket. `bound` is the number of characters left. -/
def readItems? (value : List Char → Option (Json × List Char)) :
    (bound : Nat) → List Char → Option (List Json × List Char)
  | 0, _ => none
  | bound + 1, s => do
    let (item, s) ← value (skipBlanks s)
    match skipBlanks s with
    | ',' :: rest =>
      let (items, rest) ← readItems? value bound rest
      return (item :: items, rest)
    | ']' :: rest => return ([item], rest)
    | _ => none

/-- The members up to the closing brace. `bound` is the number of characters left. -/
def readMembers? (value : List Char → Option (Json × List Char)) :
    (bound : Nat) → List Char → Option (List (String × Json) × List Char)
  | 0, _ => none
  | bound + 1, s => do
    let .cons '"' s := skipBlanks s | none
    let (name, s) ← readChars? s
    let .cons ':' s := skipBlanks s | none
    let (item, s) ← value (skipBlanks s)
    let member := (String.ofList name, item)
    match skipBlanks s with
    | ',' :: rest =>
      let (members, rest) ← readMembers? value bound rest
      return (member :: members, rest)
    | '\x7d' :: rest => return ([member], rest)
    | _ => none

/-- A value from the front of a text that does not start with a blank; containers
may nest `depth` deep. -/
def readValue? : (depth : Nat) → List Char → Option (Json × List Char)
  | 0, s => readScalar? s
  | depth + 1, s =>
    match s with
    | '[' :: rest =>
      match skipBlanks rest with
      | ']' :: rest => some (.array [], rest)
      | rest => (readItems? (readValue? depth) rest.length rest).map
          fun (items, rest) => (.array items, rest)
    | '\x7b' :: rest =>
      match skipBlanks rest with
      | '\x7d' :: rest => some (.object [], rest)
      | rest => (readMembers? (readValue? depth) rest.length rest).map
          fun (members, rest) => (.object (Entries.ofList members), rest)
    | s => readScalar? s

/-- How deep containers may nest. -/
def maxDepth : Nat := 127

/-- Reads a text that is one JSON value. -/
def read? (text : String) : Option Json := do
  let (json, rest) ← readValue? maxDepth (skipBlanks text.toList)
  guard (skipBlanks rest).isEmpty
  return json

/-- The value at the front of a text shows by itself where it ends. -/
def endsItself (s : List Char) : Bool :=
  match s with
  | c :: _ => c == '[' || c == '"' || c == '\x7b'
  | [] => false

/-- A value that does not show where it ends may be followed by this text. -/
def mayFollow (s : List Char) : Bool :=
  match s with
  | c :: _ => isBlank c || ['"', '[', ']', '\x7b', '\x7d', ',', ':'].contains c
  | [] => true

/-- The values of a text one after the other. `bound` is the number of characters left. -/
def readStream? : (bound : Nat) → List Char → Option (List Json)
  | 0, s => if (skipBlanks s).isEmpty then some [] else none
  | bound + 1, s =>
    match skipBlanks s with
    | [] => some []
    | c :: s => do
      let (json, rest) ← readValue? maxDepth (c :: s)
      guard (endsItself (c :: s) ∨ mayFollow rest)
      return json :: (← readStream? bound rest)

/-- Reads a text that is any number of JSON values, with blanks between them where
two would run together. -/
def readAll? (text : String) : Option (List Json) :=
  readStream? text.length text.toList

end DocQuery.Json
