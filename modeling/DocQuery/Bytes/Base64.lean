/-!
# DocQuery.Bytes.Base64

Base64 with the standard alphabet and padding. Reading is strict: the length is
a multiple of four, padding stands only at the end, and the bits that padding
leaves over are zero, so that each sequence of bytes has exactly one text.
-/

namespace DocQuery.Bytes

/-- The character for a number below sixty-four. -/
def base64Digit (n : Nat) : Char :=
  if n < 26 then Char.ofNat (65 + n)
  else if n < 52 then Char.ofNat (71 + n)
  else if n < 62 then Char.ofNat (n - 4)
  else if n = 62 then '+'
  else '/'

/-- The number a character of the alphabet stands for. -/
def base64Value? (c : Char) : Option Nat :=
  if 'A' ≤ c ∧ c ≤ 'Z' then some (c.toNat - 65)
  else if 'a' ≤ c ∧ c ≤ 'z' then some (c.toNat - 71)
  else if '0' ≤ c ∧ c ≤ '9' then some (c.toNat + 4)
  else if c = '+' then some 62
  else if c = '/' then some 63
  else none

/-- The text of the bytes: four characters for three bytes, the last group padded. -/
def toBase64 : List UInt8 → List Char
  | [] => []
  | [a] => [base64Digit (a.toNat / 4), base64Digit (a.toNat % 4 * 16), '=', '=']
  | [a, b] =>
    [base64Digit (a.toNat / 4), base64Digit (a.toNat % 4 * 16 + b.toNat / 16),
      base64Digit (b.toNat % 16 * 4), '=']
  | a :: b :: c :: rest =>
    base64Digit (a.toNat / 4) :: base64Digit (a.toNat % 4 * 16 + b.toNat / 16)
      :: base64Digit (b.toNat % 16 * 4 + c.toNat / 64) :: base64Digit (c.toNat % 64)
      :: toBase64 rest

/-- The bytes that a padded text spells. -/
def ofBase64? : List Char → Option (List UInt8)
  | [] => some []
  | [w, x, '=', '='] => do
    let p ← base64Value? w
    let q ← base64Value? x
    guard (q % 16 = 0)
    return [UInt8.ofNat (p * 4 + q / 16)]
  | [w, x, y, '='] => do
    let p ← base64Value? w
    let q ← base64Value? x
    let r ← base64Value? y
    guard (r % 4 = 0)
    return [UInt8.ofNat (p * 4 + q / 16), UInt8.ofNat (q % 16 * 16 + r / 4)]
  | w :: x :: y :: z :: rest => do
    let p ← base64Value? w
    let q ← base64Value? x
    let r ← base64Value? y
    let s ← base64Value? z
    return UInt8.ofNat (p * 4 + q / 16) :: UInt8.ofNat (q % 16 * 16 + r / 4)
      :: UInt8.ofNat (r % 4 * 64 + s) :: (← ofBase64? rest)
  | _ => none

end DocQuery.Bytes
