import DocQuery.Bytes.Hex
import DocQuery.Calendar.DateTime
/-!
# DocQuery.Identifier

The two kinds of identifiers: object identifiers of twelve bytes, the first four of
which are the time of creation, and globally unique identifiers of sixteen bytes.
Both are written with hexadecimal digits.
-/

namespace DocQuery

/-- An object identifier. -/
structure ObjectId where
  bytes : List UInt8
  length_eq : bytes.length = 12
deriving DecidableEq, Repr

/-- A globally unique identifier. -/
structure Guid where
  bytes : List UInt8
  length_eq : bytes.length = 16
deriving DecidableEq, Repr

/-- The last `count` digits of a number to the base 256, most significant first. -/
def bytesOfNat : (count : Nat) → Nat → List UInt8
  | 0, _ => []
  | count + 1, n => bytesOfNat count (n / 256) ++ [UInt8.ofNat n]

@[simp] theorem length_bytesOfNat (count n : Nat) : (bytesOfNat count n).length = count := by
  induction count generalizing n with
  | zero => rfl
  | succ count ih => simp [bytesOfNat, ih]

/-- The number that bytes spell, most significant first. -/
def natOfBytes (bytes : List UInt8) : Nat :=
  bytes.foldl (fun n b => n * 256 + b.toNat) 0

namespace ObjectId

/-- The identifier with these bytes, if there are twelve. -/
def ofBytes? (bytes : List UInt8) : Option ObjectId :=
  if h : bytes.length = 12 then some ⟨bytes, h⟩ else none

/-- Reads twenty-four digits. -/
def read? (text : String) : Option ObjectId := do
  ofBytes? (← Bytes.ofHex? text.toList)

/-- The digits. -/
def text (id : ObjectId) : String := String.ofList (Bytes.toHex id.bytes)

/-- The seconds from the beginning of 1970 to the creation of the identifier. -/
def created (id : ObjectId) : Nat := natOfBytes (id.bytes.take 4)

/-- An identifier created at a time, told apart from others by a number. -/
def generate (now : DateTime) (seed : Nat) : ObjectId :=
  ⟨bytesOfNat 4 now.unixSeconds.toNat ++ bytesOfNat 8 seed, by simp⟩

end ObjectId

namespace Guid

/-- The identifier with these bytes, if there are sixteen. -/
def ofBytes? (bytes : List UInt8) : Option Guid :=
  if h : bytes.length = 16 then some ⟨bytes, h⟩ else none

/-- Thirty-two digits in five groups with dashes between them. -/
def readGrouped? (s : List Char) : Option Guid := do
  guard (s.length = 36)
  guard ([8, 13, 18, 23].all fun i => s[i]? == some '-')
  let digits := s.take 8 ++ (s.drop 9).take 4 ++ (s.drop 14).take 4 ++ (s.drop 19).take 4
    ++ s.drop 24
  ofBytes? (← Bytes.ofHex? digits)

/-- Reads thirty-two digits, or the grouped form, by itself, between braces or
after `urn:uuid:`. -/
def read? (text : String) : Option Guid :=
  let s := text.toList
  if s.length = 32 then do ofBytes? (← Bytes.ofHex? s)
  else if s.length = 38 && s.head? == some '\x7b' && s.getLast? == some '\x7d' then
    readGrouped? (s.drop 1).dropLast
  else if s.length = 45 && s.take 9 == "urn:uuid:".toList then readGrouped? (s.drop 9)
  else readGrouped? s

/-- The digits in five groups with dashes between them. -/
def text (id : Guid) : String :=
  let digits := Bytes.toHex id.bytes
  String.ofList <|
    digits.take 8 ++ '-' :: (digits.drop 8).take 4 ++ '-' :: (digits.drop 12).take 4
      ++ '-' :: (digits.drop 16).take 4 ++ '-' :: digits.drop 20

/-- A random identifier, its bits taken from a number. -/
def generate (seed : Nat) : Guid :=
  let mark (i : Nat) (b : UInt8) : UInt8 :=
    if i = 6 then 0x40 ||| (b &&& 0x0F) else if i = 8 then 0x80 ||| (b &&& 0x3F) else b
  ⟨(bytesOfNat 16 seed).mapIdx mark, by simp⟩

end Guid

end DocQuery
