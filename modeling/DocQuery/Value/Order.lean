import DocQuery.Collation
import DocQuery.Value
/-!
# DocQuery.Value.Order

The order of values. Values of different kinds are ordered by kind; numbers of all
kinds are one kind. Two integers are compared exactly, other pairs of numbers as
floating-point numbers. Documents and arrays are compared from their first entry
on; the one that ends first is the smaller.
-/

namespace DocQuery.Value

/-- The place of the kind of a value among the kinds. -/
def kindRank : Value → Nat
  | .minValue => 0
  | .null => 1
  | .int32 _ | .int64 _ | .double _ | .decimal _ => 2
  | .string _ => 3
  | .document _ => 4
  | .array _ => 5
  | .binary _ => 6
  | .objectId _ => 7
  | .guid _ => 8
  | .boolean _ => 9
  | .dateTime _ => 10
  | .maxValue => 11

/-- The order of two numbers. -/
def compareNumbers (a b : Value) : Ordering :=
  match a.integer?, b.integer? with
  | some m, some n => Ord.compare m n
  | _, _ => Double.compare a.asDouble b.asDouble

/-- The order of two sequences of bytes. -/
def compareBytes (a b : List UInt8) : Ordering :=
  Ord.compare (a.map UInt8.toNat) (b.map UInt8.toNat)

mutual

/-- The order of two values. -/
def compare (c : Collation) : Value → Value → Ordering
  | .string a, .string b => c.compare a b
  | .document a, .document b => compareEntries c a b
  | .array a, .array b => compareItems c a b
  | .binary a, .binary b => compareBytes a b
  | .objectId a, .objectId b => compareBytes a.bytes b.bytes
  | .guid a, .guid b => compareBytes a.bytes b.bytes
  | .boolean a, .boolean b => Ord.compare a.toNat b.toNat
  | .dateTime a, .dateTime b => a.compare b
  | a, b =>
    if a.isNumber && b.isNumber then compareNumbers a b
    else Ord.compare a.kindRank b.kindRank

/-- The order of two lists of items. -/
def compareItems (c : Collation) : List Value → List Value → Ordering
  | [], [] => .eq
  | [], _ :: _ => .lt
  | _ :: _, [] => .gt
  | a :: as, b :: bs => (compare c a b).then (compareItems c as bs)

/-- The order of two lists of entries: name before value. -/
def compareEntries (c : Collation) : List (String × Value) → List (String × Value) → Ordering
  | [], [] => .eq
  | [], _ :: _ => .lt
  | _ :: _, [] => .gt
  | (j, a) :: as, (k, b) :: bs =>
    (c.compare j k).then ((compare c a b).then (compareEntries c as bs))

end

/-- The two values count as the same. -/
def same (c : Collation) (a b : Value) : Bool :=
  compare c a b == .eq

end DocQuery.Value
