import DocQuery.Calendar.DateTime
import DocQuery.Entries
import DocQuery.Identifier
import DocQuery.Number.Decimal
/-!
# DocQuery.Value

The values of documents. A document is a list of named values; it comes about by
inserting one after the other, so its names are distinct.
-/

namespace DocQuery

/-- A value. -/
inductive Value where
  /-- Smaller than every other value. -/
  | minValue
  | null
  | int32 (n : Int32)
  | int64 (n : Int64)
  | double (x : Double)
  | decimal (d : Decimal)
  | string (s : String)
  | document (entries : List (String × Value))
  | array (items : List Value)
  | binary (bytes : List UInt8)
  | objectId (id : ObjectId)
  | guid (id : Guid)
  | boolean (b : Bool)
  | dateTime (t : DateTime)
  /-- Larger than every other value. -/
  | maxValue
deriving Repr

instance : Inhabited Value := ⟨.null⟩

/-- Named values. -/
abbrev Document := Entries Value

namespace Value

/-- The name of the type of a value. -/
def typeName : Value → String
  | .minValue => "minValue"
  | .null => "null"
  | .int32 _ => "int"
  | .int64 _ => "long"
  | .double _ => "double"
  | .decimal _ => "decimal"
  | .string _ => "string"
  | .document _ => "document"
  | .array _ => "array"
  | .binary _ => "binary"
  | .objectId _ => "objectId"
  | .guid _ => "guid"
  | .boolean _ => "bool"
  | .dateTime _ => "date"
  | .maxValue => "maxValue"

/-- The value is null. -/
def isNull : Value → Bool
  | .null => true
  | _ => false

/-- The value is a number of any kind. -/
def isNumber : Value → Bool
  | .int32 _ | .int64 _ | .double _ | .decimal _ => true
  | _ => false

/-- The value is a string. -/
def isString : Value → Bool
  | .string _ => true
  | _ => false

/-- The value is a document. -/
def isDocument : Value → Bool
  | .document _ => true
  | _ => false

/-- The value is an array. -/
def isArray : Value → Bool
  | .array _ => true
  | _ => false

/-- Only the boolean `true` counts as true. -/
def isTrue : Value → Bool
  | .boolean b => b
  | _ => false

/-- The value of an integer. -/
def integer? : Value → Option Int
  | .int32 n => some n.toInt
  | .int64 n => some n.toInt
  | _ => none

/-- A number as a floating-point number, rounded where necessary. -/
def toDouble? : Value → Option Double
  | .int32 n => some (Double.ofInt n.toInt)
  | .int64 n => some (Double.ofInt n.toInt)
  | .double x => some x
  | .decimal d => some d.toDouble
  | _ => none

/-- A number as an integer of 64 bits: fractions are cut off, and what is too large
becomes the nearest such integer. -/
def toInt64? : Value → Option Int64
  | .int32 n => some n.toInt64
  | .int64 n => some n
  | .double x => some x.toInt64
  | .decimal d => some d.toDouble.toInt64
  | _ => none

/-- A number as a floating-point number; zero for every other value. -/
def asDouble (v : Value) : Double := v.toDouble?.getD (Double.zero false)

/-- A number as an integer; zero for every other value. -/
def asInt (v : Value) : Int := (v.toInt64?.map Int64.toInt).getD 0

end Value

end DocQuery
