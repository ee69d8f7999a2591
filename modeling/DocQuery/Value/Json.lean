import DocQuery.Json.Writer
import DocQuery.Value.Typed
/-!
# DocQuery.Value.Json

Values as JSON and back. The types that JSON lacks are written as documents with a
single entry, and such documents are read as typed values. Not every value comes
back as it was: an integer of 64 bits that fits 32 does so with 32, and a number
that is not finite is written as null.

The text of a value is its JSON on one line; a string by itself is its own text.
-/

namespace DocQuery.Value

/-- A document with one entry. -/
def typedJson (name text : String) : Json :=
  .object [(name, .string text)]

mutual

/-- The value as JSON. -/
def toJson : Value → Json
  | .minValue => .object [("$minValue", .number (.whole 1))]
  | .null => .null
  | .int32 n => .number (.whole n.toInt)
  | .int64 n => .number (.whole n.toInt)
  | .double x => if x.isFinite then .number (.double x) else .null
  | .decimal d => typedJson "$numberDecimal" d.text
  | .string s => .string s
  | .document entries => .object (toJsonMembers entries)
  | .array items => .array (toJsonItems items)
  | .binary bytes => typedJson "$binary" (String.ofList (Bytes.toBase64 bytes))
  | .objectId id => typedJson "$oid" id.text
  | .guid id => typedJson "$guid" id.text
  | .boolean b => .bool b
  | .dateTime t => typedJson "$date" t.toText
  | .maxValue => .object [("$maxValue", .number (.whole 1))]

/-- The items as JSON. -/
def toJsonItems : List Value → List Json
  | [] => []
  | item :: rest => item.toJson :: toJsonItems rest

/-- The entries as members of an object. -/
def toJsonMembers : List (String × Value) → List (String × Json)
  | [] => []
  | (name, value) :: rest => (name, value.toJson) :: toJsonMembers rest

end

/-- The value of a JSON number: an integer of 32 or of 64 bits, or else a
floating-point number. -/
def ofJsonNumber : JsonNumber → Value
  | .whole n =>
    match Number.toInt32? n, Number.toInt64? n with
    | some n, _ => .int32 n
    | none, some n => .int64 n
    | none, none => .double (Double.ofInt n)
  | .double x => .double x

/-- The text by which a JSON value gives the contents of a typed value. -/
def typedText? : Json → Option String
  | .string s => some s
  | .number n => some (String.ofList n.write)
  | _ => none

/-- The typed value that an object with these members stands for. -/
def ofMembers? : List (String × Json) → Option Value
  | [(name, contents)] => do ofTyped? name (← typedText? contents)
  | _ => none

mutual

/-- The value of a JSON value. -/
def ofJson : Json → Value
  | .null => .null
  | .bool b => .boolean b
  | .number n => ofJsonNumber n
  | .string s => .string s
  | .array items => .array (ofJsonItems items)
  | .object members =>
    match ofMembers? members with
    | some value => value
    | none => .document (Entries.ofList (ofJsonMembers members))

/-- The values of JSON values. -/
def ofJsonItems : List Json → List Value
  | [] => []
  | item :: rest => ofJson item :: ofJsonItems rest

/-- The values of the members of an object. -/
def ofJsonMembers : List (String × Json) → List (String × Value)
  | [] => []
  | (name, value) :: rest => (name, ofJson value) :: ofJsonMembers rest

end

/-- The text of a value. -/
def text : Value → String
  | .string s => s
  | value => value.toJson.toText

end DocQuery.Value
