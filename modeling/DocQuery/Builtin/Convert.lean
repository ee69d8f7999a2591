import DocQuery.Bytes.Base64
import DocQuery.Calendar.Text
import DocQuery.Eval.Arithmetic
import DocQuery.Eval.Error
import DocQuery.Json.Reader
import DocQuery.Value.Json
/-!
# DocQuery.Builtin.Convert

The conversion of values into a type. Text is read where the type can be written; a
value that cannot be converted becomes null.
-/

namespace DocQuery.Convert

/-- What a reader finds, or null. -/
def orNull {α : Type} (make : α → Value) (found : Option α) : Value :=
  (found.map make).getD .null

/-- The value as text. -/
def text : Value → Value
  | .string s => .string s
  | value => .string value.text

/-- The whole part of a floating-point number between two others. -/
def wholeBetween? (lower upper : Int) (x : Double) : Option Int :=
  let inside := (Double.ofInt lower).rank ≤ x.rank ∧ x.rank ≤ (Double.ofInt upper).rank
  if x.isFinite && decide inside then some x.toInt64.toInt else none

/-- The value as a number of 32 bits. -/
def int32 : Value → Value
  | .int32 n => .int32 n
  | .string s => orNull .int32 (Number.readInt32? (Text.trim s.toList))
  | value =>
    orNull (.int32 ∘ Int32.ofInt)
      (value.toDouble?.bind (wholeBetween? Int32.minValue.toInt Int32.maxValue.toInt))

/-- The value as a number of 64 bits. -/
def int64 : Value → Value
  | .int32 n => .int64 n.toInt64
  | .int64 n => .int64 n
  | .string s => orNull .int64 (Number.readInt64? (Text.trim s.toList))
  | value =>
    orNull (.int64 ∘ Int64.ofInt)
      (value.toDouble?.bind (wholeBetween? Int64.minValue.toInt Int64.maxValue.toInt))

/-- The value as a floating-point number. -/
def double : Value → Value
  | .string s => orNull .double (Double.read? (Text.trim s.toList))
  | value => orNull .double value.toDouble?

/-- The value as a decimal. -/
def decimal : Value → Value
  | .decimal d => .decimal d
  | .string s => orNull .decimal (Decimal.read? s)
  | value => if value.isNumber then orNull .decimal (Decimal.read? value.text) else .null

/-- The value as a truth value. -/
def boolean : Value → Value
  | .boolean b => .boolean b
  | .string s =>
    match Text.lowerName (String.ofList (Text.trim s.toList)) with
    | "true" => .boolean true
    | "false" => .boolean false
    | _ => .null
  | _ => .null

/-- The value as bytes. -/
def binary : Value → Value
  | .binary bytes => .binary bytes
  | .string s => orNull .binary (Bytes.ofBase64? s.toList)
  | _ => .null

/-- The value as an object identifier. -/
def objectId : Value → Value
  | .objectId id => .objectId id
  | .string s => orNull .objectId (ObjectId.read? s)
  | _ => .null

/-- The value as a globally unique identifier. -/
def guid : Value → Value
  | .guid id => .guid id
  | .string s => orNull .guid (Guid.read? s)
  | _ => .null

/-- The value as a point in time. An integer counts milliseconds. -/
def dateTime : Value → Value
  | .dateTime t => .dateTime t
  | .string s => orNull .dateTime (DateTime.read? s)
  | .int32 n => orNull .dateTime (DateTime.ofUnixMillis? n.toInt)
  | .int64 n => orNull .dateTime (DateTime.ofUnixMillis? n.toInt)
  | _ => .null

/-- The value that a JSON text stands for. -/
def json (s : String) : Except EvalError Value :=
  match Json.read? s with
  | some json => .ok (Value.ofJson json)
  | none => .error .invalidJson

end DocQuery.Convert
