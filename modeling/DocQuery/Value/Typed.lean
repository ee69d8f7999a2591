import DocQuery.Bytes.Base64
import DocQuery.Calendar.Text
import DocQuery.Value
/-!
# DocQuery.Value.Typed

Typed values written as documents with a single entry whose name starts with `$`:
the name gives the type and the text of the value its contents. Contents that do
not fit the type stand for null.
-/

namespace DocQuery.Value

/-- The value that a name and its text stand for, if the name is one of a type. -/
def ofTyped? (name text : String) : Option Value :=
  match name with
  | "$binary" => some (((Bytes.ofBase64? text.toList).map .binary).getD .null)
  | "$oid" => some (((ObjectId.read? text).map .objectId).getD .null)
  | "$guid" => some (((Guid.read? text).map .guid).getD .null)
  | "$date" => some (((DateTime.read? text).map .dateTime).getD .null)
  | "$numberLong" => some (((Number.readInt64? (Text.trim text.toList)).map .int64).getD .null)
  | "$numberDecimal" => some (((Decimal.read? text).map .decimal).getD .null)
  | "$minValue" => some .minValue
  | "$maxValue" => some .maxValue
  | _ => none

end DocQuery.Value
