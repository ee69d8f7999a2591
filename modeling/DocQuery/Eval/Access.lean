import DocQuery.Eval.Error
import DocQuery.Value.Json
/-!
# DocQuery.Eval.Access

Getting at parts of values, and making documents of parts. What is not there reads
as null; only a computed place has to be a whole number.
-/

namespace DocQuery.Value

/-- The value of a name in a document. The empty name stands for the value itself. -/
def member (value : Value) (name : String) : Value :=
  if name.isEmpty then value
  else
    match value with
    | .document entries => (Entries.find? entries name).getD .null
    | _ => .null

/-- The element of an array at a place, counted from the end if negative. -/
def element (value : Value) (place : Int) : Value :=
  match value with
  | .array items =>
    let place := if place < 0 then items.length + place else place
    if place < 0 then .null else items[place.toNat]?.getD .null
  | _ => .null

/-- The place that a value stands for. -/
def place? : Value → Option Int
  | .int32 n => some n.toInt
  | .int64 n => some n.toInt
  | .double x => if x.isWhole then some x.toInt64.toInt else none
  | _ => none

/-- The element of an array at a computed place. -/
def elementAt (value place : Value) (source : String) : Except EvalError Value :=
  match place.place? with
  | some place => .ok (value.element place)
  | none => .error (.indexNotNumber source)

/-- The elements of an array. -/
def elements : Value → List Value
  | .array items => items
  | _ => []

/-- The elements of an array, the bytes of a binary, any other value by itself. -/
def spread : Value → List Value
  | .array items => items
  | .binary bytes => bytes.map fun b => .int32 (Int32.ofInt b.toNat)
  | value => [value]

/-- The text from which a typed value is made. -/
def payloadText? : Value → Option String
  | .string s => some s
  | value => if value.isNumber then some value.text else none

/-- The typed value that a single entry stands for. -/
def typedOrNone (name : String) (payload : Value) : Option Value :=
  if name.toList.head? = some '$' then do ofTyped? name (← payload.payloadText?) else none

/-- The document with these entries. A single entry may stand for a typed value. -/
def ofEntries (entries : List (String × Value)) : Value :=
  let document := .document (Entries.ofList entries)
  match entries with
  | [(name, payload)] => (typedOrNone name payload).getD document
  | _ => document

end DocQuery.Value
