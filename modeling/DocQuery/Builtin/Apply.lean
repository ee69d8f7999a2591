import DocQuery.Builtin
import DocQuery.Builtin.Aggregate
import DocQuery.Builtin.Convert
import DocQuery.Builtin.Dates
import DocQuery.Builtin.Numbers
import DocQuery.Builtin.Strings
import DocQuery.Eval.Access
/-!
# DocQuery.Builtin.Apply

The results of functions. A sequence comes to a function as one array. A function
that is given values that it does not take says so with the names of their types.
-/

namespace DocQuery

/-- What a function yields. -/
inductive CallResult where
  | one (result : Value)
  | many (results : List Value)

namespace CallResult

/-- The result as one value. -/
def toValue : CallResult → Value
  | .one result => result
  | .many results => .array results

/-- The result as values. -/
def toValues : CallResult → List Value
  | .one result => [result]
  | .many results => results

end CallResult

namespace Call

/-- The elements of the sequence that a function is given in its first place. -/
def sequenceArg : List Value → List Value
  | .array items :: _ => items
  | _ => []

/-- The value is a binary. -/
def isBinaryValue : Value → Bool
  | .binary _ => true
  | _ => false

/-- The value is a truth value. -/
def isBooleanValue : Value → Bool
  | .boolean _ => true
  | _ => false

/-- The value is a point in time. -/
def isDateTimeValue : Value → Bool
  | .dateTime _ => true
  | _ => false

/-- The value is an object identifier. -/
def isObjectIdValue : Value → Bool
  | .objectId _ => true
  | _ => false

/-- The value is a globally unique identifier. -/
def isGuidValue : Value → Bool
  | .guid _ => true
  | _ => false

/-- The length of a value: of a text in characters, of a collection in parts, of any
other value as its text. -/
def lengthOf : Value → Nat
  | .null => 0
  | .string s => s.length
  | .binary bytes => bytes.length
  | .array items => items.length
  | .document entries => entries.length
  | value => value.text.length

/-- A number of 32 bits. -/
def countValue (n : Nat) : Value := .int32 (Int32.ofInt n)

/-- A function of one argument of any type. -/
def unary (f : Value → Value) : List Value → Option Value
  | [v] => some (f v)
  | _ => none

/-- A test of the first argument. -/
def tested (test : Value → Bool) : List Value → Option Value
  | v :: _ => some (.boolean (test v))
  | [] => none

/-- A function of a text; null stays null. -/
def onText (f : List Char → List Char) : List Value → Option Value
  | [.string s] => some (.string (String.ofList (f s.toList)))
  | [.null] => some .null
  | _ => none

/-- A test of a text for a piece; null passes no test. -/
def onTexts (test : String → String → Bool) : List Value → Option Value
  | [.string s, .string piece] => some (.boolean (test s piece))
  | [.null, _] | [_, .null] => some (.boolean false)
  | _ => none

/-- A part of a point in time; null stays null. -/
def onDate (part : DatePart) : List Value → Option Value
  | [.dateTime t] => some (Dates.part part t)
  | [.null] => some .null
  | _ => none

/-- A function of two sequences. -/
def onSequences (f : List Value → List Value → List Value) : List Value → Option (List Value)
  | [.array a, .array b] => some (f a b)
  | _ => none

/-- The first document with the entries of the second; null adds nothing. -/
def extended? : List Value → Option Value
  | [.document a, .document b] =>
    some (.document (b.foldl (fun all (name, v) => Entries.insert name v all) a))
  | [.document a, .null] => some (.document a)
  | [.null, .document b] => some (.document b)
  | _ => none

/-- The first argument unless it is null. -/
def coalesced? : List Value → Option Value
  | [.null, fallback] => some fallback
  | [v, _] => some v
  | _ => none

/-- The first few elements of a sequence. -/
def top? : List Value → Option (List Value)
  | [.array items, count] =>
    if count.isNumber then some (items.take count.asInt.toNat) else none
  | _ => none

/-- The date with these parts. -/
def dateOf? : List Value → Option Value
  | [year, month, day] =>
    if year.isNumber && month.isNumber && day.isNumber then
      some (Dates.ofCivil year.asInt month.asInt day.asInt)
    else none
  | _ => none

/-- The characters from a place on. -/
def substringFrom? : List Value → Option Value
  | [.string s, start] =>
    if start.isNumber then some (Strings.substringFrom s start.asInt) else none
  | [.null, _] => some .null
  | _ => none

/-- So many characters from a place on. -/
def substring? : List Value → Option Value
  | [.string s, start, length] =>
    if start.isNumber && length.isNumber then
      some (Strings.substring s start.asInt length.asInt)
    else none
  | [.null, _, _] => some .null
  | _ => none

/-- The place of a piece in a text. -/
def indexOf? (c : Collation) : List Value → Option Value
  | [.string s, .string piece] => some (Strings.indexOf c s piece 0)
  | _ => none

/-- The place of a piece in a text from a place on. -/
def indexOfFrom? (c : Collation) : List Value → Option Value
  | [.string s, .string piece, start] =>
    if start.isNumber then some (Strings.indexOf c s piece start.asInt) else none
  | _ => none

/-- A text with one piece in place of another. -/
def replaced? : List Value → Option Value
  | [.string s, .string old, .string new] => some (Strings.replace s old new)
  | [.null, _, _] => some .null
  | _ => none

/-- The power of two numbers. -/
def power? : List Value → Option Value
  | [x, y] =>
    if x.isNumber && y.isNumber then some (.double (x.asDouble.pow y.asDouble))
    else if x.isNull || y.isNull then some .null
    else none
  | _ => none

/-- A value rounded to some places. -/
def rounded? : List Value → Option Value
  | [.null, _] => some .null
  | [v, digits] => if digits.isNumber then Numbers.round? digits.asInt v else none
  | _ => none

/-- The magnitude of a number. -/
def absolute? : List Value → Option Value
  | [v] => Numbers.absolute? v
  | _ => none

/-- The names of the entries of a document. -/
def keysOf : List Value → List Value
  | [.document entries] => entries.map fun (name, _) => .string name
  | _ => []

/-- The values of the entries of a document. -/
def valuesOf : List Value → List Value
  | [.document entries] => entries.map Prod.snd
  | _ => []

/-- The elements of an array, the bytes of a binary, any other value by itself. -/
def items? : List Value → Option (List Value)
  | [v] => some v.spread
  | _ => none

/-- The elements of a sequence as one array. -/
def array? : List Value → Option Value
  | [.array items] => some (.array items)
  | _ => none

/-- The elements of a sequence joined with a separator. -/
def joinWith? : List Value → Option Value
  | [.array items, .string separator] => some (Aggregate.join separator items)
  | _ => none

section

variable (f : Builtin) (args : List Value)

/-- The error for values that the function does not take. -/
def wrongTypes {α : Type} : Except EvalError α := .error (.wrongTypes f.name args)

/-- One value, or the error for values that the function does not take. -/
def one (value? : Option Value) : Except EvalError CallResult :=
  match value? with
  | some v => .ok (.one v)
  | none => wrongTypes f args

/-- Some values, or the error for values that the function does not take. -/
def many (values? : Option (List Value)) : Except EvalError CallResult :=
  match values? with
  | some vs => .ok (.many vs)
  | none => wrongTypes f args

/-- The value that a JSON text stands for; null stays null. -/
def readJson : Except EvalError CallResult :=
  match args with
  | [.string s] => (Convert.json s).map .one
  | [.null] => .ok (.one .null)
  | _ => wrongTypes f args

/-- A text made longer with the first character of a filling, in front or behind. -/
def pad (inFront : Bool) : Except EvalError CallResult :=
  match args with
  | [.string s, width, .string fill] =>
    if width.isNumber then
      match fill.toList with
      | [] => .error (.invalidArgument f.name "padding character is empty")
      | c :: _ =>
        let filling := Strings.filling s width.asInt c
        .ok (.one (.string (if inFront then filling ++ s else s ++ filling)))
    else wrongTypes f args
  | [.null, _, _] => .ok (.one .null)
  | _ => wrongTypes f args

/-- The pieces of a text between separators; null has none. -/
def splitText : Except EvalError CallResult :=
  match args with
  | [.string s, .string separator] =>
    if separator.isEmpty then .error (.invalidArgument f.name "separator is empty")
    else .ok (.many (Strings.split s separator))
  | [.null, _] => .ok (.many [])
  | _ => wrongTypes f args

/-- The point some parts later; null stays null. -/
def addToDate : Except EvalError CallResult :=
  match args with
  | [part, amount, .dateTime t] =>
    match part with
    | .string name =>
      if amount.isNumber then
        (Dates.partOf f.name name).map fun part => .one (Dates.add part amount.asInt t)
      else wrongTypes f args
    | _ => wrongTypes f args
  | [_, _, .null] => .ok (.one .null)
  | _ => wrongTypes f args

/-- The parts from one point to another; null has no distance. -/
def dateDifference : Except EvalError CallResult :=
  match args with
  | [.string name, .dateTime start, .dateTime stop] =>
    (Dates.partOf f.name name).map fun part => .one (Dates.difference part start stop)
  | [_, .null, _] | [_, _, .null] => .ok (.one .null)
  | _ => wrongTypes f args

end

end Call

/-- What a function yields for its arguments. -/
def Builtin.apply (c : Collation) (f : Builtin) (args : List Value) : Except EvalError CallResult :=
  let sequence := Call.sequenceArg args
  let is (test : Value → Bool) := Call.one f args (Call.tested test args)
  match f with
  | .items => Call.many f args (Call.items? args)
  | .array => Call.one f args (Call.array? args)
  | .text => Call.one f args (Call.unary Convert.text args)
  | .int32 => Call.one f args (Call.unary Convert.int32 args)
  | .int64 => Call.one f args (Call.unary Convert.int64 args)
  | .double => Call.one f args (Call.unary Convert.double args)
  | .decimal => Call.one f args (Call.unary Convert.decimal args)
  | .boolean => Call.one f args (Call.unary Convert.boolean args)
  | .binary => Call.one f args (Call.unary Convert.binary args)
  | .objectId => Call.one f args (Call.unary Convert.objectId args)
  | .guid => Call.one f args (Call.unary Convert.guid args)
  | .dateTime => Call.one f args (Call.unary Convert.dateTime args)
  | .dateOf => Call.one f args (Call.dateOf? args)
  | .json => Call.readJson f args
  | .minValue => .ok (.one .minValue)
  | .maxValue => .ok (.one .maxValue)
  | .isNull => is Value.isNull
  | .isNumber => is Value.isNumber
  | .isString => is Value.isString
  | .isDocument => is Value.isDocument
  | .isArray => is Value.isArray
  | .isBinary => is Call.isBinaryValue
  | .isBoolean => is Call.isBooleanValue
  | .isDateTime => is Call.isDateTimeValue
  | .isObjectId => is Call.isObjectIdValue
  | .isGuid => is Call.isGuidValue
  | .count => .ok (.one (Call.countValue sequence.length))
  | .sum => (Aggregate.sum sequence).map .one
  | .average => (Aggregate.average sequence).map .one
  | .least => .ok (.one ((Aggregate.least? c sequence).getD .minValue))
  | .greatest => .ok (.one ((Aggregate.greatest? c sequence).getD .maxValue))
  | .first => .ok (.one (sequence.head?.getD .null))
  | .last => .ok (.one (sequence.getLast?.getD .null))
  | .any => .ok (.one (.boolean (!sequence.isEmpty)))
  | .length => Call.one f args (Call.unary (fun v => Call.countValue (Call.lengthOf v)) args)
  | .keys => .ok (.many (Call.keysOf args))
  | .values => .ok (.many (Call.valuesOf args))
  | .extend => Call.one f args (Call.extended? args)
  | .coalesce => Call.one f args (Call.coalesced? args)
  | .distinct => .ok (.many (Aggregate.distinct c sequence))
  | .union => Call.many f args (Call.onSequences (fun a b => Aggregate.distinct c (a ++ b)) args)
  | .except => Call.many f args (Call.onSequences (Aggregate.except c) args)
  | .top => Call.many f args (Call.top? args)
  | .join => .ok (.one (Aggregate.join "" sequence))
  | .joinWith => Call.one f args (Call.joinWith? args)
  | .lower => Call.one f args (Call.onText Text.lower args)
  | .upper => Call.one f args (Call.onText Text.upper args)
  | .trim => Call.one f args (Call.onText Text.trim args)
  | .trimStart => Call.one f args (Call.onText Text.trimStart args)
  | .trimEnd => Call.one f args (Call.onText Text.trimEnd args)
  | .substringFrom => Call.one f args (Call.substringFrom? args)
  | .substring => Call.one f args (Call.substring? args)
  | .indexOf => Call.one f args (Call.indexOf? c args)
  | .indexOfFrom => Call.one f args (Call.indexOfFrom? c args)
  | .replace => Call.one f args (Call.replaced? args)
  | .padLeft => Call.pad f args true
  | .padRight => Call.pad f args false
  | .split => Call.splitText f args
  | .startsWith => Call.one f args (Call.onTexts (Strings.startsWith c) args)
  | .endsWith => Call.one f args (Call.onTexts (Strings.endsWith c) args)
  | .contains => Call.one f args (Call.onTexts (Strings.contains c) args)
  | .absolute => Call.one f args (Call.absolute? args)
  | .round => Call.one f args (Call.rounded? args)
  | .power => Call.one f args (Call.power? args)
  | .year => Call.one f args (Call.onDate .year args)
  | .month => Call.one f args (Call.onDate .month args)
  | .day => Call.one f args (Call.onDate .day args)
  | .hour => Call.one f args (Call.onDate .hour args)
  | .minute => Call.one f args (Call.onDate .minute args)
  | .second => Call.one f args (Call.onDate .second args)
  | .dateAdd => Call.addToDate f args
  | .dateDiff => Call.dateDifference f args

end DocQuery
