import DocQuery.Text.Ascii
/-!
# DocQuery.Builtin

The functions that an expression may call. A function is named together with its
number of arguments: functions of one name differ in that number. Generators take no
arguments and may yield something else each time.
-/

namespace DocQuery

/-- How many values stand in a place: one, or any number in order. -/
inductive Cardinality where
  | scalar | sequence
deriving DecidableEq, Repr, Inhabited

/-- What an expression has to know of a function in order to call it. -/
structure Signature where
  name : String
  params : List Cardinality
  result : Cardinality
deriving DecidableEq, Repr

/-- The number of arguments. -/
def Signature.arity (s : Signature) : Nat := s.params.length

/-- A function whose result depends on nothing but its arguments and the collation. -/
inductive Builtin where
  /-- The elements of an array, the bytes of a binary, any other value by itself. -/
  | items
  /-- The elements of a sequence as one array. -/
  | array
  | text
  | int32
  | int64
  | double
  | decimal
  | boolean
  | binary
  | objectId
  | guid
  | dateTime
  /-- The date with this year, month and day. -/
  | dateOf
  | json
  | minValue
  | maxValue
  | isNull
  | isNumber
  | isString
  | isDocument
  | isArray
  | isBinary
  | isBoolean
  | isDateTime
  | isObjectId
  | isGuid
  | count
  | sum
  | average
  | least
  | greatest
  | first
  | last
  /-- There is at least one element. -/
  | any
  | length
  | keys
  | values
  /-- The first document with the entries of the second. -/
  | extend
  /-- The first argument unless it is null. -/
  | coalesce
  | distinct
  | union
  | except
  /-- The first few elements. -/
  | top
  | join
  | joinWith
  | lower
  | upper
  | trim
  | trimStart
  | trimEnd
  | substringFrom
  | substring
  | indexOf
  | indexOfFrom
  | replace
  | padLeft
  | padRight
  | split
  | startsWith
  | endsWith
  | contains
  | absolute
  | round
  | power
  | year
  | month
  | day
  | hour
  | minute
  | second
  | dateAdd
  | dateDiff
deriving DecidableEq, Repr, Inhabited

namespace Builtin

/-- The name and the places of a function. -/
def signature : Builtin → Signature
  | .items => ⟨"ITEMS", [.scalar], .sequence⟩
  | .array => ⟨"ARRAY", [.sequence], .scalar⟩
  | .text => ⟨"STRING", [.scalar], .scalar⟩
  | .int32 => ⟨"INT32", [.scalar], .scalar⟩
  | .int64 => ⟨"INT64", [.scalar], .scalar⟩
  | .double => ⟨"DOUBLE", [.scalar], .scalar⟩
  | .decimal => ⟨"DECIMAL", [.scalar], .scalar⟩
  | .boolean => ⟨"BOOLEAN", [.scalar], .scalar⟩
  | .binary => ⟨"BINARY", [.scalar], .scalar⟩
  | .objectId => ⟨"OBJECTID", [.scalar], .scalar⟩
  | .guid => ⟨"GUID", [.scalar], .scalar⟩
  | .dateTime => ⟨"DATETIME", [.scalar], .scalar⟩
  | .dateOf => ⟨"DATETIME", [.scalar, .scalar, .scalar], .scalar⟩
  | .json => ⟨"JSON", [.scalar], .scalar⟩
  | .minValue => ⟨"MINVALUE", [], .scalar⟩
  | .maxValue => ⟨"MAXVALUE", [], .scalar⟩
  | .isNull => ⟨"IS_NULL", [.scalar], .scalar⟩
  | .isNumber => ⟨"IS_NUMBER", [.scalar], .scalar⟩
  | .isString => ⟨"IS_STRING", [.scalar], .scalar⟩
  | .isDocument => ⟨"IS_DOCUMENT", [.scalar], .scalar⟩
  | .isArray => ⟨"IS_ARRAY", [.scalar], .scalar⟩
  | .isBinary => ⟨"IS_BINARY", [.scalar], .scalar⟩
  | .isBoolean => ⟨"IS_BOOLEAN", [.scalar], .scalar⟩
  | .isDateTime => ⟨"IS_DATETIME", [.scalar], .scalar⟩
  | .isObjectId => ⟨"IS_OBJECTID", [.scalar], .scalar⟩
  | .isGuid => ⟨"IS_GUID", [.scalar], .scalar⟩
  | .count => ⟨"COUNT", [.sequence], .scalar⟩
  | .sum => ⟨"SUM", [.sequence], .scalar⟩
  | .average => ⟨"AVG", [.sequence], .scalar⟩
  | .least => ⟨"MIN", [.sequence], .scalar⟩
  | .greatest => ⟨"MAX", [.sequence], .scalar⟩
  | .first => ⟨"FIRST", [.sequence], .scalar⟩
  | .last => ⟨"LAST", [.sequence], .scalar⟩
  | .any => ⟨"ANY", [.sequence], .scalar⟩
  | .length => ⟨"LENGTH", [.scalar], .scalar⟩
  | .keys => ⟨"KEYS", [.scalar], .sequence⟩
  | .values => ⟨"VALUES", [.scalar], .sequence⟩
  | .extend => ⟨"EXTEND", [.scalar, .scalar], .scalar⟩
  | .coalesce => ⟨"COALESCE", [.scalar, .scalar], .scalar⟩
  | .distinct => ⟨"DISTINCT", [.sequence], .sequence⟩
  | .union => ⟨"UNION", [.sequence, .sequence], .sequence⟩
  | .except => ⟨"EXCEPT", [.sequence, .sequence], .sequence⟩
  | .top => ⟨"TOP", [.sequence, .scalar], .sequence⟩
  | .join => ⟨"JOIN", [.sequence], .scalar⟩
  | .joinWith => ⟨"JOIN", [.sequence, .scalar], .scalar⟩
  | .lower => ⟨"LOWER", [.scalar], .scalar⟩
  | .upper => ⟨"UPPER", [.scalar], .scalar⟩
  | .trim => ⟨"TRIM", [.scalar], .scalar⟩
  | .trimStart => ⟨"LTRIM", [.scalar], .scalar⟩
  | .trimEnd => ⟨"RTRIM", [.scalar], .scalar⟩
  | .substringFrom => ⟨"SUBSTRING", [.scalar, .scalar], .scalar⟩
  | .substring => ⟨"SUBSTRING", [.scalar, .scalar, .scalar], .scalar⟩
  | .indexOf => ⟨"INDEXOF", [.scalar, .scalar], .scalar⟩
  | .indexOfFrom => ⟨"INDEXOF", [.scalar, .scalar, .scalar], .scalar⟩
  | .replace => ⟨"REPLACE", [.scalar, .scalar, .scalar], .scalar⟩
  | .padLeft => ⟨"LPAD", [.scalar, .scalar, .scalar], .scalar⟩
  | .padRight => ⟨"RPAD", [.scalar, .scalar, .scalar], .scalar⟩
  | .split => ⟨"SPLIT", [.scalar, .scalar], .sequence⟩
  | .startsWith => ⟨"STARTSWITH", [.scalar, .scalar], .scalar⟩
  | .endsWith => ⟨"ENDSWITH", [.scalar, .scalar], .scalar⟩
  | .contains => ⟨"CONTAINS", [.scalar, .scalar], .scalar⟩
  | .absolute => ⟨"ABS", [.scalar], .scalar⟩
  | .round => ⟨"ROUND", [.scalar, .scalar], .scalar⟩
  | .power => ⟨"POW", [.scalar, .scalar], .scalar⟩
  | .year => ⟨"YEAR", [.scalar], .scalar⟩
  | .month => ⟨"MONTH", [.scalar], .scalar⟩
  | .day => ⟨"DAY", [.scalar], .scalar⟩
  | .hour => ⟨"HOUR", [.scalar], .scalar⟩
  | .minute => ⟨"MINUTE", [.scalar], .scalar⟩
  | .second => ⟨"SECOND", [.scalar], .scalar⟩
  | .dateAdd => ⟨"DATEADD", [.scalar, .scalar, .scalar], .scalar⟩
  | .dateDiff => ⟨"DATEDIFF", [.scalar, .scalar, .scalar], .scalar⟩

/-- The functions, those of one name with fewer arguments in front. -/
def all : List Builtin :=
  [.items, .array, .text, .int32, .int64, .double, .decimal, .boolean, .binary, .objectId,
   .guid, .dateTime, .dateOf, .json, .minValue, .maxValue, .isNull, .isNumber, .isString,
   .isDocument, .isArray, .isBinary, .isBoolean, .isDateTime, .isObjectId, .isGuid, .count,
   .sum, .average, .least, .greatest, .first, .last, .any, .length, .keys, .values, .extend,
   .coalesce, .distinct, .union, .except, .top, .join, .joinWith, .lower, .upper, .trim,
   .trimStart, .trimEnd, .substringFrom, .substring, .indexOf, .indexOfFrom, .replace, .padLeft,
   .padRight, .split, .startsWith, .endsWith, .contains, .absolute, .round, .power, .year,
   .month, .day, .hour, .minute, .second, .dateAdd, .dateDiff]

/-- The name that a call is written with. -/
def name (f : Builtin) : String := f.signature.name

/-- The function yields one value. -/
def isScalar (f : Builtin) : Bool := decide (f.signature.result = .scalar)

theorem mem_all (f : Builtin) : f ∈ all := by cases f <;> decide

end Builtin

/-- A function that may yield something else each time. -/
inductive Generator where
  | now
  | nowUtc
  /-- The day that it is now, at midnight. -/
  | today
  | guid
  | objectId
deriving DecidableEq, Repr, Inhabited

namespace Generator

/-- The name that a call is written with. -/
def name : Generator → String
  | .now => "NOW"
  | .nowUtc => "NOW_UTC"
  | .today => "TODAY"
  | .guid => "GUID"
  | .objectId => "OBJECTID"

/-- The generators. -/
def all : List Generator := [.now, .nowUtc, .today, .guid, .objectId]

theorem mem_all (g : Generator) : g ∈ all := by cases g <;> decide

end Generator

/-- What a name and a number of arguments may stand for. -/
inductive Callable where
  | builtin (f : Builtin)
  | generator (g : Generator)
deriving DecidableEq, Repr, Inhabited

namespace Callable

/-- The name and the places. -/
def signature : Callable → Signature
  | .builtin f => f.signature
  | .generator g => ⟨g.name, [], .scalar⟩

/-- The result may be another one each time. -/
def isVolatile : Callable → Bool
  | .builtin _ => false
  | .generator _ => true

/-- All there is to call. -/
def all : List Callable := Builtin.all.map .builtin ++ Generator.all.map .generator

/-- All there is under one name in upper case. -/
def named (name : String) : List Callable := all.filter fun f => f.signature.name = name

/-- What a name, in letters of any case, stands for with this number of arguments. -/
def find? (name : String) (arity : Nat) : Option Callable :=
  (named (Text.upperName name)).find? fun f => f.signature.arity = arity

/-- The different names. -/
def names : List String := (all.map fun f => f.signature.name).eraseDups

end Callable

end DocQuery
