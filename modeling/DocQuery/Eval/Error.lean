import DocQuery.Value
/-!
# DocQuery.Eval.Error

Why an expression has no value. An error about a part of an expression carries the
canonical text of that part.
-/

namespace DocQuery

/-- Why an expression has no value. -/
inductive EvalError where
  /-- One value is asked for, and the part yields any number. -/
  | notScalar (source : String)
  /-- A path starts where nothing is bound. -/
  | noRootDocument (field : String)
  /-- A function or an operator is given values that it does not take. -/
  | invalidTypes (name : String) (types : List String)
  | zeroDivision
  /-- A computed place is no whole number. -/
  | indexNotNumber (source : String)
  | invalidArgument (name message : String)
  | unsupported (name : String)
  /-- A text is no JSON. What its reader says about the place, which the program puts behind the
  message, is left out. -/
  | invalidJson
  /-- The keys of a sort turn out to be in no order. This is no error that a caller is given: the
  program ends here. -/
  | noTotalOrder
deriving DecidableEq, Repr, Inhabited

namespace EvalError

/-- The error of a function that does not take these values. -/
def wrongTypes (name : String) (args : List Value) : EvalError :=
  .invalidTypes name (args.map Value.typeName)

/-- The text that the error is about. -/
def part? : EvalError → Option String
  | .notScalar source | .indexNotNumber source => some source
  | .noRootDocument field => if field.isEmpty then none else some field
  | _ => none

/-- What is said about the error. -/
def message : EvalError → String
  | .notScalar source => "Expression `" ++ source ++ "` returns more than one value"
  | .noRootDocument field => "No root document to resolve field `" ++ field ++ "`"
  | .invalidTypes name types =>
    "Invalid types for \"" ++ name ++ "\", got " ++ ", ".intercalate types
  | .zeroDivision => "Divided by 0"
  | .indexNotNumber source => "Index `" ++ source ++ "` must be a number"
  | .invalidArgument name message => "Invalid argument for \"" ++ name ++ "\": " ++ message
  | .unsupported name => name ++ " is not supported by this backend"
  | .invalidJson => "Invalid JSON"
  | .noTotalOrder =>
    "user-provided comparison function does not correctly implement a total order"

end EvalError

end DocQuery
