import DocQuery.Eval.Error
import DocQuery.Parser
import DocQuery.Text.Search
/-!
# DocQuery.Error

Errors with the text they are about. An error at a token marks the token; one about a
part of an expression marks the first place where the text of the part stands, or
else all of the text. An error at the end marks the place behind the text.
-/

namespace DocQuery

/-- What went wrong. -/
inductive Cause where
  | lex (error : LexError)
  | parse (error : ParseError)
  | eval (error : EvalError)
deriving DecidableEq, Repr

/-- What went wrong and the text that it went wrong in. -/
structure Error where
  cause : Cause
  code : String
deriving DecidableEq, Repr

/-- A part of a text, in bytes. -/
structure Span where
  offset : Nat
  length : Nat
deriving DecidableEq, Repr

namespace Text

/-- The number of bytes before the first occurrence of a piece. -/
def byteOffset? (piece text : String) : Option Nat :=
  (indexOf? piece.toList text.toList).map fun count =>
    Position.offsetOver 0 (text.toList.take count)

end Text

namespace Cause

/-- The token that the error is about. -/
def token? : Cause → Option Token
  | .lex error => error.token?
  | .parse error => error.token?
  | .eval _ => none

/-- The text of the part that the error is about. -/
def part? : Cause → Option String
  | .lex _ => none
  | .parse error => error.part?
  | .eval error => error.part?

/-- The text ended too soon. -/
def isAtEnd : Cause → Bool
  | .lex .unexpectedEnd => true
  | .parse (.unexpectedEnd _) => true
  | _ => false

/-- What is said about the error. -/
def message : Cause → String
  | .lex error => error.message
  | .parse error => error.message
  | .eval error => error.message

/-- The name of the kind of error. -/
def name : Cause → String
  | .lex (.unexpectedToken _) => "LexerError::UnexpectedToken"
  | .lex (.unterminatedString _) => "LexerError::UnterminatedString"
  | .lex .unexpectedEnd => "LexerError::UnexpectedEOFDetected"
  | .parse (.unexpectedToken _) => "ParseError::UnexpectedToken"
  | .parse (.expected _ _) => "ParseError::UnexpectedTokenExpected"
  | .parse (.unexpectedEnd _) => "ParseError::UnexpectedEOFDetected"
  | .parse (.unknownFunction _ _ _) => "ParseError::UnknownFunction"
  | .parse (.leftNotScalar _) => "ParseError::LeftNotScalar"
  | .parse (.rightNotScalar _) => "ParseError::RightNotScalar"
  | .parse (.notScalar _) => "ParseError::NotScalar"
  | .parse (.invalidNumber _) => "ParseError::InvalidNumber"
  | .eval (.notScalar _) => "EvalError::NotScalar"
  | .eval (.noRootDocument _) => "EvalError::NoRootDocument"
  | .eval (.invalidTypes _ _) => "EvalError::InvalidTypes"
  | .eval .zeroDivision => "EvalError::ZeroDivision"
  | .eval (.indexNotNumber _) => "EvalError::IndexNotNumber"
  | .eval (.invalidArgument _ _) => "EvalError::InvalidArgument"
  | .eval (.unsupported _) => "EvalError::Unsupported"
  | .eval .invalidJson => "EvalError::JsonError"
  | .eval .noTotalOrder => "Panic"

/-- What may help against the error. -/
def help? : Cause → Option String
  | .lex (.unexpectedToken _) =>
    some "Check for unexpected or misplaced characters in the expression."
  | .lex (.unterminatedString _) =>
    some "Close the string literal with the same quote it was opened with."
  | .parse (.unexpectedToken _) => some "Check for syntax errors or misplaced tokens."
  | .parse (.expected _ what) => some ("Expected " ++ what ++ " here.")
  | .parse (.unexpectedEnd _) | .lex .unexpectedEnd =>
    some ("Input ended unexpectedly. Check for missing closing brackets or incomplete " ++
      "expressions.")
  | .parse (.unknownFunction _ name arity) =>
    some ("No function '" ++ name ++ "' takes " ++ Number.intText arity ++
      " argument(s). Check the name and the number of arguments.")
  | .parse (.leftNotScalar _) =>
    some "Use ANY or ALL before the operator to compare every element."
  | .parse (.rightNotScalar _) | .parse (.notScalar _) =>
    some "Wrap the expression with ARRAY(...) or pick a single element with [n]."
  | .parse (.invalidNumber _) =>
    some "Numbers must fit in a 64-bit integer or a finite double."
  | .eval (.noRootDocument _) =>
    some "Aggregate expressions have no `$`; read fields through `*` instead."
  | .eval (.invalidTypes _ _) => some "Type mismatch. Check the types of the arguments."
  | .eval .zeroDivision => some "Division by zero is not allowed."
  | .eval (.indexNotNumber _) => some "Bind the index parameter to an integer."
  | .eval (.unsupported _) =>
    some "Switch to the op-tree backend to evaluate this expression."
  | .eval (.notScalar _) | .eval (.invalidArgument _ _) | .eval .invalidJson
  | .eval .noTotalOrder => none

end Cause

namespace Error

/-- The part of the text that the error marks. It holds at least one byte, also where
the text has none. -/
def span (error : Error) : Span :=
  let size := error.code.utf8ByteSize
  match error.cause.token? with
  | some token => ⟨min token.range.start.offset size, max token.range.length 1⟩
  | none =>
    match error.cause.part? with
    | some part =>
      match Text.byteOffset? part error.code with
      | some offset => ⟨offset, max part.utf8ByteSize 1⟩
      | none => ⟨0, max size 1⟩
    | none => if error.cause.isAtEnd then ⟨size, 1⟩ else ⟨0, 1⟩

/-- An error in the text of an expression. -/
def ofSyntax (code : String) : SyntaxError → Error
  | .lex error => ⟨.lex error, code⟩
  | .parse error => ⟨.parse error, code⟩

end Error

end DocQuery
