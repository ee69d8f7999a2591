import DocQuery.Number.Integer
import DocQuery.Token
/-!
# DocQuery.Parser.Error

Why tokens do not make an expression. An error is about a token, or about a part of
the expression that yields another number of values than its place asks for.
-/

namespace DocQuery

/-- Why tokens do not make an expression. -/
inductive ParseError where
  | unexpectedToken (token : Token)
  /-- Something else has to stand in the place of the token. -/
  | expected (token : Token) (what : String)
  | unexpectedEnd (token : Token)
  /-- There is no such function with that many arguments. -/
  | unknownFunction (token : Token) (name : String) (arity : Nat)
  | leftNotScalar (source : String)
  | rightNotScalar (source : String)
  | notScalar (source : String)
  | invalidNumber (token : Token)
deriving DecidableEq, Repr, Inhabited

namespace ParseError

/-- The error at a token that cannot stand where it stands. -/
def unexpected (token : Token) : ParseError :=
  if token.isFinish then .unexpectedEnd token else .unexpectedToken token

/-- The token that the error is about. -/
def token? : ParseError → Option Token
  | .unexpectedToken token | .expected token _ | .unexpectedEnd token
  | .unknownFunction token _ _ | .invalidNumber token => some token
  | .leftNotScalar _ | .rightNotScalar _ | .notScalar _ => none

/-- The text of the part that the error is about. -/
def part? : ParseError → Option String
  | .leftNotScalar source | .rightNotScalar source | .notScalar source => some source
  | _ => none

/-- A token as messages call it. -/
def describe (token : Token) : String :=
  if token.isFinish then "EOF" else token.text

/-- What is said about the error. -/
def message : ParseError → String
  | .unexpectedToken token => "Unexpected token `" ++ describe token ++ "`"
  | .expected token what => "Unexpected token `" ++ describe token ++ "`, expected " ++ what
  | .unexpectedEnd _ => "Unexpected EOF detected"
  | .unknownFunction _ name arity =>
    "Method '" ++ name ++ "' does not exist or contains invalid parameters (" ++
      Number.intText arity ++ " given)"
  | .leftNotScalar source =>
    "Left expression `" ++ source ++
      "` returns more than one result. Try use ANY or ALL before operant."
  | .rightNotScalar source => "Right expression `" ++ source ++ "` must return a single value"
  | .notScalar source => "Expression `" ++ source ++ "` must be a scalar expression"
  | .invalidNumber token => "Invalid number `" ++ describe token ++ "`"

end ParseError

end DocQuery
