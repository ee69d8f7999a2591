import DocQuery.Parser.Error
import DocQuery.Token.Stream
/-!
# DocQuery.Parser.Basic

Readers of tokens. A reader takes tokens off a stream and yields a result or an
error; the stream behind an error is the one that had been reached.

A field name stands for different things in different scopes, so readers of
expressions are told the scope.
-/

namespace DocQuery

/-- What a bare field name stands for. -/
inductive Scope where
  /-- A field of the document. -/
  | root
  /-- A field of the element at hand. -/
  | current
  /-- A field of each document of the sequence. -/
  | source
deriving DecidableEq, Repr, Inhabited

/-- How much of a text is read as an expression. -/
inductive ParseMode where
  /-- All of it. -/
  | full
  /-- One term at its beginning. -/
  | single
deriving DecidableEq, Repr, Inhabited

/-- A reader of tokens. -/
abbrev Parser := EStateM ParseError TokenStream

namespace Parser

/-- Reads the next token, past blanks if they are to be skipped. -/
def next (skip : Bool) : Parser Token := do
  let stream ← get
  set (stream.advance skip)
  return stream.peek skip

/-- The next token, which stays where it is. -/
def peek (skip : Bool) : Parser Token := return (← get).peek skip

/-- Passes over the next token. -/
def pass (skip : Bool) : Parser Unit := modify (·.advance skip)

/-- How many tokens are left: a bound on how often a reader can read one. -/
def remaining : Parser Nat := return (← get).remaining

/-- Reads a symbol. -/
def expect (symbol : Symbol) : Parser Unit := do
  let token ← next true
  unless token.isSymbol symbol do
    throw (.expected token (TokenKind.symbol symbol).name)

/-- Reads a token where there has to be one that nothing can begin with. -/
def failAtNext {α : Type} : Parser α := do throw (.unexpected (← next true))

/-- Reads an operator, if one comes next. -/
def operator? : Parser (Option Operator) := do
  let ahead ← peek true
  match ahead.operator? with
  | some op =>
    pass true
    return some op
  | none =>
    match ahead.quantifier? with
    | none => return none
    | some quantifier =>
      pass true
      let token ← next true
      match token.operator? with
      | some (.binary (.comparison op)) => return some (.quantified quantifier op)
      | some _ => throw (.unexpectedToken token)
      | none => throw (.expected token "operator")

end Parser

end DocQuery
