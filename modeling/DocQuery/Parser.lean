import DocQuery.Parser.Term
/-!
# DocQuery.Parser

Texts and token streams read as expressions. A term inside another one begins
behind the first token of the outer one, so the tokens that are left bound how
deeply terms are nested.
-/

namespace DocQuery

/-- Why a text is no expression. -/
inductive SyntaxError where
  | lex (error : LexError)
  | parse (error : ParseError)
deriving DecidableEq, Repr, Inhabited

namespace Parser

/-- Reads a term that has at most so many terms inside one another. -/
def termUpTo : (bound : Nat) → Scope → Parser Node
  | 0, _ => failAtNext
  | bound + 1, scope => termWith (termUpTo bound) scope

/-- Reads one term, and leaves an operator behind it where it is. -/
def single (scope : Scope) : Parser Node := do termUpTo (← remaining) scope

/-- Reads terms joined by operators. -/
def full (scope : Scope) : Parser Node := do joined (termUpTo (← remaining)) scope

/-- Reads as much as the mode says. -/
def inMode : ParseMode → Scope → Parser Node
  | .full, scope => do
    let node ← full scope
    unless (← get).isExhausted do throw (.unexpectedToken (← peek true))
    return node
  | .single, scope => single scope

end Parser

/-- The expression that a text is. -/
def parse (code : String) (scope : Scope) (mode : ParseMode) : Except SyntaxError Node :=
  match TokenStream.ofText code with
  | .error error => .error (.lex error)
  | .ok stream =>
    match (Parser.inMode mode scope).run stream with
    | .ok node _ => .ok node
    | .error error _ => .error (.parse error)

end DocQuery
