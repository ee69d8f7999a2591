import DocQuery.Operator
import DocQuery.Position
import DocQuery.Text.Ascii
/-!
# DocQuery.Token

The tokens of an expression. Symbols have one spelling each; the other tokens
carry what was written.
-/

namespace DocQuery

/-- A token that is spelt in one way only. -/
inductive Symbol where
  | arrow | notEqual | greaterEqual | lessEqual | greater | less | equal
  | asterisk | plus | minus | slash | percent
  | leftBrace | rightBrace | leftParen | rightParen | leftBracket | rightBracket
  | comma | colon | semicolon | period | atSign | dollar
deriving DecidableEq, Repr, Inhabited

namespace Symbol

/-- How the symbol is spelt. -/
def text : Symbol → String
  | .arrow => "=>"
  | .notEqual => "!="
  | .greaterEqual => ">="
  | .lessEqual => "<="
  | .greater => ">"
  | .less => "<"
  | .equal => "="
  | .asterisk => "*"
  | .plus => "+"
  | .minus => "-"
  | .slash => "/"
  | .percent => "%"
  | .leftBrace => "\x7b"
  | .rightBrace => "\x7d"
  | .leftParen => "("
  | .rightParen => ")"
  | .leftBracket => "["
  | .rightBracket => "]"
  | .comma => ","
  | .colon => ":"
  | .semicolon => ";"
  | .period => "."
  | .atSign => "@"
  | .dollar => "$"

/-- The symbols, those of two characters before their first character alone. -/
def all : List Symbol :=
  [.arrow, .notEqual, .greaterEqual, .lessEqual, .greater, .less, .equal,
   .asterisk, .plus, .minus, .slash, .percent,
   .leftBrace, .rightBrace, .leftParen, .rightParen, .leftBracket, .rightBracket,
   .comma, .colon, .semicolon, .period, .atSign, .dollar]

end Symbol

/-- What a token is. -/
inductive TokenKind where
  | symbol (s : Symbol)
  /-- A whole number without a fraction or an exponent, as written. -/
  | int (text : String)
  /-- A number with a fraction or an exponent, as written. -/
  | double (text : String)
  /-- What stands between the quotes, escapes resolved. -/
  | string (value : String)
  | word (text : String)
  /-- Blanks, and how many. -/
  | space (count : Nat)
  /-- The end of the expression. -/
  | finish
deriving DecidableEq, Repr, Inhabited

namespace TokenKind

/-- The token as it appears in messages. -/
def text : TokenKind → String
  | .symbol s => s.text
  | .int text | .double text | .string text | .word text => text
  | .space count => String.ofList (List.replicate count ' ')
  | .finish => ""

/-- What is said to be expected where this kind of token is missing. -/
def name : TokenKind → String
  | .symbol s => "`" ++ s.text ++ "`"
  | .int _ => "int"
  | .double _ => "double"
  | .string _ => "string"
  | .word _ => "word"
  | .space _ => "whitespace"
  | .finish => "EOF"

end TokenKind

/-- A token and where it stands. -/
structure Token where
  range : Range
  kind : TokenKind
deriving DecidableEq, Repr, Inhabited

namespace Token

/-- The token as it appears in messages. -/
def text (t : Token) : String := t.kind.text

/-- The token is the end of the expression. -/
def isFinish (t : Token) : Bool :=
  match t.kind with
  | .finish => true
  | _ => false

/-- The token consists of blanks. -/
def isSpace (t : Token) : Bool :=
  match t.kind with
  | .space _ => true
  | _ => false

/-- The token is this symbol. -/
def isSymbol (t : Token) (s : Symbol) : Bool :=
  match t.kind with
  | .symbol s' => decide (s' = s)
  | _ => false

/-- The token is this keyword, in letters of any case. -/
def isKeyword (t : Token) (keyword : String) : Bool :=
  match t.kind with
  | .word w => Text.sameName w keyword
  | _ => false

/-- The operators that are words. -/
def joiningWords : List Operator :=
  [.binary (.comparison .like), .binary (.comparison .between), .binary (.comparison .isIn),
   .logic .and, .logic .or]

/-- The operator that the token spells by itself. -/
def operator? (t : Token) : Option Operator :=
  match t.kind with
  | .symbol .percent => some (.binary (.arithmetic .modulo))
  | .symbol .slash => some (.binary (.arithmetic .divide))
  | .symbol .asterisk => some (.binary (.arithmetic .multiply))
  | .symbol .plus => some (.binary (.arithmetic .add))
  | .symbol .minus => some (.binary (.arithmetic .subtract))
  | .symbol .greater => some (.binary (.comparison .greater))
  | .symbol .greaterEqual => some (.binary (.comparison .greaterEqual))
  | .symbol .less => some (.binary (.comparison .less))
  | .symbol .lessEqual => some (.binary (.comparison .lessEqual))
  | .symbol .notEqual => some (.binary (.comparison .notEqual))
  | .symbol .equal => some (.binary (.comparison .equal))
  | .word w => joiningWords.find? (fun op => Text.sameName w op.text)
  | _ => none

/-- The quantifier that the token spells. -/
def quantifier? (t : Token) : Option Quantifier :=
  if t.isKeyword "ANY" then some .any
  else if t.isKeyword "ALL" then some .all
  else none

end Token

end DocQuery
