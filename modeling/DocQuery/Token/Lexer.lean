import DocQuery.Bytes.Hex
import DocQuery.Token
/-!
# DocQuery.Token.Lexer

The text of an expression cut into tokens. `scan` says which token stands at the
beginning of a text and over how many characters it reaches; `tokensFrom` goes on
behind each token until the text is used up or no token stands there.

Numbers have no sign. A string stands between quotes of either kind and may hold
line ends; its escapes are those of JSON, the single quote, and a character by one
to six hexadecimal digits in braces.
-/

namespace DocQuery

/-- Why a text could not be cut into tokens. -/
inductive LexError where
  /-- No token begins with this character. -/
  | unexpectedToken (token : Token)
  /-- The string that begins here has no end, or holds no proper escape. -/
  | unterminatedString (token : Token)
  | unexpectedEnd
deriving DecidableEq, Repr, Inhabited

namespace LexError

/-- The token that the error is about. -/
def token? : LexError → Option Token
  | .unexpectedToken token | .unterminatedString token => some token
  | .unexpectedEnd => none

/-- What is said about the error. -/
def message : LexError → String
  | .unexpectedToken token => "Unexpected token `" ++ token.text ++ "`"
  | .unterminatedString _ => "Unterminated string literal"
  | .unexpectedEnd => "Unexpected EOF detected"

end LexError

namespace Lexer

/-- The blanks between tokens. -/
def isSpace (c : Char) : Bool :=
  c == ' ' || c == '\t' || c == '\r' || c == '\n'

/-- A hexadecimal digit of either case. -/
def isHexDigit (c : Char) : Bool := (Bytes.hexValue? c).isSome

/-- The number of characters at the beginning that are in a class. -/
def span (p : Char → Bool) (chars : List Char) : Nat := (chars.takeWhile p).length

/-- The character with this number, if there is one. -/
def charOfNumber? (n : Nat) : Option Char :=
  if n.isValidChar then some (Char.ofNat n) else none

/-- The character named by digits in braces or by exactly four digits, and over how
many characters its name reaches. -/
def codePoint? : List Char → Option (Char × Nat)
  | '\x7b' :: rest => do
    let count := min (span isHexDigit rest) 6
    guard (0 < count ∧ rest[count]? = some '\x7d')
    let c ← charOfNumber? (← Bytes.hexNumber? (rest.take count))
    return (c, count + 2)
  | chars => do
    guard (4 ≤ span isHexDigit chars)
    let c ← charOfNumber? (← Bytes.hexNumber? (chars.take 4))
    return (c, 4)

/-- The character that an escape stands for, and over how many characters behind
the backslash it reaches. -/
def escape? : List Char → Option (Char × Nat)
  | '\\' :: _ => some ('\\', 1)
  | '"' :: _ => some ('"', 1)
  | '\'' :: _ => some ('\'', 1)
  | '/' :: _ => some ('/', 1)
  | 'b' :: _ => some ('\x08', 1)
  | 'f' :: _ => some ('\x0c', 1)
  | 'n' :: _ => some ('\n', 1)
  | 'r' :: _ => some ('\r', 1)
  | 't' :: _ => some ('\t', 1)
  | 'u' :: rest => (codePoint? rest).map fun (c, count) => (c, count + 1)
  | _ => none

/-- The characters up to the closing quote, escapes resolved, and over how many
characters they and the quote reach. -/
def stringBody? (quote : Char) (chars : List Char) : Option (List Char × Nat) :=
  match chars with
  | [] => none
  | c :: rest =>
    if c = quote then some ([], 1)
    else if c = '\\' then do
      let (d, count) ← escape? rest
      let (body, length) ← stringBody? quote (rest.drop count)
      return (d :: body, length + count + 1)
    else do
      let (body, length) ← stringBody? quote rest
      return (c :: body, length + 1)
termination_by chars.length
decreasing_by all_goals simp only [List.length_cons, List.length_drop]; omega

/-- The length of the fraction of a number: a period and at least one digit. -/
def fractionLength : List Char → Nat
  | '.' :: rest =>
    let count := span Char.isDigit rest
    if count = 0 then 0 else count + 1
  | _ => 0

/-- The length of an exponent without its letter: an optional sign and at least one
digit. -/
def powerLength (chars : List Char) : Nat :=
  match chars with
  | [] => 0
  | c :: rest =>
    let sign := if c = '+' ∨ c = '-' then 1 else 0
    let count := span Char.isDigit (if c = '+' ∨ c = '-' then rest else c :: rest)
    if count = 0 then 0 else count + sign

/-- The length of the exponent of a number. -/
def exponentLength : List Char → Nat
  | c :: rest =>
    if c = 'e' ∨ c = 'E' then
      let count := powerLength rest
      if count = 0 then 0 else count + 1
    else 0
  | [] => 0

/-- The number at the beginning of a text. -/
def number? (chars : List Char) : Option (TokenKind × Nat) :=
  let whole := span Char.isDigit chars
  if whole = 0 then none
  else
    let fraction := fractionLength (chars.drop whole)
    let exponent := exponentLength (chars.drop (whole + fraction))
    let length := whole + fraction + exponent
    let text := String.ofList (chars.take length)
    some (if fraction + exponent = 0 then .int text else .double text, length)

/-- The number of characters of the word at the beginning of a text without a sigil. -/
def bareLength : List Char → Nat
  | c :: rest => if Text.isWordStart c then span Text.isWordPart rest + 1 else 0
  | [] => 0

/-- The number of characters of the word at the beginning of a text. -/
def wordLength : List Char → Nat
  | '$' :: rest =>
    let count := bareLength rest
    if count = 0 then 0 else count + 1
  | chars => bareLength chars

/-- The symbol at the beginning of a text. -/
def symbol? (chars : List Char) : Option Symbol :=
  Symbol.all.find? fun s => s.text.toList.isPrefixOf chars

/-- The token at the beginning of a text and over how many characters it reaches. -/
def scan (chars : List Char) : Option (TokenKind × Nat) :=
  match chars with
  | [] => none
  | c :: rest =>
    if isSpace c then
      let count := span isSpace rest + 1
      some (.space count, count)
    else if c = '"' ∨ c = '\'' then
      (stringBody? c rest).map fun (body, length) => (.string (String.ofList body), length + 1)
    else if c.isDigit then number? chars
    else
      let count := wordLength chars
      if 0 < count then some (.word (String.ofList (chars.take count)), count)
      else (symbol? chars).map fun s => (.symbol s, s.text.toList.length)

/-- The part of the text that a token covers. The end of a string is counted line by
line, that of every other token by its characters alone. -/
def rangeOf (kind : TokenKind) (start : Position) (lexeme : List Char) : Range :=
  match kind with
  | .string _ => ⟨start, start.advanceOver lexeme⟩
  | _ => ⟨start, start.shiftOver lexeme⟩

/-- The error where no token stands. -/
def errorAt (start : Position) (c : Char) (chars : List Char) : LexError :=
  let range : Range := ⟨start, start.shiftOver [c]⟩
  if c = '"' ∨ c = '\'' then .unterminatedString ⟨range, .string (String.ofList chars)⟩
  else .unexpectedToken ⟨range, .word (String.ofList [c])⟩

/-- The tokens of a text that stands at `start`, its end included. -/
def tokensFrom (start : Position) (chars : List Char) : Except LexError (List Token) :=
  match chars with
  | [] => .ok [⟨Range.point start, .finish⟩]
  | c :: rest =>
    match scan (c :: rest) with
    | some (kind, count + 1) => do
      let lexeme := (c :: rest).take (count + 1)
      let others ← tokensFrom (start.advanceOver lexeme) (rest.drop count)
      return ⟨rangeOf kind start lexeme, kind⟩ :: others
    | _ => .error (errorAt start c (c :: rest))
termination_by chars.length
decreasing_by simp only [List.length_cons, List.length_drop]; omega

end Lexer

/-- The tokens of a text, its blanks and its end included. -/
def tokenizeAll (code : String) : Except LexError (List Token) :=
  Lexer.tokensFrom Position.start code.toList

/-- The tokens of a text and its end, with its blanks or without. -/
def tokenize (code : String) (spaces : Bool) : Except LexError (List Token) := do
  let tokens ← tokenizeAll code
  return if spaces then tokens else tokens.filter (!·.isSpace)

end DocQuery
