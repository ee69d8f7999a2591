import DocQuery.Bytes.Hex
/-!
# DocQuery.Text.Quoted

Text between double quotes, as JSON and the canonical text of expressions write
it. Only the quote, the backslash and the control characters below U+0020 are
escaped; five of the control characters have short escapes.
-/

namespace DocQuery.Text

/-- How a character is written between quotes. -/
def escapeChar (c : Char) : List Char :=
  match c with
  | '"' => ['\\', '"']
  | '\\' => ['\\', '\\']
  | '\x08' => ['\\', 'b']
  | '\x09' => ['\\', 't']
  | '\x0a' => ['\\', 'n']
  | '\x0c' => ['\\', 'f']
  | '\x0d' => ['\\', 'r']
  | c =>
    if c.toNat < 0x20 then
      ['\\', 'u', '0', '0', Bytes.hexDigit (c.toNat / 16), Bytes.hexDigit (c.toNat % 16)]
    else [c]

/-- The text between double quotes. -/
def quoted (s : List Char) : List Char :=
  '"' :: s.flatMap escapeChar ++ ['"']

/-- The name between double quotes. -/
def quote (s : String) : String :=
  String.ofList (quoted s.toList)

end DocQuery.Text
