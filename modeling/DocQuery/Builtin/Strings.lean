import DocQuery.Collation
import DocQuery.Text.Search
import DocQuery.Value
/-!
# DocQuery.Builtin.Strings

Functions on text. Places and lengths count characters. Where a collation disregards
case, a piece of text is looked for in the lowered texts, and a place is one in the
lowered text.
-/

namespace DocQuery.Strings

/-- The text as the collation looks for pieces in it. -/
def searched (c : Collation) (s : String) : List Char :=
  if c.foldsCase then Text.lower s.toList else s.toList

/-- The characters from a place on. A negative place is the beginning. -/
def substringFrom (s : String) (start : Int) : Value :=
  .string (String.ofList (s.toList.drop start.toNat))

/-- So many characters from a place on. -/
def substring (s : String) (start length : Int) : Value :=
  .string (String.ofList ((s.toList.drop start.toNat).take length.toNat))

/-- The place of the first occurrence of a piece from a place on that is within the
text; -1 if there is none. -/
def indexOf (c : Collation) (s piece : String) (start : Int) : Value :=
  let text := searched c s
  let place? : Option Nat := do
    guard (start.toNat < text.length)
    let found ← Text.indexOf? (searched c piece) (text.drop start.toNat)
    return start.toNat + found
  .int32 (match place? with
    | some place => Int32.ofInt place
    | none => -1)

/-- The filling that makes a text as long as asked for. -/
def filling (s : String) (width : Int) (fill : Char) : String :=
  String.ofList (List.replicate (width.toNat - s.length) fill)

/-- The pieces of a text between the occurrences of a separator. -/
def split (s separator : String) : List Value :=
  (Text.splitOn separator.toList s.toList).map fun piece => .string (String.ofList piece)

/-- The text with one piece in place of another. -/
def replace (s old new : String) : Value :=
  .string (String.ofList (Text.replace old.toList new.toList s.toList))

/-- The text begins with a piece. -/
def startsWith (c : Collation) (s piece : String) : Bool :=
  (searched c piece).isPrefixOf (searched c s)

/-- The text ends with a piece. -/
def endsWith (c : Collation) (s piece : String) : Bool :=
  (searched c piece).isSuffixOf (searched c s)

/-- The text holds a piece. -/
def contains (c : Collation) (s piece : String) : Bool :=
  Text.contains (searched c piece) (searched c s)

end DocQuery.Strings
