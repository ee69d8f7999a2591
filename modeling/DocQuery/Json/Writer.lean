import DocQuery.Json
import DocQuery.Text.Quoted
import DocQuery.Number.Layout
/-!
# DocQuery.Json.Writer

JSON values as text: on one line without blanks (`compact`), or over several lines
with two blanks for each level (`pretty`).
-/

namespace DocQuery

/-- The text of a number. -/
def JsonNumber.write : JsonNumber → List Char
  | .whole n => (Number.intText n).toList
  | .double x => Number.Layout.json.write x

namespace Json

mutual

/-- The text on one line. -/
def compact : Json → List Char
  | .null => ['n', 'u', 'l', 'l']
  | .bool true => ['t', 'r', 'u', 'e']
  | .bool false => ['f', 'a', 'l', 's', 'e']
  | .number n => n.write
  | .string s => Text.quoted s.toList
  | .array items => '[' :: compactItems items ++ [']']
  | .object members => '\x7b' :: compactMembers members ++ ['\x7d']

/-- The items with commas between them. -/
def compactItems : List Json → List Char
  | [] => []
  | [item] => item.compact
  | item :: next :: rest => item.compact ++ ',' :: compactItems (next :: rest)

/-- The members with commas between them. -/
def compactMembers : List (String × Json) → List Char
  | [] => []
  | [(name, value)] => Text.quoted name.toList ++ ':' :: value.compact
  | (name, value) :: next :: rest =>
    Text.quoted name.toList ++ ':' :: value.compact ++ ',' :: compactMembers (next :: rest)

end

/-- A new line at a level. -/
def newLine (level : Nat) : List Char := '\n' :: List.replicate (2 * level) ' '

mutual

/-- The text over several lines, its first line at the given level. -/
def pretty (level : Nat) : Json → List Char
  | .array [] => ['[', ']']
  | .array (item :: rest) =>
    '[' :: prettyItems (level + 1) (item :: rest) ++ newLine level ++ [']']
  | .object [] => ['\x7b', '\x7d']
  | .object (member :: rest) =>
    '\x7b' :: prettyMembers (level + 1) (member :: rest) ++ newLine level ++ ['\x7d']
  | .null => ['n', 'u', 'l', 'l']
  | .bool true => ['t', 'r', 'u', 'e']
  | .bool false => ['f', 'a', 'l', 's', 'e']
  | .number n => n.write
  | .string s => Text.quoted s.toList

/-- The items, each on a line of its own. -/
def prettyItems (level : Nat) : List Json → List Char
  | [] => []
  | [item] => newLine level ++ item.pretty level
  | item :: next :: rest =>
    newLine level ++ item.pretty level ++ ',' :: prettyItems level (next :: rest)

/-- The members, each on a line of its own. -/
def prettyMembers (level : Nat) : List (String × Json) → List Char
  | [] => []
  | [(name, value)] =>
    newLine level ++ Text.quoted name.toList ++ ':' :: ' ' :: value.pretty level
  | (name, value) :: next :: rest =>
    newLine level ++ Text.quoted name.toList ++ ':' :: ' ' :: value.pretty level
      ++ ',' :: prettyMembers level (next :: rest)

end

/-- The text on one line. -/
def toText (json : Json) : String := String.ofList json.compact

/-- The text over several lines. -/
def toLines (json : Json) : String := String.ofList (json.pretty 0)

end Json

end DocQuery
