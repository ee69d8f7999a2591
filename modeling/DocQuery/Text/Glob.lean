/-!
# DocQuery.Text.Glob

Patterns that match a whole text: `%` stands for any run of characters, the empty
run included, `_` for exactly one character, and every other character for itself.
Matching may disregard the case of ASCII letters.

A pattern is matched from its last part to its first. At each part we hold a table
with one entry for each suffix of the text, longest suffix first: does the rest of
the pattern match this suffix? So the work is bounded by the length of the pattern
times the length of the text.
-/

namespace DocQuery.Text

/-- One part of a pattern. -/
inductive GlobPart where
  /-- Any run of characters. -/
  | run
  /-- Exactly one character, whichever it is. -/
  | any
  /-- This character. -/
  | char (c : Char)
deriving DecidableEq, Repr

/-- A pattern is a sequence of parts. -/
abbrev Glob := List GlobPart

namespace Glob

/-- The pattern that a text spells. -/
def ofText (s : List Char) : Glob :=
  s.map fun
    | '%' => .run
    | '_' => .any
    | c => .char c

/-- A part other than a run stands for this character. -/
def admits (foldCase : Bool) : GlobPart → Char → Bool
  | .run, _ => false
  | .any, _ => true
  | .char p, c => p == c || (foldCase && p.toLower == c.toLower)

/-- Each entry becomes true if it or a later one is. -/
def anyLater : List Bool → List Bool
  | [] => []
  | b :: bs =>
    let later := anyLater bs
    (b || later.headD false) :: later

/-- For each suffix of the text, longest first: the pattern matches it. -/
def suffixMatches (foldCase : Bool) : Glob → List Char → List Bool
  | [], text => text.map (fun _ => false) ++ [true]
  | .run :: rest, text => anyLater (suffixMatches foldCase rest text)
  | part :: rest, text =>
    List.zipWith (fun c later => admits foldCase part c && later) text
      (suffixMatches foldCase rest text).tail ++ [false]

/-- The pattern matches the whole text. -/
def accepts (foldCase : Bool) (pattern : Glob) (text : List Char) : Bool :=
  (suffixMatches foldCase pattern text).headD false

end Glob

end DocQuery.Text
