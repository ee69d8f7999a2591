/-!
# DocQuery.Text.Search

Finding, splitting and replacing a piece of text. Occurrences are looked for
from the left and do not overlap.
-/

namespace DocQuery.Text

/-- The number of characters before the first occurrence of `piece`. -/
def indexOf? (piece : List Char) : List Char → Option Nat
  | [] => if piece.isEmpty then some 0 else none
  | c :: rest =>
    if piece.isPrefixOf (c :: rest) then some 0
    else (indexOf? piece rest).map (· + 1)

/-- `piece` occurs in the text. -/
def contains (piece text : List Char) : Bool :=
  (indexOf? piece text).isSome

/-- The pieces between the occurrences of a separator, which is not empty. A
text without the separator is its own only piece. -/
def splitOn (separator : List Char) : List Char → List (List Char)
  | [] => [[]]
  | c :: rest =>
    if separator.isPrefixOf (c :: rest) then
      [] :: splitOn separator (rest.drop (separator.length - 1))
    else
      match splitOn separator rest with
      | [] => [[c]]
      | piece :: pieces => (c :: piece) :: pieces
termination_by text => text.length
decreasing_by
  all_goals simp only [List.length_drop, List.length_cons]; omega

/-- The text with `new` in place of every occurrence of `old`, which is not empty. -/
def replaceEach (old new : List Char) : List Char → List Char
  | [] => []
  | c :: rest =>
    if old.isPrefixOf (c :: rest) then
      new ++ replaceEach old new (rest.drop (old.length - 1))
    else c :: replaceEach old new rest
termination_by text => text.length
decreasing_by
  all_goals simp only [List.length_drop, List.length_cons]; omega

/-- The text with `new` in place of every occurrence of `old`. An empty `old`
occurs before each character and at the end. -/
def replace (old new text : List Char) : List Char :=
  if old.isEmpty then new ++ text.flatMap (· :: new) else replaceEach old new text

end DocQuery.Text
