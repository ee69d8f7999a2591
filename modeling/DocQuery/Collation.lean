import DocQuery.Text.Case
import DocQuery.Text.Ascii
import DocQuery.Text.Blank
/-!
# DocQuery.Collation

How strings are compared. The binary collation compares character by character.
The other one disregards case: each character is lowered by itself, and the
lowered texts are compared.
-/

namespace DocQuery

/-- Rules for comparing strings. -/
inductive Collation where
  | binary
  | ignoreCase
deriving DecidableEq, Repr, Inhabited

namespace Collation

/-- The collation that holds where none is named. -/
def standard : Collation := .ignoreCase

/-- Case is disregarded. -/
def foldsCase : Collation → Bool
  | .binary => false
  | .ignoreCase => true

/-- What the collation compares in place of a string. -/
def key (c : Collation) (s : String) : List Nat :=
  match c with
  | .binary => s.toList.map Char.toNat
  | .ignoreCase => (s.toList.flatMap Text.lowerChar).map Char.toNat

/-- The order of two strings. -/
def compare (c : Collation) (a b : String) : Ordering :=
  Ord.compare (c.key a) (c.key b)

/-- The two strings count as the same. -/
def same (c : Collation) (a b : String) : Bool :=
  c.compare a b == .eq

/-- The name of the collation. -/
def name : Collation → String
  | .binary => "binary"
  | .ignoreCase => "ignorecase"

/-- The collation with this name. What stands before the last slash, such as the
name of a culture, is passed over. -/
def ofName? (text : String) : Option Collation :=
  let last := (text.toList.reverse.takeWhile (· != '/')).reverse
  match Text.lowerName (String.ofList (Text.trim last)) with
  | "binary" | "ordinal" | "none" => some .binary
  | "ignorecase" | "ignore_case" | "ignore-case" => some .ignoreCase
  | _ => none

/-- What is said about a name that is no collation's. -/
def unknownMessage (text : String) : String :=
  "Unknown collation `" ++ text ++ "`, expected `binary` or `ignorecase`"

end Collation

end DocQuery
