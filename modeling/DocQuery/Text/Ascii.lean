/-!
# DocQuery.Text.Ascii

Names are compared without regard to the case of the ASCII letters. Every other
character, accented letters included, has to agree exactly.
-/

namespace DocQuery.Text

/-- The two names differ at most in the case of ASCII letters. -/
def sameName (a b : String) : Bool :=
  a.toList.map Char.toLower == b.toList.map Char.toLower

@[simp] theorem sameName_self (a : String) : sameName a a = true := by
  simp [sameName]

theorem sameName_comm (a b : String) : sameName a b = sameName b a := by
  simp only [sameName]
  exact Bool.eq_iff_iff.mpr ⟨fun h => by simpa using (by simpa using h : _ = _).symm,
    fun h => by simpa using (by simpa using h : _ = _).symm⟩

/-- The name with its ASCII letters in upper case. -/
def upperName (a : String) : String :=
  String.ofList (a.toList.map Char.toUpper)

/-- The name with its ASCII letters in lower case. -/
def lowerName (a : String) : String :=
  String.ofList (a.toList.map Char.toLower)

/-- An ASCII letter or the underscore: what a bare word starts with. -/
def isWordStart (c : Char) : Bool :=
  c.isAlpha || c == '_'

/-- An ASCII letter, an ASCII digit or the underscore: what a bare word goes on with. -/
def isWordPart (c : Char) : Bool :=
  c.isAlphanum || c == '_'

/-- A name that can be written without quotes: an optional `$`, then a letter or
an underscore, then letters, digits and underscores. -/
def isWord (s : String) : Bool :=
  let bare := match s.toList with
    | '$' :: rest => rest
    | chars => chars
  match bare with
  | [] => false
  | c :: rest => isWordStart c && rest.all isWordPart

end DocQuery.Text
