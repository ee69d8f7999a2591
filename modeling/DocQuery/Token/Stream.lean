import DocQuery.Token.Lexer
/-!
# DocQuery.Token.Stream

A reader's place in a list of tokens. Blanks stay in the list, so that a reader can
ask whether two tokens touch. Behind the last token stands the end, however often
it is read.
-/

namespace DocQuery

/-- The tokens still to be read and the one read last. -/
structure TokenStream where
  /-- The token read last. -/
  consumed : Option Token := none
  /-- The tokens to be read, without the end. -/
  ahead : List Token
  /-- The end of the expression. -/
  finish : Token
deriving DecidableEq, Repr, Inhabited

namespace TokenStream

/-- The end to add to tokens that have none: behind the last of them. -/
def finishAfter (last : Option Token) : Token :=
  ⟨Range.point ((last.map (·.range.stop)).getD Position.start), .finish⟩

/-- A stream of these tokens. The end is added where it is missing. -/
def ofTokens (tokens : List Token) : TokenStream :=
  match tokens.getLast? with
  | none => { ahead := [], finish := finishAfter none }
  | some last =>
    if last.isFinish then { ahead := tokens.dropLast, finish := last }
    else { ahead := tokens, finish := finishAfter (some last) }

/-- The stream of the tokens of a text. -/
def ofText (code : String) : Except LexError TokenStream :=
  (tokenizeAll code).map ofTokens

/-- The tokens to be read, past the blanks if they are to be skipped. -/
def rest (s : TokenStream) (skip : Bool) : List Token :=
  if skip then s.ahead.dropWhile (·.isSpace) else s.ahead

/-- The token to be read next. -/
def peek (s : TokenStream) (skip : Bool) : Token :=
  (s.rest skip).head?.getD s.finish

/-- The stream behind the token to be read next. -/
def advance (s : TokenStream) (skip : Bool) : TokenStream :=
  { s with consumed := some (s.peek skip), ahead := (s.rest skip).tail }

/-- The token read last; before any is read, the first. -/
def current (s : TokenStream) : Token :=
  s.consumed.getD (s.peek false)

/-- The end has been read. -/
def isFinished (s : TokenStream) : Bool :=
  match s.consumed with
  | some token => token.isFinish
  | none => false

/-- Nothing but blanks is left. -/
def isExhausted (s : TokenStream) : Bool :=
  (s.peek true).isFinish

/-- How many tokens are still to be read. -/
def remaining (s : TokenStream) : Nat := s.ahead.length

/-- Reading never adds tokens. -/
theorem rest_sublist (s : TokenStream) (skip : Bool) : (s.rest skip).Sublist s.ahead := by
  unfold rest
  split
  · exact List.dropWhile_sublist _
  · exact List.Sublist.refl _

theorem length_rest_le (s : TokenStream) (skip : Bool) :
    (s.rest skip).length ≤ s.remaining :=
  (s.rest_sublist skip).length_le

/-- The next token is the end or one of those ahead. -/
theorem peek_eq_or_mem (s : TokenStream) (skip : Bool) :
    s.peek skip = s.finish ∨ s.peek skip ∈ s.ahead := by
  unfold peek
  cases hrest : s.rest skip with
  | nil => exact .inl rfl
  | cons t others =>
      have ht : t ∈ s.rest skip := hrest ▸ List.mem_cons_self ..
      exact .inr ((s.rest_sublist skip).mem ht)

/-- What is ahead behind the next token was ahead of it. -/
theorem mem_of_mem_advance {s : TokenStream} {skip : Bool} {t : Token}
    (h : t ∈ (s.advance skip).ahead) : t ∈ s.ahead :=
  (s.rest_sublist skip).mem (List.mem_of_mem_tail h)

theorem remaining_advance_le (s : TokenStream) (skip : Bool) :
    (s.advance skip).remaining ≤ s.remaining := by
  have := s.length_rest_le skip
  simp only [advance, remaining, List.length_tail] at *
  omega

end TokenStream

end DocQuery
