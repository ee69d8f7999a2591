import DocQuery.Proofs.Boundary
import Mathlib.Data.List.Chain
/-!
# DocQuery.Proofs.Tiling

The tokens of a text cover it without a gap. Each stands behind the one before it, at the place
that the text in front of it gives (`Position.behind`), and shows what it covers unless blanks or
quotes are covered (`Token.Covers`). What one more token adds is the step of `Lexer.Tiles`; the
places, the order and the end of all the tokens are read off that (`tokenize_tiles`).
-/

namespace DocQuery

/-- The bytes of some characters in UTF-8. -/
def Text.bytes (chars : List Char) : Nat := (String.ofList chars).utf8ByteSize

theorem Text.bytes_append (a b : List Char) : bytes (a ++ b) = bytes a + bytes b := by
  rw [bytes, String.ofList_append, String.utf8ByteSize_append]
  rfl

theorem Text.bytes_singleton (c : Char) : bytes [c] = c.utf8Size := by
  rw [bytes, ← String.singleton_eq_ofList, String.utf8ByteSize_singleton]

theorem Text.bytes_pos {chars : List Char} (h : chars ≠ []) : 0 < bytes chars := by
  cases chars with
  | nil => exact absurd rfl h
  | cons c rest =>
      have hsplit : bytes (c :: rest) = c.utf8Size + bytes rest := by
        rw [← bytes_singleton, ← bytes_append]
        rfl
      have hpos := c.utf8Size_pos
      omega

namespace Position

/-- The place behind some characters, counted anew: lines by their ends, the column by what stands
behind the last of these, the offset in bytes. -/
def behind (before : List Char) : Position where
  line := 1 + before.count '\n'
  column := 1 + (before.reverse.takeWhile (· != '\n')).length
  offset := Text.bytes before

theorem behind_nil : behind [] = start := rfl

/-- Going on by a character is counting with it. -/
theorem behind_concat (before : List Char) (c : Char) :
    behind (before ++ [c]) = (behind before).advance c := by
  have hoffset : Text.bytes (before ++ [c]) = Text.bytes before + c.utf8Size := by
    rw [Text.bytes_append, Text.bytes_singleton]
  by_cases hc : c = '\n'
  · subst hc
    simp [behind, advance, hoffset, Nat.add_assoc]
  · simp [behind, advance, hoffset, hc, Nat.add_assoc]

theorem advanceOver_behind (before chars : List Char) :
    (behind before).advanceOver chars = behind (before ++ chars) := by
  induction chars generalizing before with
  | nil => rw [advanceOver_nil, List.append_nil]
  | cons c rest ih => rw [advanceOver_cons, ← behind_concat, ih, List.append_assoc]; rfl

end Position

/-- The token stands behind `before` and covers `lexeme`. Blanks and quoted text may be shown
otherwise than they are written. -/
structure Token.Covers (before lexeme : List Char) (t : Token) : Prop where
  start : t.range.start = Position.behind before
  stop : t.range.stop.offset = Text.bytes (before ++ lexeme)
  text : t.isSpace = false → (∀ value, t.kind ≠ .string value) → t.text.toList = lexeme

namespace Lexer

/-! ### One token -/

theorem rangeOf_start (kind : TokenKind) (start : Position) (lexeme : List Char) :
    (rangeOf kind start lexeme).start = start := by
  unfold rangeOf
  split <;> rfl

/-- Both ways of counting the end of a token agree on its bytes. -/
theorem rangeOf_stop (kind : TokenKind) (start : Position) (lexeme : List Char) :
    (rangeOf kind start lexeme).stop.offset = (start.advanceOver lexeme).offset := by
  unfold rangeOf
  split
  · rfl
  · exact (Position.offset_advanceOver start lexeme).symm

theorem covers_of_shows {before lexeme : List Char} {kind : TokenKind}
    (h : Shows kind lexeme) :
    Token.Covers before lexeme ⟨rangeOf kind (Position.behind before) lexeme, kind⟩ where
  start := rangeOf_start ..
  stop := by
    rw [rangeOf_stop, Position.advanceOver_behind]
    rfl
  text := by
    intro hspace hstring
    cases kind with
    | space count => cases hspace
    | string value => exact absurd rfl (hstring value)
    | finish => exact h.elim
    | symbol | int | double | word => exact h

/-! ### All the tokens -/

/-- The tokens cover what stands behind `before`, one after the other, and the end stands behind
the last of them. -/
inductive Tiles : (before : List Char) → (tokens : List Token) → (after : List Char) → Prop
  | finish (before : List Char) :
      Tiles before [⟨Range.point (Position.behind before), .finish⟩] []
  | token {before lexeme after : List Char} {t : Token} {others : List Token}
      (hkind : t.kind ≠ .finish) (hlexeme : lexeme ≠ []) (hcovers : t.Covers before lexeme)
      (hothers : Tiles (before ++ lexeme) others after) :
      Tiles before (t :: others) (lexeme ++ after)

/-- Every token that is cut off is a tile more. -/
theorem Cuts.tiles {start : Position} {chars before : List Char} {tokens : List Token}
    (h : Cuts start chars tokens) (hstart : start = Position.behind before) :
    Tiles before tokens chars := by
  induction h generalizing before with
  | finish start =>
      rw [hstart]
      exact .finish before
  | @token start lexeme rest kind others hne hscan _ ih =>
      have hshows : Shows kind lexeme := by
        have htake : (lexeme ++ rest).take lexeme.length = lexeme := List.take_left
        exact htake ▸ scan_shows hscan
      have hkind : kind ≠ .finish := by
        intro hfinish
        rw [hfinish] at hshows
        exact hshows
      -- The lexer goes on where counting with the token ends.
      have hnext : start.advanceOver lexeme = Position.behind (before ++ lexeme) := by
        rw [hstart, Position.advanceOver_behind]
      rw [hstart]
      exact .token hkind hne (covers_of_shows hshows) (ih hnext)

namespace Tiles

variable {before after : List Char} {tokens : List Token}

/-- The first token stands where the text in front of it ends. -/
theorem head (h : Tiles before tokens after) :
    ∃ t, tokens.head? = some t ∧ t.range.start = Position.behind before := by
  cases h with
  | finish => exact ⟨_, rfl, rfl⟩
  | token _ _ hcovers _ => exact ⟨_, rfl, hcovers.start⟩

theorem touch (h : Tiles before tokens after) :
    tokens.IsChain fun t u => u.range.start.offset = t.range.stop.offset := by
  induction h with
  | finish => exact .singleton _
  | @token before lexeme after t others _ _ hcovers hothers ih =>
      obtain ⟨u, hu, hstart⟩ := hothers.head
      cases others with
      | nil => cases hu
      | cons v rest =>
          cases hu
          have hoffset : u.range.start.offset = t.range.stop.offset := by
            rw [hstart, hcovers.stop]
            rfl
          exact .cons_cons hoffset ih

/-- The end is the last token, and stands behind everything. -/
theorem last (h : Tiles before tokens after) :
    tokens.getLast? = some ⟨Range.point (Position.behind (before ++ after)), .finish⟩ := by
  induction h with
  | finish before => rw [List.append_nil]; rfl
  | token _ _ _ hothers ih => rw [List.getLast?_cons, ih, ← List.append_assoc]; rfl

/-- No other token is the end, and none is empty. -/
theorem pieces (h : Tiles before tokens after) :
    ∀ t ∈ tokens.dropLast, t.kind ≠ .finish ∧ t.range.start.offset < t.range.stop.offset := by
  induction h with
  | finish =>
      intro t ht
      cases ht
  | @token before lexeme after t others hkind hlexeme hcovers hothers ih =>
      have hne : others ≠ [] := by
        intro hnil
        subst hnil
        cases hothers
      have hlong : t.range.start.offset < t.range.stop.offset := by
        have hpos := Text.bytes_pos hlexeme
        have hstart : t.range.start.offset = Text.bytes before := congrArg _ hcovers.start
        rw [hstart, hcovers.stop, Text.bytes_append]
        omega
      rw [List.dropLast_cons_of_ne_nil hne]
      exact List.forall_mem_cons.mpr ⟨⟨hkind, hlong⟩, ih⟩

/-- Every token covers a part of the text. -/
theorem covers (h : Tiles before tokens after) :
    ∀ t ∈ tokens, ∃ front lexeme rest, before ++ after = front ++ lexeme ++ rest ∧
      t.Covers front lexeme := by
  induction h with
  | finish before =>
      intro t ht
      rw [List.mem_singleton.mp ht]
      have hwhole : before ++ [] = before ++ [] ++ [] := (List.append_nil _).symm
      refine ⟨before, [], [], hwhole, rfl, ?_, ?_⟩
      · rw [List.append_nil]
        rfl
      · intro _ _
        rfl
  | @token before lexeme after t others _ _ hcovers _ ih =>
      rw [← List.append_assoc]
      exact List.forall_mem_cons.mpr ⟨⟨before, lexeme, after, rfl, hcovers⟩, ih⟩

end Tiles

end Lexer

/-- The tokens are what a text falls into. -/
structure AreTiling (code : String) (tokens : List Token) : Prop where
  /-- The first token stands at the beginning. -/
  first : tokens.head?.map (·.range.start.offset) = some 0
  /-- Each begins where the one before it ends. -/
  touch : tokens.IsChain fun t u => u.range.start.offset = t.range.stop.offset
  /-- The last is the end, which is empty and stands behind the text. -/
  last : ∃ t, tokens.getLast? = some t ∧ t.kind = .finish ∧
    t.range.start.offset = code.utf8ByteSize ∧ t.range.stop.offset = code.utf8ByteSize
  /-- The others are not the end, and not empty. -/
  pieces : ∀ t ∈ tokens.dropLast, t.kind ≠ .finish ∧ t.range.start.offset < t.range.stop.offset
  /-- Each stands where the text in front of it ends and covers a part of the text. -/
  covers : ∀ t ∈ tokens, ∃ front lexeme rest, code.toList = front ++ lexeme ++ rest ∧
    t.Covers front lexeme

/-- `tokenize` cuts a text into its tokens, with nothing between them; without the blanks the tokens
are the same but for these.

Lines are counted without limit (`Position`). The line of a token is one more than the number of
line ends in front of it, so a number of 32 bits holds it if there are fewer than
`2 ^ 32 - 1`. -/
theorem tokenize_tiles {code : String} {tokens : List Token}
    (h : tokenize code true = .ok tokens) :
    AreTiling code tokens ∧ tokenize code false = .ok (tokens.filter (!·.isSpace)) := by
  cases hall : tokenizeAll code with
  | error e =>
      rw [tokenize, hall] at h
      cases h
  | ok all =>
      rw [tokenize, hall] at h
      cases h
      -- The scanner cuts the text from its start on, with nothing behind the last token.
      have htiles : Lexer.Tiles [] all code.toList :=
        (Lexer.cuts_of_tokensFrom hall).tiles Position.behind_nil.symm
      have hbytes : Text.bytes ([] ++ code.toList) = code.utf8ByteSize := by
        rw [List.nil_append, Text.bytes, String.ofList_toList]
      refine ⟨⟨?_, htiles.touch, ⟨_, htiles.last, rfl, hbytes, hbytes⟩, htiles.pieces,
        htiles.covers⟩, ?_⟩
      · obtain ⟨t, ht, hstart⟩ := htiles.head
        show all.head?.map (·.range.start.offset) = some 0
        rw [ht, Option.map_some, hstart]
        rfl
      · rw [tokenize, hall]
        rfl

/-- The tokens of a text with a line end and a character of two bytes between quotes. -/
theorem tokenize_tiles_lines :
    let tokens : List Token :=
      [⟨⟨⟨1, 1, 0⟩, ⟨2, 2, 5⟩⟩, .string "é\n"⟩, ⟨⟨⟨2, 2, 5⟩, ⟨2, 3, 6⟩⟩, .space 1⟩,
       ⟨⟨⟨2, 3, 6⟩, ⟨2, 5, 8⟩⟩, .symbol .lessEqual⟩, ⟨⟨⟨2, 5, 8⟩, ⟨2, 6, 9⟩⟩, .word "x"⟩,
       ⟨⟨⟨2, 6, 9⟩, ⟨2, 6, 9⟩⟩, .finish⟩]
    tokenize "'é\n' <=x" true = .ok tokens ∧ AreTiling "'é\n' <=x" tokens ∧
      tokenize "'é\n' <=x" false = .ok (tokens.filter (!·.isSpace)) := by
  intro tokens
  have hsome : (tokenize "'é\n' <=x" true).toOption = some tokens := by decide +kernel
  cases h : tokenize "'é\n' <=x" true with
  | error e =>
      rw [h] at hsome
      cases hsome
  | ok found =>
      rw [h] at hsome
      obtain rfl : found = tokens := Option.some.inj hsome
      exact ⟨rfl, tokenize_tiles h⟩

end DocQuery
