import DocQuery.Proofs.Boundary
/-!
# DocQuery.Proofs.Lexing

Marks written out as text, and the tokens of that text. Where every token ends in front of
what follows it (`Flows`), the text is cut into just the tokens that the marks ask for, so a
stream of it spells the marks (`spells_of_flows`). Both steps are inductions on the marks: one
follows the scanner through the text, the other one the stream through its tokens, and only the
second one has to do with blanks that are passed over.
-/

namespace DocQuery

/-! ### Tokens side by side -/

namespace TokenKind

/-- The token consists of letters and digits. -/
def isAlphanumeric : TokenKind → Bool
  | .word _ | .int _ | .double _ => true
  | _ => false

/-- The token consists of blanks. -/
def isBlank : TokenKind → Bool
  | .space _ => true
  | _ => false

/-- The token ends where one of the other kind follows. -/
def allows (kind next : TokenKind) : Bool :=
  match kind with
  | .word _ | .symbol .dollar => !next.isAlphanumeric
  | .int _ | .double _ => !next.isAlphanumeric && !next.isSymbol .period
  | .symbol .equal => !(next.isSymbol .greater || next.isSymbol .greaterEqual)
  | .symbol .greater | .symbol .less => !(next.isSymbol .equal || next.isSymbol .arrow)
  | .space _ => !next.isBlank
  | _ => true

/-- What a token of this kind may begin with. -/
def BeginsWith (c : Char) : TokenKind → Prop
  | .symbol s => s.text.toList.head? = some c
  | .int _ | .double _ => c.isDigit = true
  | .word _ => Text.isWordStart c = true ∨ c = '$'
  | .string _ => c = '"'
  | .space _ => c = ' '
  | .finish => False

/-- A token that can be written has a first character, and that tells its kind: number, name,
string, blank or symbol. -/
theorem IsWritten.beginsWith {kind : TokenKind} (h : kind.IsWritten) :
    ∃ c rest, kind.written = c :: rest ∧ kind.BeginsWith c := by
  -- A number begins with the digits of its whole part, of which there is at least one.
  have digits {text : List Char} (rest : List Char) (hne : text ≠ [])
      (hall : text.all Char.isDigit = true) :
      ∃ c others, text ++ rest = c :: others ∧ c.isDigit = true := by
    cases text with
    | nil => exact absurd rfl hne
    | cons c others =>
        exact ⟨c, others ++ rest, rfl, List.all_eq_true.mp hall c (List.mem_cons_self ..)⟩
  cases kind with
  | symbol s => cases s <;> exact ⟨_, _, rfl, rfl⟩
  | int text =>
      obtain ⟨c, others, hchars, hdigit⟩ := digits [] h.1 h.2
      exact ⟨c, others, by rw [written, ← hchars, List.append_nil], hdigit⟩
  | double text =>
      obtain ⟨whole, fraction, power, hchars, ⟨hne, hall⟩, -⟩ := h
      obtain ⟨c, others, hwhole, hdigit⟩ := digits (fraction ++ power) hne hall
      exact ⟨c, others, by rw [written, hchars, hwhole], hdigit⟩
  | string value => exact ⟨_, _, rfl, rfl⟩
  | word text =>
      obtain ⟨c, others, hstart, -, hchars | hchars⟩ := Lexer.exists_of_isWord h
      · exact ⟨c, others, hchars, .inl hstart⟩
      · exact ⟨'$', c :: others, hchars, .inr rfl⟩
  | space count =>
      obtain ⟨n, rfl⟩ : ∃ n, count = n + 1 := Nat.exists_eq_succ_of_ne_zero (Nat.ne_of_gt h)
      exact ⟨' ', List.replicate n ' ', rfl, rfl⟩
  | finish => cases h

theorem IsWritten.ne_nil {kind : TokenKind} (h : kind.IsWritten) : kind.written ≠ [] := by
  obtain ⟨c, rest, hwritten, -⟩ := h.beginsWith
  rw [hwritten]
  exact List.cons_ne_nil _ _

/-- Only letters and digits begin with what words go on with. -/
theorem BeginsWith.isWordPart {kind : TokenKind} {c : Char} (h : kind.BeginsWith c)
    (hkind : kind.isAlphanumeric = false) : Text.isWordPart c = false := by
  cases kind with
  | symbol s => cases s <;> cases h <;> rfl
  | string value | space count =>
      cases h
      rfl
  | word text | int text | double text => cases hkind
  | finish => cases h

/-- Letters and digits are none of the characters that a symbol could take along. -/
theorem BeginsWith.not_symbol {kind : TokenKind} {c : Char} (h : kind.BeginsWith c)
    (hkind : kind.isAlphanumeric = true) : c ≠ '.' ∧ c ≠ '=' ∧ c ≠ '>' ∧ c ≠ ' ' := by
  cases kind with
  | word text =>
      refine ⟨?_, ?_, ?_, ?_⟩ <;>
      · rintro rfl
        rcases h with h | h <;> cases h
  | int text | double text =>
      refine ⟨?_, ?_, ?_, ?_⟩ <;>
      · rintro rfl
        cases h
  | symbol s | string value | space count | finish => cases hkind

/-- Only the period begins with a period. -/
theorem BeginsWith.eq_period {kind : TokenKind} (h : kind.BeginsWith '.') :
    kind.isSymbol .period = true := by
  cases kind with
  | symbol s => cases s <;> first | rfl | cases h
  | word text | int text | double text => exact absurd rfl (h.not_symbol rfl).1
  | string value | space count | finish => cases h

/-- Two symbols begin with `>`, and neither may follow `=`. -/
theorem BeginsWith.eq_greater {kind : TokenKind} (h : kind.BeginsWith '>') :
    (kind.isSymbol .greater || kind.isSymbol .greaterEqual) = true := by
  cases kind with
  | symbol s => cases s <;> first | rfl | cases h
  | word text | int text | double text => exact absurd rfl (h.not_symbol rfl).2.2.1
  | string value | space count | finish => cases h

/-- Two symbols begin with `=`, and neither may follow `<` or `>`. -/
theorem BeginsWith.eq_equal {kind : TokenKind} (h : kind.BeginsWith '=') :
    (kind.isSymbol .equal || kind.isSymbol .arrow) = true := by
  cases kind with
  | symbol s => cases s <;> first | rfl | cases h
  | word text | int text | double text => exact absurd rfl (h.not_symbol rfl).2.1
  | string value | space count | finish => cases h

/-- Only blanks begin with a space. -/
theorem BeginsWith.isBlank {kind : TokenKind} {c : Char} (h : kind.BeginsWith c)
    (hspace : Lexer.isSpace c = true) : kind.isBlank = true := by
  cases kind with
  | symbol s => cases s <;> cases h <;> cases hspace
  | word text =>
      rcases h with h | rfl
      · rw [Lexer.isSpace_of_isWordStart h] at hspace
        cases hspace
      · cases hspace
  | int text | double text =>
      rw [Lexer.isSpace_of_isDigit h] at hspace
      cases hspace
  | string value =>
      cases h
      cases hspace
  | space count => rfl
  | finish => cases h

/-- A token ends in front of the first character of one that may follow. -/
theorem endsAt_of_allows {kind next : TokenKind} {c : Char} (h : kind.allows next = true)
    (hc : next.BeginsWith c) : kind.endsAt c = true := by
  have hpart (hnext : (!next.isAlphanumeric) = true) : Text.isWordPart c = false :=
    hc.isWordPart (by simpa using hnext)
  -- A period behind a number would be taken for its point.
  have hnumber (hnext : (!next.isAlphanumeric && !next.isSymbol .period) = true) :
      (!Text.isWordPart c && c != '.') = true := by
    obtain ⟨hnext, hperiod⟩ := Bool.and_eq_true_iff.mp hnext
    have hne : c ≠ '.' := by
      rintro rfl
      rw [hc.eq_period] at hperiod
      cases hperiod
    simp [hpart hnext, hne]
  have hequal (hnext : (!(next.isSymbol .equal || next.isSymbol .arrow)) = true) :
      (c != '=') = true := by
    refine bne_iff_ne.mpr ?_
    rintro rfl
    rw [hc.eq_equal] at hnext
    cases hnext
  -- Only the first character of the next token matters, and it tells what kind of token it is.
  unfold allows at h
  unfold endsAt
  split
  · rw [hpart h]
    rfl
  · exact hnumber h
  · exact hnumber h
  · have hspace : Lexer.isSpace c = false := by
      rw [Bool.eq_false_iff]
      intro hspace
      rw [hc.isBlank hspace] at h
      cases h
    rw [hspace]
    rfl
  · have hstart : Text.isWordStart c = false := by
      rw [Bool.eq_false_iff]
      intro hstart
      have hno := hpart h
      rw [Lexer.isWordPart_of_isWordStart hstart] at hno
      cases hno
    rw [hstart]
    rfl
  · have hne : c ≠ '>' := by
      rintro rfl
      rw [hc.eq_greater] at h
      cases h
    exact bne_iff_ne.mpr hne
  · exact hequal h
  · exact hequal h
  · rfl

end TokenKind

/-! ### Marks in a row -/

namespace Mark

/-- The token that the mark asks for. -/
def kind? : Mark → Option TokenKind
  | .token _ kind => some kind
  | .keyword text => some (.word text)
  | .blank => some (.space 1)
  | .stop _ _ => none

/-- How the mark is written. -/
def written (mark : Mark) : List Char := mark.kind?.elim [] TokenKind.written

/-- The mark asks for a token that can be written, and for blanks only as such. -/
def IsWritten : Mark → Prop
  | .token _ kind => kind.IsWritten ∧ kind.isBlank = false
  | .keyword text => Text.isWord text = true
  | .blank | .stop _ _ => True

theorem IsWritten.kind {mark : Mark} (h : mark.IsWritten) :
    ∀ kind ∈ mark.kind?, kind.IsWritten := by
  cases mark with
  | token touching kind =>
      rintro _ ⟨⟩
      exact h.1
  | keyword text =>
      rintro _ ⟨⟩
      exact h
  | blank =>
      rintro _ ⟨⟩
      exact Nat.one_pos
  | stop touching bars => rintro _ ⟨⟩

end Mark

namespace Phrase

/-- The kind of the token in front; that of the end if there is none. -/
def ahead : List Mark → TokenKind
  | [] => .finish
  | .token _ kind :: _ => kind
  | .keyword text :: _ => .word text
  | .blank :: _ => .space 1
  | .stop _ _ :: rest => ahead rest

/-- The kind of the token in front, past blanks. -/
def aheadPast : List Mark → TokenKind
  | [] => .finish
  | .token _ kind :: _ => kind
  | .keyword text :: _ => .word text
  | .blank :: rest | .stop _ _ :: rest => aheadPast rest

/-- A token that need not touch stands in front. -/
def IsLoose : List Mark → Prop
  | .token touching _ :: _ => touching = false
  | .keyword _ :: _ => True
  | _ => False

/-- The token of the mark ends in front of the next one, a blank stands in front of a token
that need not touch, and no token follows that must not. -/
def FlowsInto (rest : List Mark) : Mark → Prop
  | .token _ kind => kind.allows (ahead rest) = true
  | .keyword text => (TokenKind.word text).allows (ahead rest) = true
  | .blank => IsLoose rest
  | .stop touching bars => bars (if touching then ahead rest else aheadPast rest) = false

/-- Every mark flows into those behind it. -/
def Flows : List Mark → Prop
  | [] => True
  | mark :: rest => FlowsInto rest mark ∧ Flows rest

/-- The text of marks. -/
def text (marks : List Mark) : List Char := marks.flatMap Mark.written

variable {marks : List Mark}

/-- The first character of the text is that of the token in front; stops have none. -/
theorem beginsWith_ahead (hwritten : ∀ mark ∈ marks, mark.IsWritten) {c : Char}
    (h : (text marks).head? = some c) : (ahead marks).BeginsWith c := by
  induction marks with
  | nil => cases h
  | cons mark rest ih =>
      have hkind {kind : TokenKind} (hkind : mark.kind? = some kind) : kind.BeginsWith c := by
        obtain ⟨d, others, hchars, hd⟩ :=
          ((hwritten mark (List.mem_cons_self ..)).kind kind hkind).beginsWith
        rw [text, List.flatMap_cons, Mark.written, hkind] at h
        simp only [Option.elim_some, hchars, List.cons_append, List.head?_cons,
          Option.some.injEq] at h
        rwa [← h]
      cases mark with
      | token touching kind | keyword word | blank => exact hkind rfl
      | stop touching bars =>
          exact ih (fun mark hmark => hwritten mark (List.mem_cons_of_mem _ hmark)) h

/-- A token that a mark asks for ends in front of the text of the marks behind. -/
theorem endsAt_of_flowsInto {mark : Mark} {rest : List Mark} {kind : TokenKind}
    (hwritten : ∀ mark ∈ rest, mark.IsWritten) (hflows : FlowsInto rest mark)
    (hkind : mark.kind? = some kind) : ∀ c ∈ (text rest).head?, kind.endsAt c = true := by
  intro c hc
  refine TokenKind.endsAt_of_allows ?_ (beginsWith_ahead hwritten hc)
  cases mark with
  | token touching kind' =>
      cases hkind
      exact hflows
  | keyword word =>
      cases hkind
      exact hflows
  -- Behind a blank stands a token that need not touch, and this is no blank itself.
  | blank =>
      cases hkind
      cases rest with
      | nil => cases hflows
      | cons next rest =>
          have hnext := hwritten next (List.mem_cons_self ..)
          cases next with
          | token touching kind =>
              have hblank : kind.isBlank = false := hnext.2
              simp [TokenKind.allows, ahead, hblank]
          | keyword word => rfl
          | blank | stop touching bars => cases hflows
  | stop touching bars => cases hkind

/-- The text of flowing marks is cut into the tokens that they ask for. -/
theorem tokensFrom_text (hwritten : ∀ mark ∈ marks, mark.IsWritten) (hflows : Flows marks)
    (start : Position) :
    ∃ tokens finish, Lexer.tokensFrom start (text marks) = .ok (tokens ++ [finish]) ∧
      tokens.map Token.kind = marks.filterMap Mark.kind? ∧ finish.kind = .finish := by
  -- The scanner takes the token of the first mark, as this ends in front of the text of the others,
  -- and goes on from the position behind it.
  induction marks generalizing start with
  | nil => exact ⟨[], _, Lexer.tokensFrom.eq_1 .., rfl, rfl⟩
  | cons mark rest ih =>
      have hrest : ∀ mark ∈ rest, mark.IsWritten :=
        fun mark hmark => hwritten mark (List.mem_cons_of_mem _ hmark)
      rw [text, List.flatMap_cons]
      cases hkind : mark.kind? with
      | none =>
          have hnil : mark.written = [] := by rw [Mark.written, hkind]; rfl
          rw [hnil, List.filterMap_cons_none hkind]
          exact ih hrest hflows.2 start
      | some kind =>
          have hchars : mark.written = kind.written := by rw [Mark.written, hkind]; rfl
          have hvalid := (hwritten mark (List.mem_cons_self ..)).kind kind hkind
          have hscan := Lexer.scan_written hvalid (endsAt_of_flowsInto hrest hflows.1 hkind)
          obtain ⟨tokens, finish, htokens, hkinds, hfinish⟩ :=
            ih hrest hflows.2 (start.advanceOver kind.written)
          refine ⟨⟨Lexer.rangeOf kind start kind.written, kind⟩ :: tokens, finish, ?_, ?_, hfinish⟩
          · rw [hchars, ← text, Lexer.tokensFrom_lexeme hvalid.ne_nil hscan, htokens]
            rfl
          · rw [List.map_cons, hkinds, List.filterMap_cons_some hkind]

/-! ### Streams -/

variable {s : TokenStream}

/-- A stream that is at the marks shows the kind of the first of them. -/
theorem peek_false_kind (hs : s.Ended) (h : s.ahead.map Token.kind = marks.filterMap Mark.kind?) :
    (s.peek false).kind = ahead marks := by
  induction marks with
  | nil =>
      have hnil : s.ahead = [] := List.map_eq_nil_iff.mp h
      simp only [TokenStream.peek, TokenStream.rest, hnil]
      exact hs
  | cons mark rest ih =>
      cases mark with
      | stop touching bars => exact ih h
      | token touching kind | keyword word | blank =>
          obtain ⟨t, others, hahead, hkind, -⟩ := List.map_eq_cons_iff.mp h
          simp only [TokenStream.peek, TokenStream.rest, hahead]
          exact hkind

theorem isSpace_eq (t : Token) : t.isSpace = t.kind.isBlank := rfl

/-- A token that is no blank is the next one whether blanks are skipped or not. -/
theorem rest_of_not_blank {t : Token} {others : List Token} (hahead : s.ahead = t :: others)
    (h : t.kind.isBlank = false) (skip : Bool) : s.rest skip = t :: others := by
  cases skip with
  | false => exact hahead
  | true =>
      rw [TokenStream.rest, if_pos rfl, hahead, List.dropWhile_cons, isSpace_eq, h,
        if_neg Bool.false_ne_true]

/-- Past a blank the next token is the one behind it. -/
theorem rest_of_blank {t : Token} {others : List Token} (hahead : s.ahead = t :: others)
    (h : t.kind.isBlank = true) : s.rest true = others.dropWhile Token.isSpace := by
  rw [TokenStream.rest, if_pos rfl, hahead, List.dropWhile_cons, isSpace_eq, h, if_pos rfl]

/-- Blanks passed over, it shows the kind of the first mark that is no blank. -/
theorem peek_true_kind (hwritten : ∀ mark ∈ marks, mark.IsWritten) (hs : s.Ended)
    (h : s.ahead.map Token.kind = marks.filterMap Mark.kind?) :
    (s.peek true).kind = aheadPast marks := by
  induction marks generalizing s with
  | nil =>
      have hnil : s.ahead = [] := List.map_eq_nil_iff.mp h
      simp only [TokenStream.peek, TokenStream.rest, hnil]
      exact hs
  | cons mark rest ih =>
      have hrest : ∀ mark ∈ rest, mark.IsWritten :=
        fun mark hmark => hwritten mark (List.mem_cons_of_mem _ hmark)
      have hmark := hwritten mark (List.mem_cons_self ..)
      cases mark with
      | stop touching bars => exact ih hrest hs h
      | token touching kind =>
          obtain ⟨t, others, hahead, hkind, -⟩ := List.map_eq_cons_iff.mp h
          have hblank : t.kind.isBlank = false := hkind ▸ hmark.2
          rw [TokenStream.peek, rest_of_not_blank hahead hblank]
          exact hkind
      | keyword word =>
          obtain ⟨t, others, hahead, hkind, -⟩ := List.map_eq_cons_iff.mp h
          have hblank : t.kind.isBlank = false := hkind ▸ rfl
          rw [TokenStream.peek, rest_of_not_blank hahead hblank]
          exact hkind
      | blank =>
          obtain ⟨t, others, hahead, hkind, hothers⟩ := List.map_eq_cons_iff.mp h
          have hblank : t.kind.isBlank = true := hkind ▸ rfl
          have hbehind : (({ s with ahead := others } : TokenStream).peek true).kind =
              aheadPast rest := ih hrest hs hothers
          rw [TokenStream.peek, rest_of_blank hahead hblank]
          exact hbehind

/-- The next token is in front, or behind one blank that is skipped. -/
theorem next_of_kinds {kind : TokenKind} {kinds : List TokenKind} {skip : Bool}
    (hblank : kind.isBlank = false)
    (h : s.ahead.map Token.kind = kind :: kinds ∨
      skip = true ∧ s.ahead.map Token.kind = .space 1 :: kind :: kinds) :
    (s.peek skip).kind = kind ∧ (s.advance skip).ahead.map Token.kind = kinds := by
  obtain ⟨t, others, hnext, hkind, hothers⟩ : ∃ t others, s.rest skip = t :: others ∧
      t.kind = kind ∧ others.map Token.kind = kinds := by
    rcases h with h | ⟨rfl, h⟩
    · obtain ⟨t, others, hahead, hkind, hothers⟩ := List.map_eq_cons_iff.mp h
      exact ⟨t, others, rest_of_not_blank hahead (hkind ▸ hblank) skip, hkind, hothers⟩
    · obtain ⟨b, behind, hahead, hb, hbehind⟩ := List.map_eq_cons_iff.mp h
      obtain ⟨t, others, rfl, hkind, hothers⟩ := List.map_eq_cons_iff.mp hbehind
      refine ⟨t, others, ?_, hkind, hothers⟩
      rw [rest_of_blank hahead (hb ▸ rfl), List.dropWhile_cons, isSpace_eq, hkind, hblank,
        if_neg Bool.false_ne_true]
  rw [TokenStream.peek, TokenStream.advance, hnext]
  exact ⟨hkind, hothers⟩

/-- Marks that flow are spelt by tokens of the kinds that they ask for. Where a blank has been
passed over as a mark it is still in the stream. -/
theorem spells_of_kinds (hwritten : ∀ mark ∈ marks, mark.IsWritten) (hflows : Flows marks)
    (hs : s.Ended)
    (h : s.ahead.map Token.kind = marks.filterMap Mark.kind? ∨
      IsLoose marks ∧ s.ahead.map Token.kind = .space 1 :: marks.filterMap Mark.kind?) :
    ∃ s', Spells marks s s' ∧ s'.ahead = [] := by
  induction marks generalizing s with
  | nil =>
      rcases h with h | ⟨hloose, -⟩
      · exact ⟨s, rfl, List.map_eq_nil_iff.mp h⟩
      · cases hloose
  | cons mark rest ih =>
      have hrest : ∀ mark ∈ rest, mark.IsWritten :=
        fun mark hmark => hwritten mark (List.mem_cons_of_mem _ hmark)
      have hmark := hwritten mark (List.mem_cons_self ..)
      -- A mark that is a token takes it, and the others are spelt behind it.
      have take (kind : TokenKind) (skip : Bool) (hblank : kind.isBlank = false)
          (h : s.ahead.map Token.kind = kind :: rest.filterMap Mark.kind? ∨
            skip = true ∧ s.ahead.map Token.kind = .space 1 :: kind :: rest.filterMap Mark.kind?) :
          (s.peek skip).kind = kind ∧
            ∃ s', Spells rest (s.advance skip) s' ∧ s'.ahead = [] := by
        obtain ⟨hkind, hothers⟩ := next_of_kinds hblank h
        exact ⟨hkind, ih hrest hflows.2 (hs.advance skip) (.inl hothers)⟩
      cases mark with
      | token touching kind =>
          obtain ⟨hkind, s', hspells, hend⟩ := take kind (!touching) hmark.2 <| by
            rcases h with h | ⟨hloose, h⟩
            · exact .inl h
            · have hloose : touching = false := hloose
              exact .inr ⟨by rw [hloose]; rfl, h⟩
          exact ⟨s', ⟨hkind, hspells⟩, hend⟩
      | keyword word =>
          obtain ⟨hkind, s', hspells, hend⟩ := take (.word word) true rfl <| by
            rcases h with h | ⟨-, h⟩
            · exact .inl h
            · exact .inr ⟨rfl, h⟩
          refine ⟨s', ⟨?_, hspells⟩, hend⟩
          rw [hkind]
          exact Text.sameName_self word
      | blank =>
          have hkinds : s.ahead.map Token.kind = .space 1 :: rest.filterMap Mark.kind? := by
            rcases h with h | ⟨hloose, -⟩
            · exact h
            · cases hloose
          -- The blank stays in the stream: the next mark is loose, and passes over it.
          exact ih hrest hflows.2 hs (.inr ⟨hflows.1, hkinds⟩)
      | stop touching bars =>
          have hkinds : s.ahead.map Token.kind = rest.filterMap Mark.kind? := by
            rcases h with h | ⟨hloose, -⟩
            · exact h
            · cases hloose
          obtain ⟨s', hspells, hend⟩ := ih hrest hflows.2 hs (.inl hkinds)
          refine ⟨s', ⟨?_, hspells⟩, hend⟩
          have hbars := hflows.1
          cases touching with
          | true =>
              rw [Bool.not_true, peek_false_kind hs hkinds]
              exact hbars
          | false =>
              rw [Bool.not_false, peek_true_kind hrest hs hkinds]
              exact hbars

/-- The text of flowing marks is a stream that spells them to its end. -/
theorem spells_of_flows (hwritten : ∀ mark ∈ marks, mark.IsWritten) (hflows : Flows marks) :
    ∃ s s', TokenStream.ofText (String.ofList (text marks)) = .ok s ∧ Spells marks s s' ∧
      s'.isExhausted = true := by
  obtain ⟨tokens, finish, htokens, hkinds, hfinish⟩ :=
    tokensFrom_text hwritten hflows Position.start
  have hlast : finish.isFinish = true := by simp [Token.isFinish, hfinish]
  have hended : ({ ahead := tokens, finish := finish } : TokenStream).Ended := hfinish
  obtain ⟨s', hspells, hend⟩ := spells_of_kinds hwritten hflows hended (.inl hkinds)
  refine ⟨_, s', ?_, hspells, ?_⟩
  · rw [TokenStream.ofText, tokenizeAll, String.toList_ofList, htokens]
    exact congrArg Except.ok (TokenStream.ofTokens_concat hlast)
  · have hkind : (s'.peek true).kind = .finish := by
      rw [TokenStream.peek, TokenStream.rest, if_pos rfl, hend]
      exact hspells.ended hended
    simp [TokenStream.isExhausted, Token.isFinish, hkind]

end Phrase

/-! ### Names in texts -/

/-- The tokens of a text are proper. -/
theorem isProper_of_text {code : String} {s : TokenStream} (h : TokenStream.ofText code = .ok s) :
    ∀ t ∈ s.ahead, t.kind.IsProper := by
  obtain ⟨tokens, htokens, rfl⟩ := TokenStream.ofText_ok.mp h
  intro t ht
  refine Lexer.isProper_of_tokensFrom htokens t ?_
  -- The stream drops at most the last token of the text.
  unfold TokenStream.ofTokens at ht
  split at ht
  · cases ht
  · split at ht
    · exact (List.dropLast_sublist _).mem ht
    · exact ht

/-- A token that marks ask for is in the stream that spells them, unless it is the end. -/
theorem mem_of_spells {marks : List Mark} {s s' : TokenStream} (h : Spells marks s s')
    {touching : Bool} {kind : TokenKind} (hmem : .token touching kind ∈ marks) :
    kind = s.finish.kind ∨ ∃ t ∈ s.ahead, t.kind = kind := by
  induction marks generalizing s with
  | nil => cases hmem
  | cons mark rest ih =>
      -- What a mark takes is gone for the marks behind it, but what they take was in the stream
      -- before.
      have behind {skip : Bool} (hrest : Spells rest (s.advance skip) s')
          (hmem : .token touching kind ∈ rest) :
          kind = s.finish.kind ∨ ∃ t ∈ s.ahead, t.kind = kind := by
        rcases ih hrest hmem with h | ⟨t, ht, hkind⟩
        · exact .inl h
        · exact .inr ⟨t, TokenStream.mem_of_mem_advance ht, hkind⟩
      rcases List.mem_cons.mp hmem with rfl | hbehind
      · have hkind : (s.peek (!touching)).kind = kind := h.1
        rcases s.peek_eq_or_mem (!touching) with heq | hahead
        · exact .inl (hkind.symm.trans (congrArg Token.kind heq))
        · exact .inr ⟨_, hahead, hkind⟩
      · cases mark with
        | token touching' kind' | keyword word => exact behind h.2 hbehind
        | blank => exact ih h hbehind
        | stop touching' bars => exact ih h.2 hbehind

/-- Where a text spells marks, the words and numbers among them are proper. -/
theorem isProper_of_spells {code : String} {marks : List Mark} {s s' : TokenStream}
    (hcode : TokenStream.ofText code = .ok s) (h : Spells marks s s') {touching : Bool}
    {kind : TokenKind} (hmem : .token touching kind ∈ marks) : kind.IsProper := by
  rcases mem_of_spells h hmem with rfl | ⟨t, ht, rfl⟩
  · have hended : s.finish.kind = .finish := TokenStream.ended_of_text hcode
    rw [hended]
    trivial
  · exact isProper_of_text hcode t ht

end DocQuery
