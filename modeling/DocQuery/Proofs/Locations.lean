import DocQuery.Proofs.Blame
import DocQuery.Proofs.Comparisons
import DocQuery.Proofs.TextPieces
/-!
# DocQuery.Proofs.Locations

Where errors are located. The span of an error lies in the text that the error is about: it begins
between two characters and ends within the text, or it stands right behind the text where this
ended too soon. A span comes from a token, which covers a part of the text (`Token.Covers`); from
the place where a part of the expression is found; or it is a beginning of the text, which has one
character at least. A token of an error is marked exactly.
-/

namespace DocQuery

/-! ### Spans in a text

A span is told in bytes and a text is cut between characters. So a span fits if some characters of
the text have just as many bytes as stand in front of the span. -/

/-- The part begins between two characters of the text and ends within it. -/
structure Span.Fits (span : Span) (code : String) : Prop where
  boundary : ∃ front rest, code.toList = front ++ rest ∧ span.offset = Text.bytes front
  stop : span.offset + span.length ≤ code.utf8ByteSize

namespace Text

theorem bytes_toList (code : String) : bytes code.toList = code.utf8ByteSize := by
  rw [bytes, String.ofList_toList]

/-- Counting bytes on from nothing is counting them. -/
theorem offsetOver_eq (chars : List Char) : Position.offsetOver 0 chars = bytes chars := by
  have h := Position.offset_advanceOver .start chars
  rw [← Position.behind_nil, Position.advanceOver_behind] at h
  exact h.symm

end Text

namespace Span

variable {code : String}

/-- A piece of a text, at the bytes that stand in front of it. -/
theorem fits_of_split {front piece rest : List Char}
    (h : code.toList = front ++ (piece ++ rest)) :
    Fits ⟨Text.bytes front, Text.bytes piece⟩ code where
  boundary := ⟨front, piece ++ rest, h, rfl⟩
  stop := by
    rw [← Text.bytes_toList, h, Text.bytes_append, Text.bytes_append, ← Nat.add_assoc]
    exact Nat.le_add_right _ _

/-- A beginning of a text fits if it is not longer than the text. -/
theorem fits_of_le {length : Nat} (h : length ≤ code.utf8ByteSize) : Fits ⟨0, length⟩ code where
  boundary := ⟨[], code.toList, rfl, rfl⟩
  stop := by
    rw [Nat.zero_add]
    exact h

/-- Where a piece is found in a text, it fits, as one byte does where it is empty. -/
theorem fits_of_byteOffset {piece : String} {offset : Nat} (hcode : 0 < code.utf8ByteSize)
    (h : Text.byteOffset? piece code = some offset) :
    Fits ⟨offset, max piece.utf8ByteSize 1⟩ code := by
  obtain ⟨i, hi, rfl⟩ := Option.map_eq_some_iff.mp h
  rw [Text.offsetOver_eq]
  by_cases hpiece : piece.toList = []
  · -- Nothing is found at once.
    have hzero : i = 0 := by
      cases htext : code.toList with
      | nil =>
          rw [← Text.bytes_toList, htext] at hcode
          exact absurd hcode (Nat.lt_irrefl 0)
      | cons c rest =>
          rw [hpiece, htext] at hi
          exact (Option.some.inj hi).symm
    have hsize : piece.utf8ByteSize = 0 := by
      rw [← Text.bytes_toList, hpiece]
      rfl
    rw [hzero, hsize]
    exact fits_of_le hcode
  · -- The place that is found is one where the piece stands, so the text is cut in front of it.
    obtain ⟨rest, hrest⟩ : piece.toList <+: code.toList.drop i := by
      rcases Text.indexOf?_spec hpiece code.toList with ⟨j, hj, hleast⟩ | ⟨hnone, -⟩
      · rw [hi] at hj
        cases hj
        exact hleast.1
      · rw [hi] at hnone
        cases hnone
    have hpos := Text.bytes_pos hpiece
    rw [Text.bytes_toList] at hpos
    rw [Nat.max_eq_left hpos, ← Text.bytes_toList]
    have hsplit : code.toList = code.toList.take i ++ (piece.toList ++ rest) := by
      rw [hrest, List.take_append_drop]
    exact fits_of_split hsplit

end Span

/-! ### Errors in a text -/

/-- The error is located at the end: the text ended too soon, or its token is the end. -/
def Cause.IsAtEnd (cause : Cause) : Prop :=
  cause.isAtEnd = true ∨ ∃ t ∈ cause.token?, t.isFinish = true

/-- The span of the error lies in its text, or right behind it where the error is located at the
end. -/
structure Error.IsLocated (error : Error) : Prop where
  atEnd : error.cause.IsAtEnd → error.span = ⟨error.code.utf8ByteSize, 1⟩
  within : ¬ error.cause.IsAtEnd → error.span.Fits error.code

/-- The error marks what the token covers in its text. -/
def Error.Marks (error : Error) (t : Token) : Prop :=
  ∃ front lexeme rest, error.code.toList = front ++ lexeme ++ rest ∧ t.Covers front lexeme ∧
    error.span = ⟨Text.bytes front, Text.bytes lexeme⟩

namespace Error

variable {error : Error}

/-- A token is marked where it begins, at least with one byte, and never from behind the text. -/
theorem span_of_token {t : Token} (h : error.cause.token? = some t) :
    error.span = ⟨min t.range.start.offset error.code.utf8ByteSize, max t.range.length 1⟩ := by
  rw [span, h]

/-- A token that is not the end covers a part of the text, and that is marked. -/
theorem isLocated_of_marks {t : Token} (ht : error.cause.token? = some t)
    (hend : error.cause.isAtEnd = false) (hfinish : t.isFinish = false) (h : error.Marks t) :
    error.IsLocated := by
  obtain ⟨front, lexeme, rest, htext, -, hspan⟩ := h
  refine ⟨fun hatEnd => ?_, fun _ => ?_⟩
  · rcases hatEnd with h | ⟨u, hu, h⟩
    · rw [hend] at h
      cases h
    · rw [ht] at hu
      cases hu
      rw [hfinish] at h
      cases h
  · rw [hspan]
    exact Span.fits_of_split (htext.trans (List.append_assoc ..))

/-- What is not about a token is located in its text, if there is any. -/
theorem isLocated_of_no_token (hcode : 0 < error.code.utf8ByteSize)
    (htoken : error.cause.token? = none) (hend : error.cause.isAtEnd = false) :
    error.IsLocated := by
  refine ⟨fun hatEnd => ?_, fun _ => ?_⟩
  · rcases hatEnd with h | ⟨t, ht, -⟩
    · rw [hend] at h
      cases h
    · rw [htoken] at ht
      cases ht
  · unfold span
    rw [htoken]
    dsimp only
    cases error.cause.part? with
    | none =>
        rw [hend]
        exact Span.fits_of_le hcode
    | some part =>
        dsimp only
        cases hfound : Text.byteOffset? part error.code with
        | some offset => exact Span.fits_of_byteOffset hcode hfound
        | none => exact Span.fits_of_le (Nat.max_le.mpr ⟨Nat.le_refl _, hcode⟩)

/-- An error of an evaluation is located in the text of its expression. -/
theorem isLocated_eval {n : Node} (h : n.HasText) (e : EvalError) :
    IsLocated ⟨.eval e, n.source⟩ := by
  refine isLocated_of_no_token ?_ rfl rfl
  rw [← Text.bytes_toList]
  exact Text.bytes_pos h

end Error

/-! ### Texts that are not cut into tokens -/

/-- The text cannot be cut at a character behind some others. -/
theorem Lexer.error_of_tokensFrom {before chars : List Char} {e : LexError}
    (h : tokensFrom (Position.behind before) chars = .error e) :
    ∃ front c rest, chars = front ++ c :: rest ∧
      e = errorAt (Position.behind (before ++ front)) c (c :: rest) := by
  -- Along the scanner, with what it has passed over in `before`: either the next lexeme is passed
  -- over too, or there is none and the error is here.
  generalize hstart : Position.behind before = start at h
  fun_induction tokensFrom start chars generalizing before with
  | case1 start => cases h
  | case2 start c rest kind count hscan lexeme =>
      rename_i ih
      have hchars : lexeme ++ rest.drop count = c :: rest := List.take_append_drop ..
      have hothers : tokensFrom (start.advanceOver lexeme) (rest.drop count) = .error e := by
        cases hothers : tokensFrom (start.advanceOver lexeme) (rest.drop count) with
        | error e' =>
            rw [hothers] at h
            cases h
            rfl
        | ok others =>
            rw [hothers] at h
            cases h
      have hnext : Position.behind (before ++ lexeme) = start.advanceOver lexeme := by
        rw [← hstart, Position.advanceOver_behind]
      obtain ⟨front, c', rest', hrest, rfl⟩ := ih hnext hothers
      refine ⟨lexeme ++ front, c', rest', ?_, ?_⟩
      · rw [← hchars, hrest, List.append_assoc]
      · rw [List.append_assoc]
  | case3 start c rest =>
      cases h
      exact ⟨[], c, rest, rfl, by rw [List.append_nil, hstart]⟩

/-- The error at a character marks it. -/
theorem span_errorAt {code : String} {front rest : List Char} {c : Char}
    (h : code.toList = front ++ ([c] ++ rest)) :
    ∃ t, (Lexer.errorAt (Position.behind front) c (c :: rest)).token? = some t ∧
      t.isFinish = false ∧
      Error.span ⟨.lex (Lexer.errorAt (Position.behind front) c (c :: rest)), code⟩ =
        ⟨Text.bytes front, Text.bytes [c]⟩ := by
  let range : Range := ⟨Position.behind front, (Position.behind front).shiftOver [c]⟩
  -- Whichever error it is, its token has this range, which is one character long.
  have hspan : ∀ {t : Token} {e : LexError}, e.token? = some t → t.range = range →
      Error.span ⟨.lex e, code⟩ = ⟨Text.bytes front, Text.bytes [c]⟩ := by
    intro t e ht hrange
    have hlength : range.length = Text.bytes [c] := by
      show Text.bytes front + c.utf8Size - Text.bytes front = _
      rw [Nat.add_sub_cancel_left, Text.bytes_singleton]
    have hstart : range.start.offset ≤ code.utf8ByteSize := by
      rw [← Text.bytes_toList, h, Text.bytes_append]
      exact Nat.le_add_right _ _
    have hpos : 0 < Text.bytes [c] := Text.bytes_pos (by simp)
    have htoken : Error.span ⟨.lex e, code⟩ = _ := Error.span_of_token ht
    rw [htoken, hrange, Nat.min_eq_left hstart, hlength, Nat.max_eq_left hpos]
    rfl
  unfold Lexer.errorAt
  split
  · exact ⟨_, rfl, rfl, hspan rfl rfl⟩
  · exact ⟨_, rfl, rfl, hspan rfl rfl⟩

/-- Where a text is not cut into tokens, the error marks one character. -/
theorem isLocated_of_tokenize {code : String} {spaces : Bool} {e : LexError}
    (h : tokenize code spaces = .error e) : Error.IsLocated ⟨.lex e, code⟩ := by
  have hfrom : Lexer.tokensFrom (Position.behind []) code.toList = .error e := by
    unfold tokenize tokenizeAll at h
    rw [Position.behind_nil]
    cases hall : Lexer.tokensFrom Position.start code.toList with
    | ok all =>
        rw [hall] at h
        cases h
    | error e' =>
        rw [hall] at h
        cases h
        rfl
  obtain ⟨front, c, rest, htext, rfl⟩ := Lexer.error_of_tokensFrom hfrom
  rw [List.nil_append]
  obtain ⟨t, ht, hfinish, hspan⟩ := span_errorAt htext
  refine ⟨fun hatEnd => ?_, fun _ => ?_⟩
  · rcases hatEnd with hend | ⟨u, hu, hend⟩
    · unfold Lexer.errorAt at hend
      split at hend <;> cases hend
    · obtain rfl : t = u := Option.some.inj (ht.symm.trans hu)
      rw [hfinish] at hend
      cases hend
  · rw [hspan]
    exact Span.fits_of_split htext

/-! ### Texts that are not parsed

The token of an error is one of the tokens of the text (`blames_of_parse`), and these tile it: the
token covers a part of the text, or it is the end. -/

/-- Nothing is an expression that ended too soon. -/
theorem parse_empty (scope : Scope) (mode : ParseMode) :
    parse "" scope mode =
      .error (.parse (.unexpectedEnd ⟨Range.point Position.start, .finish⟩)) := by
  have htext : TokenStream.ofText "" =
      .ok (TokenStream.ofTokens [⟨Range.point Position.start, .finish⟩]) := by
    refine TokenStream.ofText_ok.mpr ⟨_, ?_, rfl⟩
    unfold tokenizeAll Lexer.tokensFrom
    rfl
  unfold parse
  rw [htext]
  cases mode <;> rfl

/-- An error marks what its token covers, where that is not empty. -/
theorem Error.marks_of_covers {code : String} {e : ParseError} {t : Token}
    (htoken : e.token? = some t) (hlong : t.range.start.offset < t.range.stop.offset)
    {front lexeme rest : List Char} (htext : code.toList = front ++ lexeme ++ rest)
    (hcovers : t.Covers front lexeme) : Error.Marks ⟨.parse e, code⟩ t := by
  refine ⟨front, lexeme, rest, htext, hcovers, ?_⟩
  have hoffset : t.range.start.offset = Text.bytes front := congrArg _ hcovers.start
  have hsize : Text.bytes front ≤ code.utf8ByteSize := by
    rw [← Text.bytes_toList, htext, Text.bytes_append, Text.bytes_append, Nat.add_assoc]
    exact Nat.le_add_right _ _
  have hlength : t.range.length = Text.bytes lexeme := by
    rw [Range.length, hoffset, hcovers.stop, Text.bytes_append, Nat.add_sub_cancel_left]
  have hpos : 1 ≤ Text.bytes lexeme := by
    rw [← hlength]
    exact Nat.sub_pos_of_lt hlong
  have hspan : Error.span ⟨.parse e, code⟩ = _ := Error.span_of_token htoken
  rw [hspan, hoffset, hlength, Nat.min_eq_left hsize, Nat.max_eq_left hpos]

/-- A token of a text marks what it covers, and the end of the text is behind all of it. -/
theorem isLocated_of_mem {code : String} {tokens : List Token} {e : ParseError} {t : Token}
    (htokens : tokenize code true = .ok tokens) (ht : t ∈ tokens) (htoken : e.token? = some t)
    (hend : ∀ u, e = .unexpectedEnd u → u.isFinish = true) :
    (t.isFinish = false → Error.Marks ⟨.parse e, code⟩ t) ∧ Error.IsLocated ⟨.parse e, code⟩ := by
  have htiling := (tokenize_tiles htokens).1
  obtain ⟨last, hlast, hkind, hstart, hstop⟩ := htiling.last
  have hspan : Error.span ⟨.parse e, code⟩ = _ := Error.span_of_token htoken
  -- The last token is the end; all others cover at least one byte.
  have hmem : t = last ∨ t ∈ tokens.dropLast := by
    rw [List.dropLast_append_getLast? _ hlast |>.symm] at ht
    rcases List.mem_append.mp ht with h | h
    · exact .inr h
    · exact .inl (List.mem_singleton.mp h)
  rcases hmem with rfl | hmem
  · -- The end.
    have hfinish : t.isFinish = true := Token.isFinish_iff.mpr hkind
    refine ⟨fun h => ?_, fun _ => ?_, fun h => ?_⟩
    · rw [hfinish] at h
      cases h
    · rw [hspan, hstart, Nat.min_self, Range.length, hstart, hstop, Nat.sub_self]
      rfl
    · exact absurd (.inr ⟨t, htoken, hfinish⟩) h
  · obtain ⟨hne, hlong⟩ := htiling.pieces t hmem
    have hfinish : t.isFinish = false := by
      rw [← Bool.not_eq_true, Token.isFinish_iff]
      exact hne
    obtain ⟨front, lexeme, rest, htext, hcovers⟩ := htiling.covers t ht
    have hmarks := Error.marks_of_covers htoken hlong htext hcovers
    refine ⟨fun _ => hmarks, Error.isLocated_of_marks htoken ?_ hfinish hmarks⟩
    cases e with
    | unexpectedEnd u =>
        obtain rfl : u = t := Option.some.inj htoken
        rw [hend u rfl] at hfinish
        cases hfinish
    | _ => rfl

/-- Where a text is not parsed, the error marks its token exactly, and is located in the text. -/
theorem isLocated_of_parse {code : String} {scope : Scope} {mode : ParseMode} {e : ParseError}
    (h : parse code scope mode = .error (.parse e)) :
    (∀ t ∈ e.token?, t.isFinish = false → Error.Marks ⟨.parse e, code⟩ t) ∧
      Error.IsLocated ⟨.parse e, code⟩ := by
  obtain ⟨tokens, htokens, hblames⟩ := blames_of_parse h
  cases htoken : e.token? with
  | some t =>
      obtain ⟨hmarks, hlocated⟩ :=
        isLocated_of_mem htokens (hblames.token t htoken) htoken hblames.atEnd
      refine ⟨fun u hu => ?_, hlocated⟩
      obtain rfl : t = u := Option.some.inj hu
      exact hmarks
  | none =>
      refine ⟨nofun, Error.isLocated_of_no_token ?_ htoken ?_⟩
      · -- Of no text at all the error has a token.
        by_contra hempty
        have hcode : code = "" := by
          rw [← String.utf8ByteSize_eq_zero_iff]
          exact Nat.eq_zero_of_not_pos hempty
        rw [hcode, parse_empty] at h
        cases h
        cases htoken
      · cases e with
        | unexpectedEnd u => cases htoken
        | _ => rfl

/-! ### Texts that are compiled -/

namespace Expression

variable {backend : Backend} {code : String} {options : CompileOptions}

/-- A text that is not cut into tokens at all is not parsed, and with blanks left out it fails in
the same way. -/
theorem isLocated_ofSyntax {scope : Scope} {mode : ParseMode} {error : SyntaxError}
    (h : parse code scope mode = .error error) : (Error.ofSyntax code error).IsLocated := by
  cases error with
  | parse e => exact (isLocated_of_parse h).2
  | lex e =>
      -- The parser sees no error of its own here: the stream is not even there.
      have hall : tokenizeAll code = .error e := by
        cases htext : tokenizeAll code with
        | error e' =>
            have hstream : TokenStream.ofText code = .error e' := by
              rw [TokenStream.ofText, htext]
              rfl
            rw [parse, hstream] at h
            cases h
            rfl
        | ok tokens =>
            have hstream : TokenStream.ofText code = .ok (TokenStream.ofTokens tokens) := by
              rw [TokenStream.ofText, htext]
              rfl
            rw [parse, hstream] at h
            dsimp only at h
            split at h <;> cases h
      have htokenize : tokenize code true = .error e := by
        rw [tokenize, hall]
        rfl
      exact isLocated_of_tokenize htokenize

/-- A text is not compiled since it is not parsed, or since its backend refuses it. -/
theorem isLocated_of_build {error : Error} (h : build backend code options = .error error) :
    error.IsLocated := by
  cases hparse : parse code options.scope options.mode with
  | error e =>
      rw [build, hparse] at h
      cases h
      exact isLocated_ofSyntax hparse
  | ok n =>
      rw [build_of_parse hparse] at h
      split at h
      · cases h
      · cases h
        exact Error.isLocated_eval (hasText_of_parse hparse) _

/-- The errors of what is compiled are located in the text of its node. -/
theorem isLocated_error {e : Expression} (h : build backend code options = .ok e)
    (error : EvalError) : (e.error error).IsLocated := by
  obtain ⟨n, program, hparse, -, rfl⟩ := exists_of_build h
  exact Error.isLocated_eval (hasText_of_parse hparse) error

theorem error_of_executeScalar {e : Expression} {ctx : Context} {error : Error}
    (h : e.executeScalar ctx = .error error) : ∃ cause, error = e.error cause := by
  obtain ⟨cause, -, rfl⟩ := mapError_eq_error.mp h
  exact ⟨cause, rfl⟩

theorem error_of_collect {e : Expression} {ctx : Context} {error : Error}
    (h : e.collect ctx = .error error) : ∃ cause, error = e.error cause := by
  obtain ⟨cause, -, rfl⟩ := mapError_eq_error.mp h
  exact ⟨cause, rfl⟩

end Expression

/-- Every error of a text is located in the text that it is about: where the text is not cut into
tokens, is not parsed, or is not compiled, and where what it is compiled into is evaluated. An
error of the parser that has a token marks just what the token covers. -/
theorem errors_located (code : String) :
    (∀ spaces e, tokenize code spaces = .error e → Error.IsLocated ⟨.lex e, code⟩) ∧
      (∀ scope mode error, parse code scope mode = .error error →
        (Error.ofSyntax code error).IsLocated ∧
          ∀ e, error = .parse e → ∀ t ∈ e.token?, t.isFinish = false →
            (Error.ofSyntax code error).Marks t) ∧
      ∀ backend options,
        (∀ error, Expression.build backend code options = .error error → error.IsLocated) ∧
          ∀ e, Expression.build backend code options = .ok e → ∀ ctx,
            (∀ error, .error error ∈ e.execute ctx → (e.error error).IsLocated) ∧
              (∀ error, e.executeScalar ctx = .error error → error.IsLocated) ∧
              ∀ error, e.collect ctx = .error error → error.IsLocated := by
  refine ⟨fun _ _ h => isLocated_of_tokenize h, fun scope mode error h => ?_,
    fun backend options => ⟨fun _ h => Expression.isLocated_of_build h, fun e h ctx => ?_⟩⟩
  · refine ⟨Expression.isLocated_ofSyntax h, ?_⟩
    rintro e rfl
    exact (isLocated_of_parse h).1
  · have hlocated := Expression.isLocated_error h
    refine ⟨fun error _ => hlocated error, fun error herror => ?_, fun error herror => ?_⟩
    · obtain ⟨cause, rfl⟩ := Expression.error_of_executeScalar herror
      exact hlocated cause
    · obtain ⟨cause, rfl⟩ := Expression.error_of_collect herror
      exact hlocated cause

/-- The token is behind a character of two bytes; a string without an end is marked where it begins;
and a division by zero is located in the expression. -/
theorem errors_located_bytes :
    let bracket : Token := ⟨⟨⟨1, 5, 5⟩, ⟨1, 6, 6⟩⟩, .symbol .rightBracket⟩
    let string : Token := ⟨⟨⟨1, 1, 0⟩, ⟨1, 2, 1⟩⟩, .string "'é"⟩
    let ambient : Ambient := ⟨.ofDate .epoch, fun _ _ => 0⟩
    Error.Marks ⟨.parse (.unexpectedToken bracket), "'é' ]"⟩ bracket ∧
      Error.IsLocated ⟨.lex (.unterminatedString string), "'é"⟩ ∧
      ∃ e, Expression.build .instructions "1/0" {} = .ok e ∧
        e.executeScalar (.ofDocument .null [] .binary ambient) =
          .error ⟨.eval .zeroDivision, "1/0"⟩ ∧
        Error.IsLocated ⟨.eval .zeroDivision, "1/0"⟩ := by
  intro bracket string ambient
  have hparse : (parse "'é' ]" .root .full).map (fun _ => ()) =
      .error (.parse (.unexpectedToken bracket)) := by decide +kernel
  have htokenize : tokenize "'é" true = .error (.unterminatedString string) := by decide +kernel
  have hdivision : (Expression.build .instructions "1/0" {}).toOption.map (fun e =>
      (e.executeScalar (.ofDocument .null [] .binary ambient)).map fun _ => ()) =
      some (.error ⟨.eval .zeroDivision, "1/0"⟩) := by decide +kernel
  refine ⟨?_, (errors_located "'é").1 true _ htokenize, ?_⟩
  · have h := map_eq_error.mp hparse
    exact ((errors_located "'é' ]").2.1 .root .full _ h).2 _ rfl bracket rfl rfl
  · obtain ⟨e, he, hexecute⟩ := Option.map_eq_some_iff.mp hdivision
    have hbuild := Precedence.toOption_eq_some.mp he
    have hscalar := map_eq_error.mp hexecute
    exact ⟨e, hbuild, hscalar,
      (((errors_located "1/0").2.2 .instructions {}).2 e hbuild _).2.1 _ hscalar⟩

end DocQuery
