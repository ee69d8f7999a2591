import DocQuery.Proofs.Embedding
import DocQuery.Proofs.Tiling
/-!
# DocQuery.Proofs.Pieces

Texts in pieces. What the scanner finds within the beginning of a text it finds there if that
beginning is all of the text (`Lexer.scan_of_append`), so a text that has been cut into pieces is
cut into the same pieces in front of any boundary (`Lexer.Pieces.boundary`). Parentheses are
boundaries, and they are cut off whole: put between pieces of a text, they are pieces between the
others (`Lexer.Pieces.wrap`).
-/

namespace DocQuery

namespace Lexer

variable {p : Char → Bool} {chars more : List Char}

/-! ### Less text

One lemma for each part of the scanner, in the order of their use. The shape is always the same: the
part looks at characters up to the end of what it finds and at one behind it, and if it found its
end within the beginning, it does not matter what comes behind that. -/

/-- A run within the beginning of a text ends there without what follows. -/
theorem span_of_append (h : span p (chars ++ more) ≤ chars.length) :
    span p (chars ++ more) = span p chars := by
  have hle := span_le p chars
  have hmore := span_le_append p chars more
  -- A run that ends within the beginning ends at the same character; one that takes all of it
  -- cannot be longer.
  by_cases hlt : span p chars < chars.length
  · exact span_append_of_lt hlt more
  · omega

/-- A fraction within the beginning is one without what follows. -/
theorem fractionLength_of_append (h : fractionLength (chars ++ more) ≤ chars.length) :
    fractionLength (chars ++ more) = fractionLength chars := by
  cases chars with
  | nil => exact Nat.le_zero.mp h
  | cons c rest =>
      by_cases hc : c = '.'
      · subst hc
        simp only [List.cons_append, fractionLength, List.length_cons] at h ⊢
        have hspan : span Char.isDigit (rest ++ more) ≤ rest.length := by
          split at h <;> omega
        rw [span_of_append hspan]
      · rw [List.cons_append, fractionLength_of_ne hc, fractionLength_of_ne hc]

/-- The digits of an exponent, with a sign in front of them or without. -/
theorem powerLength_of_append (h : powerLength (chars ++ more) ≤ chars.length) :
    powerLength (chars ++ more) = powerLength chars := by
  cases chars with
  | nil => exact Nat.le_zero.mp h
  | cons c rest =>
      simp only [List.cons_append, powerLength, List.length_cons] at h ⊢
      by_cases hsign : c = '+' ∨ c = '-'
      · simp only [if_pos hsign] at h ⊢
        have hspan : span Char.isDigit (rest ++ more) ≤ rest.length := by
          split at h <;> omega
        rw [span_of_append hspan]
      · simp only [if_neg hsign] at h ⊢
        have hspan : span Char.isDigit (c :: rest ++ more) ≤ (c :: rest).length := by
          rw [List.cons_append, List.length_cons]
          split at h <;> omega
        rw [← List.cons_append, span_of_append hspan]

/-- An exponent within the beginning is one without what follows. -/
theorem exponentLength_of_append (h : exponentLength (chars ++ more) ≤ chars.length) :
    exponentLength (chars ++ more) = exponentLength chars := by
  cases chars with
  | nil => exact Nat.le_zero.mp h
  | cons c rest =>
      simp only [List.cons_append, exponentLength, List.length_cons] at h ⊢
      split
      · rename_i hletter
        rw [if_pos hletter] at h
        have hpower : powerLength (rest ++ more) ≤ rest.length := by
          split at h <;> omega
        rw [powerLength_of_append hpower]
      · rfl

/-- A number is digits, a fraction and an exponent, each looked for behind the one before; so they
are brought back to the beginning in this order. -/
theorem number_of_append {kind : TokenKind} {count : Nat}
    (h : number? (chars ++ more) = some (kind, count)) (hle : count ≤ chars.length) :
    number? chars = some (kind, count) := by
  -- The number ends where the last of its three parts does.
  have hcount : span Char.isDigit (chars ++ more) +
      fractionLength ((chars ++ more).drop (span Char.isDigit (chars ++ more))) +
      exponentLength ((chars ++ more).drop (span Char.isDigit (chars ++ more) +
        fractionLength ((chars ++ more).drop (span Char.isDigit (chars ++ more))))) = count := by
    unfold number? at h
    extract_lets whole fraction exponent length text at h
    split at h
    · cases h
    · exact (Prod.mk.inj (Option.some.inj h)).2
  have hwhole : span Char.isDigit (chars ++ more) = span Char.isDigit chars :=
    span_of_append (by omega)
  have hrest : (chars ++ more).drop (span Char.isDigit chars) =
      chars.drop (span Char.isDigit chars) ++ more :=
    List.drop_append_of_le_length (span_le ..)
  rw [hwhole, hrest] at hcount
  have hfraction : fractionLength (chars.drop (span Char.isDigit chars) ++ more) =
      fractionLength (chars.drop (span Char.isDigit chars)) :=
    fractionLength_of_append (by rw [List.length_drop]; omega)
  rw [hfraction] at hcount
  have hend : (chars ++ more).drop (span Char.isDigit chars +
        fractionLength (chars.drop (span Char.isDigit chars))) =
      chars.drop (span Char.isDigit chars +
        fractionLength (chars.drop (span Char.isDigit chars))) ++ more :=
    List.drop_append_of_le_length (by omega)
  rw [hend] at hcount
  have hexponent : exponentLength (chars.drop (span Char.isDigit chars +
        fractionLength (chars.drop (span Char.isDigit chars))) ++ more) =
      exponentLength (chars.drop (span Char.isDigit chars +
        fractionLength (chars.drop (span Char.isDigit chars)))) :=
    exponentLength_of_append (by rw [List.length_drop]; omega)
  -- With all three lengths the same, the text of the number is the same.
  rw [← h]
  simp only [number?, hwhole, hrest, hfraction, hend, hexponent]
  rw [List.take_append_of_le_length (number_le_length chars)]

theorem bareLength_of_append (h : bareLength (chars ++ more) ≤ chars.length) :
    bareLength (chars ++ more) = bareLength chars := by
  cases chars with
  | nil => exact Nat.le_zero.mp h
  | cons c rest =>
      simp only [List.cons_append, bareLength, List.length_cons] at h ⊢
      split
      · rename_i hstart
        rw [if_pos hstart] at h
        rw [span_of_append (Nat.le_of_succ_le_succ h)]
      · rfl

/-- A word, with a dollar sign in front of it or without. -/
theorem wordLength_of_append (h : wordLength (chars ++ more) ≤ chars.length) :
    wordLength (chars ++ more) = wordLength chars := by
  cases chars with
  | nil => exact Nat.le_zero.mp h
  | cons c rest =>
      rw [List.cons_append] at h ⊢
      by_cases hc : c = '$'
      · subst hc
        rw [wordLength_dollar, List.length_cons] at h
        have hbare : bareLength (rest ++ more) ≤ rest.length := by
          split at h <;> omega
        rw [wordLength_dollar, wordLength_dollar, bareLength_of_append hbare]
      · rw [wordLength_of_ne hc] at h
        rw [wordLength_of_ne hc, wordLength_of_ne hc, ← List.cons_append]
        exact bareLength_of_append h

/-- The first symbol that begins the text is the first that begins its beginning. -/
theorem symbol_of_append {s : Symbol} (h : symbol? (chars ++ more) = some s)
    (hle : s.text.toList.length ≤ chars.length) : symbol? chars = some s := by
  obtain ⟨hstarts, before, after, hall, hbefore⟩ := List.find?_eq_some_iff_append.mp h
  refine List.find?_eq_some_iff_append.mpr ⟨?_, before, after, hall, fun other hother => ?_⟩
  · rw [List.isPrefixOf_iff_prefix] at hstarts ⊢
    exact List.prefix_of_prefix_length_le hstarts (List.prefix_append chars more) hle
  · -- What does not begin the text does not begin its beginning.
    have hno := hbefore other hother
    rw [Bool.not_eq_true', Bool.eq_false_iff] at hno ⊢
    intro hyes
    rw [List.isPrefixOf_iff_prefix] at hyes
    exact hno (List.isPrefixOf_iff_prefix.mpr (hyes.trans (List.prefix_append chars more)))

/-- The character that is named by digits in braces. -/
theorem codePoint_brace {rest : List Char} {d : Char} {count : Nat} :
    codePoint? ('\x7b' :: rest) = some (d, count) ↔
      (0 < min (span isHexDigit rest) 6 ∧ rest[min (span isHexDigit rest) 6]? = some '\x7d') ∧
        (Bytes.hexNumber? (rest.take (min (span isHexDigit rest) 6))).bind charOfNumber? = some d ∧
          min (span isHexDigit rest) 6 + 2 = count := by
  simp only [codePoint?, Option.bind_eq_bind, Option.bind_eq_some_iff, Option.guard_eq_some',
    Option.pure_def, Option.some.injEq, Prod.mk.injEq, exists_const]
  refine and_congr_right fun _ => ?_
  constructor
  · rintro ⟨n, hn, _, hchar, rfl, hcount⟩
    exact ⟨⟨n, hn, hchar⟩, hcount⟩
  · rintro ⟨⟨n, hn, hchar⟩, hcount⟩
    exact ⟨n, hn, d, hchar, rfl, hcount⟩

/-- The character that is named by four digits. -/
theorem codePoint_four {c d : Char} {rest : List Char} {count : Nat} (hc : c ≠ '\x7b') :
    codePoint? (c :: rest) = some (d, count) ↔
      4 ≤ span isHexDigit (c :: rest) ∧
        (Bytes.hexNumber? ((c :: rest).take 4)).bind charOfNumber? = some d ∧ 4 = count := by
  rw [codePoint_of_ne hc]
  simp only [Option.bind_eq_bind, Option.bind_eq_some_iff, Option.guard_eq_some',
    Option.pure_def, Option.some.injEq, Prod.mk.injEq, exists_const]
  refine and_congr_right fun _ => ?_
  constructor
  · rintro ⟨n, hn, _, hchar, rfl, hcount⟩
    exact ⟨⟨n, hn, hchar⟩, hcount⟩
  · rintro ⟨⟨n, hn, hchar⟩, hcount⟩
    exact ⟨n, hn, d, hchar, rfl, hcount⟩

/-- A character named by its number is named by the beginning if its digits end there. -/
theorem codePoint_of_append {d : Char} {count : Nat}
    (h : codePoint? (chars ++ more) = some (d, count)) (hle : count ≤ chars.length) :
    codePoint? chars = some (d, count) := by
  cases chars with
  | nil =>
      obtain rfl : count = 0 := Nat.le_zero.mp hle
      cases more with
      | nil => cases h
      | cons c rest =>
          by_cases hc : c = '\x7b'
          · subst hc
            cases (codePoint_brace.mp h).2.2
          · cases ((codePoint_four hc).mp h).2.2
  | cons c rest =>
      rw [List.cons_append] at h
      by_cases hc : c = '\x7b'
      · subst hc
        obtain ⟨⟨hpos, hbrace⟩, hchar, rfl⟩ := codePoint_brace.mp h
        rw [List.length_cons] at hle
        -- The brace stands within the beginning, and so do the digits in front of it.
        have hmin : min (span isHexDigit (rest ++ more)) 6 = min (span isHexDigit rest) 6 := by
          have hmore := span_le_append isHexDigit rest more
          by_cases hlt : span isHexDigit rest < rest.length
          · rw [span_append_of_lt hlt]
          · omega
        rw [hmin] at hpos hbrace hchar hle ⊢
        rw [List.getElem?_append_left (by omega)] at hbrace
        rw [List.take_append_of_le_length (by omega)] at hchar
        exact codePoint_brace.mpr ⟨⟨hpos, hbrace⟩, hchar, rfl⟩
      · obtain ⟨hfour, hchar, rfl⟩ := (codePoint_four hc).mp h
        -- Four digits are four digits, however many follow.
        have hspan : 4 ≤ span isHexDigit (c :: rest) := by
          by_cases hlt : span isHexDigit (c :: rest) < (c :: rest).length
          · rw [← span_append_of_lt hlt more]
            exact hfour
          · omega
        rw [← List.cons_append, List.take_append_of_le_length hle] at hchar
        exact (codePoint_four hc).mpr ⟨hspan, hchar, rfl⟩

theorem escape_pos {d : Char} {count : Nat} (h : escape? chars = some (d, count)) : 0 < count := by
  unfold escape? at h
  split at h
  -- Only a character named by its number takes more than the letter behind the backslash.
  case h_10 =>
    obtain ⟨_, -, heq⟩ := Option.map_eq_some_iff.mp h
    cases heq
    exact Nat.succ_pos _
  case h_11 => cases h
  all_goals
    cases h
    exact Nat.one_pos

/-- An escape within the beginning is one without what follows. -/
theorem escape_of_append {d : Char} {count : Nat}
    (h : escape? (chars ++ more) = some (d, count)) (hle : count ≤ chars.length) :
    escape? chars = some (d, count) := by
  cases chars with
  | nil => exact absurd (Nat.le_zero.mp hle) (Nat.pos_iff_ne_zero.mp (escape_pos h))
  | cons c rest =>
      rw [List.cons_append] at h
      unfold escape? at h
      split at h
      case h_10 =>
        rename_i heq
        obtain ⟨rfl, rfl⟩ := List.cons.inj heq
        obtain ⟨⟨e, length⟩, hpoint, heq⟩ := Option.map_eq_some_iff.mp h
        obtain ⟨rfl, rfl⟩ := Prod.mk.inj heq
        rw [escape?, codePoint_of_append hpoint (Nat.le_of_succ_le_succ hle)]
        rfl
      case h_11 => cases h
      -- The other escapes are one letter, the first of both texts.
      all_goals
        rename_i heq
        obtain ⟨rfl, -⟩ := List.cons.inj heq
        exact h

theorem stringBody_pos {quote : Char} {body : List Char} {length : Nat}
    (h : stringBody? quote chars = some (body, length)) : 0 < length := by
  unfold stringBody? at h
  split at h
  · cases h
  · split at h
    · cases h
      exact Nat.one_pos
    · split at h
      · obtain ⟨_, -, hbind⟩ := Option.bind_eq_some_iff.mp h
        obtain ⟨_, -, heq⟩ := Option.bind_eq_some_iff.mp hbind
        cases heq
        exact Nat.succ_pos _
      · obtain ⟨_, -, heq⟩ := Option.bind_eq_some_iff.mp h
        cases heq
        exact Nat.succ_pos _

/-- The rest of a string, up to its closing quote. The induction follows the scanner: a quote ends
the string, an escape takes as many characters as it is long, any other character is one of the
string. -/
theorem stringBody_of_append {quote : Char} {body : List Char} {length : Nat}
    (h : stringBody? quote (chars ++ more) = some (body, length)) (hle : length ≤ chars.length) :
    stringBody? quote chars = some (body, length) := by
  fun_induction stringBody? quote chars generalizing body length with
  | case1 => exact absurd (Nat.le_zero.mp hle) (Nat.pos_iff_ne_zero.mp (stringBody_pos h))
  | case2 rest =>
      rw [List.cons_append, stringBody?, if_pos rfl] at h
      exact h
  | case3 rest hquote =>
      rename_i ih
      rw [List.cons_append, stringBody?, if_neg hquote, if_pos rfl] at h
      obtain ⟨⟨d, count⟩, hescape, hbind⟩ := Option.bind_eq_some_iff.mp h
      obtain ⟨⟨body', length'⟩, hbody, heq⟩ := Option.bind_eq_some_iff.mp hbind
      obtain ⟨rfl, rfl⟩ := Prod.mk.inj (Option.some.inj heq)
      rw [List.length_cons] at hle
      -- The escape ends before the string does, and so within the beginning.
      have hcount : count ≤ rest.length := by omega
      rw [List.drop_append_of_le_length hcount] at hbody
      rw [escape_of_append hescape hcount]
      have hrest := ih count hbody (by rw [List.length_drop]; omega)
      simp only [Option.bind_eq_bind, Option.bind_some, hrest]
      rfl
  | case4 c rest hquote hbackslash =>
      rename_i ih
      rw [List.cons_append, stringBody?, if_neg hquote, if_neg hbackslash] at h
      obtain ⟨⟨body', length'⟩, hbody, heq⟩ := Option.bind_eq_some_iff.mp h
      obtain ⟨rfl, rfl⟩ := Prod.mk.inj (Option.some.inj heq)
      rw [ih hbody (Nat.le_of_succ_le_succ hle)]
      rfl

/-- What is found within the beginning of a text is found there without what follows. -/
theorem scan_of_append {kind : TokenKind} {count : Nat} (hne : chars ≠ [])
    (h : scan (chars ++ more) = some (kind, count)) (hle : count ≤ chars.length) :
    scan chars = some (kind, count) := by
  cases chars with
  | nil => exact absurd rfl hne
  | cons c rest =>
      -- The first character decides which kind of token is looked for, and both texts share it.
      rw [List.cons_append, scan] at h
      rw [scan]
      dsimp only at h ⊢
      split at h
      · rename_i hspace
        obtain ⟨rfl, rfl⟩ := Prod.mk.inj (Option.some.inj h)
        rw [if_pos hspace, span_of_append (Nat.le_of_succ_le_succ hle)]
      · rename_i hspace
        rw [if_neg hspace]
        split at h
        · rename_i hquote
          obtain ⟨⟨body, length⟩, hbody, heq⟩ := Option.map_eq_some_iff.mp h
          obtain ⟨rfl, rfl⟩ := Prod.mk.inj heq
          rw [if_pos hquote, stringBody_of_append hbody (Nat.le_of_succ_le_succ hle)]
          rfl
        · rename_i hquote
          rw [if_neg hquote]
          split at h
          · rename_i hdigit
            rw [if_pos hdigit]
            exact number_of_append h hle
          · rename_i hdigit
            rw [if_neg hdigit]
            split at h
            · rename_i hword
              obtain ⟨rfl, rfl⟩ := Prod.mk.inj (Option.some.inj h)
              rw [← List.cons_append] at hle hword ⊢
              rw [← wordLength_of_append hle, if_pos hword, List.take_append_of_le_length hle]
            · rename_i hword
              obtain ⟨s, hsymbol, heq⟩ := Option.map_eq_some_iff.mp h
              obtain ⟨rfl, rfl⟩ := Prod.mk.inj heq
              rw [← List.cons_append] at hword hsymbol
              have hnone : ¬0 < wordLength (c :: rest) := by
                have hlength : wordLength (c :: rest ++ more) = wordLength (c :: rest) :=
                  wordLength_of_append (by omega)
                rw [← hlength]
                exact hword
              rw [if_neg hnone, symbol_of_append hsymbol hle]
              rfl

/-! ### Pieces -/

/-- What pieces are cut from. -/
def uncut (pieces : List (List Char × TokenKind)) : List Char := pieces.flatMap Prod.fst

theorem uncut_append (front back : List (List Char × TokenKind)) :
    uncut (front ++ back) = uncut front ++ uncut back :=
  List.flatMap_append

/-- Each piece is a token that is cut off in front of the others and of what is left. -/
def Pieces : (pieces : List (List Char × TokenKind)) → (left : List Char) → Prop
  | [], _ => True
  | (lexeme, kind) :: rest, left =>
    (lexeme ≠ [] ∧ scan (lexeme ++ (uncut rest ++ left)) = some (kind, lexeme.length)) ∧
      Pieces rest left

namespace Pieces

variable {front back pieces : List (List Char × TokenKind)} {left : List Char}

theorem append_iff : Pieces (front ++ back) left ↔
    Pieces front (uncut back ++ left) ∧ Pieces back left := by
  induction front with
  | nil => simp [Pieces]
  | cons piece rest ih =>
      simp only [List.cons_append, Pieces, ih, uncut_append, List.append_assoc, and_assoc]

/-- Pieces are cut off in front of any boundary. -/
theorem boundary (h : Pieces pieces left) {b : Char} (hb : IsBoundary b)
    (hspace : isSpace b = false) (more : List Char) : Pieces pieces (b :: more) := by
  induction pieces with
  | nil => trivial
  | cons piece rest ih =>
      obtain ⟨lexeme, kind⟩ := piece
      obtain ⟨⟨hne, hscan⟩, hrest⟩ := h
      refine ⟨⟨hne, ?_⟩, ih hrest⟩
      rw [← List.append_assoc] at hscan ⊢
      -- Without what is left the piece is still cut off, since the pieces behind it are kept.
      have hwithin : scan (lexeme ++ uncut rest) = some (kind, lexeme.length) := by
        refine scan_of_append (List.append_ne_nil_of_left_ne_nil hne _) hscan ?_
        rw [List.length_append]
        exact Nat.le_add_right _ _
      refine scan_boundary hwithin hb (fun hblank => ?_) more
      rw [hspace] at hblank
      cases hblank

/-- A symbol that no character can continue is a piece in front of anything. -/
theorem symbol (s : Symbol) (hends : ∀ c, (TokenKind.symbol s).endsAt c = true) (left : List Char) :
    Pieces [(s.text.toList, .symbol s)] left := by
  refine ⟨⟨?_, scan_symbol fun c _ => hends c⟩, trivial⟩
  cases s <;> decide

/-- Parentheses around some of the pieces of a text are pieces among the others. -/
theorem wrap {inner : List (List Char × TokenKind)} (h : Pieces (front ++ (inner ++ back)) []) :
    Pieces (front ++ ((['('], .symbol .leftParen) :: inner ++ (([')'], .symbol .rightParen) ::
      back))) [] := by
  obtain ⟨hfront, hinner, hback⟩ := (append_iff.trans (and_congr_right fun _ => append_iff)).mp h
  -- The closing parenthesis is put in front of the pieces behind it, then the opening one in front
  -- of the pieces inside; each bounds what stands before it.
  have hclose := append_iff.mpr ⟨symbol .rightParen (fun _ => rfl) (uncut back ++ []), hback⟩
  have hopen := append_iff.mpr ⟨symbol .leftParen (fun _ => rfl) _,
    append_iff.mpr ⟨hinner.boundary isBoundary_rightParen rfl (uncut back ++ []), hclose⟩⟩
  exact append_iff.mpr ⟨hfront.boundary isBoundary_leftParen rfl _, hopen⟩

/-- A text in pieces has the tokens that these are. -/
theorem exists_tokens (h : Pieces pieces []) (start : Position) :
    ∃ tokens, tokensFrom start (uncut pieces) = .ok tokens ∧
      tokens.map Token.kind = pieces.map Prod.snd ++ [.finish] := by
  induction pieces generalizing start with
  | nil => exact ⟨[⟨Range.point start, .finish⟩], by rw [uncut, List.flatMap_nil, tokensFrom], rfl⟩
  | cons piece rest ih =>
      obtain ⟨lexeme, kind⟩ := piece
      obtain ⟨⟨hne, hscan⟩, hrest⟩ := h
      obtain ⟨tokens, htokens, hkinds⟩ := ih hrest (start.advanceOver lexeme)
      rw [List.append_nil] at hscan
      refine ⟨⟨rangeOf kind start lexeme, kind⟩ :: tokens, ?_, by rw [List.map_cons, hkinds]; rfl⟩
      have hstep := tokensFrom_lexeme hne hscan start
      rw [htokens] at hstep
      exact hstep

end Pieces

/-- The tokens of a text are its pieces: what stands in front of one of them is cut into the tokens
in front of it. -/
theorem Cuts.exists_pieces {start : Position} {front others : List Token}
    (h : Cuts start chars (front ++ others)) (hne : others ≠ []) :
    ∃ pieces left, chars = uncut pieces ++ left ∧ Pieces pieces left ∧
      pieces.map Prod.snd = front.map Token.kind ∧
      Cuts (start.advanceOver (uncut pieces)) left others := by
  induction front generalizing start chars with
  | nil => exact ⟨[], chars, rfl, trivial, rfl, h⟩
  | cons t front ih =>
      rw [List.cons_append] at h
      -- The case split needs the tokens as a variable, since `front` is what the induction is on.
      generalize htokens : t :: (front ++ others) = tokens at h
      cases h with
      | finish =>
          obtain ⟨-, hnil⟩ := List.cons.inj htokens
          exact absurd (List.append_eq_nil_iff.mp hnil).2 hne
      | @token _ lexeme rest kind _ hlexeme hscan hothers =>
          obtain ⟨rfl, rfl⟩ := List.cons.inj htokens
          obtain ⟨pieces, left, rfl, hpieces, hkinds, hcuts⟩ := ih hothers
          refine ⟨(lexeme, kind) :: pieces, left, ?_, ⟨⟨hlexeme, hscan⟩, hpieces⟩, ?_, ?_⟩
          · rw [← List.append_assoc]
            rfl
          · rw [List.map_cons, List.map_cons, hkinds]
          · rw [← Position.advanceOver_append] at hcuts
            exact hcuts

/-- The first token stands at the beginning. -/
theorem Cuts.start_eq {start : Position} {tokens : List Token} (h : Cuts start chars tokens) :
    ∀ t ∈ tokens.head?, t.range.start = start := by
  intro t ht
  cases h with
  | finish =>
      cases ht
      rfl
  | token =>
      cases ht
      exact rangeOf_start ..

/-- In front of the end alone nothing is left. -/
theorem Cuts.eq_nil {start : Position} {t : Token} (h : Cuts start chars [t]) : chars = [] := by
  cases h with
  | finish => rfl
  | token _ _ hothers => cases hothers

/-- A text whose tokens stand in three groups is cut into three groups of pieces, and the tokens
begin where these do. -/
theorem Cuts.exists_groups {front inner back : List Token} {finish : Token}
    (h : Cuts Position.start chars (front ++ (inner ++ (back ++ [finish])))) :
    ∃ ps qs rs, chars = uncut ps ++ uncut qs ++ uncut rs ∧ Pieces (ps ++ (qs ++ rs)) [] ∧
      ps.map Prod.snd = front.map Token.kind ∧ qs.map Prod.snd = inner.map Token.kind ∧
      rs.map Prod.snd = back.map Token.kind ∧
      (∀ u ∈ (inner ++ (back ++ [finish])).head?,
        u.range.start.offset = Text.bytes (uncut ps)) ∧
      ∀ u ∈ (back ++ [finish]).head?, u.range.start.offset = Text.bytes (uncut ps ++ uncut qs) := by
  obtain ⟨ps, left, rfl, hps, hpkinds, hinner⟩ := h.exists_pieces (by simp)
  obtain ⟨qs, left', rfl, hqs, hqkinds, hback⟩ := hinner.exists_pieces (by simp)
  obtain ⟨rs, left'', rfl, hrs, hrkinds, hfinish⟩ := hback.exists_pieces (List.cons_ne_nil _ _)
  obtain rfl := hfinish.eq_nil
  -- Positions behind a text do not depend on how it was put together.
  have hplace (chars : List Char) : Position.start.advanceOver chars = Position.behind chars := by
    rw [← Position.behind_nil, Position.advanceOver_behind, List.nil_append]
  rw [hplace] at hinner hback
  rw [Position.advanceOver_behind] at hback
  rw [List.append_nil] at hps hqs
  refine ⟨ps, qs, rs, ?_, ?_, hpkinds, hqkinds, hrkinds, fun u hu => ?_, fun u hu => ?_⟩
  · rw [List.append_nil, List.append_assoc]
  · rw [Pieces.append_iff, Pieces.append_iff, uncut_append, List.append_nil, List.append_nil]
    exact ⟨hps, hqs, hrs⟩
  · exact congrArg Position.offset (hinner.start_eq u hu)
  · exact congrArg Position.offset (hback.start_eq u hu)

/-- A text in pieces is a stream of the tokens that these are. -/
theorem Pieces.exists_stream {pieces : List (List Char × TokenKind)} (h : Pieces pieces []) :
    ∃ s, TokenStream.ofText (String.ofList (uncut pieces)) = .ok s ∧
      s.ahead.map Token.kind = pieces.map Prod.snd := by
  obtain ⟨tokens, htokens, hkinds⟩ := h.exists_tokens Position.start
  obtain ⟨others, last, rfl, hlast⟩ := (cuts_of_tokensFrom htokens).exists_finish
  have htext : tokenizeAll (String.ofList (uncut pieces)) = .ok (others ++ [last]) := by
    rw [tokenizeAll, String.toList_ofList]
    exact htokens
  refine ⟨_, TokenStream.ofText_ok.mpr ⟨_, htext, rfl⟩, ?_⟩
  rw [TokenStream.ofTokens_concat hlast]
  rw [List.map_append] at hkinds
  exact List.append_inj_left' hkinds rfl

end Lexer

/-- A text with parentheses around the part that some of its tokens cover has these tokens with
parentheses around them. -/
theorem TokenStream.exists_wrapped {code : String} {s : TokenStream}
    (hcode : TokenStream.ofText code = .ok s) {front inner back : List Token}
    (hahead : s.ahead = front ++ (inner ++ back)) :
    ∃ a t b, code.toList = a ++ t ++ b ∧
      (∀ u ∈ (inner ++ back ++ [s.finish]).head?, u.range.start.offset = Text.bytes a) ∧
      (∀ u ∈ (back ++ [s.finish]).head?, u.range.start.offset = Text.bytes (a ++ t)) ∧
      ∃ s', TokenStream.ofText (String.ofList (a ++ '(' :: t ++ ')' :: b)) = .ok s' ∧
        s'.ahead.map Token.kind = front.map Token.kind ++ .symbol .leftParen ::
          inner.map Token.kind ++ .symbol .rightParen :: back.map Token.kind := by
  obtain ⟨tokens, htokens, rfl⟩ := TokenStream.ofText_ok.mp hcode
  have hcuts := Lexer.cuts_of_tokensFrom htokens
  obtain ⟨body, finish, rfl, hfinish⟩ := hcuts.exists_finish
  rw [TokenStream.ofTokens_concat hfinish] at hahead ⊢
  obtain rfl : body = front ++ (inner ++ back) := hahead
  rw [List.append_assoc, List.append_assoc] at hcuts
  obtain ⟨ps, qs, rs, hchars, hpieces, hpkinds, hqkinds, hrkinds, hstart, hstop⟩ :=
    hcuts.exists_groups
  obtain ⟨s', hs', hkinds⟩ := hpieces.wrap.exists_stream
  refine ⟨Lexer.uncut ps, Lexer.uncut qs, Lexer.uncut rs, hchars, ?_, hstop, s', ?_, ?_⟩
  · rw [List.append_assoc]
    exact hstart
  · rw [← hs']
    congr 2
    simp [Lexer.uncut]
  · rw [hkinds]
    simp [hpkinds, hqkinds, hrkinds]

end DocQuery
