import DocQuery.Proofs.Scanning
import Mathlib.Data.List.Find
import Mathlib.Data.Option.Basic
/-!
# DocQuery.Proofs.Boundary

Some characters are boundaries for the scanner (`Lexer.IsBoundary`): blanks and parentheses. No
token goes on over one but the blanks themselves over a blank, so what the scanner finds in front
of it does not depend on what stands behind it (`Lexer.scan_boundary`); between quotes it is the
closing quote that is the boundary (`Lexer.stringBody_append`). What is found also lies within the
text (`Lexer.scan_le`).
-/

namespace DocQuery

namespace Lexer

variable {p : Char → Bool} {b : Char} {chars more : List Char}

/-! ### Runs of characters -/

theorem span_le (p : Char → Bool) (chars : List Char) : span p chars ≤ chars.length :=
  (List.takeWhile_sublist p).length_le

/-- A run that ends within a text ends there whatever follows the text. -/
theorem span_append_of_lt (h : span p chars < chars.length) (more : List Char) :
    span p (chars ++ more) = span p chars := by
  unfold span at h ⊢
  rw [List.takeWhile_append, if_neg (Nat.ne_of_lt h)]

theorem span_le_append (p : Char → Bool) (chars more : List Char) :
    span p chars ≤ span p (chars ++ more) := by
  by_cases h : span p chars < chars.length
  · rw [span_append_of_lt h]
  · -- The run covers the text, so it may go on in what follows.
    have hle := span_le p chars
    have hall : (chars.takeWhile p).length = chars.length := by
      unfold span at h hle
      omega
    unfold span
    rw [List.takeWhile_append, if_pos hall, List.length_append, hall]
    exact Nat.le_add_right _ _

/-- A run does not go on over a character that is not in its class. -/
theorem span_boundary (h : p b = false) (chars more : List Char) :
    span p (chars ++ b :: more) = span p chars := by
  unfold span
  rw [List.takeWhile_append]
  split
  · rename_i hall
    rw [List.takeWhile_cons, h, if_neg Bool.false_ne_true, List.append_nil, hall]
  · rfl

/-- No number, no word and no symbol that begins in front of the character goes on over it. -/
structure IsBoundary (b : Char) : Prop where
  digit : b.isDigit = false
  word : Text.isWordPart b = false
  period : b ≠ '.'
  sign : ¬(b = '+' ∨ b = '-')
  dollar : b ≠ '$'
  symbol : ∀ s : Symbol, b ∉ s.text.toList.tail

theorem isBoundary_blank : IsBoundary ' ' :=
  ⟨rfl, rfl, by decide, by decide, by decide, fun s => by cases s <;> decide⟩

theorem isBoundary_leftParen : IsBoundary '(' :=
  ⟨rfl, rfl, by decide, by decide, by decide, fun s => by cases s <;> decide⟩

theorem isBoundary_rightParen : IsBoundary ')' :=
  ⟨rfl, rfl, by decide, by decide, by decide, fun s => by cases s <;> decide⟩

/-- What a token of this kind shows is what it is cut from, blanks and quoted text apart. -/
def Shows (kind : TokenKind) (lexeme : List Char) : Prop :=
  match kind with
  | .space _ | .string _ => True
  | .finish => False
  | kind => kind.text.toList = lexeme

/-! ### Numbers and words

Three facts for each part of the scanner: that it stays within the text, that it does not go on over
a boundary, and for whole tokens that they show what they are cut from. Each part is looked for
behind the one before, so the facts on a number are put together from those on digits, fraction and
exponent. -/

theorem fractionLength_of_ne {c : Char} (h : c ≠ '.') (rest : List Char) :
    fractionLength (c :: rest) = 0 := by
  unfold fractionLength
  split
  · rename_i heq
    exact absurd (List.cons.inj heq).1 h
  · rfl

theorem fractionLength_le (chars : List Char) : fractionLength chars ≤ chars.length := by
  cases chars with
  | nil => exact Nat.le_refl _
  | cons c rest =>
      by_cases hc : c = '.'
      · subst hc
        have hle := span_le Char.isDigit rest
        simp only [fractionLength, List.length_cons]
        split <;> omega
      · rw [fractionLength_of_ne hc]
        exact Nat.zero_le _

theorem fractionLength_boundary (hb : IsBoundary b) (chars more : List Char) :
    fractionLength (chars ++ b :: more) = fractionLength chars := by
  cases chars with
  | nil => exact fractionLength_of_ne hb.period more
  | cons c rest =>
      rw [List.cons_append]
      by_cases hc : c = '.'
      · subst hc
        simp only [fractionLength, span_boundary hb.digit]
      · rw [fractionLength_of_ne hc, fractionLength_of_ne hc]

theorem powerLength_le (chars : List Char) : powerLength chars ≤ chars.length := by
  cases chars with
  | nil => exact Nat.le_refl _
  | cons c rest =>
      have hle := span_le Char.isDigit rest
      have hle' := span_le Char.isDigit (c :: rest)
      simp only [powerLength, List.length_cons] at hle' ⊢
      split <;> split <;> omega

theorem powerLength_boundary (hb : IsBoundary b) (chars more : List Char) :
    powerLength (chars ++ b :: more) = powerLength chars := by
  cases chars with
  | nil =>
      have hnone : span Char.isDigit (b :: more) = 0 := span_boundary hb.digit [] more
      simp only [List.nil_append, powerLength, if_neg hb.sign, hnone, if_true]
  | cons c rest =>
      have hrest := span_boundary hb.digit rest more
      have hall := span_boundary hb.digit (c :: rest) more
      rw [List.cons_append] at hall
      simp only [powerLength, List.cons_append]
      split
      · rw [hrest]
      · rw [hall]

theorem exponentLength_le (chars : List Char) : exponentLength chars ≤ chars.length := by
  cases chars with
  | nil => exact Nat.le_refl _
  | cons c rest =>
      have hle := powerLength_le rest
      simp only [exponentLength, List.length_cons]
      split
      · split <;> omega
      · exact Nat.zero_le _

theorem exponentLength_boundary (hb : IsBoundary b) (chars more : List Char) :
    exponentLength (chars ++ b :: more) = exponentLength chars := by
  cases chars with
  | nil =>
      have hletter : ¬(b = 'e' ∨ b = 'E') := by
        have hword := hb.word
        rintro (rfl | rfl) <;> cases hword
      simp only [List.nil_append, exponentLength, if_neg hletter]
  | cons c rest => simp only [List.cons_append, exponentLength, powerLength_boundary hb]

/-- The parts of a number lie within the text. -/
theorem number_le_length (chars : List Char) :
    span Char.isDigit chars + fractionLength (chars.drop (span Char.isDigit chars)) +
      exponentLength (chars.drop (span Char.isDigit chars +
        fractionLength (chars.drop (span Char.isDigit chars)))) ≤ chars.length := by
  have hwhole := span_le Char.isDigit chars
  have hfraction := fractionLength_le (chars.drop (span Char.isDigit chars))
  have hexponent := exponentLength_le (chars.drop (span Char.isDigit chars +
    fractionLength (chars.drop (span Char.isDigit chars))))
  rw [List.length_drop] at hfraction hexponent
  omega

theorem number_le {kind : TokenKind} {count : Nat} (h : number? chars = some (kind, count)) :
    count ≤ chars.length := by
  unfold number? at h
  extract_lets whole fraction exponent length text at h
  split at h
  · cases h
  · obtain ⟨-, hcount⟩ := Prod.mk.inj (Option.some.inj h)
    rw [← hcount]
    exact number_le_length chars

theorem number_shows {kind : TokenKind} {count : Nat} (h : number? chars = some (kind, count)) :
    Shows kind (chars.take count) := by
  unfold number? at h
  extract_lets whole fraction exponent length text at h
  split at h
  · cases h
  · obtain ⟨hkind, hcount⟩ := Prod.mk.inj (Option.some.inj h)
    have htext : text.toList = chars.take count := by
      unfold text
      rw [String.toList_ofList, hcount]
    rw [← hkind]
    split
    · exact htext
    · exact htext

theorem number_boundary (hb : IsBoundary b) (chars more : List Char) :
    number? (chars ++ b :: more) = number? chars := by
  have hlength := number_le_length chars
  -- What is left behind the digits is the same text in front of the same boundary.
  have hwhole : (chars ++ b :: more).drop (span Char.isDigit chars) =
      chars.drop (span Char.isDigit chars) ++ b :: more :=
    List.drop_append_of_le_length (span_le ..)
  have hfraction : (chars ++ b :: more).drop (span Char.isDigit chars +
        fractionLength (chars.drop (span Char.isDigit chars))) =
      chars.drop (span Char.isDigit chars +
        fractionLength (chars.drop (span Char.isDigit chars))) ++ b :: more :=
    List.drop_append_of_le_length (by omega)
  simp only [number?, span_boundary hb.digit, hwhole, fractionLength_boundary hb, hfraction,
    exponentLength_boundary hb, List.take_append_of_le_length hlength]

theorem bareLength_le (chars : List Char) : bareLength chars ≤ chars.length := by
  cases chars with
  | nil => exact Nat.le_refl _
  | cons c rest =>
      have hle := span_le Text.isWordPart rest
      simp only [bareLength, List.length_cons]
      split <;> omega

theorem bareLength_boundary (hb : IsBoundary b) (chars more : List Char) :
    bareLength (chars ++ b :: more) = bareLength chars := by
  cases chars with
  | nil =>
      -- The boundary begins no word either, since words go on with all that they begin with.
      have hstart : Text.isWordStart b = false := by
        refine Bool.eq_false_iff.mpr fun hstart => ?_
        have hword := hb.word
        rw [isWordPart_of_isWordStart hstart] at hword
        cases hword
      simp [bareLength, hstart]
  | cons c rest => simp only [List.cons_append, bareLength, span_boundary hb.word]

theorem wordLength_dollar (rest : List Char) :
    wordLength ('$' :: rest) = if bareLength rest = 0 then 0 else bareLength rest + 1 := rfl

theorem wordLength_le (chars : List Char) : wordLength chars ≤ chars.length := by
  cases chars with
  | nil => exact Nat.le_refl _
  | cons c rest =>
      by_cases hc : c = '$'
      · subst hc
        have hle := bareLength_le rest
        rw [wordLength_dollar, List.length_cons]
        split <;> omega
      · rw [wordLength_of_ne hc]
        exact bareLength_le _

theorem wordLength_boundary (hb : IsBoundary b) (chars more : List Char) :
    wordLength (chars ++ b :: more) = wordLength chars := by
  cases chars with
  | nil =>
      rw [List.nil_append, wordLength_of_ne hb.dollar]
      exact bareLength_boundary hb [] more
  | cons c rest =>
      rw [List.cons_append]
      by_cases hc : c = '$'
      · subst hc
        rw [wordLength_dollar, wordLength_dollar, bareLength_boundary hb]
      · rw [wordLength_of_ne hc, wordLength_of_ne hc, ← List.cons_append, bareLength_boundary hb]

/-! ### Symbols -/

theorem symbol_starts {s : Symbol} (h : symbol? chars = some s) : s.text.toList <+: chars := by
  have hprefix := List.find?_some h
  exact List.isPrefixOf_iff_prefix.mp hprefix

/-- A symbol that begins in front of a boundary ends there. -/
theorem prefix_boundary (hb : IsBoundary b) (hne : chars ≠ []) (s : Symbol) :
    s.text.toList <+: chars ++ b :: more ↔ s.text.toList <+: chars := by
  constructor
  · intro hlong
    have hfront : chars ++ [b] <+: chars ++ b :: more := ⟨more, by simp⟩
    by_cases hle : s.text.toList.length ≤ chars.length
    · exact List.prefix_of_prefix_length_le hlong (List.prefix_append _ _) hle
    · -- A longer spelling would hold the boundary behind its first character.
      have hover : chars ++ [b] <+: s.text.toList :=
        List.prefix_of_prefix_length_le hfront hlong (by simp; omega)
      obtain ⟨others, hothers⟩ := hover
      refine absurd ?_ (hb.symbol s)
      cases chars with
      | nil => exact absurd rfl hne
      | cons c rest =>
          rw [← hothers]
          simp
  · intro hshort
    exact hshort.trans (List.prefix_append _ _)

theorem symbol_boundary (hb : IsBoundary b) (hne : chars ≠ []) (more : List Char) :
    symbol? (chars ++ b :: more) = symbol? chars := by
  unfold symbol?
  refine List.find?_congr fun s _ => ?_
  rw [Bool.eq_iff_iff, List.isPrefixOf_iff_prefix, List.isPrefixOf_iff_prefix,
    prefix_boundary hb hne]

/-! ### Quoted text -/

theorem codePoint_of_ne {c : Char} (h : c ≠ '\x7b') (rest : List Char) :
    codePoint? (c :: rest) = (do
      guard (4 ≤ span isHexDigit (c :: rest))
      let d ← charOfNumber? (← Bytes.hexNumber? ((c :: rest).take 4))
      return (d, 4)) := by
  unfold codePoint?
  split
  · rename_i heq
    exact absurd (List.cons.inj heq).1 h
  · rfl

/-- The name of a character ends where it ends, whatever follows. -/
theorem codePoint_append {d : Char} {count : Nat} (h : codePoint? chars = some (d, count))
    (more : List Char) : codePoint? (chars ++ more) = some (d, count) ∧ count ≤ chars.length := by
  cases chars with
  | nil => cases h
  | cons c rest =>
      rw [List.cons_append]
      by_cases hc : c = '\x7b'
      · subst hc
        simp only [codePoint?] at h ⊢
        obtain ⟨u, hguard, hchar⟩ := Option.bind_eq_some_iff.mp h
        obtain ⟨hpos, hbrace⟩ := (Option.guard_eq_some' u).mp hguard
        obtain ⟨hlt, -⟩ := List.getElem?_eq_some_iff.mp hbrace
        -- The brace ends the digits, or six of them stand in front of it: what follows adds none.
        have hcount : min (span isHexDigit (rest ++ more)) 6 = min (span isHexDigit rest) 6 := by
          by_cases hspan : span isHexDigit rest < rest.length
          · rw [span_append_of_lt hspan]
          · have hle := span_le_append isHexDigit rest more
            omega
        rw [hcount, List.getElem?_append_left hlt, List.take_append_of_le_length (Nat.le_of_lt hlt)]
        refine ⟨h, ?_⟩
        obtain ⟨n, -, hn⟩ := Option.bind_eq_some_iff.mp hchar
        obtain ⟨e, -, he⟩ := Option.bind_eq_some_iff.mp hn
        obtain ⟨-, rfl⟩ := Prod.mk.inj (Option.some.inj he)
        rw [List.length_cons]
        omega
      · rw [codePoint_of_ne hc] at h ⊢
        obtain ⟨u, hguard, hchar⟩ := Option.bind_eq_some_iff.mp h
        have hfour := (Option.guard_eq_some' u).mp hguard
        have hle := span_le isHexDigit (c :: rest)
        have hle' := span_le_append isHexDigit (c :: rest) more
        rw [List.cons_append] at hle'
        have hlong : 4 ≤ span isHexDigit (c :: (rest ++ more)) := Nat.le_trans hfour hle'
        have htake : (c :: (rest ++ more)).take 4 = (c :: rest).take 4 :=
          List.take_append_of_le_length (Nat.le_trans hfour hle)
        refine ⟨?_, ?_⟩
        · rw [htake]
          simp only [hfour, hlong] at h ⊢
          exact h
        · obtain ⟨n, -, hn⟩ := Option.bind_eq_some_iff.mp hchar
          obtain ⟨e, -, he⟩ := Option.bind_eq_some_iff.mp hn
          obtain ⟨-, rfl⟩ := Prod.mk.inj (Option.some.inj he)
          exact Nat.le_trans hfour hle

theorem escape_append {d : Char} {count : Nat} (h : escape? chars = some (d, count))
    (more : List Char) : escape? (chars ++ more) = some (d, count) ∧ count ≤ chars.length := by
  unfold escape? at h
  split at h
  -- A character named by its number; all other escapes are one letter.
  case h_10 =>
    rename_i rest
    obtain ⟨⟨e, length⟩, hpoint, heq⟩ := Option.map_eq_some_iff.mp h
    obtain ⟨hmore, hle⟩ := codePoint_append hpoint more
    obtain ⟨rfl, rfl⟩ := Prod.mk.inj heq
    refine ⟨?_, Nat.succ_le_succ hle⟩
    simp only [List.cons_append, escape?, hmore, Option.map_some]
  case h_11 => cases h
  all_goals
    obtain ⟨rfl, rfl⟩ := Prod.mk.inj (Option.some.inj h)
    exact ⟨rfl, Nat.succ_le_succ (Nat.zero_le _)⟩

/-- Quoted text ends with its quote, whatever follows. -/
theorem stringBody_append {quote : Char} {body : List Char} {length : Nat}
    (h : stringBody? quote chars = some (body, length)) (more : List Char) :
    stringBody? quote (chars ++ more) = some (body, length) ∧ length ≤ chars.length := by
  fun_induction stringBody? quote chars generalizing body length with
  | case1 => cases h
  | case2 rest =>
      obtain ⟨rfl, rfl⟩ := Prod.mk.inj (Option.some.inj h)
      rw [List.cons_append, stringBody?, if_pos rfl]
      exact ⟨rfl, Nat.succ_le_succ (Nat.zero_le _)⟩
  | case3 rest hquote =>
      rename_i ih
      obtain ⟨⟨d, count⟩, hescape, hbind⟩ := Option.bind_eq_some_iff.mp h
      obtain ⟨⟨body', length'⟩, hbody, heq⟩ := Option.bind_eq_some_iff.mp hbind
      obtain ⟨rfl, rfl⟩ := Prod.mk.inj (Option.some.inj heq)
      -- The escape is read in full, and the rest of the string behind it.
      obtain ⟨hescape', hcount⟩ := escape_append hescape more
      obtain ⟨hbody', hlength⟩ := ih count hbody
      rw [← List.drop_append_of_le_length hcount] at hbody'
      rw [List.length_drop] at hlength
      refine ⟨?_, ?_⟩
      · rw [List.cons_append, stringBody?, if_neg hquote, if_pos rfl]
        simp only [hescape', hbody', Option.bind_eq_bind, Option.bind_some]
        rfl
      · rw [List.length_cons]
        omega
  | case4 c rest hquote hbackslash =>
      rename_i ih
      obtain ⟨⟨body', length'⟩, hbody, heq⟩ := Option.bind_eq_some_iff.mp h
      obtain ⟨rfl, rfl⟩ := Prod.mk.inj (Option.some.inj heq)
      obtain ⟨hbody', hlength⟩ := ih hbody
      refine ⟨?_, Nat.succ_le_succ hlength⟩
      rw [List.cons_append, stringBody?, if_neg hquote, if_neg hbackslash, hbody']
      rfl

/-! ### One token

`Lexer.found_of_scan` has a case for each branch of the scanner, and the lemmas above settle each of
them. -/

/-- What is found lies within the text. -/
theorem scan_le {kind : TokenKind} {count : Nat} (h : scan chars = some (kind, count)) :
    count ≤ chars.length := by
  cases found_of_scan h with
  | space rest _ => exact Nat.succ_le_succ (span_le ..)
  | string hbody => exact Nat.succ_le_succ (stringBody_append hbody []).2
  | number _ hnumber => exact number_le hnumber
  | word _ => exact wordLength_le _
  | symbol hsymbol => exact (symbol_starts hsymbol).length_le

/-- What is found shows the characters it reaches over. -/
theorem scan_shows {kind : TokenKind} {count : Nat} (h : scan chars = some (kind, count)) :
    Shows kind (chars.take count) := by
  cases found_of_scan h with
  | space | string => trivial
  | number _ hnumber => exact number_shows hnumber
  | word _ => exact String.toList_ofList
  | symbol hsymbol => exact List.prefix_iff_eq_take.mp (symbol_starts hsymbol)

/-- What is found in front of a boundary does not depend on what stands behind it, unless blanks
are found up to a blank. -/
theorem scan_boundary {kind : TokenKind} {count : Nat} (h : scan chars = some (kind, count))
    (hb : IsBoundary b) (hall : isSpace b = true → chars.all isSpace = false) (more : List Char) :
    scan (chars ++ b :: more) = some (kind, count) := by
  cases chars with
  | nil => cases h
  | cons c rest =>
      rw [← h, List.cons_append, scan, scan]
      dsimp only
      split
      · rename_i hspace
        cases hblank : isSpace b with
        | false => rw [span_boundary hblank]
        | true =>
            -- Something else than blanks is left, so they end within the text.
            have hlt : span isSpace rest < rest.length := by
              refine Nat.lt_of_le_of_ne (span_le ..) fun heq => ?_
              have hsome := hall hblank
              rw [List.all_cons, hspace, Bool.true_and] at hsome
              have hrest := all_take_span isSpace rest
              rw [heq, List.take_length, hsome] at hrest
              cases hrest
            rw [span_append_of_lt hlt]
      · rename_i hspace
        split
        · rename_i hquote
          -- A string has been found, so its closing quote stands within the text.
          rw [scan, if_neg hspace, if_pos hquote] at h
          obtain ⟨⟨body, length⟩, hbody, -⟩ := Option.map_eq_some_iff.mp h
          rw [hbody, (stringBody_append hbody _).1]
        · rw [← List.cons_append]
          -- Numbers, words and symbols do not go on over a boundary.
          split
          · exact number_boundary hb ..
          · rw [wordLength_boundary hb, symbol_boundary hb (List.cons_ne_nil c rest),
              List.take_append_of_le_length (wordLength_le _)]

/-- Blanks are found together. -/
theorem scan_all (hne : chars ≠ []) (hall : chars.all isSpace = true)
    (hmore : ∀ c ∈ more.head?, isSpace c = false) :
    scan (chars ++ more) = some (.space chars.length, chars.length) := by
  cases chars with
  | nil => exact absurd rfl hne
  | cons c rest =>
      rw [List.all_cons, Bool.and_eq_true] at hall
      rw [List.cons_append, scan, if_pos hall.1, span_append hall.2 hmore]
      rfl

/-! ### All the tokens

The scanner begins anew behind each token, so what holds of one token in front of a boundary is
carried along all of them, to the last one. -/

/-- A token that is found in front of a text stands in front of its tokens. -/
theorem tokensFrom_lexeme {lexeme rest : List Char} {kind : TokenKind} (hne : lexeme ≠ [])
    (h : scan (lexeme ++ rest) = some (kind, lexeme.length)) (start : Position) :
    tokensFrom start (lexeme ++ rest) =
      (tokensFrom (start.advanceOver lexeme) rest).map fun others =>
        ⟨rangeOf kind start lexeme, kind⟩ :: others := by
  cases lexeme with
  | nil => exact absurd rfl hne
  | cons c others =>
      rw [List.cons_append, List.length_cons] at h
      -- The token takes its own characters and leaves the others.
      have htake : (c :: (others ++ rest)).take (others.length + 1) = c :: others := by
        rw [List.take_succ_cons, List.take_left]
      rw [List.cons_append, tokensFrom, h]
      dsimp only
      rw [htake, List.drop_left]
      rfl

/-- A text that stands at `start` is cut into these tokens: one after the other is found in front
of what is left. -/
inductive Cuts : (start : Position) → (chars : List Char) → (tokens : List Token) → Prop
  | finish (start : Position) : Cuts start [] [⟨Range.point start, .finish⟩]
  | token {start : Position} {lexeme rest : List Char} {kind : TokenKind} {others : List Token}
      (hne : lexeme ≠ []) (hscan : scan (lexeme ++ rest) = some (kind, lexeme.length))
      (hothers : Cuts (start.advanceOver lexeme) rest others) :
      Cuts start (lexeme ++ rest) (⟨rangeOf kind start lexeme, kind⟩ :: others)

/-- The tokens of a text are cut off it one after the other. -/
theorem cuts_of_tokensFrom {start : Position} {tokens : List Token}
    (h : tokensFrom start chars = .ok tokens) : Cuts start chars tokens := by
  fun_induction tokensFrom start chars generalizing tokens with
  | case1 start =>
      cases h
      exact .finish start
  | case2 start c rest kind count hscan lexeme =>
      rename_i ih
      cases hothers : tokensFrom (start.advanceOver lexeme) (rest.drop count) with
      | error e =>
          rw [hothers] at h
          cases h
      | ok others =>
          rw [hothers] at h
          cases h
          have hlength : lexeme.length = count.succ := List.length_take_of_le (scan_le hscan)
          have hchars : lexeme ++ rest.drop count = c :: rest := List.take_append_drop ..
          rw [← hchars, ← hlength] at hscan
          rw [← hchars]
          exact .token (List.cons_ne_nil _ _) hscan (ih hothers)
  | case3 => cases h

/-- Where nothing is left there is the end alone. -/
theorem Cuts.eq_of_nil {start : Position} {tokens : List Token} (h : Cuts start chars tokens)
    (hchars : chars = []) : tokens = [⟨Range.point start, .finish⟩] := by
  cases h with
  | finish => rfl
  | token hne => exact absurd (List.append_eq_nil_iff.mp hchars).1 hne

/-- The blanks at the end of a text and one more are one token. -/
theorem tokensFrom_gap (start : Position) {gap : List Char} (hgap : gap.all isSpace = true)
    (hmore : ∀ c ∈ more.head?, isSpace c = false) :
    ∃ blank : Token, blank.isSpace = true ∧ tokensFrom start (gap ++ ' ' :: more) =
      (tokensFrom (start.advanceOver (gap ++ [' '])) more).map fun others => blank :: others := by
  have hne : gap ++ [' '] ≠ [] := by simp
  have hall : (gap ++ [' ']).all isSpace = true := by
    rw [List.all_append, hgap]
    rfl
  -- Blanks are found together, up to what is no blank.
  have hstep := tokensFrom_lexeme hne (scan_all hne hall hmore) start
  rw [List.append_assoc, List.singleton_append] at hstep
  exact ⟨_, rfl, hstep⟩

/-- The tokens in front of a blank do not depend on what stands behind it. The blank goes with
those that end the text, if there are any. -/
theorem Cuts.blank {start : Position} {tokens : List Token} (h : Cuts start chars tokens)
    (hmore : ∀ c ∈ more.head?, isSpace c = false) :
    ∃ body gap finish blank, tokens = body ++ gap ++ [finish] ∧
      (∀ t ∈ body, t.isFinish = false) ∧ (∀ t ∈ gap, t.isSpace = true) ∧
      finish.isFinish = true ∧ blank.isSpace = true ∧
      tokensFrom start (chars ++ ' ' :: more) =
        (tokensFrom (start.advanceOver (chars ++ [' '])) more).map fun others =>
          body ++ blank :: others := by
  induction h with
  | finish start =>
      have hnone : ([] : List Char).all isSpace = true := rfl
      obtain ⟨blank, hblank, htokens⟩ := tokensFrom_gap start hnone hmore
      exact ⟨[], [], _, blank, rfl, List.forall_mem_nil _, List.forall_mem_nil _, rfl, hblank,
        htokens⟩
  | @token start lexeme rest kind others hne hscan hothers ih =>
      by_cases hall : (lexeme ++ rest).all isSpace = true
      · -- Nothing but blanks is left, so they are one token and the blank goes with them.
        obtain ⟨blank, hblank, htokens⟩ := tokensFrom_gap start hall hmore
        have hempty : ∀ c ∈ ([] : List Char).head?, isSpace c = false := by simp
        have hone := scan_all (List.append_ne_nil_of_left_ne_nil hne rest) hall hempty
        rw [List.append_nil, hscan] at hone
        obtain ⟨hkind, hlength⟩ := Prod.mk.inj (Option.some.inj hone)
        have hrest : rest = [] := by
          rw [List.length_append] at hlength
          exact List.length_eq_zero_iff.mp (by omega)
        rw [hothers.eq_of_nil hrest, hkind]
        exact ⟨[], [_], _, blank, rfl, List.forall_mem_nil _, List.forall_mem_singleton.mpr rfl,
          rfl, hblank, htokens⟩
      · -- Something that is no blank is left, so the first token ends where it did, and the blank
        -- is further on.
        rw [Bool.not_eq_true] at hall
        obtain ⟨body, gap, finish, blank, rfl, hbody, hgap, hfinish, hblank, htokens⟩ := ih
        have hscan' := scan_boundary hscan isBoundary_blank (fun _ => hall) more
        rw [List.append_assoc] at hscan'
        have hstep := tokensFrom_lexeme hne hscan' start
        have hfirst : Token.isFinish ⟨rangeOf kind start lexeme, kind⟩ = false := by
          have hshows := scan_shows hscan
          cases kind with
          | finish => exact hshows.elim
          | _ => rfl
        refine ⟨_ :: body, gap, finish, blank, rfl, List.forall_mem_cons.mpr ⟨hfirst, hbody⟩, hgap,
          hfinish, hblank, ?_⟩
        rw [List.append_assoc, hstep, htokens, List.append_assoc, Position.advanceOver_append start]
        cases tokensFrom ((start.advanceOver lexeme).advanceOver (rest ++ [' '])) more <;> rfl

end Lexer

end DocQuery
