import DocQuery.Proofs.Spelling
/-!
# DocQuery.Proofs.Scanning

Tokens as they are written, and the scanner. A token that is written as canonical text writes it
(`TokenKind.IsWritten`) is cut off whole where what follows does not go on with it
(`Lexer.scan_written`). The other way round, the words and numbers that the scanner cuts off a
text are such as a text can hold (`Lexer.isProper_of_scan`).
-/

namespace DocQuery

namespace TokenKind

/-- How the token is written in canonical text. -/
def written : TokenKind → List Char
  | .symbol s => s.text.toList
  | .int text | .double text | .word text => text.toList
  | .string value => Text.quoted value.toList
  | .space count => List.replicate count ' '
  | .finish => []

/-- One digit or more, and nothing else. -/
def AreDigits (chars : List Char) : Prop := chars ≠ [] ∧ chars.all Char.isDigit = true

/-- A period and digits, or nothing. -/
def IsFraction (chars : List Char) : Prop :=
  chars = [] ∨ ∃ places, chars = '.' :: places ∧ AreDigits places

/-- An exponent with its sign, or nothing. -/
def IsPower (chars : List Char) : Prop :=
  chars = [] ∨ ∃ sign digits, chars = 'e' :: sign :: digits ∧ (sign = '+' ∨ sign = '-') ∧
    AreDigits digits

/-- Digits with a fraction or an exponent behind them, or both. -/
def IsNumeral (chars : List Char) : Prop :=
  ∃ whole fraction power, chars = whole ++ (fraction ++ power) ∧ AreDigits whole ∧
    IsFraction fraction ∧ IsPower power ∧ fraction ++ power ≠ []

/-- The text of the token is one that a token of its kind can have. -/
def IsWritten : TokenKind → Prop
  | .word text => Text.isWord text = true
  | .int text => AreDigits text.toList
  | .double text => IsNumeral text.toList
  | .space count => 0 < count
  | .symbol _ | .string _ => True
  | .finish => False

/-- The token does not go on with this character. -/
def endsAt : TokenKind → Char → Bool
  | .word _, c => !Text.isWordPart c
  | .int _, c | .double _, c => !Text.isWordPart c && c != '.'
  | .space _, c => !Lexer.isSpace c
  | .symbol .dollar, c => !Text.isWordStart c
  | .symbol .equal, c => c != '>'
  | .symbol .greater, c | .symbol .less, c => c != '='
  | _, _ => true

end TokenKind

namespace Lexer

/-- A run ends where its class does. -/
theorem span_append {p : Char → Bool} {a b : List Char} (ha : a.all p = true)
    (hb : ∀ c ∈ b.head?, p c = false) : span p (a ++ b) = a.length := by
  have hnil : b.takeWhile p = [] := by
    cases b with
    | nil => rfl
    | cons c rest => rw [List.takeWhile_cons, hb c rfl, if_neg Bool.false_ne_true]
  rw [span, List.takeWhile_append_of_pos (List.all_eq_true.mp ha), hnil, List.append_nil]

/-! ### One token

One lemma for each kind of token: written out, and in front of a character that it does not go on
with, it is the next token. The scanner tries blanks, quotes, digits, words and symbols in this
order, so each lemma rules out the branches in front of its own by the first character. -/

theorem isDigit_of_isWordPart {c : Char} (h : c.isDigit = true) : Text.isWordPart c = true := by
  simp [Text.isWordPart, Char.isAlphanum, h]

theorem isWordPart_of_isWordStart {c : Char} (h : Text.isWordStart c = true) :
    Text.isWordPart c = true := by
  unfold Text.isWordStart at h
  unfold Text.isWordPart Char.isAlphanum
  cases hc : c.isAlpha with
  | true => rfl
  | false =>
      rw [hc, Bool.false_or] at h
      rw [h, Bool.or_true]

theorem bareLength_eq_zero {chars : List Char}
    (h : ∀ c ∈ chars.head?, Text.isWordStart c = false) : bareLength chars = 0 := by
  cases chars with
  | nil => rfl
  | cons c rest => rw [bareLength, h c rfl, if_neg Bool.false_ne_true]

/-- A word is a letter or an underscore and what words go on with, perhaps behind a sign. -/
theorem exists_of_isWord {word : String} (h : Text.isWord word = true) :
    ∃ c others, Text.isWordStart c = true ∧ others.all Text.isWordPart = true ∧
      (word.toList = c :: others ∨ word.toList = '$' :: c :: others) := by
  unfold Text.isWord at h
  extract_lets bare at h
  -- A dollar sign is left out of what is checked, and nothing else is.
  have hbare : word.toList = bare ∨ word.toList = '$' :: bare := by
    unfold bare
    split
    · rename_i rest heq
      exact .inr heq
    · exact .inl rfl
  cases hchars : bare with
  | nil =>
      rw [hchars] at h
      cases h
  | cons c others =>
      rw [hchars] at h hbare
      obtain ⟨hstart, hall⟩ := Bool.and_eq_true_iff.mp h
      exact ⟨c, others, hstart, hall, hbare⟩

theorem wordLength_of_ne {c : Char} {rest : List Char} (h : c ≠ '$') :
    wordLength (c :: rest) = bareLength (c :: rest) := by
  unfold wordLength
  split
  · rename_i heq
    exact absurd (List.cons.inj heq).1 h
  · rfl

/-- Where it ends, a word is counted in full. -/
theorem wordLength_append {word : String} {rest : List Char} (hword : Text.isWord word = true)
    (hrest : ∀ c ∈ rest.head?, Text.isWordPart c = false) :
    wordLength (word.toList ++ rest) = word.toList.length := by
  obtain ⟨c, others, hstart, hall, hchars⟩ := exists_of_isWord hword
  have hbare : bareLength (c :: (others ++ rest)) = others.length + 1 := by
    rw [bareLength, if_pos hstart, span_append hall hrest]
  -- With a dollar sign in front, the sign counts too.
  rcases hchars with hchars | hchars
  · have hc : c ≠ '$' := by
      rintro rfl
      cases hstart
    rw [hchars, List.cons_append, wordLength_of_ne hc, hbare, List.length_cons]
  · rw [hchars, List.cons_append, List.cons_append]
    change (if bareLength (c :: (others ++ rest)) = 0 then 0
      else bareLength (c :: (others ++ rest)) + 1) = _
    rw [hbare]
    rfl

theorem isSpace_of_isWordStart {c : Char} (h : Text.isWordStart c = true) : isSpace c = false := by
  rw [Bool.eq_false_iff]
  intro hspace
  simp only [isSpace, Bool.or_eq_true, beq_iff_eq] at hspace
  rcases hspace with ((rfl | rfl) | rfl) | rfl <;> cases h

theorem isDigit_of_isWordStart {c : Char} (h : Text.isWordStart c = true) : c.isDigit = false := by
  delta Text.isWordStart Char.isAlpha Char.isUpper Char.isLower at h
  simp only [Bool.or_eq_true, Bool.and_eq_true, decide_eq_true_eq, beq_iff_eq,
    UInt32.le_iff_toNat_le] at h
  simp only [Char.isDigit, ge_iff_le, Bool.and_eq_false_iff, decide_eq_false_iff_not,
    UInt32.le_iff_toNat_le]
  -- Upper case, lower case and the underscore.
  rcases h with (h | h) | rfl
  · simp only [Char.reduceVal, UInt32.reduceToNat] at h ⊢
    omega
  · simp only [Char.reduceVal, UInt32.reduceToNat] at h ⊢
    omega
  · decide

theorem isSpace_of_isDigit {c : Char} (h : c.isDigit = true) : isSpace c = false := by
  rw [Bool.eq_false_iff]
  intro hspace
  simp only [isSpace, Bool.or_eq_true, beq_iff_eq] at hspace
  rcases hspace with ((rfl | rfl) | rfl) | rfl <;> cases h

/-- A word, where it ends, is the next token. -/
theorem scan_word {word : String} {rest : List Char} (hword : Text.isWord word = true)
    (hrest : ∀ c ∈ rest.head?, Text.isWordPart c = false) :
    scan (word.toList ++ rest) = some (.word word, word.toList.length) := by
  have hlength := wordLength_append hword hrest
  have hfirst : ∃ c others, word.toList = c :: others ∧ (Text.isWordStart c = true ∨ c = '$') := by
    obtain ⟨c, others, hstart, -, hchars | hchars⟩ := exists_of_isWord hword
    · exact ⟨c, others, hchars, .inl hstart⟩
    · exact ⟨'$', c :: others, hchars, .inr rfl⟩
  obtain ⟨c, others, hchars, hc⟩ := hfirst
  have hspace : isSpace c = false := by
    rcases hc with hc | rfl
    · exact isSpace_of_isWordStart hc
    · rfl
  have hquote : ¬(c = '"' ∨ c = '\'') := by
    rintro (rfl | rfl) <;> rcases hc with hc | hc <;> cases hc
  have hdigit : ¬c.isDigit = true := by
    rw [Bool.not_eq_true]
    rcases hc with hc | rfl
    · exact isDigit_of_isWordStart hc
    · rfl
  have htake : (word.toList ++ rest).take word.toList.length = word.toList := List.take_left
  have hpos : 0 < word.toList.length := by
    rw [hchars]
    exact Nat.succ_pos _
  -- Blanks, quotes and digits are ruled out, so words are tried next.
  have hscan : scan (word.toList ++ rest) =
      if 0 < wordLength (word.toList ++ rest) then
        some (.word (String.ofList ((word.toList ++ rest).take (wordLength (word.toList ++ rest)))),
          wordLength (word.toList ++ rest))
      else (symbol? (word.toList ++ rest)).map fun s => (.symbol s, s.text.toList.length) := by
    rw [hchars, List.cons_append, scan, if_neg (by rw [hspace]; exact Bool.false_ne_true),
      if_neg hquote,
      if_neg hdigit]
  rw [hscan, hlength, if_pos hpos, htake, String.ofList_toList]

/-- Digits begin a number. -/
theorem scan_digits {whole rest : List Char} (hne : whole ≠ [])
    (hall : whole.all Char.isDigit = true) : scan (whole ++ rest) = number? (whole ++ rest) := by
  cases whole with
  | nil => exact absurd rfl hne
  | cons c others =>
      have hdigit : c.isDigit = true := List.all_eq_true.mp hall c (List.mem_cons_self ..)
      have hquote : ¬(c = '"' ∨ c = '\'') := by
        rintro (rfl | rfl) <;> cases hdigit
      rw [List.cons_append, scan,
        if_neg (by rw [isSpace_of_isDigit hdigit]; exact Bool.false_ne_true),
        if_neg hquote, if_pos hdigit]

/-- What stands behind a number that does not go on. -/
theorem ends_number {rest : List Char}
    (h : ∀ c ∈ rest.head?, (!Text.isWordPart c && c != '.') = true) :
    (∀ c ∈ rest.head?, c.isDigit = false) ∧ fractionLength rest = 0 ∧ exponentLength rest = 0 := by
  cases rest with
  | nil => exact ⟨by rintro _ ⟨⟩, rfl, rfl⟩
  | cons c others =>
      obtain ⟨hpart, hperiod⟩ := Bool.and_eq_true_iff.mp (h c rfl)
      have hpart : Text.isWordPart c = false := by simpa using hpart
      have hdigit : c.isDigit = false := by
        rw [Bool.eq_false_iff]
        intro hdigit
        rw [isDigit_of_isWordPart hdigit] at hpart
        cases hpart
      refine ⟨?_, ?_, ?_⟩
      · rintro _ ⟨⟩
        exact hdigit
      · unfold fractionLength
        split
        · rename_i heq
          rw [(List.cons.inj heq).1] at hperiod
          cases hperiod
        · rfl
      · have hletter : ¬(c = 'e' ∨ c = 'E') := by
          rintro (rfl | rfl) <;> cases hpart
        rw [exponentLength, if_neg hletter]

/-- An integer, where it ends, is the next token. -/
theorem scan_int {text : String} {rest : List Char} (h : (TokenKind.int text).IsWritten)
    (hrest : ∀ c ∈ rest.head?, (TokenKind.int text).endsAt c = true) :
    scan (text.toList ++ rest) = some (.int text, text.toList.length) := by
  obtain ⟨hne, hall⟩ := h
  obtain ⟨hdigit, hfraction, hexponent⟩ := ends_number hrest
  have hlength : text.toList.length ≠ 0 := by
    simpa using hne
  rw [scan_digits hne hall, number?, span_append hall hdigit]
  simp only [hlength, if_false, List.drop_left, hfraction, Nat.add_zero, hexponent, if_true,
    List.take_left, String.ofList_toList]

/-- What a fraction or an exponent begins with is no digit. -/
theorem not_isDigit_head {fraction power rest : List Char}
    (hfraction : TokenKind.IsFraction fraction) (hpower : TokenKind.IsPower power)
    (hne : fraction ++ power ≠ []) {c : Char} (hc : c ∈ (fraction ++ (power ++ rest)).head?) :
    c.isDigit = false := by
  rcases hfraction with rfl | ⟨places, rfl, -⟩
  · rcases hpower with rfl | ⟨sign, digits, rfl, -, -⟩
    · exact absurd rfl hne
    · cases hc
      rfl
  · cases hc
    rfl

/-- A fraction, where it ends, is counted in full. -/
theorem fractionLength_append {fraction rest : List Char} (h : TokenKind.IsFraction fraction)
    (hdigit : ∀ c ∈ rest.head?, c.isDigit = false) (hperiod : fractionLength rest = 0) :
    fractionLength (fraction ++ rest) = fraction.length := by
  rcases h with rfl | ⟨places, rfl, hne, hall⟩
  · exact hperiod
  · have hplaces : places.length ≠ 0 := by
      simpa using hne
    rw [List.cons_append, fractionLength, span_append hall hdigit, if_neg hplaces,
      List.length_cons]

/-- An exponent, where it ends, is counted in full. -/
theorem exponentLength_append {power rest : List Char} (h : TokenKind.IsPower power)
    (hdigit : ∀ c ∈ rest.head?, c.isDigit = false) (hexponent : exponentLength rest = 0) :
    exponentLength (power ++ rest) = power.length := by
  rcases h with rfl | ⟨sign, digits, rfl, hsign, hne, hall⟩
  · exact hexponent
  · have hdigits : digits.length ≠ 0 := by
      simpa using hne
    have hpower : powerLength (sign :: (digits ++ rest)) = digits.length + 1 := by
      simp only [powerLength, hsign, if_true, span_append hall hdigit, hdigits, if_false]
    simp [exponentLength, hpower]

/-- A double, where it ends, is the next token: its three parts are counted one after the other, and
each ends where the next one begins. -/
theorem scan_double {text : String} {rest : List Char} (h : (TokenKind.double text).IsWritten)
    (hrest : ∀ c ∈ rest.head?, (TokenKind.double text).endsAt c = true) :
    scan (text.toList ++ rest) = some (.double text, text.toList.length) := by
  obtain ⟨whole, fraction, power, hchars, ⟨hne, hall⟩, hfraction, hpower, hbehind⟩ := h
  obtain ⟨hdigit, hperiod, hexponent⟩ := ends_number hrest
  have hwhole : whole.length ≠ 0 := by
    simpa using hne
  have hspan : span Char.isDigit (whole ++ (fraction ++ (power ++ rest))) = whole.length :=
    span_append hall fun _ hc => not_isDigit_head hfraction hpower hbehind hc
  -- Behind the fraction stands the exponent, or else what the number ends at.
  have hafter : (∀ c ∈ (power ++ rest).head?, c.isDigit = false) ∧
      fractionLength (power ++ rest) = 0 := by
    rcases hpower with rfl | ⟨sign, digits, rfl, -, -⟩
    · exact ⟨hdigit, hperiod⟩
    · exact ⟨by rintro _ ⟨⟩; rfl, rfl⟩
  have hplaces := fractionLength_append hfraction hafter.1 hafter.2
  have hdigits := exponentLength_append hpower hdigit hexponent
  have hlength : text.toList.length = whole.length + fraction.length + power.length := by
    rw [hchars, List.length_append, List.length_append, Nat.add_assoc]
  have hchars' : whole ++ (fraction ++ (power ++ rest)) = text.toList ++ rest := by
    rw [hchars, List.append_assoc, List.append_assoc]
  have hdrop : (whole ++ (fraction ++ (power ++ rest))).drop (whole.length + fraction.length) =
      power ++ rest := by
    rw [← List.append_assoc, ← List.length_append, List.drop_left]
  have htake : (whole ++ (fraction ++ (power ++ rest))).take
      (whole.length + fraction.length + power.length) = text.toList := by
    rw [hchars', ← hlength, List.take_left]
  -- A fraction or an exponent is there, so the number is no integer.
  have hsome : fraction.length + power.length ≠ 0 := by
    rw [← List.length_append]
    simpa using hbehind
  rw [← hchars', scan_digits hne hall, number?, hspan, hlength]
  simp only [hwhole, if_false, List.drop_left, hplaces, hdrop, hdigits, htake,
    String.ofList_toList, hsome]

/-! ### Quoted text -/

/-- An escape that is read as a character stands for it between quotes. -/
theorem stringBody_escape {c : Char} {escaped rest body : List Char} {length : Nat}
    (hescape : escape? (escaped ++ rest) = some (c, escaped.length))
    (h : stringBody? '"' rest = some (body, length)) :
    stringBody? '"' ('\\' :: (escaped ++ rest)) =
      some (c :: body, length + (escaped.length + 1)) := by
  rw [stringBody?, if_neg (by decide), if_pos rfl, hescape]
  simp only [Option.bind_eq_bind, Option.bind_some, List.drop_left, h, Option.pure_def,
    Nat.add_assoc]

/-- The number of a control character fits in two digits behind two zeros. -/
theorem hexNumber_control : ∀ n < 32,
    Bytes.hexNumber? ['0', '0', Bytes.hexDigit (n / 16), Bytes.hexDigit (n % 16)] = some n ∧
      isHexDigit (Bytes.hexDigit (n / 16)) = true ∧
      isHexDigit (Bytes.hexDigit (n % 16)) = true := by
  decide

/-- The number of a control character is read back. -/
theorem escape_control {c : Char} {rest : List Char} (h : c.toNat < 0x20) :
    escape? ('u' :: '0' :: '0' :: Bytes.hexDigit (c.toNat / 16) ::
      Bytes.hexDigit (c.toNat % 16) :: rest) = some (c, 5) := by
  obtain ⟨hnumber, hhigh, hlow⟩ := hexNumber_control c.toNat h
  -- All four of them are digits, whatever stands behind.
  have hspan (chars : List Char) : 4 ≤ span isHexDigit ('0' :: '0' ::
      Bytes.hexDigit (c.toNat / 16) :: Bytes.hexDigit (c.toNat % 16) :: chars) := by
    have hzero : isHexDigit '0' = true := by decide
    simp only [span, List.takeWhile_cons, hzero, hhigh, hlow, if_true, List.length_cons]
    omega
  have hchar : charOfNumber? c.toNat = some c := by
    have hvalid : c.toNat.isValidChar := c.valid
    rw [charOfNumber?, if_pos hvalid, Char.ofNat_toNat]
  rw [escape?, codePoint?]
  · simp only [guard, hspan, if_true, List.take_succ_cons, List.take_zero, hnumber, hchar,
      Option.pure_def, Option.bind_eq_bind, Option.bind_some, Option.map_some]
  · rintro _ ⟨⟩

/-- A character is read back as it is written between quotes. -/
theorem stringBody_escapeChar {c : Char} {rest body : List Char} {length : Nat}
    (h : stringBody? '"' rest = some (body, length)) :
    stringBody? '"' (Text.escapeChar c ++ rest) =
      some (c :: body, length + (Text.escapeChar c).length) := by
  unfold Text.escapeChar
  split
  -- The characters with escapes of their own are read back by computation. Of the others, control
  -- characters are written by their number and the rest as they are.
  case h_8 =>
    rename_i hquote hbackslash _ _ _ _ _
    split
    · rename_i hcontrol
      exact stringBody_escape (escape_control hcontrol) h
    · rw [List.cons_append, stringBody?, if_neg hquote, if_neg hbackslash, List.nil_append, h]
      rfl
  all_goals exact stringBody_escape rfl h

/-- What is written between quotes is read back, character by character. -/
theorem stringBody_quoted (chars rest : List Char) :
    stringBody? '"' (chars.flatMap Text.escapeChar ++ '"' :: rest) =
      some (chars, (chars.flatMap Text.escapeChar).length + 1) := by
  induction chars with
  | nil => rw [List.flatMap_nil, List.nil_append, stringBody?, if_pos rfl]; rfl
  | cons c chars ih =>
      rw [List.flatMap_cons, List.append_assoc, stringBody_escapeChar ih, List.length_append]
      congr 2
      omega

/-- A string between quotes is the next token. -/
theorem scan_string (value : String) (rest : List Char) :
    scan (Text.quoted value.toList ++ rest) =
      some (.string value, (Text.quoted value.toList).length) := by
  have hchars : Text.quoted value.toList ++ rest =
      '"' :: (value.toList.flatMap Text.escapeChar ++ '"' :: rest) := by
    simp [Text.quoted]
  rw [hchars, scan, if_neg (by decide), if_pos (.inl rfl), stringBody_quoted, Option.map_some]
  simp [Text.quoted]

/-! ### Symbols and blanks -/

/-- A symbol, where it ends, is the next token. -/
theorem scan_symbol {symbol : Symbol} {rest : List Char}
    (hrest : ∀ c ∈ rest.head?, (TokenKind.symbol symbol).endsAt c = true) :
    scan (symbol.text.toList ++ rest) = some (.symbol symbol, symbol.text.toList.length) := by
  -- Three symbols begin longer ones. What follows them is barred from going on, so the search finds
  -- no longer symbol first.
  have hsymbol : symbol? (symbol.text.toList ++ rest) = some symbol := by
    cases symbol
    case equal | greater | less =>
      cases rest with
      | nil => rfl
      | cons c others =>
          have hc := hrest c rfl
          simp only [TokenKind.endsAt, bne_iff_ne, ne_eq] at hc
          have hother := beq_eq_false_iff_ne.mpr (Ne.symm hc)
          simp [symbol?, Symbol.all, Symbol.text, List.isPrefixOf, List.find?, hother]
    all_goals rfl
  -- No symbol begins like a blank, a string or a number; words are the only other thing to rule
  -- out.
  have hscan {c : Char} {others : List Char} (htext : symbol.text.toList = c :: others)
      (hspace : isSpace c = false) (hquote : ¬(c = '"' ∨ c = '\'')) (hdigit : c.isDigit = false)
      (hword : wordLength (c :: (others ++ rest)) = 0) :
      scan (symbol.text.toList ++ rest) = some (.symbol symbol, symbol.text.toList.length) := by
    rw [htext, List.cons_append] at hsymbol
    rw [htext, List.cons_append, scan, if_neg (by rw [hspace]; exact Bool.false_ne_true),
      if_neg hquote,
      if_neg (by rw [hdigit]; exact Bool.false_ne_true)]
    simp only [hword, Nat.lt_irrefl, if_false, hsymbol, Option.map_some, htext]
  have hbare {c : Char} (others : List Char) (hstart : Text.isWordStart c = false)
      (hdollar : c ≠ '$') : wordLength (c :: others) = 0 := by
    rw [wordLength_of_ne hdollar, bareLength, if_neg (by rw [hstart]; exact Bool.false_ne_true)]
  cases symbol
  -- A dollar sign begins a word if a letter follows it, and here none does.
  case dollar =>
    refine hscan rfl rfl (by decide) rfl ?_
    have hzero : bareLength rest = 0 := by
      refine bareLength_eq_zero fun c hc => ?_
      simpa [TokenKind.endsAt] using hrest c hc
    change (if bareLength rest = 0 then 0 else bareLength rest + 1) = 0
    rw [hzero, if_pos rfl]
  all_goals exact hscan rfl rfl (by decide) rfl (hbare _ rfl (by decide))

/-- Blanks, where they end, are the next token. -/
theorem scan_space {count : Nat} {rest : List Char} (hpos : 0 < count)
    (hrest : ∀ c ∈ rest.head?, isSpace c = false) :
    scan (List.replicate count ' ' ++ rest) = some (.space count, count) := by
  obtain ⟨count, rfl⟩ : ∃ n, count = n + 1 := Nat.exists_eq_succ_of_ne_zero (by omega)
  have hall : (List.replicate count ' ').all isSpace = true := by
    simp [isSpace]
  have hspace : isSpace ' ' = true := rfl
  rw [List.replicate_succ, List.cons_append, scan, if_pos hspace, span_append hall hrest,
    List.length_replicate]

/-- A token that is written out and ends there is the next token. -/
theorem scan_written {kind : TokenKind} {rest : List Char} (h : kind.IsWritten)
    (hrest : ∀ c ∈ rest.head?, kind.endsAt c = true) :
    scan (kind.written ++ rest) = some (kind, kind.written.length) := by
  cases kind with
  | symbol s => exact scan_symbol hrest
  | int text => exact scan_int h hrest
  | double text => exact scan_double h hrest
  | string value => exact scan_string value rest
  | word text =>
      refine scan_word h fun c hc => ?_
      simpa [TokenKind.endsAt] using hrest c hc
  | space count =>
      have hspace : ∀ c ∈ rest.head?, isSpace c = false := by
        intro c hc
        simpa [TokenKind.endsAt] using hrest c hc
      rw [TokenKind.written, scan_space h hspace, List.length_replicate]
  | finish => cases h

end Lexer

/-! ### Names in texts -/

/-- A word or a number is one that a text can hold. -/
def TokenKind.IsProper : TokenKind → Prop
  | .word text => Text.isWord text = true
  | .int text => text.toList ≠ [] ∧ text.toList.all Char.isDigit = true
  | .double text => text.toList.head?.any Char.isDigit = true
  | _ => True

namespace Lexer

theorem all_take_span (p : Char → Bool) (chars : List Char) :
    (chars.take (span p chars)).all p = true := by
  have htake : chars.takeWhile p = chars.take (span p chars) :=
    List.prefix_iff_eq_take.mp (List.takeWhile_prefix p)
  rw [← htake]
  exact List.all_takeWhile

/-- What is counted as a word without a dollar sign begins like one and goes on like one. -/
theorem take_bareLength {chars : List Char} (h : 0 < bareLength chars) :
    ∃ c others, chars.take (bareLength chars) = c :: others ∧ Text.isWordStart c = true ∧
      others.all Text.isWordPart = true := by
  cases chars with
  | nil => cases h
  | cons c rest =>
      rw [bareLength] at h ⊢
      split at h
      · rename_i hstart
        rw [if_pos hstart]
        exact ⟨c, _, List.take_succ_cons, hstart, all_take_span ..⟩
      · cases h

/-- What is counted as a word is one. -/
theorem isWord_take {chars : List Char} (h : 0 < wordLength chars) :
    Text.isWord (String.ofList (chars.take (wordLength chars))) = true := by
  cases chars with
  | nil => cases h
  | cons c rest =>
      -- A word may begin with a dollar sign, which is no word by itself.
      by_cases hdollar : c = '$'
      · subst hdollar
        by_cases hcount : bareLength rest = 0
        · have hzero : wordLength ('$' :: rest) = 0 := if_pos hcount
          omega
        · obtain ⟨c, others, htake, hstart, hall⟩ :=
            take_bareLength (Nat.pos_of_ne_zero hcount)
          have hlength : wordLength ('$' :: rest) = bareLength rest + 1 := if_neg hcount
          rw [hlength, List.take_succ_cons, htake]
          simpa [Text.isWord, hstart] using hall
      · rw [wordLength_of_ne hdollar] at h ⊢
        obtain ⟨d, others, htake, hstart, hall⟩ := take_bareLength h
        rw [htake]
        have hd : d ≠ '$' := by
          rintro rfl
          cases hstart
        unfold Text.isWord
        rw [String.toList_ofList]
        split
        · rename_i heq
          exact absurd (List.cons.inj heq).1 hd
        · change (Text.isWordStart d && others.all Text.isWordPart) = true
          rw [hstart, hall]
          rfl

/-- A number that is found behind a digit is proper. -/
theorem isProper_of_number {c : Char} {rest : List Char} {kind : TokenKind} {count : Nat}
    (hdigit : c.isDigit = true) (h : number? (c :: rest) = some (kind, count)) :
    kind.IsProper := by
  unfold number? at h
  extract_lets whole fraction exponent length text at h
  split at h
  · cases h
  · rename_i hwhole
    obtain ⟨hkind, -⟩ := Prod.mk.inj (Option.some.inj h)
    rw [← hkind]
    -- Without a fraction and an exponent all of the text is digits; otherwise its first character
    -- is one.
    split
    · rename_i hint
      have hlength : length = whole := by
        unfold length
        omega
      have htext : text.toList = (c :: rest).take whole := by
        unfold text
        rw [String.toList_ofList, hlength]
      refine ⟨?_, ?_⟩
      · rw [htext]
        intro hnil
        rcases List.take_eq_nil_iff.mp hnil with hzero | hnil
        · exact hwhole hzero
        · cases hnil
      · rw [htext]
        exact all_take_span ..
    · have hlength : length = (length - 1) + 1 := by
        unfold length
        omega
      have htext : text.toList = c :: rest.take (length - 1) := by
        unfold text
        rw [String.toList_ofList, hlength]
        rfl
      show text.toList.head?.any Char.isDigit = true
      rw [htext]
      exact hdigit

/-- What can be found at the beginning of a text, and over how many characters it reaches. -/
inductive Found : (chars : List Char) → TokenKind → Nat → Prop
  | space {c : Char} (rest : List Char) (hc : isSpace c = true) :
      Found (c :: rest) (.space (span isSpace rest + 1)) (span isSpace rest + 1)
  | string {quote : Char} {rest body : List Char} {length : Nat}
      (hbody : stringBody? quote rest = some (body, length)) :
      Found (quote :: rest) (.string (String.ofList body)) (length + 1)
  | number {c : Char} {rest : List Char} {kind : TokenKind} {count : Nat}
      (hdigit : c.isDigit = true) (hnumber : number? (c :: rest) = some (kind, count)) :
      Found (c :: rest) kind count
  | word {chars : List Char} (hpos : 0 < wordLength chars) :
      Found chars (.word (String.ofList (chars.take (wordLength chars)))) (wordLength chars)
  | symbol {chars : List Char} {s : Symbol} (hsymbol : symbol? chars = some s) :
      Found chars (.symbol s) s.text.toList.length

/-- The branches of the scanner, one constructor for each. -/
theorem found_of_scan {chars : List Char} {kind : TokenKind} {count : Nat}
    (h : scan chars = some (kind, count)) : Found chars kind count := by
  cases chars with
  | nil => cases h
  | cons c rest =>
      rw [scan] at h
      dsimp only at h
      split at h
      · rename_i hspace
        cases h
        exact .space rest hspace
      · split at h
        · obtain ⟨⟨body, length⟩, hbody, heq⟩ := Option.map_eq_some_iff.mp h
          cases heq
          exact .string hbody
        · split at h
          · rename_i hdigit
            exact .number hdigit h
          · split at h
            · rename_i hword
              cases h
              exact .word hword
            · obtain ⟨symbol, hsymbol, heq⟩ := Option.map_eq_some_iff.mp h
              cases heq
              exact .symbol hsymbol

/-- Words and numbers are proper where they are found. -/
theorem isProper_of_scan {chars : List Char} {kind : TokenKind} {count : Nat}
    (h : scan chars = some (kind, count)) : kind.IsProper := by
  cases found_of_scan h with
  | space | string | symbol => trivial
  | number hdigit hnumber => exact isProper_of_number hdigit hnumber
  | word hpos => exact isWord_take hpos

/-- All words and numbers of a text are proper. -/
theorem isProper_of_tokensFrom {start : Position} {chars : List Char} {tokens : List Token}
    (h : tokensFrom start chars = .ok tokens) : ∀ t ∈ tokens, t.kind.IsProper := by
  fun_induction tokensFrom start chars generalizing tokens with
  | case1 start =>
      cases h
      intro t ht
      rw [List.mem_singleton.mp ht]
      trivial
  | case2 start c rest kind count hscan lexeme =>
      rename_i ih
      cases hothers : tokensFrom (start.advanceOver lexeme) (rest.drop count) with
      | error e =>
          rw [hothers] at h
          cases h
      | ok others =>
          rw [hothers] at h
          cases h
          exact List.forall_mem_cons.mpr ⟨isProper_of_scan hscan, ih hothers⟩
  | case3 => cases h

end Lexer

end DocQuery
