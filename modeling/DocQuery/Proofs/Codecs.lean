import DocQuery.Bytes.Base64
import DocQuery.Identifier
import DocQuery.Number.Decimal
import Mathlib.Data.List.DropRight
import Mathlib.Data.Option.Basic
/-!
# DocQuery.Proofs.Codecs

Bytes, identifiers and decimals that are written as text are read back from it. Each code is
inverted digit by digit and then group by group; a decimal that was read once is read again as
the same one.
-/

namespace DocQuery

/-- A reader that follows one that has taken its part. -/
theorem bind_of_eq_some {α β : Type} {x : Option α} {a : α} (h : x = some a) (f : α → Option β) :
    (x >>= f) = f a := by
  rw [h]
  rfl

namespace Bytes

/-! ### Hexadecimal digits -/

theorem hexValue_hexDigit : ∀ n < 16, hexValue? (hexDigit n) = some n := by decide

/-- The two digits of a byte are its quotient and its remainder by 16, and give it back. -/
theorem ofHex_hexPair_append (b : UInt8) (rest : List Char) :
    ofHex? (hexPair b ++ rest) = (ofHex? rest).map (b :: ·) := by
  have hb := b.toNat_lt
  have hvalue : b.toNat / 16 * 16 + b.toNat % 16 = b.toNat := by omega
  simp only [hexPair, List.cons_append, List.nil_append, ofHex?,
    hexValue_hexDigit (b.toNat / 16) (by omega), hexValue_hexDigit (b.toNat % 16) (by omega),
    Option.bind_eq_bind, Option.bind_some, hvalue, UInt8.ofNat_toNat]
  cases ofHex? rest <;> rfl

theorem ofHex_toHex (bytes : List UInt8) : ofHex? (toHex bytes) = some bytes := by
  induction bytes with
  | nil => rfl
  | cons b rest ih =>
      change ofHex? (hexPair b ++ toHex rest) = _
      rw [ofHex_hexPair_append, ih, Option.map_some]

theorem length_toHex (bytes : List UInt8) : (toHex bytes).length = 2 * bytes.length := by
  induction bytes with
  | nil => rfl
  | cons b rest ih =>
      change (hexPair b ++ toHex rest).length = _
      rw [List.length_append, ih, List.length_cons]
      change 2 + _ = _
      omega

/-! ### Base64 -/

theorem base64Value_base64Digit : ∀ n < 64, base64Value? (base64Digit n) = some n := by decide

theorem base64Digit_ne_padding : ∀ n < 64, base64Digit n ≠ '=' := by decide

/-- Bytes come back whether the last group of three is full or padded. -/
theorem ofBase64_toBase64 (bytes : List UInt8) : ofBase64? (toBase64 bytes) = some bytes := by
  -- Along the writer, which takes three bytes at a time: each byte is cut in two by the digits, and
  -- in each case the halves are put together again. Of a short group the bits left over are zero,
  -- as the reader asks.
  induction bytes using toBase64.induct with
  | case1 => rfl
  | case2 a =>
      have ha := a.toNat_lt
      have hfirst : a.toNat / 4 * 4 + a.toNat % 4 * 16 / 16 = a.toNat := by omega
      have hleft : a.toNat % 4 * 16 % 16 = 0 := by omega
      refine (bind_of_eq_some (base64Value_base64Digit _ (by omega)) _).trans ?_
      refine (bind_of_eq_some (base64Value_base64Digit _ (by omega)) _).trans ?_
      refine (bind_of_eq_some (if_pos hleft) _).trans ?_
      rw [hfirst, UInt8.ofNat_toNat]
      rfl
  | case3 a b =>
      have ha := a.toNat_lt
      have hb := b.toNat_lt
      have hfirst : a.toNat / 4 * 4 + (a.toNat % 4 * 16 + b.toNat / 16) / 16 = a.toNat := by omega
      have hsecond : (a.toNat % 4 * 16 + b.toNat / 16) % 16 * 16 + b.toNat % 16 * 4 / 4 =
          b.toNat := by omega
      have hleft : b.toNat % 16 * 4 % 4 = 0 := by omega
      -- A digit is no padding, so that the reader takes the case of this group.
      rw [toBase64, ofBase64?.eq_3 _ _ _ (base64Digit_ne_padding _ (by omega))]
      refine (bind_of_eq_some (base64Value_base64Digit _ (by omega)) _).trans ?_
      refine (bind_of_eq_some (base64Value_base64Digit _ (by omega)) _).trans ?_
      refine (bind_of_eq_some (base64Value_base64Digit _ (by omega)) _).trans ?_
      refine (bind_of_eq_some (if_pos hleft) _).trans ?_
      rw [hfirst, hsecond, UInt8.ofNat_toNat, UInt8.ofNat_toNat]
      rfl
  | case4 a b c rest ih =>
      have ha := a.toNat_lt
      have hb := b.toNat_lt
      have hc := c.toNat_lt
      have hfirst : a.toNat / 4 * 4 + (a.toNat % 4 * 16 + b.toNat / 16) / 16 = a.toNat := by omega
      have hsecond : (a.toNat % 4 * 16 + b.toNat / 16) % 16 * 16 +
          (b.toNat % 16 * 4 + c.toNat / 64) / 4 = b.toNat := by omega
      have hthird : (b.toNat % 16 * 4 + c.toNat / 64) % 4 * 64 + c.toNat % 64 = c.toNat := by omega
      have hpadding : base64Digit (c.toNat % 64) ≠ '=' := base64Digit_ne_padding _ (by omega)
      rw [toBase64, ofBase64?.eq_4 _ _ _ _ _ (fun _ h _ => hpadding h) (fun h _ => hpadding h)]
      refine (bind_of_eq_some (base64Value_base64Digit _ (by omega)) _).trans ?_
      refine (bind_of_eq_some (base64Value_base64Digit _ (by omega)) _).trans ?_
      refine (bind_of_eq_some (base64Value_base64Digit _ (by omega)) _).trans ?_
      refine (bind_of_eq_some (base64Value_base64Digit _ (by omega)) _).trans ?_
      refine (bind_of_eq_some ih _).trans ?_
      rw [hfirst, hsecond, hthird, UInt8.ofNat_toNat, UInt8.ofNat_toNat, UInt8.ofNat_toNat]
      rfl

end Bytes

/-! ### Identifiers -/

theorem ObjectId.read_text (id : ObjectId) : ObjectId.read? id.text = some id := by
  obtain ⟨bytes, h⟩ := id
  rw [read?, text, String.toList_ofList, Bytes.ofHex_toHex]
  exact dif_pos h

namespace Guid

theorem ofHex_bytes (id : Guid) :
    (Bytes.ofHex? (Bytes.toHex id.bytes)).bind ofBytes? = some id := by
  obtain ⟨bytes, h⟩ := id
  rw [Bytes.ofHex_toHex]
  exact dif_pos h

/-- Five groups of digits with dashes between them are read as the digits by themselves. -/
theorem readGrouped_groups {a b c d e : List Char} (ha : a.length = 8) (hb : b.length = 4)
    (hc : c.length = 4) (hd : d.length = 4) (he : e.length = 12) :
    readGrouped? (a ++ '-' :: b ++ '-' :: c ++ '-' :: d ++ '-' :: e) =
      (Bytes.ofHex? (a ++ b ++ c ++ d ++ e)).bind ofBytes? := by
  have hlength : (a ++ '-' :: b ++ '-' :: c ++ '-' :: d ++ '-' :: e).length = 36 := by
    simp [ha, hb, hc, hd, he]
  have hdashes : ([8, 13, 18, 23].all fun i =>
      (a ++ '-' :: b ++ '-' :: c ++ '-' :: d ++ '-' :: e)[i]? == some '-') = true := by
    simp [ha, hb, hc, hd, List.getElem?_append]
  -- The reader counts the characters, looks for the dashes, and cuts the groups out.
  refine (bind_of_eq_some (if_pos hlength) _).trans ?_
  refine (bind_of_eq_some (if_pos hdashes) _).trans ?_
  simp [ha, hb, hc, hd, List.drop_append, List.drop_of_length_le]

/-- The groups put together are the digits. -/
theorem append_groups (digits : List Char) :
    digits.take 8 ++ (digits.drop 8).take 4 ++ (digits.drop 12).take 4 ++ (digits.drop 16).take 4 ++
      digits.drop 20 = digits := by
  have hgroup (start count : Nat) :
      (digits.drop start).take count ++ digits.drop (start + count) = digits.drop start := by
    rw [← List.drop_drop, List.take_append_drop]
  rw [List.append_assoc, hgroup 16 4, List.append_assoc, hgroup 12 4, List.append_assoc,
    hgroup 8 4, List.take_append_drop]

theorem read_text (id : Guid) : read? id.text = some id := by
  have hdigits : (Bytes.toHex id.bytes).length = 32 := by rw [Bytes.length_toHex, id.length_eq]
  have hgrouped : readGrouped? id.text.toList = some id := by
    rw [text, String.toList_ofList, readGrouped_groups (by simp [hdigits]) (by simp [hdigits])
      (by simp [hdigits]) (by simp [hdigits]) (by simp [hdigits]), append_groups, ofHex_bytes]
  have hlength : id.text.toList.length = 36 := by
    rw [text, String.toList_ofList]
    simp [hdigits]
  simp [read?, hlength, hgrouped]

end Guid

/-! ### Decimal digits -/

namespace Number

theorem all_toDigits (n : Nat) : (toDigits n).all Char.isDigit = true :=
  List.all_eq_true.mpr fun _ hc => Nat.isDigit_of_mem_toDigits (by decide) (by decide) hc

theorem digitsValue_toDigits (n : Nat) : digitsValue (toDigits n) = n := by
  refine Eq.trans ?_ (Nat.ofDigitChars_ten_toDigits (n := n))
  rw [digitsValue, Nat.ofDigitChars_eq_foldl]
  simp only [Nat.mul_comm]
  rfl

theorem readNat_toDigits (n : Nat) : readNat? (toDigits n) = some n := by
  have hne : (toDigits n).isEmpty = false := by
    rw [List.isEmpty_eq_false_iff]
    exact Nat.toDigits_ne_nil
  rw [readNat?, hne, all_toDigits, digitsValue_toDigits]
  rfl

end Number

/-! ### Decimals -/

namespace Text

/-- No blank is visible ASCII. -/
theorem isBlank_eq_false {c : Char} (hlow : 32 < c.toNat) (hhigh : c.toNat < 128) :
    isBlank c = false := by
  simp only [isBlank, blankRanges, List.any_cons, List.any_nil, Bool.or_false,
    Bool.or_eq_false_iff, Bool.and_eq_false_iff, decide_eq_false_iff_not]
  omega

theorem isBlank_of_isDigit {c : Char} (h : c.isDigit = true) : isBlank c = false := by
  simp only [Char.isDigit, Bool.and_eq_true, decide_eq_true_eq, UInt32.le_iff_toNat_le] at h
  have hlow : 48 ≤ c.toNat := h.1
  have hhigh : c.toNat ≤ 57 := h.2
  exact isBlank_eq_false (by omega) (by omega)

/-- A text without blanks has none to lose at its ends. -/
theorem trim_of_not_blank {s : List Char} (h : ∀ c ∈ s, isBlank c = false) : trim s = s := by
  have hdrop {s : List Char} (h : ∀ c ∈ s, isBlank c = false) : s.dropWhile isBlank = s := by
    cases s with
    | nil => rfl
    | cons c rest =>
        exact List.dropWhile_cons_of_neg (Bool.eq_false_iff.mp (h c List.mem_cons_self))
  rw [trim, trimStart, hdrop h, trimEnd, hdrop (by simpa using h), List.reverse_reverse]

end Text

/-- A number begins with a digit or a point, or it is one of the names. -/
theorem Number.readMagnitude_eq_none (negative : Bool) {c : Char} (rest : List Char)
    (hdigit : c.isDigit = false) (hpoint : c ≠ '.') (hinf : c.toLower ≠ 'i')
    (hnan : c.toLower ≠ 'n') : readMagnitude? negative (c :: rest) = none := by
  have hdecimal : readDecimal? (c :: rest) = none := by
    unfold readDecimal?
    rw [List.takeWhile_cons_of_neg (Bool.eq_false_iff.mp hdigit),
      List.dropWhile_cons_of_neg (Bool.eq_false_iff.mp hdigit)]
    simp [hpoint]
  -- Of a name it is enough to look at the first letter, which the reader takes without regard to
  -- case.
  have hname (name : String) (h : name.toList.head? ≠ some c.toLower) :
      String.ofList ((c :: rest).map Char.toLower) ≠ name := by
    rintro rfl
    exact h (by rw [String.toList_ofList]; rfl)
  have hinf' := hname "inf" (by simpa using hinf.symm)
  have hinfinity := hname "infinity" (by simpa using hinf.symm)
  have hnan' := hname "nan" (by simpa using hnan.symm)
  unfold readMagnitude?
  rw [hdecimal]
  dsimp only
  simp only [hinf', hinfinity, hnan', decide_false, Bool.or_self, Bool.false_eq_true, if_false]

namespace Decimal

theorem isBlank_of_isNotation {c : Char} (h : isNotation c = true) : Text.isBlank c = false := by
  simp only [isNotation, isSign, Bool.or_eq_true, beq_iff_eq, or_assoc] at h
  rcases h with hdigit | rfl | rfl | rfl | rfl | rfl
  · exact Text.isBlank_of_isDigit hdigit
  all_goals decide

/-- Decimal notation of a finite number, behind any signs. -/
structure IsFiniteText (t : List Char) : Prop where
  isNotation : ∃ c rest, t.dropWhile isSign = c :: rest ∧ (c.isDigit || c == '.') = true ∧
    (c :: rest).all isNotation = true
  isFinite : ∃ x, Double.read? t = some x ∧ x.isFinite = true

/-- A text is a decimal exactly if it is one without the blanks at its ends; it is kept without plus
signs in front. -/
theorem read_eq_some_iff {s : String} {d : Decimal} :
    read? s = some d ↔ IsFiniteText (Text.trim s.toList) ∧
      String.ofList ((Text.trim s.toList).dropWhile (· == '+')) = d.text := by
  obtain ⟨text⟩ := d
  rw [read?]
  generalize Text.trim s.toList = t
  constructor
  · intro h
    split at h
    · cases h
    · rename_i c rest hdrop
      split at h <;> [rename_i hnotation; cases h]
      rw [Bool.and_eq_true] at hnotation
      split at h <;> [rename_i x hread; cases h]
      split at h <;> [rename_i hfinite; cases h]
      exact ⟨⟨⟨c, rest, hdrop, hnotation⟩, x, hread, hfinite⟩,
        congrArg Decimal.text (Option.some.inj h)⟩
  · rintro ⟨⟨⟨c, rest, hdrop, hhead, hrest⟩, x, hread, hfinite⟩, rfl⟩
    simp only [hdrop, hhead, hrest, hread, hfinite, Bool.and_self, if_true]

/-- Signs in front are notation too. -/
theorem IsFiniteText.all_isNotation {t : List Char} (h : IsFiniteText t) :
    ∀ c ∈ t, Decimal.isNotation c = true := by
  obtain ⟨c, rest, hdrop, -, hall⟩ := h.isNotation
  intro c' hc'
  rw [← List.takeWhile_append_dropWhile (p := isSign) (l := t), List.mem_append, hdrop] at hc'
  rcases hc' with hsign | hrest
  · have hsign := List.mem_takeWhile_imp hsign
    simp [Decimal.isNotation, hsign]
  · exact List.all_eq_true.mp hall c' hrest

/-- Behind a plus sign stands a number without one. -/
theorem dropWhile_plus_of_read {s : List Char} {x : Double} (h : Double.read? ('+' :: s) = some x) :
    s.dropWhile (· == '+') = s ∧ Double.read? s = some x := by
  have h : Number.readMagnitude? false s = some x := h
  -- Two signs in a row are no number.
  have hsign {c : Char} {rest : List Char} (hc : isSign c = true) (hs : s = c :: rest) : False := by
    subst hs
    have hnone : Number.readMagnitude? false (c :: rest) = none := by
      simp only [isSign, Bool.or_eq_true, beq_iff_eq] at hc
      rcases hc with rfl | rfl
      all_goals
        exact Number.readMagnitude_eq_none _ _ (by decide) (by decide) (by decide) (by decide)
    rw [hnone] at h
    cases h
  constructor
  · cases s with
    | nil => rfl
    | cons c rest =>
        refine List.dropWhile_cons_of_neg fun hc => hsign (c := c) ?_ rfl
        simp only [isSign, hc, Bool.or_true]
  · unfold Double.read?
    split
    · exact (hsign (c := '-') (by decide) rfl).elim
    · exact (hsign (c := '+') (by decide) rfl).elim
    · exact h

/-- A number without the plus sign in front of it is the same number. -/
theorem IsFiniteText.dropWhile_plus {t : List Char} (h : IsFiniteText t) :
    IsFiniteText (t.dropWhile (· == '+')) := by
  by_cases hplus : ∃ s, t = '+' :: s
  · obtain ⟨s, rfl⟩ := hplus
    obtain ⟨x, hread, hfinite⟩ := h.isFinite
    obtain ⟨hdrop, hread⟩ := dropWhile_plus_of_read hread
    rw [List.dropWhile_cons_of_pos (by decide), hdrop]
    exact ⟨h.isNotation, x, hread, hfinite⟩
  · have hdrop : t.dropWhile (· == '+') = t := by
      cases t with
      | nil => rfl
      | cons c rest =>
          refine List.dropWhile_cons_of_neg fun hc => hplus ⟨rest, ?_⟩
          rw [beq_iff_eq.mp hc]
    rwa [hdrop]

/-- A decimal that was read is read again as the same one. -/
theorem read_text {s : String} {d : Decimal} (h : read? s = some d) : read? d.text = some d := by
  obtain ⟨htext, hd⟩ := read_eq_some_iff.mp h
  have htext := htext.dropWhile_plus
  have htrim := Text.trim_of_not_blank fun c hc => isBlank_of_isNotation (htext.all_isNotation c hc)
  -- What was kept has no blanks to trim, and no plus signs any more.
  rw [read_eq_some_iff, ← hd, String.toList_ofList, htrim, List.dropWhile_idempotent]
  exact ⟨htext, rfl⟩

end Decimal

end DocQuery
