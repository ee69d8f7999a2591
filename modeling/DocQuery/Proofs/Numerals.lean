import DocQuery.Proofs.Codecs
import DocQuery.Proofs.Elaboration
import DocQuery.Proofs.Lexing
/-!
# DocQuery.Proofs.Numerals

Numbers in canonical text. An integer is read back from its decimal digits, and the text of
a floating-point number is always digits, a period and digits.
-/

namespace DocQuery

namespace Number

/-- An integer is written as its digits, behind a minus sign if it is negative. -/
theorem toList_intText (n : Int) :
    (intText n).toList = if n < 0 then '-' :: toDigits n.natAbs else toDigits n.natAbs := by
  unfold intText
  split <;> rw [String.toList_ofList]

/-- An integer is read back from its text. -/
theorem readInt_intText (n : Int) : readInt? (intText n).toList = some n := by
  rw [toList_intText]
  split
  · rename_i hneg
    have hvalue : -Int.ofNat n.natAbs = n := by
      rw [Int.ofNat_eq_natCast]
      omega
    rw [readInt?, readNat_toDigits, Option.map_some, hvalue]
  · rename_i hneg
    have hvalue : Int.ofNat n.natAbs = n := by
      rw [Int.ofNat_eq_natCast]
      omega
    have hsign {c : Char} {rest : List Char} (hchars : toDigits n.natAbs = c :: rest) :
        c.isDigit = true :=
      List.all_eq_true.mp (all_toDigits n.natAbs) c (hchars ▸ List.mem_cons_self ..)
    unfold readInt?
    split
    · rename_i hchars
      cases hsign hchars
    · rename_i hchars
      cases hsign hchars
    · rw [readNat_toDigits, Option.map_some, hvalue]

theorem intText_injective {m n : Int} (h : intText m = intText n) : m = n := by
  have hread := readInt_intText m
  rw [h, readInt_intText] at hread
  exact (Option.some.inj hread).symm

/-- A number of 32 bits was read as the integer that it is. -/
theorem readInt_of_readInt32 {chars : List Char} {i : Int32} (h : readInt32? chars = some i) :
    readInt? chars = some i.toInt := by
  simp only [readInt32?, Option.bind_eq_bind, Option.bind_eq_some_iff] at h
  obtain ⟨n, hn, hi⟩ := h
  unfold toInt32? at hi
  split at hi
  · rename_i hfits
    rw [hn, ← Option.some.inj hi, Int32.toInt_ofInt_of_le hfits.1 hfits.2]
  · cases hi

/-- A number of 64 bits was read as the integer that it is. -/
theorem readInt_of_readInt64 {chars : List Char} {i : Int64} (h : readInt64? chars = some i) :
    readInt? chars = some i.toInt := by
  simp only [readInt64?, Option.bind_eq_bind, Option.bind_eq_some_iff] at h
  obtain ⟨n, hn, hi⟩ := h
  unfold toInt64? at hi
  split at hi
  · rename_i hfits
    rw [hn, ← Option.some.inj hi, Int64.toInt_ofInt_of_le hfits.1 hfits.2]
  · cases hi

/-- Texts of the same integer are read as the same number of 32 bits. -/
theorem readInt32_congr {a b : List Char} (h : readInt? a = readInt? b) :
    readInt32? a = readInt32? b := by
  rw [readInt32?, h]
  rfl

theorem readInt64_congr {a b : List Char} (h : readInt? a = readInt? b) :
    readInt64? a = readInt64? b := by
  rw [readInt64?, h]
  rfl

/-- The digits of an integer without its sign. -/
def digitsText (n : Int) : String := String.ofList (toDigits n.natAbs)

theorem isWritten_digitsText (n : Int) : (TokenKind.int (digitsText n)).IsWritten := by
  refine ⟨?_, ?_⟩
  · rw [digitsText, String.toList_ofList]
    exact Nat.toDigits_ne_nil
  · rw [digitsText, String.toList_ofList]
    exact all_toDigits _

/-- The text of an integer is its digits behind its sign. -/
theorem signed_digitsText (n : Int) :
    (if decide (n < 0) then '-' :: (digitsText n).toList else (digitsText n).toList) =
      (intText n).toList := by
  rw [toList_intText, digitsText, String.toList_ofList]
  simp only [decide_eq_true_eq]

/-! ### Floating-point numbers -/

/-- The text of a floating-point number without its sign. -/
def placesText (x : Double) : String :=
  String.ofList (if x.isNegative then (writePlaces x).tail else writePlaces x)

/-- Digits, a period and digits, behind a minus sign if the number has one. -/
theorem writePlaces_eq (x : Double) :
    ∃ whole places : List Char,
      writePlaces x = (if x.isNegative then '-' :: (whole ++ '.' :: places)
        else whole ++ '.' :: places) ∧
      (whole ≠ [] ∧ whole.all Char.isDigit = true) ∧
      (places ≠ [] ∧ places.all Char.isDigit = true) := by
  unfold writePlaces
  extract_lets scaled padded whole places body
  have hdigits : ∀ c ∈ padded, c.isDigit = true := by
    intro c hc
    rcases List.mem_append.mp hc with hc | hc
    · rw [List.eq_of_mem_replicate hc]
      rfl
    · exact List.all_eq_true.mp (all_toDigits _) c hc
  have hlength : 10 ≤ padded.length := by
    unfold padded
    rw [List.length_append, List.length_replicate]
    omega
  refine ⟨whole, if places.isEmpty then ['0'] else places, rfl, ⟨?_, ?_⟩, ?_⟩
  · intro hnil
    rcases List.take_eq_nil_iff.mp hnil with hzero | hnil
    · omega
    · rw [hnil] at hlength
      cases hlength
  · exact List.all_eq_true.mpr fun c hc => hdigits c (List.mem_of_mem_take hc)
  · split
    · exact ⟨by rintro ⟨⟩, rfl⟩
    · rename_i hplaces
      refine ⟨fun hnil => hplaces (List.isEmpty_iff.mpr hnil), List.all_eq_true.mpr fun c hc => ?_⟩
      have hc := (List.dropWhile_sublist _).mem (List.mem_reverse.mp hc)
      exact hdigits c (List.mem_of_mem_drop (List.mem_reverse.mp hc))

theorem isWritten_placesText (x : Double) : (TokenKind.double (placesText x)).IsWritten := by
  obtain ⟨whole, places, hchars, hwhole, hplaces⟩ := writePlaces_eq x
  refine ⟨whole, '.' :: places, [], ?_, hwhole, .inr ⟨places, rfl, hplaces⟩, .inl rfl, by
    rintro ⟨⟩⟩
  rw [placesText, String.toList_ofList, hchars, List.append_nil]
  split <;> rfl

theorem signed_placesText (x : Double) :
    (if x.isNegative then '-' :: (placesText x).toList else (placesText x).toList) =
      writePlaces x := by
  obtain ⟨whole, places, hchars, -, -⟩ := writePlaces_eq x
  rw [placesText, String.toList_ofList, hchars]
  split <;> rfl

theorem isNegative_ofCode (negative : Bool) {code : Nat} (h : code < Nat.pow 2 63) :
    (Double.ofCode negative code).isNegative = negative := by
  have h : code < 9223372036854775808 := h
  cases negative <;> simp [Double.ofCode, Double.isNegative] <;> omega

/-- A number without a sign in front is not negative. -/
theorem isNegative_of_read {c : Char} {rest : List Char} {x : Double} (hc : c.isDigit = true)
    (h : Double.read? (c :: rest) = some x) : x.isNegative = false := by
  have hread : readMagnitude? false (c :: rest) = some x := by
    unfold Double.read? at h
    split at h
    · rename_i hminus
      rw [(List.cons.inj hminus).1] at hc
      cases hc
    · rename_i hplus
      rw [(List.cons.inj hplus).1] at hc
      cases hc
    · exact h
  have hratio (num den : Nat) : (Double.ofRatio false num den).isNegative = false :=
    isNegative_ofCode false (Nat.lt_of_le_of_lt (Nat.min_le_left ..) (by decide))
  have hdecimal (digits : Nat) (exponent : Int) :
      (Double.ofDecimal false digits exponent).isNegative = false := by
    unfold Double.ofDecimal
    extract_lets point
    split
    · exact isNegative_ofCode false (by decide)
    · split
      · exact isNegative_ofCode false (by decide)
      · split <;> exact hratio ..
  unfold readMagnitude? at hread
  split at hread
  · rw [← Option.some.inj hread]
    exact hdecimal ..
  · extract_lets name at hread
    split at hread
    · rw [← Option.some.inj hread]
      exact isNegative_ofCode false (by decide)
    · split at hread
      · rw [← Option.some.inj hread]
        exact isNegative_ofCode false (by decide)
      · cases hread

/-- The text of a finite number is read as a finite number with the same text. -/
def ReadsBack (x : Double) : Prop :=
  ∃ y, Double.read? (writePlaces x) = some y ∧ y.isFinite = true ∧ writePlaces y = writePlaces x

end Number

/-! ### Nodes of numbers -/

/-- The number that the text of an integer is read as. -/
theorem intNode_congr {a b : List Char} (h : Number.readInt? a = Number.readInt? b) :
    Parser.intNode? a = Parser.intNode? b := by
  rw [Parser.intNode?, Parser.intNode?, Number.readInt32_congr h, Number.readInt64_congr h]

/-- An integer is read back from its digits and its sign. -/
theorem numberNode_digitsText {negative : Bool} {text : String} {n : Int} {m : Node}
    (h : numberNode? negative false text = some m)
    (hn : Number.readInt? (if negative then '-' :: text.toList else text.toList) = some n) :
    numberNode? (decide (n < 0)) false (Number.digitsText n) = some m := by
  have hread : Number.readInt? (Number.intText n).toList =
      Number.readInt? (if negative then '-' :: text.toList else text.toList) := by
    rw [hn, Number.readInt_intText]
  simp only [numberNode?, Bool.false_eq_true, if_false] at h ⊢
  rw [Number.signed_digitsText, intNode_congr hread, h]

/-- A floating-point number is read back from its text, up to what the text tells. -/
theorem numberNode_placesText {x : Double} (h : Number.ReadsBack x) :
    ∃ y, numberNode? x.isNegative true (Number.placesText x) = some (Node.double y) ∧
      Number.writePlaces y = Number.writePlaces x := by
  obtain ⟨y, hread, hfinite, hplaces⟩ := h
  refine ⟨y, ?_, hplaces⟩
  simp only [numberNode?, if_true, Number.signed_placesText, Parser.doubleNode?, hread, guard,
    hfinite, Option.bind_eq_bind, Option.bind_some, Option.pure_def]

end DocQuery
