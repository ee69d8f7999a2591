import DocQuery.Builtin.Apply
import DocQuery.Eval.Arithmetic
import DocQuery.Proofs.LowerCase
import Mathlib.Order.Bounds.Basic
/-!
# DocQuery.Proofs.TextPieces

Pieces of texts. The functions that look for a piece lower the whole text and the whole piece if the
collation folds case, and look for the one in the other. A part of a text is then found in it if it
is lowered in the text as by itself, which is up to the capital sigmas that end words
(`pieces_found`). A place is one of the lowered text; it is the place in the text as well just if
the text is lowered in place (`beginsAt_of_lowersInPlace`, `lowersInPlace_of_beginsAt`).
-/

namespace DocQuery

/-! ### Searching -/

namespace Text

variable {piece : List Char}

theorem contains_iff (text : List Char) : contains piece text = true ↔ piece <:+: text := by
  unfold contains
  induction text with
  | nil =>
      rw [indexOf?, List.infix_nil]
      cases piece <;> simp
  | cons c rest ih =>
      rw [indexOf?, List.infix_cons_iff]
      by_cases h : piece <+: c :: rest
      · simp [List.isPrefixOf_iff_prefix.mpr h, h]
      · have hbegins : piece.isPrefixOf (c :: rest) = false := by
          rw [← Bool.not_eq_true, List.isPrefixOf_iff_prefix]
          exact h
        simpa [hbegins, h] using ih

/-- The first place at which a piece begins is found, if there is one. -/
theorem indexOf?_spec (hpiece : piece ≠ []) (text : List Char) :
    (∃ i, indexOf? piece text = some i ∧ IsLeast {j | piece <+: text.drop j} i) ∨
      indexOf? piece text = none ∧ ∀ j, ¬ piece <+: text.drop j := by
  induction text with
  | nil =>
      refine .inr ⟨by simpa [indexOf?] using hpiece, fun j => ?_⟩
      rwa [List.drop_nil, List.prefix_nil]
  | cons c rest ih =>
      rw [indexOf?]
      by_cases h : piece <+: c :: rest
      · rw [if_pos (List.isPrefixOf_iff_prefix.mpr h)]
        exact .inl ⟨0, rfl, h, fun j _ => Nat.zero_le j⟩
      · rw [if_neg fun hbegins => h (List.isPrefixOf_iff_prefix.mp hbegins)]
        rcases ih with ⟨i, hi, hfound, hleast⟩ | ⟨hnone, hnot⟩
        · refine .inl ⟨i + 1, by rw [hi]; rfl, hfound, fun j hj => ?_⟩
          cases j with
          | zero => exact absurd hj h
          | succ j => exact Nat.succ_le_succ (hleast hj)
        · refine .inr ⟨by rw [hnone]; rfl, fun j => ?_⟩
          cases j with
          | zero => exact h
          | succ j => exact hnot j

/-- The first place from a start on at which a piece begins, within the text. -/
def placeFrom? (piece text : List Char) (start : Nat) : Option Nat :=
  if start < text.length then (indexOf? piece (text.drop start)).map (start + ·) else none

theorem lt_length_of_begins (hpiece : piece ≠ []) {text : List Char} {i : Nat}
    (h : piece <+: text.drop i) : i < text.length := by
  by_contra hge
  rw [List.drop_eq_nil_of_le (Nat.le_of_not_lt hge), List.prefix_nil] at h
  exact hpiece h

theorem placeFrom?_spec (hpiece : piece ≠ []) (text : List Char) (start : Nat) :
    (∃ i, placeFrom? piece text start = some i ∧
      IsLeast {j | start ≤ j ∧ piece <+: text.drop j} i) ∨
    placeFrom? piece text start = none ∧ ∀ j, start ≤ j → ¬ piece <+: text.drop j := by
  unfold placeFrom?
  by_cases hstart : start < text.length
  · rw [if_pos hstart]
    rcases indexOf?_spec hpiece (text.drop start) with ⟨i, hi, hfound, hleast⟩ | ⟨hnone, hnot⟩
    · refine .inl ⟨start + i, by rw [hi]; rfl, ⟨Nat.le_add_right start i, ?_⟩, ?_⟩
      · rwa [← List.drop_drop]
      · intro j hj
        obtain ⟨hle, hj⟩ := hj
        rw [← Nat.add_sub_cancel' hle, ← List.drop_drop] at hj
        have := hleast hj
        omega
    · refine .inr ⟨by rw [hnone]; rfl, fun j hle hj => ?_⟩
      rw [← Nat.add_sub_cancel' hle, ← List.drop_drop] at hj
      exact hnot _ hj
  · rw [if_neg hstart]
    refine .inr ⟨rfl, fun j hle hj => hstart ?_⟩
    exact Nat.lt_of_le_of_lt hle (lt_length_of_begins hpiece hj)

theorem lowerBeside_ne_nil (before : List Char) (c : Char) (after : List Char) :
    lowerBeside before c after ≠ [] := by
  unfold lowerBeside
  split
  · exact List.cons_ne_nil _ _
  · exact lowerChar_ne_nil c

end Text

/-! ### Pieces as a collation looks for them

Texts are searched in the form that the collation gives them. A part of a text has this form in the
text just if it is lowered there as it is by itself. -/

namespace Strings

open Text

variable (c : Collation)

/-- A part of a text as the collation looks for pieces in it. What is in front of the part comes
nearest character first. -/
def searchedBetween (before text after : List Char) : List Char :=
  if c.foldsCase then lowerBetween before text after else text

theorem searched_eq (s : String) : searched c s = searchedBetween c [] s.toList [] := by
  unfold searched searchedBetween
  rw [lower_eq]

theorem searchedBetween_append (before text text' after : List Char) :
    searchedBetween c before (text ++ text') after =
      searchedBetween c before text (text' ++ after) ++
        searchedBetween c (text.reverse ++ before) text' after := by
  cases c with
  | binary => rfl
  | ignoreCase => exact lowerBetween_append before text text' after

theorem length_searchedBetween (before after : List Char) (s : String) :
    (searchedBetween c before s.toList after).length = (searched c s).length := by
  rw [searched_eq]
  cases c with
  | binary => rfl
  | ignoreCase => exact (length_lowerBetween ..).trans (length_lowerBetween ..).symm

/-- A part is looked for as it is by itself unless a capital sigma in it ends a word there and not
here. -/
theorem searchedBetween_eq_iff {c : Collation} {before after : List Char} {s : String} :
    searchedBetween c before s.toList after = searched c s ↔
      (c = .ignoreCase → KeepsWordEnds before s.toList after) := by
  cases c with
  | binary => exact iff_of_true rfl nofun
  | ignoreCase =>
      exact lowerBetween_eq_lower_iff.trans ⟨fun h _ => h, fun h => h rfl⟩

theorem searched_append (a b : String) :
    searched c (a ++ b) = searchedBetween c [] a.toList b.toList ++
      searchedBetween c a.toList.reverse b.toList [] := by
  rw [searched_eq, String.toList_append, searchedBetween_append, List.append_nil, List.append_nil]

/-- A text put together begins with its first part just if that is looked for as by itself. -/
theorem startsWith_append {a b : String} :
    startsWith c (a ++ b) a = true ↔ (c = .ignoreCase → KeepsWordEnds [] a.toList b.toList) := by
  rw [startsWith, List.isPrefixOf_iff_prefix, searched_append, ← searchedBetween_eq_iff]
  have hlength := length_searchedBetween c [] b.toList a
  constructor
  · intro h
    obtain ⟨rest, h⟩ := h
    exact (List.append_inj_left h hlength.symm).symm
  · intro h
    rw [h]
    exact List.prefix_append _ _

theorem endsWith_append {a b : String} :
    endsWith c (a ++ b) b = true ↔
      (c = .ignoreCase → KeepsWordEnds a.toList.reverse b.toList []) := by
  rw [endsWith, List.isSuffixOf_iff_suffix, searched_append, ← searchedBetween_eq_iff]
  have hlength := length_searchedBetween c a.toList.reverse [] b
  constructor
  · intro h
    obtain ⟨front, h⟩ := h
    exact (List.append_inj_right' h hlength.symm).symm
  · intro h
    rw [h]
    exact List.suffix_append _ _

theorem contains_append {a b d : String}
    (h : c = .ignoreCase → KeepsWordEnds a.toList.reverse b.toList d.toList) :
    contains c (a ++ b ++ d) b = true := by
  rw [contains, contains_iff, searched_append, String.toList_append, searchedBetween_append,
    List.append_nil, searchedBetween_eq_iff.mpr h]
  exact List.infix_append _ _ _

/-! ### Places

`INDEXOF` takes its start from a number of any type and answers with 32 bits. Both are dealt with
once, in what it means to be the least place from a start on (`LeastPlace`). -/

/-- A number is the least place from a start on at which something is found, or -1 if there is no
such place. -/
def LeastPlace (found : Nat → Prop) (start place : Int) : Prop :=
  (∃ i : Nat, place = i ∧ IsLeast {j : Nat | start ≤ j ∧ found j} i) ∨
    place = -1 ∧ ∀ j : Nat, start ≤ j → ¬ found j

theorem LeastPlace.congr {found found' : Nat → Prop} (h : ∀ i, found i ↔ found' i)
    {start place : Int} : LeastPlace found start place ↔ LeastPlace found' start place := by
  have heq : found = found' := funext fun i => propext (h i)
  rw [heq]

/-- The least place from a place on is that place just if something is found at it. -/
theorem leastPlace_self_iff {found : Nat → Prop} {place : Nat} :
    LeastPlace found place place ↔ found place := by
  constructor
  · rintro (⟨i, hi, hfound, -⟩ | ⟨hnone, -⟩)
    · exact Int.ofNat.inj hi ▸ hfound.2
    · cases hnone
  · intro h
    exact .inl ⟨place, rfl, ⟨Int.le_refl place, h⟩, fun j hj => Int.ofNat_le.mp hj.1⟩

theorem searched_ne_nil {piece : String} (h : piece ≠ "") : searched c piece ≠ [] := by
  have hpiece : piece.toList ≠ [] := fun hnil => h (String.toList_eq_nil_iff.mp hnil)
  cases c with
  | binary => exact hpiece
  | ignoreCase =>
      change lower piece.toList ≠ []
      rw [lower_eq]
      cases hchars : piece.toList with
      | nil => exact absurd hchars hpiece
      | cons ch rest => exact List.append_ne_nil_of_left_ne_nil (lowerBeside_ne_nil _ _ _) _

/-- The place of a piece from a start on in the text as the collation looks for pieces in it; -1 if
there is none. -/
def placeOf (s piece : String) (start : Int) : Int :=
  (placeFrom? (searched c piece) (searched c s) start.toNat).elim (-1) Nat.cast

theorem indexOf_eq (s piece : String) (start : Int) :
    indexOf c s piece start = .int32 (Int32.ofInt (placeOf c s piece start)) := by
  unfold indexOf placeOf placeFrom?
  by_cases hstart : start.toNat < (searched c s).length
  · rw [if_pos hstart]
    cases hfound : indexOf? (searched c piece) ((searched c s).drop start.toNat) with
    | none => simp [guard, hstart, hfound]
    | some i => simp [guard, hstart, hfound]
  · simp [guard, hstart]

theorem apply_indexOfFrom (s piece : String) {start : Value} (h : start.isNumber = true) :
    Builtin.apply c .indexOfFrom [.string s, .string piece, start] =
      .ok (.one (.int32 (Int32.ofInt (placeOf c s piece start.asInt)))) := by
  rw [← indexOf_eq]
  simp [Builtin.apply, Call.one, Call.indexOfFrom?, h]

/-- A piece begins at a place in the text as the collation looks for pieces in it. -/
def FoundAt (s piece : String) (place : Nat) : Prop :=
  searched c piece <+: (searched c s).drop place

theorem leastPlace_placeOf {piece : String} (h : piece ≠ "") (s : String) (start : Int) :
    LeastPlace (FoundAt c s piece) start (placeOf c s piece start) := by
  unfold placeOf
  rcases placeFrom?_spec (searched_ne_nil c h) (searched c s) start.toNat with
    ⟨i, hi, hleast⟩ | ⟨hnone, hnot⟩
  · rw [hi]
    refine .inl ⟨i, rfl, ?_⟩
    simpa only [Int.toNat_le, FoundAt] using hleast
  · rw [hnone]
    exact .inr ⟨rfl, fun j hle => hnot j (Int.toNat_le.mpr hle)⟩

/-- The places at which a piece is found are those of characters. -/
theorem LeastPlace.bounds {s piece : String} (h : piece ≠ "") {start place : Int}
    (hleast : LeastPlace (FoundAt c s piece) start place) :
    -1 ≤ place ∧ place < (searched c s).length := by
  obtain ⟨i, rfl, hfound, -⟩ | ⟨rfl, -⟩ := hleast
  · have hi : i < (searched c s).length := lt_length_of_begins (searched_ne_nil c h) hfound.2
    omega
  · omega

/-- What is behind a place in the text begins with a piece. -/
def BeginsAt (s piece : String) (place : Nat) : Prop :=
  Builtin.apply c .startsWith [substringFrom s place, .string piece] = .ok (.one (.boolean true))

theorem beginsAt_iff {s piece : String} {place : Nat} :
    BeginsAt c s piece place ↔
      searched c piece <+: searched c (String.ofList (s.toList.drop place)) := by
  rw [← List.isPrefixOf_iff_prefix]
  unfold BeginsAt
  change Except.ok (CallResult.one (.boolean _)) = _ ↔ _
  simp [startsWith]

/-- In a text that is lowered in place, a piece begins where it begins in the lowered text. -/
theorem beginsAt_of_lowersInPlace {s piece : String}
    (h : c = .ignoreCase → LowersInPlace s.toList) (place : Nat) :
    BeginsAt c s piece place ↔ FoundAt c s piece place := by
  rw [beginsAt_iff, FoundAt]
  cases c with
  | binary => simp [searched, Collation.foldsCase]
  | ignoreCase => simp [searched, Collation.foldsCase, (h rfl).lower_drop]

end Strings

/-! ### Texts that are not lowered in place

The condition cannot be weakened: each way to miss it shows in a search. If a character becomes
several ones, the end of the lowered text is found behind the end of the text; and a capital sigma
that ends a word is found as a small one that the rest of the text does not begin with. -/

namespace Text

/-- Some piece is one character long in lower case, which is the last one of a text in lower
case. -/
theorem exists_last_piece {text : List Char} (h : text ≠ []) :
    ∃ piece x, piece ≠ [] ∧ lower piece = [x] ∧ [x] <:+ lower text := by
  obtain ⟨front, c, rfl⟩ : ∃ front c, text = front ++ [c] :=
    ⟨_, _, (List.dropLast_append_getLast h).symm⟩
  have hsuffix : lowerBeside front.reverse c [] <:+ lower (front ++ [c]) := by
    rw [lower_eq, lowerBetween_append]
    simp [lowerBetween]
  by_cases hc : c = capitalSigma
  · rw [lowerBeside, if_pos hc, lowerSigma] at hsuffix
    split at hsuffix
    · exact ⟨['\u03c2'], _, List.cons_ne_nil _ _, by decide +kernel, hsuffix⟩
    · exact ⟨['\u03c3'], _, List.cons_ne_nil _ _, by decide +kernel, hsuffix⟩
  · rw [lowerBeside, if_neg hc] at hsuffix
    rcases lowerChar_single_or c with hsingle | hdouble
    · obtain ⟨x, hx⟩ := List.length_eq_one_iff.mp hsingle
      rw [hx] at hsuffix
      refine ⟨[c], x, List.cons_ne_nil _ _, ?_, hsuffix⟩
      rw [lower_eq, lowerBetween, lowerBeside, if_neg hc, hx]
      rfl
    · rw [hdouble] at hsuffix
      refine ⟨['\u0307'], '\u0307', List.cons_ne_nil _ _, by decide +kernel, ?_⟩
      exact (List.suffix_cons 'i' ['\u0307']).trans hsuffix

end Text

namespace Strings

open Text

/-- If a piece begins in a text wherever it begins in the lowered text, the text is lowered in
place. -/
theorem lowersInPlace_of_beginsAt {s : String}
    (h : ∀ piece : String, piece ≠ "" → ∀ place,
      FoundAt .ignoreCase s piece place → BeginsAt .ignoreCase s piece place) :
    LowersInPlace s.toList := by
  have hpieces (piece : List Char) (hne : piece ≠ []) (place : Nat)
      (hfound : lower piece <+: (lower s.toList).drop place) :
      lower piece <+: lower (s.toList.drop place) := by
    have := (beginsAt_iff .ignoreCase).mp (h (String.ofList piece) (by simpa using hne) place
      (by simpa [FoundAt, searched, Collation.foldsCase] using hfound))
    simpa [searched, Collation.foldsCase] using this
  have hsingle : ∀ c ∈ s.toList, (lowerChar c).length = 1 := by
    apply single_of_length
    by_contra hlonger
    have hne : s.toList ≠ [] := fun hnil => hlonger (by rw [hnil]; exact Nat.le_refl 0)
    obtain ⟨piece, x, hpiece, hx, front, hfront⟩ := exists_last_piece hne
    have hlength : s.toList.length ≤ front.length := by
      rw [← hfront, List.length_append, List.length_singleton] at hlonger
      omega
    have hfound : lower piece <+: (lower s.toList).drop front.length :=
      ⟨[], by rw [hx, ← hfront, List.drop_left, List.append_nil]⟩
    have hbegins := hpieces piece hpiece front.length hfound
    rw [List.drop_eq_nil_of_le hlength, hx] at hbegins
    cases List.prefix_nil.mp hbegins
  refine ⟨hsingle, fun u v htext hends => ?_⟩
  -- By itself, a sigma with nothing in front of it does not end a word.
  have hfinal : lowerSigma u.reverse v = '\u03c2' := by simp [lowerSigma, hends.1, hends.2]
  have hfirst : (lowerBetween [] u (capitalSigma :: v ++ [])).length = u.length := by
    apply length_lowerBetween_of_single
    intro c hc
    exact hsingle c (by rw [htext]; exact List.mem_append_left _ hc)
  have hlower : lower ['\u03c2'] = ['\u03c2'] := by decide +kernel
  have hfound : lower ['\u03c2'] <+: (lower s.toList).drop u.length := by
    rw [hlower, htext, lower_eq, lowerBetween_append, List.drop_left' hfirst]
    simp [lowerBetween, lowerBeside, hfinal]
  have hbegins := hpieces ['\u03c2'] (List.cons_ne_nil _ _) u.length hfound
  rw [hlower, htext, List.drop_left, lower_eq, lowerBetween, lowerBeside, if_pos rfl] at hbegins
  have hmedial : lowerSigma [] (v ++ []) = '\u03c3' := rfl
  rw [hmedial, List.singleton_append, List.cons_prefix_cons] at hbegins
  exact absurd hbegins.1 (by decide)

end Strings

/-! ### Main results -/

open Strings

/-- What is put together from texts is found in it by `STARTSWITH`, `ENDSWITH` and `CONTAINS`, under
the binary collation always. Under the other one a text begins with its first part, and ends with
its last, just if no capital sigma ends a word in the part and not in the text, or the other way
round: whole texts are lowered, and the lower case of a capital sigma depends on what is around it.
A part in the middle is found if this holds of it. -/
theorem pieces_found (c : Collation) (a b d : String) :
    ∃ starts ends holds : Bool,
      (do
        let whole ← Arithmetic.apply .add (.string a) (.string b)
        Builtin.apply c .startsWith [whole, .string a]) = .ok (.one (.boolean starts)) ∧
      (starts = true ↔ (c = .ignoreCase → Text.KeepsWordEnds [] a.toList b.toList)) ∧
      (do
        let whole ← Arithmetic.apply .add (.string a) (.string b)
        Builtin.apply c .endsWith [whole, .string b]) = .ok (.one (.boolean ends)) ∧
      (ends = true ↔ (c = .ignoreCase → Text.KeepsWordEnds a.toList.reverse b.toList [])) ∧
      (do
        let front ← Arithmetic.apply .add (.string a) (.string b)
        let whole ← Arithmetic.apply .add front (.string d)
        Builtin.apply c .contains [whole, .string b]) = .ok (.one (.boolean holds)) ∧
      ((c = .ignoreCase → Text.KeepsWordEnds a.toList.reverse b.toList d.toList) → holds = true) :=
  ⟨startsWith c (a ++ b) a, endsWith c (a ++ b) b, contains c (a ++ b ++ d) b, rfl,
    startsWith_append c, rfl, endsWith_append c, rfl, contains_append c⟩

/-- Sigmas that end words in the text and by themselves. -/
theorem pieces_found_words :
    (do
      let whole ← Arithmetic.apply .add (.string "ΟΔΟΣ ") (.string "ΑΣ")
      Builtin.apply .ignoreCase .startsWith [whole, .string "ΟΔΟΣ "]) =
        .ok (.one (.boolean true)) ∧
    (do
      let front ← Arithmetic.apply .add (.string "ΟΔΟΣ ") (.string "ΑΣ")
      let whole ← Arithmetic.apply .add front (.string " Α")
      Builtin.apply .ignoreCase .contains [whole, .string "ΑΣ"]) = .ok (.one (.boolean true)) := by
  obtain ⟨starts, -, holds, hstarts, hiff, -, -, hholds, htrue⟩ :=
    pieces_found .ignoreCase "ΟΔΟΣ " "ΑΣ" " Α"
  rw [hiff.mpr fun _ => Text.lowerBetween_eq_lower_iff.mp (by decide +kernel)] at hstarts
  rw [htrue fun _ => Text.lowerBetween_eq_lower_iff.mp (by decide +kernel)] at hholds
  exact ⟨hstarts, hholds⟩

/-- `STARTSWITH` looks for the piece as if its last letter ended a word, which it does not in the
text. -/
theorem pieces_not_found : ¬ ∀ (c : Collation) (a b : String),
    (do
      let whole ← Arithmetic.apply .add (.string a) (.string b)
      Builtin.apply c .startsWith [whole, .string a]) = .ok (.one (.boolean true)) := by
  intro h
  have hstarts := h .ignoreCase "ΑΣ" "Α"
  have hnot : startsWith .ignoreCase ("ΑΣ" ++ "Α") "ΑΣ" = false := by decide +kernel
  change Except.ok (CallResult.one (.boolean (startsWith .ignoreCase ("ΑΣ" ++ "Α") "ΑΣ"))) = _
    at hstarts
  rw [hnot] at hstarts
  cases hstarts

/-- The place that `INDEXOF` tells of a piece, as a number of 32 bits, is the least one from the
start on at which the piece is found in the text as the collation looks for pieces in it; it is -1
if there is none. If the text is lowered in place, this is the least place behind which the text
itself begins with the piece; and if the two agree for all pieces and starts, the text is lowered in
place. -/
theorem indexOf_least (c : Collation) (s : String) :
    (∀ (piece : String) (start : Value), piece ≠ "" → start.isNumber = true → ∃ place : Int,
      Builtin.apply c .indexOfFrom [.string s, .string piece, start] =
        .ok (.one (.int32 (Int32.ofInt place))) ∧
      ((searched c s).length ≤ 2147483648 → (Int32.ofInt place).toInt = place) ∧
      LeastPlace (FoundAt c s piece) start.asInt place ∧
      ((c = .ignoreCase → Text.LowersInPlace s.toList) →
        LeastPlace (BeginsAt c s piece) start.asInt place)) ∧
    ((∀ piece : String, piece ≠ "" → ∀ start place, LeastPlace (FoundAt c s piece) start place →
      LeastPlace (BeginsAt c s piece) start place) →
        c = .ignoreCase → Text.LowersInPlace s.toList) := by
  refine ⟨fun piece start hpiece hstart => ?_, fun h hc => ?_⟩
  · have hleast := leastPlace_placeOf c hpiece s start.asInt
    refine ⟨_, apply_indexOfFrom c s piece hstart, fun hlength => ?_, hleast, fun h => ?_⟩
    · obtain ⟨hlower, hupper⟩ := hleast.bounds c hpiece
      exact Int32.toInt_ofInt_of_le (by omega) (by omega)
    · exact (LeastPlace.congr (beginsAt_of_lowersInPlace c h)).mpr hleast
  · subst hc
    apply lowersInPlace_of_beginsAt
    intro piece hpiece place hfound
    exact leastPlace_self_iff.mp (h piece hpiece place place (leastPlace_self_iff.mpr hfound))

/-- Letters with one character in lower case each. -/
theorem indexOf_least_accent : LeastPlace (BeginsAt .ignoreCase "ÀÉ" "é") 0 1 := by
  obtain ⟨place, hplace, hint, -, hleast⟩ :=
    (indexOf_least .ignoreCase "ÀÉ").1 "é" (.int32 0) (by decide) rfl
  have hlower : Text.LowersInPlace "ÀÉ".toList := by
    refine ⟨Text.single_of_length (by decide +kernel), fun u v htext => ?_⟩
    have hmem : Text.capitalSigma ∈ "ÀÉ".toList := by
      rw [htext]
      exact List.mem_append_right _ List.mem_cons_self
    exact absurd hmem (by decide)
  have hone : placeOf .ignoreCase "ÀÉ" "é" (Value.int32 0).asInt = 1 := by decide +kernel
  rw [apply_indexOfFrom .ignoreCase _ _ rfl, hone] at hplace
  obtain rfl : place = 1 := by
    rw [← hint (by decide +kernel)]
    simp only [Except.ok.injEq, CallResult.one.injEq, Value.int32.injEq] at hplace
    rw [← hplace]
    rfl
  exact hleast fun _ => hlower

/-- The first letter has two characters in lower case, so `INDEXOF` tells of the piece behind it a
place further than it is. -/
theorem indexOf_not_least : ¬ ∀ (c : Collation) (s piece : String) (start : Value),
    piece ≠ "" → start.isNumber = true → 0 ≤ start.asInt → ∃ place : Int,
      Builtin.apply c .indexOfFrom [.string s, .string piece, start] =
        .ok (.one (.int32 (Int32.ofInt place))) ∧
      LeastPlace (BeginsAt c s piece) start.asInt place := by
  intro h
  obtain ⟨place, hplace, hleast⟩ := h .ignoreCase "İx" "x" (.int32 0) (by decide) rfl (by decide)
  have hbegins : BeginsAt .ignoreCase "İx" "x" 1 := by
    rw [beginsAt_iff, ← List.isPrefixOf_iff_prefix]
    decide +kernel
  have htwo : placeOf .ignoreCase "İx" "x" (Value.int32 0).asInt = 2 := by decide +kernel
  rw [apply_indexOfFrom .ignoreCase _ _ rfl, htwo] at hplace
  simp only [Except.ok.injEq, CallResult.one.injEq, Value.int32.injEq] at hplace
  obtain ⟨i, rfl, -, hle⟩ | ⟨-, hnot⟩ := hleast
  · have hi : i ≤ 1 := hle ⟨by decide, hbegins⟩
    have hcases : i = 0 ∨ i = 1 := by omega
    rcases hcases with rfl | rfl <;> exact absurd hplace (by decide)
  · exact hnot 1 (by decide) hbegins

end DocQuery
