import DocQuery.Text.Case
import Mathlib.Data.List.Basic
/-!
# DocQuery.Proofs.LowerCase

The lower case of a text and of its parts. A character is lowered by itself, but for a capital
sigma, which depends on whether a word ends with it (`Text.EndsWord`). So a part of a text is
lowered as it is by itself just if its capital sigmas end words in the text where they do so in the
part (`Text.lowerBetween_eq_iff`), and the lower case of what is left of a text behind a place is
what is left of its lower case behind that place just if no word ends with a capital sigma and no
character becomes several ones (`Text.LowersInPlace`).
-/

namespace DocQuery.Text

/-! ### Words that end with a capital sigma

Whether a capital sigma ends a word is seen from the letters on both sides of it, whatever is
between them that counts as neither. -/

/-- A word of more than one letter ends with the letter between the two texts, the first of which
comes nearest character first. -/
def EndsWord (before after : List Char) : Prop :=
  meetsCased before = true ∧ meetsCased after = false

/-- The two forms of a sigma tell whether a word ends with it. -/
theorem lowerSigma_eq_iff {before after before' after' : List Char} :
    lowerSigma before after = lowerSigma before' after' ↔
      (EndsWord before after ↔ EndsWord before' after') := by
  unfold lowerSigma EndsWord
  cases meetsCased before <;> cases meetsCased after <;> cases meetsCased before' <;>
    cases meetsCased after' <;> decide

/-- What is met at first is met however the text goes on. -/
theorem meetsCased_append {s : List Char} (h : meetsCased s = true) (rest : List Char) :
    meetsCased (s ++ rest) = true := by
  unfold meetsCased at h ⊢
  rw [List.dropWhile_append]
  cases hs : s.dropWhile isCaseIgnorable with
  | nil =>
      rw [hs] at h
      cases h
  | cons c cs =>
      rw [hs] at h
      exact h

/-! ### Characters between others

Of all characters only the capital sigma looks to its sides, and it becomes one of two letters. -/

/-- Only one letter has two characters in lower case. -/
theorem lowerChar_single_or (c : Char) :
    (lowerChar c).length = 1 ∨ lowerChar c = ['i', '\u0307'] := by
  unfold lowerChar mapCase
  split
  · exact .inl rfl
  split
  · rename_i image himage
    have himages : ∀ entry ∈ lowerSequences, entry.2 = [0x69, 0x307] := by decide
    obtain ⟨before, after, heq, -⟩ := List.lookup_eq_some_iff.mp himage
    have hmem : (c.toNat, image) ∈ lowerSequences := by
      rw [heq]
      exact List.mem_append_right _ List.mem_cons_self
    obtain rfl : image = [0x69, 0x307] := himages _ hmem
    exact .inr (by decide)
  · split <;> exact .inl rfl

theorem lowerChar_ne_nil (c : Char) : lowerChar c ≠ [] := by
  rcases lowerChar_single_or c with hsingle | hdouble
  · exact List.ne_nil_of_length_eq_add_one hsingle
  · rw [hdouble]
    exact List.cons_ne_nil _ _

/-- The lower case of a character between two texts. -/
def lowerBeside (before : List Char) (c : Char) (after : List Char) : List Char :=
  if c = capitalSigma then [lowerSigma before after] else lowerChar c

/-- What is around a character does not change how many it becomes. -/
theorem length_lowerBeside (before : List Char) (c : Char) (after : List Char) :
    (lowerBeside before c after).length = (lowerChar c).length := by
  unfold lowerBeside
  by_cases h : c = capitalSigma
  · have hsigma : (lowerChar capitalSigma).length = 1 := by decide +kernel
    rw [if_pos h, h, hsigma]
    rfl
  · rw [if_neg h]

theorem lowerBeside_eq_iff {before before' : List Char} {c : Char} {after after' : List Char} :
    lowerBeside before c after = lowerBeside before' c after' ↔
      (c = capitalSigma → (EndsWord before after ↔ EndsWord before' after')) := by
  unfold lowerBeside
  by_cases h : c = capitalSigma <;> simp [h, lowerSigma_eq_iff]

/-! ### Parts of a text

A text is lowered part by part, each between what stands before and behind it. So all that is said
of whole texts is said of parts. -/

/-- The lower case of a part of a text, which stands between two others. What is in front of it
comes nearest character first. -/
def lowerBetween (before : List Char) : List Char → List Char → List Char
  | [], _ => []
  | c :: rest, after =>
    lowerBeside before c (rest ++ after) ++ lowerBetween (c :: before) rest after

theorem lowerAfter_eq (before text : List Char) :
    lowerAfter before text = lowerBetween before text [] := by
  induction text generalizing before with
  | nil => rfl
  | cons c rest ih =>
      rw [lowerAfter, lowerBetween, ih, List.append_nil]
      rfl

theorem lower_eq (text : List Char) : lower text = lowerBetween [] text [] := lowerAfter_eq [] text

/-- A text is lowered part by part, each of them between the others. -/
theorem lowerBetween_append (before text text' after : List Char) :
    lowerBetween before (text ++ text') after =
      lowerBetween before text (text' ++ after) ++
        lowerBetween (text.reverse ++ before) text' after := by
  induction text generalizing before with
  | nil => rfl
  | cons c rest ih =>
      rw [List.cons_append, lowerBetween, lowerBetween, ih, List.append_assoc, List.append_assoc,
        List.reverse_cons, List.append_assoc]
      rfl

/-- What is around a text does not change how long its lower case is. -/
theorem length_lowerBetween (before text after : List Char) :
    (lowerBetween before text after).length = (text.flatMap lowerChar).length := by
  induction text generalizing before with
  | nil => rfl
  | cons c rest ih =>
      rw [lowerBetween, List.length_append, length_lowerBeside, ih, List.flatMap_cons,
        List.length_append]

/-- A text is lowered alike between different texts just if the same of its capital sigmas end
words. -/
theorem lowerBetween_eq_iff {before before' text after after' : List Char} :
    lowerBetween before text after = lowerBetween before' text after' ↔
      ∀ u v, text = u ++ capitalSigma :: v →
        (EndsWord (u.reverse ++ before) (v ++ after) ↔
          EndsWord (u.reverse ++ before') (v ++ after')) := by
  induction text generalizing before before' with
  | nil => exact iff_of_true rfl fun u v h => by simp at h
  | cons c rest ih =>
      have hparts :
          lowerBetween before (c :: rest) after = lowerBetween before' (c :: rest) after' ↔
          lowerBeside before c (rest ++ after) = lowerBeside before' c (rest ++ after') ∧
            lowerBetween (c :: before) rest after = lowerBetween (c :: before') rest after' := by
        constructor
        · exact fun h => List.append_inj h (by rw [length_lowerBeside, length_lowerBeside])
        · intro h
          rw [lowerBetween, lowerBetween, h.1, h.2]
      rw [hparts, lowerBeside_eq_iff, ih]
      constructor
      · intro h u v htext
        cases u with
        | nil =>
            obtain ⟨hc, hrest⟩ := List.cons.inj htext
            exact hrest ▸ h.1 hc
        | cons d u =>
            obtain ⟨hd, hrest⟩ := List.cons.inj htext
            subst hd
            simpa using h.2 u v hrest
      · intro h
        refine ⟨fun hc => ?_, fun u v hrest => ?_⟩
        · exact h [] rest (by rw [hc, List.nil_append])
        · simpa using h (c :: u) v (by rw [hrest, List.cons_append])

/-- In the part of a text that stands between these others, a capital sigma ends a word just if it
does so in the part by itself. -/
def KeepsWordEnds (before part after : List Char) : Prop :=
  ∀ u v, part = u ++ capitalSigma :: v →
    (EndsWord (u.reverse ++ before) (v ++ after) ↔ EndsWord u.reverse v)

/-- This is when the part is lowered as it is by itself. -/
theorem lowerBetween_eq_lower_iff {before part after : List Char} :
    lowerBetween before part after = lower part ↔ KeepsWordEnds before part after := by
  rw [lower_eq, lowerBetween_eq_iff]
  simp only [List.append_nil]
  rfl

/-! ### Places in a text

Characters may become several ones, and then places are counted differently in the lowered text. As
every character becomes at least one, the text has as many as before just if each becomes one. -/

/-- Each character of the text has one character in its place in lower case, which is the one that
it has by itself or behind a place: no capital sigma ends a word. -/
structure LowersInPlace (text : List Char) : Prop where
  single : ∀ c ∈ text, (lowerChar c).length = 1
  not_endsWord : ∀ u v, text = u ++ capitalSigma :: v → ¬ EndsWord u.reverse v

theorem length_lowerBetween_of_single {text : List Char} (h : ∀ c ∈ text, (lowerChar c).length = 1)
    (before after : List Char) : (lowerBetween before text after).length = text.length := by
  rw [length_lowerBetween]
  induction text with
  | nil => rfl
  | cons c rest ih =>
      obtain ⟨hc, hrest⟩ := List.forall_mem_cons.mp h
      rw [List.flatMap_cons, List.length_append, hc, ih hrest, List.length_cons, Nat.add_comm]

theorem length_le_length_flatMap (text : List Char) :
    text.length ≤ (text.flatMap lowerChar).length := by
  induction text with
  | nil => exact Nat.le_refl 0
  | cons c rest ih =>
      have := List.length_pos_iff.mpr (lowerChar_ne_nil c)
      rw [List.flatMap_cons, List.length_append, List.length_cons]
      omega

/-- A text with a character that becomes several ones is longer in lower case. -/
theorem single_of_length {text : List Char} (h : (lower text).length ≤ text.length) :
    ∀ c ∈ text, (lowerChar c).length = 1 := by
  rw [lower_eq, length_lowerBetween] at h
  induction text with
  | nil => nofun
  | cons c rest ih =>
      have := List.length_pos_iff.mpr (lowerChar_ne_nil c)
      have := length_le_length_flatMap rest
      rw [List.flatMap_cons, List.length_append, List.length_cons] at h
      exact List.forall_mem_cons.mpr ⟨by omega, ih (by omega)⟩

namespace LowersInPlace

variable {text : List Char} (h : LowersInPlace text)

include h

theorem length_lower : (lower text).length = text.length := by
  rw [lower_eq]
  exact length_lowerBetween_of_single h.single [] []

/-- The capital sigmas behind a place end no words either if nothing is in front of them. -/
theorem keepsWordEnds {front back : List Char} (htext : front ++ back = text) :
    KeepsWordEnds front.reverse back [] := by
  intro u v hback
  have hnot : ¬ EndsWord (u.reverse ++ front.reverse) v := by
    rw [← List.reverse_append]
    exact h.not_endsWord (front ++ u) v (by rw [← htext, hback, List.append_assoc])
  rw [List.append_nil]
  refine iff_of_false hnot fun hends => hnot ?_
  exact ⟨meetsCased_append hends.1 front.reverse, hends.2⟩

/-- What is left behind a place is lowered as it is in the text. -/
theorem lower_drop (place : Nat) : lower (text.drop place) = (lower text).drop place := by
  rcases Nat.le_total text.length place with hle | hle
  · rw [List.drop_eq_nil_of_le hle, List.drop_eq_nil_of_le (by rw [h.length_lower]; exact hle)]
    rfl
  · have htext : text.take place ++ text.drop place = text := List.take_append_drop place text
    have hfront : (lowerBetween [] (text.take place) (text.drop place ++ [])).length = place := by
      rw [length_lowerBetween_of_single fun c hc => h.single c (List.mem_of_mem_take hc)]
      exact List.length_take_of_le hle
    calc lower (text.drop place)
      _ = lowerBetween ((text.take place).reverse ++ []) (text.drop place) [] := by
        rw [List.append_nil]
        exact (lowerBetween_eq_lower_iff.mpr (h.keepsWordEnds htext)).symm
      _ = (lower (text.take place ++ text.drop place)).drop place := by
        rw [lower_eq, lowerBetween_append, List.drop_left' hfront]
      _ = (lower text).drop place := by rw [htext]

end LowersInPlace

end DocQuery.Text
