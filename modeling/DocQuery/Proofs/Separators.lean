import DocQuery.Builtin.Apply
import Mathlib.Data.List.Basic
/-!
# DocQuery.Proofs.Separators

Texts between separators. Splitting and replacing pass over a text in the same way: either an
occurrence of the separator begins, and what is behind it comes next, or none does, and one
character is passed over (`Text.passing_induction`). So what separates the pieces of a split text is
put in the place of the separator when they are joined (`Text.intercalate_splitOn`), and no piece
holds the separator (`Text.not_infix_of_mem_splitOn`). `pieces_joined` says so of the functions.
-/

namespace DocQuery

namespace Text

variable {separator new : List Char}

/-! ### Passing over a text -/

/-- A text is passed over from left to right, a whole separator or one character at a time. -/
@[elab_as_elim]
theorem passing_induction {motive : List Char → Prop} (hne : separator ≠ []) (nil : motive [])
    (found : ∀ rest, motive rest → motive (separator ++ rest))
    (passed : ∀ c rest, ¬ separator <+: c :: rest → motive rest → motive (c :: rest))
    (text : List Char) : motive text := by
  match text with
  | [] => exact nil
  | c :: rest =>
    by_cases h : separator <+: c :: rest
    · obtain ⟨behind, hbehind⟩ := h
      have hshorter : behind.length < (c :: rest).length := by
        rw [← hbehind, List.length_append]
        exact Nat.lt_add_of_pos_left (List.length_pos_iff.mpr hne)
      rw [← hbehind]
      exact found behind (passing_induction hne nil found passed behind)
    · exact passed c rest h (passing_induction hne nil found passed rest)
termination_by text.length
decreasing_by
  · exact hshorter
  · exact Nat.lt_succ_self rest.length

/-- What is dropped behind the first character of a separator is what is left of it. -/
theorem exists_cons_append (hne : separator ≠ []) (rest : List Char) :
    ∃ c front, separator ++ rest = c :: front ∧ separator.isPrefixOf (c :: front) = true ∧
      front.drop (separator.length - 1) = rest := by
  obtain ⟨c, tail, rfl⟩ := List.exists_cons_of_ne_nil hne
  refine ⟨c, tail ++ rest, rfl, ?_, ?_⟩
  · exact List.isPrefixOf_iff_prefix.mpr (List.prefix_append (c :: tail) rest)
  · simp

/-! ### Splitting -/

theorem splitOn_append (hne : separator ≠ []) (rest : List Char) :
    splitOn separator (separator ++ rest) = [] :: splitOn separator rest := by
  obtain ⟨c, front, heq, hbegins, hdrop⟩ := exists_cons_append hne rest
  rw [heq, splitOn, if_pos hbegins, hdrop]

/-- A character that is passed over is the first one of the first piece. -/
theorem splitOn_cons {c : Char} {rest first : List Char} {others : List (List Char)}
    (h : ¬ separator <+: c :: rest) (heq : splitOn separator rest = first :: others) :
    splitOn separator (c :: rest) = (c :: first) :: others := by
  rw [splitOn, if_neg (by rwa [List.isPrefixOf_iff_prefix]), heq]

/-- There is a first piece, with which the text begins. -/
theorem exists_splitOn (hne : separator ≠ []) (text : List Char) :
    ∃ first others, splitOn separator text = first :: others ∧ first <+: text := by
  induction text using passing_induction hne with
  | nil => exact ⟨[], [], by rw [splitOn], List.prefix_refl []⟩
  | found rest ih => exact ⟨[], _, splitOn_append hne rest, List.nil_prefix⟩
  | passed c rest h ih =>
      obtain ⟨first, others, heq, hfirst⟩ := ih
      exact ⟨c :: first, others, splitOn_cons h heq, List.cons_prefix_cons.mpr ⟨rfl, hfirst⟩⟩

/-- No piece holds the separator. -/
theorem not_infix_of_mem_splitOn (hne : separator ≠ []) (text : List Char) :
    ∀ piece ∈ splitOn separator text, ¬ separator <:+: piece := by
  induction text using passing_induction hne with
  | nil => simpa [splitOn] using hne
  | found rest ih =>
      rw [splitOn_append hne, List.forall_mem_cons]
      exact ⟨by simpa using hne, ih⟩
  | passed c rest h ih =>
      obtain ⟨first, others, heq, hfirst⟩ := exists_splitOn hne rest
      rw [heq, List.forall_mem_cons] at ih
      rw [splitOn_cons h heq, List.forall_mem_cons]
      refine ⟨fun hinfix => ?_, ih.2⟩
      -- The piece begins as the text does, so an occurrence at its beginning was not passed over.
      rcases List.infix_cons_iff.mp hinfix with hbegins | hwithin
      · exact h (hbegins.trans (List.cons_prefix_cons.mpr ⟨rfl, hfirst⟩))
      · exact ih.1 hwithin

/-! ### Replacing -/

theorem replaceEach_append (hne : separator ≠ []) (rest : List Char) :
    replaceEach separator new (separator ++ rest) = new ++ replaceEach separator new rest := by
  obtain ⟨c, front, heq, hbegins, hdrop⟩ := exists_cons_append hne rest
  rw [heq, replaceEach, if_pos hbegins, hdrop]

theorem replaceEach_cons {c : Char} {rest : List Char} (h : ¬ separator <+: c :: rest) :
    replaceEach separator new (c :: rest) = c :: replaceEach separator new rest := by
  rw [replaceEach, if_neg (by rwa [List.isPrefixOf_iff_prefix])]

/-- A separator in place of itself leaves the text as it is. -/
theorem replaceEach_self (hne : separator ≠ []) (text : List Char) :
    replaceEach separator separator text = text := by
  induction text using passing_induction hne with
  | nil => rw [replaceEach]
  | found rest ih => rw [replaceEach_append hne, ih]
  | passed c rest h ih => rw [replaceEach_cons h, ih]

/-- The pieces are joined to the text with something else in place of the separator. -/
theorem intercalate_splitOn (hne : separator ≠ []) (text : List Char) :
    new.intercalate (splitOn separator text) = replaceEach separator new text := by
  induction text using passing_induction hne with
  | nil => rw [splitOn, replaceEach, List.intercalate_singleton]
  | found rest ih =>
      obtain ⟨first, others, heq, -⟩ := exists_splitOn hne rest
      rw [splitOn_append hne, replaceEach_append hne, ← ih, heq, List.intercalate_cons_cons,
        List.nil_append]
  | passed c rest h ih =>
      obtain ⟨first, others, heq, -⟩ := exists_splitOn hne rest
      rw [splitOn_cons h heq, replaceEach_cons h, ← ih, heq]
      cases others with
      | nil => simp
      | cons second others => simp

end Text

/-! ### Joining -/

namespace Strings

variable {separator : String}

theorem toList_ne_nil (h : separator ≠ "") : separator.toList ≠ [] :=
  mt String.toList_eq_nil_iff.mp h

theorem split_eq (s separator : String) : split s separator =
    ((Text.splitOn separator.toList s.toList).map String.ofList).map .string := by
  rw [split, List.map_map]
  rfl

theorem replace_eq (h : separator ≠ "") (s new : String) : replace s separator new =
    .string (String.ofList (Text.replaceEach separator.toList new.toList s.toList)) := by
  rw [replace, Text.replace, if_neg (by simpa using h)]

theorem join_texts (separator : String) (pieces : List String) :
    Aggregate.join separator (pieces.map .string) = .string (separator.intercalate pieces) := by
  have htexts : (pieces.map Value.string).map Value.text = pieces := by
    rw [List.map_map]
    exact List.map_id pieces
  rw [Aggregate.join, htexts]

/-- The pieces joined with something else between them. -/
theorem join_split (h : separator ≠ "") (s new : String) :
    Aggregate.join new (split s separator) = replace s separator new := by
  rw [split_eq, join_texts, replace_eq h, ← Text.intercalate_splitOn (toList_ne_nil h)]
  congr 1
  rw [← String.toList_inj, String.toList_intercalate, List.map_map]
  simp [Function.comp_def]

theorem replace_self (h : separator ≠ "") (s : String) :
    replace s separator separator = .string s := by
  rw [replace_eq h, Text.replaceEach_self (toList_ne_nil h), String.ofList_toList]

/-- The pieces are texts that do not hold the separator. -/
theorem exists_pieces (h : separator ≠ "") (s : String) :
    ∃ pieces : List String, split s separator = pieces.map .string ∧
      ∀ piece ∈ pieces, ¬ separator.toList <:+: piece.toList := by
  refine ⟨_, split_eq s separator, ?_⟩
  rw [List.forall_mem_map]
  intro piece hpiece
  rw [String.toList_ofList]
  exact Text.not_infix_of_mem_splitOn (toList_ne_nil h) s.toList piece hpiece

end Strings

/-- `SPLIT` cuts a text at each separator into pieces that do not hold it. `JOIN` with the separator
makes the text of them again, and with another text it makes of them what `REPLACE` of the separator
by that text makes of the text. -/
theorem pieces_joined (c : Collation) (s : String) {separator : String} (h : separator ≠ "") :
    ∃ pieces : List String,
      Builtin.apply c .split [.string s, .string separator] =
        .ok (.many (pieces.map .string)) ∧
      Builtin.apply c .joinWith [.array (pieces.map .string), .string separator] =
        .ok (.one (.string s)) ∧
      (∀ piece ∈ pieces, ¬ separator.toList <:+: piece.toList) ∧
      ∀ new : String,
        Builtin.apply c .replace [.string s, .string separator, .string new] =
          Builtin.apply c .joinWith [.array (pieces.map .string), .string new] := by
  obtain ⟨pieces, hpieces, hnone⟩ := Strings.exists_pieces h s
  have hjoined : ∀ new : String, Aggregate.join new (pieces.map .string) =
      Strings.replace s separator new := by
    intro new
    rw [← hpieces, Strings.join_split h]
  have hempty : separator.isEmpty = false := by simpa using h
  refine ⟨pieces, ?_, ?_, hnone, fun new => ?_⟩
  · rw [← hpieces]
    simp [Builtin.apply, Call.splitText, hempty]
  · simp [Builtin.apply, Call.joinWith?, Call.one, hjoined, Strings.replace_self h]
  · simp [Builtin.apply, Call.joinWith?, Call.replaced?, Call.one, hjoined]

/-- Occurrences do not overlap: the third letter is in the last piece. -/
theorem pieces_joined_overlapping :
    let pieces : List Value := [.string "", .string "aba"]
    Builtin.apply .binary .split [.string "aaaba", .string "aa"] = .ok (.many pieces) ∧
      Builtin.apply .binary .joinWith [.array pieces, .string "aa"] =
        .ok (.one (.string "aaaba")) ∧
      Builtin.apply .binary .replace [.string "aaaba", .string "aa", .string "-"] =
        .ok (.one (.string "-aba")) := by
  intro pieces
  have hpieces : Builtin.apply .binary .split [.string "aaaba", .string "aa"] =
      .ok (.many pieces) := by
    simp [Builtin.apply, Call.splitText, Strings.split, Text.splitOn, pieces]
  obtain ⟨found, hsplit, hjoined, -, hreplaced⟩ :=
    pieces_joined .binary "aaaba" (by decide : "aa" ≠ "")
  have hfound : found.map .string = pieces := by
    simpa using hsplit.symm.trans hpieces
  rw [hfound] at hjoined hreplaced
  exact ⟨hpieces, hjoined, hreplaced "-"⟩

end DocQuery
