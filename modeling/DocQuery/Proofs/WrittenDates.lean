import DocQuery.Proofs.DateSteps
import DocQuery.Proofs.ExtendedJson
/-!
# DocQuery.Proofs.WrittenDates

Points in time written as JSON and read back. The written form ends with the mark of universal time,
which only the form with an offset takes (`readLocalForm_of_zone`, `readDateForm_of_zone`), and that
form begins with a digit, so no year that is written with a sign is read back. A year of four digits
is (`dates_written`).
-/

namespace DocQuery

namespace DateTime

variable {s rest : List Char}

/-! ### The mark of universal time

What the readers of dates and times without an offset take from the front of a text never holds the
mark: where it stood in the text it stands in the rest. -/

theorem mem_dropWhile {p : Char → Bool} {c : Char} (hc : p c = false) (h : c ∈ s) :
    c ∈ s.dropWhile p := by
  rw [← List.takeWhile_append_dropWhile (p := p) (l := s), List.mem_append] at h
  rcases h with htaken | hleft
  · rw [List.mem_takeWhile_imp htaken] at hc
    cases hc
  · exact hleft

theorem zone_tail {c : Char} (hc : c ≠ 'Z') (h : 'Z' ∈ c :: s) : 'Z' ∈ s :=
  (List.mem_cons.mp h).resolve_left (Ne.symm hc)

theorem zone_trimStart (h : 'Z' ∈ s) : 'Z' ∈ Text.trimStart s :=
  mem_dropWhile (by decide) h

theorem zone_takeNumber {least most n : Nat} (hread : takeNumber? least most s = some (n, rest))
    (h : 'Z' ∈ s) : 'Z' ∈ rest := by
  rw [takeNumber?] at hread
  split at hread <;> cases hread
  have hsplit := List.prefix_iff_eq_append.mp
    ((List.takeWhile_prefix Char.isDigit).trans (List.take_prefix most s))
  rw [← hsplit, List.mem_append] at h
  exact h.resolve_left fun hdigit => absurd (List.mem_takeWhile_imp hdigit) (by decide)

theorem zone_takeChar {c : Char} (hc : c ≠ 'Z') (hread : takeChar? c s = some rest)
    (h : 'Z' ∈ s) : 'Z' ∈ rest := by
  cases s with
  | nil => cases hread
  | cons d s =>
      rw [takeChar?] at hread
      split at hread <;> cases hread
      rename_i hd
      exact zone_tail (hd ▸ hc) h

theorem zone_takeFraction {n : Nat} (hread : takeFraction? s = some (n, rest)) (h : 'Z' ∈ s) :
    'Z' ∈ rest := by
  unfold takeFraction? at hread
  split at hread
  · simp only [Option.bind_eq_bind, Option.bind_eq_some_iff, Option.pure_def, Option.some.injEq,
      Prod.mk.injEq] at hread
    obtain ⟨⟨n, after⟩, hnumber, -, rfl⟩ := hread
    exact mem_dropWhile (by decide) (zone_takeNumber hnumber (zone_tail (by decide) h))
  · cases hread
    exact h

theorem zone_takeYear {year : Int} (hread : takeYear? s = some (year, rest)) (h : 'Z' ∈ s) :
    'Z' ∈ rest := by
  have h := zone_trimStart h
  unfold takeYear? at hread
  split at hread
  all_goals
    obtain ⟨⟨n, left⟩, hnumber, hrest⟩ := Option.map_eq_some_iff.mp hread
    cases hrest
  · rename_i heq
    exact zone_takeNumber hnumber (zone_tail (by decide) (heq ▸ h))
  · rename_i heq
    exact zone_takeNumber hnumber (zone_tail (by decide) (heq ▸ h))
  · exact zone_takeNumber hnumber h

theorem zone_takePart {n : Nat} (hread : takePart? s = some (n, rest)) (h : 'Z' ∈ s) : 'Z' ∈ rest :=
  zone_takeNumber hread (zone_trimStart h)

theorem zone_takeCivil {c : Civil} (hread : takeCivil? s = some (c, rest)) (h : 'Z' ∈ s) :
    'Z' ∈ rest := by
  simp only [takeCivil?, Option.bind_eq_bind, Option.bind_eq_some_iff, Option.pure_def,
    Option.some.injEq, Prod.mk.injEq] at hread
  obtain ⟨⟨year, s₁⟩, hyear, s₂, hdash, ⟨month, s₃⟩, hmonth, s₄, hdash', ⟨day, s₅⟩, hday, -, rfl⟩ :=
    hread
  have h := zone_takeChar (by decide) hdash (zone_takeYear hyear h)
  have h := zone_takeChar (by decide) hdash' (zone_takePart hmonth h)
  exact zone_takePart hday h

theorem isEmpty_of_zone (h : 'Z' ∈ s) : s.isEmpty = false :=
  List.isEmpty_eq_false_iff.mpr (List.ne_nil_of_mem h)

/-- No form of date and time without an offset holds the mark. -/
theorem readLocalForm_of_zone {join : List Char → Option (List Char)}
    (hjoin : ∀ s rest, join s = some rest → 'Z' ∈ s → 'Z' ∈ rest) (h : 'Z' ∈ s) :
    readLocalForm? join s = none := by
  rw [Option.eq_none_iff_forall_ne_some]
  intro t hread
  simp only [readLocalForm?, Option.bind_eq_bind, Option.bind_eq_some_iff] at hread
  obtain ⟨⟨civil, s₁⟩, hcivil, s₂, hjoined, ⟨hour, s₃⟩, hhour, s₄, hcolon, ⟨minute, s₅⟩, hminute,
    s₆, hcolon', ⟨second, s₇⟩, hsecond, ⟨nano, s₈⟩, hnano, _, hend, -⟩ := hread
  have h := hjoin _ _ hjoined (zone_takeCivil hcivil h)
  have h := zone_takeChar (by decide) hcolon (zone_takePart hhour h)
  have h := zone_takeChar (by decide) hcolon' (zone_takePart hminute h)
  have h := zone_takeFraction hnano (zone_takePart hsecond h)
  simp [isEmpty_of_zone h] at hend

/-- Nor does the form of a date alone. -/
theorem readDateForm_of_zone (h : 'Z' ∈ s) : readDateForm? s = none := by
  rw [Option.eq_none_iff_forall_ne_some]
  intro t hread
  simp only [readDateForm?, Option.bind_eq_bind, Option.bind_eq_some_iff] at hread
  obtain ⟨⟨civil, s₁⟩, hcivil, _, hend, -⟩ := hread
  simp [isEmpty_of_zone (zone_takeCivil hcivil h)] at hend

/-! ### Years beyond four digits -/

theorem readOffsetForm_of_not_digit {c : Char} (hc : c.isDigit = false) :
    readOffsetForm? (c :: s) = none := by
  have hyear : takeNumber? 4 4 (c :: s) = none := by
    simp [takeNumber?, hc]
  rw [readOffsetForm?, hyear]
  rfl

/-- What begins with no digit and holds the mark is read in none of the forms. -/
theorem read_of_zone {text : String} {c : Char} (htrim : Text.trim text.toList = c :: s)
    (hc : c.isDigit = false) (h : 'Z' ∈ s) : read? text = none := by
  have h : 'Z' ∈ c :: s := List.mem_cons_of_mem c h
  rw [read?, htrim, readOffsetForm_of_not_digit hc,
    readLocalForm_of_zone (fun _ _ hjoin => zone_takeChar (by decide) hjoin) h,
    readLocalForm_of_zone _ h, readDateForm_of_zone h]
  · rfl
  · intro s rest hjoin
    cases hjoin
    exact zone_trimStart

theorem yearText_of_wide {year : Int} (h : ¬(0 ≤ year ∧ year ≤ 9999)) :
    ∃ sign digits, yearText year = sign :: digits ∧ sign.isDigit = false := by
  refine ⟨_, _, if_neg h, ?_⟩
  split <;> rfl

/-- A year that is written with a sign is not read. -/
theorem read_toText_of_wide {t : DateTime}
    (hyear : ¬(0 ≤ t.date.civil.year ∧ t.date.civil.year ≤ 9999)) : read? t.toText = none := by
  obtain ⟨sign, digits, hsign, hdigit⟩ := yearText_of_wide hyear
  have hform : ∃ rest, t.toText.toList = sign :: rest ∧ 'Z' ∈ rest := by
    rw [toText, String.toList_ofList, hsign]
    simp only [List.cons_append]
    exact ⟨_, rfl, by simp⟩
  obtain ⟨rest, hrest, hzone⟩ := hform
  exact read_of_zone ((trim_toText t).trans hrest) hdigit hzone

end DateTime

/-- A point in time of whole milliseconds outside leap seconds is read back (`Value.ofJson`) from
its JSON (`Value.toJson`) exactly if its year has four digits; every other one is read as null. -/
theorem dates_written {t : DateTime} (hmilli : t.nano % 1000000 = 0)
    (hleap : t.isLeapSecond = false) :
    Value.ofJson (Value.toJson (.dateTime t)) =
      if 0 ≤ t.date.civil.year ∧ t.date.civil.year ≤ 9999 then .dateTime t else .null := by
  refine Value.ofJson_typedJson ?_
  rw [Value.ofTyped?]
  split
  · rename_i hyear
    rw [DateTime.read_toText hyear hmilli hleap]
    rfl
  · rename_i hyear
    rw [DateTime.read_toText_of_wide hyear]
    rfl

/-- The last millisecond that is read back. -/
theorem dates_written_last :
    ∃ t : DateTime, t.date.civil = ⟨9999, 12, 31⟩ ∧ t.second = 86399 ∧ t.nano = 999000000 ∧
      Value.ofJson (Value.toJson (.dateTime t)) = .dateTime t := by
  obtain ⟨date, hdate⟩ := Date.exists_ofCivil (c := ⟨9999, 12, 31⟩) (by decide)
  have hcivil := (Date.ofCivil_eq_some_iff.mp hdate).2
  let t : DateTime := ⟨date, 86399, 999000000, by decide, by decide⟩
  have hyear : 0 ≤ t.date.civil.year ∧ t.date.civil.year ≤ 9999 := by
    rw [show t.date.civil = _ from hcivil]
    decide
  have hmilli : t.nano % 1000000 = 0 := (by decide : 999000000 % 1000000 = 0)
  have hleap : t.isLeapSecond = false := rfl
  exact ⟨t, hcivil, rfl, rfl, (dates_written hmilli hleap).trans (if_pos hyear)⟩

/-- Eight thousand years after the beginning of 2024 is a point in time that is not read back. -/
theorem dates_lost :
    ∃ t u : DateTime,
      Builtin.apply .binary .dateOf [.int32 2024, .int32 1, .int32 1] = .ok (.one (.dateTime t)) ∧
      Builtin.apply .binary .dateAdd [.string "y", .int32 8000, .dateTime t] =
        .ok (.one (.dateTime u)) ∧
      u.nano % 1000000 = 0 ∧ u.isLeapSecond = false ∧
      Value.ofJson (Value.toJson (.dateTime u)) = .null := by
  obtain ⟨date, hdate⟩ := Date.exists_ofCivil (c := ⟨2024, 1, 1⟩) (by decide)
  have hcivil := (Date.ofCivil_eq_some_iff.mp hdate).2
  have hmonths : date.months = 24288 := by
    rw [Date.months, hcivil]
    decide
  have hreaches : (date.addMonths? (8000 * 12)).isSome = true := by
    rw [Date.addMonths_isSome_iff, hmonths]
    decide
  obtain ⟨later, hlater⟩ := Option.isSome_iff_exists.mp hreaches
  have hwide : ¬(0 ≤ later.civil.year ∧ later.civil.year ≤ 9999) := by
    have hsum := Date.months_addMonths hlater
    have hyear := later.months_div_mod.1
    omega
  have hadd : DatePart.add? .year (.ofDate date) 8000 = some (.ofDate later) :=
    congrArg (Option.map DateTime.ofDate) hlater
  have hname : DatePart.ofText? "y" = some .year := rfl
  have hyear : (Value.int32 2024).integer? = some 2024 := rfl
  have hfirst : (Value.int32 1).integer? = some 1 := rfl
  have hlong : (Value.int32 8000).integer? = some 8000 := rfl
  have hparts : (⟨(Int32.ofInt 2024).toInt, (1 : Int).toNat, (1 : Int).toNat⟩ : Civil) =
      ⟨2024, 1, 1⟩ := by decide
  refine ⟨.ofDate date, .ofDate later, ?_, ?_, rfl, rfl, ?_⟩
  · rw [Dates.apply_dateOf .binary hyear hfirst hfirst,
      Dates.ofCivil_of_nonneg (by decide) (by decide), hparts, hdate]
    rfl
  · rw [Dates.apply_dateAdd .binary hname hlong, Dates.add, hadd]
    rfl
  · have hnone : (DateTime.read? (DateTime.ofDate later).toText) = none :=
      DateTime.read_toText_of_wide hwide
    refine Value.ofJson_typedJson ?_
    rw [Value.ofTyped?, hnone]
    rfl

end DocQuery
