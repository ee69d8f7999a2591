import DocQuery.Builtin.Apply
import DocQuery.Proofs.CalendarText
import DocQuery.Proofs.IntegerArithmetic
/-!
# DocQuery.Proofs.CivilDates

Days by year, month and day of the month. A day of the calendar has one number, from which these
three are read off again (`ofCivil_eq_some_iff`), so the date that is put together from them tells
the same three. Month and day are taken as they are; of the year only what 32 bits leave of it is
taken, so a year far outside the calendar may stand for another one (`civil_dates`).
-/

namespace DocQuery

namespace Calendar

variable {year : Int}

/-! ### The day of a number -/

theorem daysBeforeMonth_mono (year : Int) {m m' : Nat} (hm : 1 ≤ m) (h : m ≤ m') :
    daysBeforeMonth year m ≤ daysBeforeMonth year m' := by
  induction h with
  | refl => exact Nat.le_refl _
  | step h ih =>
      rw [daysBeforeMonth_succ year (hm.trans h)]
      omega

/-- A day of an earlier month comes earlier in the year. -/
theorem daysBeforeMonth_add_lt {m m' d d' : Nat} (hm : 1 ≤ m) (h : m < m')
    (hd : d ≤ monthLength year m) (hd' : 1 ≤ d') :
    daysBeforeMonth year m + d < daysBeforeMonth year m' + d' := by
  have hsucc := daysBeforeMonth_succ year hm
  have hmono := daysBeforeMonth_mono year (Nat.le_add_left 1 m) h
  omega

theorem LiesIn.not_lt {n year year' : Int} {past past' : Nat} (h : LiesIn n year past)
    (h' : LiesIn n year' past') : ¬ year < year' := by
  intro hlt
  have hsucc := daysBeforeYear_succ year
  have hmono := daysBeforeYear_mono (Int.add_one_le_of_lt hlt)
  have := h.past_lt
  have := h.number_eq
  have := h'.number_eq
  omega

/-- A number lies in one year, so many days after its first. -/
theorem LiesIn.unique {n year year' : Int} {past past' : Nat} (h : LiesIn n year past)
    (h' : LiesIn n year' past') : year = year' ∧ past = past' := by
  have hyear : year = year' := by
    have := h.not_lt h'
    have := h'.not_lt h
    omega
  subst hyear
  have := h.number_eq
  have := h'.number_eq
  exact ⟨rfl, by omega⟩

theorem liesIn_dayNumber {c : Civil} (h : Civil.IsDay c) :
    LiesIn (dayNumber c) c.year (daysBeforeMonth c.year c.month + c.day - 1) where
  past_lt := by
    obtain ⟨-, hmonth, hmonth', hday, hday'⟩ := h
    have hlast := daysBeforeMonth_add_lt hmonth (Nat.lt_succ_of_le hmonth') hday' (Nat.le_refl 1)
    rw [daysBeforeMonth_thirteen] at hlast
    omega
  number_eq := by
    obtain ⟨-, -, -, hday, -⟩ := h
    rw [dayNumber]
    omega

/-- Year, month and day of the month are read off the number of a day. -/
theorem ofDayNumber_dayNumber {c : Civil} (h : Civil.IsDay c) : ofDayNumber (dayNumber c) = c := by
  obtain ⟨past, hyear, hmonth, hday, hpast⟩ := ofDayNumber_spec (dayNumber c)
  obtain ⟨heq, rfl⟩ := hyear.unique (liesIn_dayNumber h)
  obtain ⟨-, hcmonth, -, hcday⟩ := h
  generalize ofDayNumber (dayNumber c) = found at *
  obtain ⟨cyear, cmonth, cday⟩ := c
  obtain ⟨year, m, d⟩ := found
  cases heq
  dsimp only at *
  -- Were the months different, so would be the days of the year.
  have hmonths : m = cmonth := by
    rcases Nat.lt_trichotomy m cmonth with hlt | heq | hgt
    · have := daysBeforeMonth_add_lt hmonth.1 hlt hday.2 hcday.1
      omega
    · exact heq
    · have := daysBeforeMonth_add_lt hcmonth hgt hcday.2 hday.1
      omega
  subst hmonths
  have hdays : d = cday := by omega
  rw [hdays]

/-- The number of a day of the calendar lies within the calendar. -/
theorem number_within {c : Civil} (h : Civil.IsDay c) :
    firstDay ≤ dayNumber c ∧ dayNumber c ≤ lastDay := by
  have hyear := liesIn_dayNumber h
  have hlt := hyear.past_lt
  have hnumber := hyear.number_eq
  have hfirst := daysBeforeYear_mono h.1.1
  have hlast := daysBeforeYear_mono (Int.add_le_add_right h.1.2 1)
  rw [daysBeforeYear_succ c.year] at hlast
  rw [firstDay, lastDay]
  omega

/-- These are year, month and day of the month of a day of the calendar. -/
def IsDate (year month day : Int) : Prop :=
  InYears year ∧ (1 ≤ month ∧ month ≤ 12) ∧ 1 ≤ day ∧ day ≤ monthLength year month.toNat

instance (year month day : Int) : Decidable (IsDate year month day) :=
  inferInstanceAs (Decidable (_ ∧ _))

theorem isDay_iff {year month day : Int} (hmonth : 0 ≤ month) (hday : 0 ≤ day) :
    Civil.IsDay ⟨year, month.toNat, day.toNat⟩ ↔ IsDate year month day := by
  obtain ⟨m, rfl⟩ := Int.eq_ofNat_of_zero_le hmonth
  obtain ⟨d, rfl⟩ := Int.eq_ofNat_of_zero_le hday
  simp only [Civil.IsDay, IsDate, Int.toNat_natCast]
  omega

theorem fitsInt32_of_inYears (h : InYears year) : Number.FitsInt32 year := by
  have hfirst : -262143 ≤ year := h.1
  have hlast : year ≤ 262142 := h.2
  omega

end Calendar

/-- There is one date with a year, a month and a day of the month, if there is such a day. -/
theorem Date.ofCivil_eq_some_iff {c : Civil} {date : Date} :
    Date.ofCivil? c = some date ↔ Calendar.Civil.IsDay c ∧ date.civil = c := by
  constructor
  · intro h
    rw [ofCivil?] at h
    split at h
    · rename_i hday
      rw [ofNumber?, dif_pos (Calendar.number_within hday)] at h
      cases h
      exact ⟨hday, Calendar.ofDayNumber_dayNumber hday⟩
    · cases h
  · rintro ⟨-, rfl⟩
    exact ofCivil_civil date

theorem Date.exists_ofCivil {c : Civil} (h : Calendar.Civil.IsDay c) :
    ∃ date, Date.ofCivil? c = some date := by
  rw [ofCivil?, if_pos h]
  exact ⟨_, dif_pos (Calendar.number_within h)⟩

/-! ### Dates put together and taken apart -/

namespace Dates

/-- A function tells this integer of a value. -/
def Tells (c : Collation) (f : Builtin) (v : Value) (n : Int) : Prop :=
  ∃ part, Builtin.apply c f [v] = .ok (.one part) ∧ part.integer? = some n

/-- The value is the beginning of a day, of which year, month and day of the month are told. -/
structure BeginsDay (c : Collation) (v : Value) (year month day : Int) : Prop where
  midnight : ∃ t : DateTime, v = .dateTime t ∧ t.second = 0 ∧ t.nano = 0
  year : Tells c .year v year
  month : Tells c .month v month
  day : Tells c .day v day

/-- The value is the beginning of the day with this year, month and day of the month, or null, and
that exactly if the calendar has no such day. -/
def IsDayOf (c : Collation) (v : Value) (year month day : Int) : Prop :=
  (v = .null ∨ BeginsDay c v year month day) ∧
    (v = .null ↔ ¬ Calendar.IsDate year month day)

variable {c : Collation} {year month day : Int}

theorem integer_int32_ofNat {n : Nat} (h : n < 2147483648) :
    (Value.int32 (Int32.ofInt n)).integer? = some (n : Int) :=
  congrArg some (Int32.toInt_ofInt_of_le (by omega) (by omega))

theorem beginsDay_ofDate (c : Collation) (date : Date) :
    BeginsDay c (.dateTime (.ofDate date)) date.civil.year date.civil.month date.civil.day := by
  obtain ⟨hyear, -, hmonth, -, hday⟩ := date.civil_isDay
  have hfits := Calendar.fitsInt32_of_inYears hyear
  have hlength := Calendar.monthLength_le date.civil.year date.civil.month
  exact {
    midnight := ⟨_, rfl, rfl, rfl⟩
    year := ⟨_, rfl, congrArg some (Int32.toInt_ofInt_of_le hfits.1 hfits.2)⟩
    month := ⟨_, rfl, integer_int32_ofNat (show date.civil.month < _ by omega)⟩
    day := ⟨_, rfl, integer_int32_ofNat (show date.civil.day < _ by omega)⟩ }

theorem ofCivil_of_nonneg (hmonth : 0 ≤ month) (hday : 0 ≤ day) :
    ofCivil year month day =
      ((Date.ofCivil? ⟨(Int32.ofInt year).toInt, month.toNat, day.toNat⟩).map
        fun date => Value.dateTime (.ofDate date)).getD .null := by
  simp only [ofCivil, hmonth, hday, and_self, guard_true, Option.pure_def, Option.bind_eq_bind,
    Option.bind_some]
  cases Date.ofCivil? ⟨(Int32.ofInt year).toInt, month.toNat, day.toNat⟩ <;> rfl

theorem ofCivil_of_isDate (c : Collation)
    (h : Calendar.IsDate (Int32.ofInt year).toInt month day) :
    BeginsDay c (ofCivil year month day) (Int32.ofInt year).toInt month day := by
  have hmonth : 0 ≤ month := by have := h.2.1.1; omega
  have hday : 0 ≤ day := by have := h.2.2.1; omega
  obtain ⟨date, hdate⟩ := Date.exists_ofCivil ((Calendar.isDay_iff hmonth hday).mpr h)
  have hbegins := beginsDay_ofDate c date
  rw [ofCivil_of_nonneg hmonth hday, hdate]
  rwa [(Date.ofCivil_eq_some_iff.mp hdate).2, Int.toNat_of_nonneg hmonth,
    Int.toNat_of_nonneg hday] at hbegins

theorem ofCivil_of_not_isDate (h : ¬ Calendar.IsDate (Int32.ofInt year).toInt month day) :
    ofCivil year month day = .null := by
  by_cases hsign : 0 ≤ month ∧ 0 ≤ day
  · rw [ofCivil_of_nonneg hsign.1 hsign.2, Date.ofCivil?,
      if_neg (mt (Calendar.isDay_iff hsign.1 hsign.2).mp h)]
    rfl
  · simp [ofCivil, hsign]

theorem BeginsDay.ne_null {v : Value} (h : BeginsDay c v year month day) : v ≠ .null := by
  obtain ⟨t, rfl, -⟩ := h.midnight
  exact Value.noConfusion

/-- What is put together is the day of the year that is left in 32 bits. -/
theorem isDayOf_ofCivil (c : Collation) (year month day : Int) :
    IsDayOf c (ofCivil year month day) (Int32.ofInt year).toInt month day := by
  by_cases h : Calendar.IsDate (Int32.ofInt year).toInt month day
  · have hbegins := ofCivil_of_isDate c h
    exact ⟨.inr hbegins, iff_of_false hbegins.ne_null (not_not_intro h)⟩
  · have hnull := ofCivil_of_not_isDate h
    exact ⟨.inl hnull, iff_of_true hnull h⟩

/-- It is the day of the year that was given as long as that fits 32 bits, or as long as what is
left of it gives no day either. -/
theorem isDayOf_ofCivil_iff (c : Collation) (year month day : Int) :
    IsDayOf c (ofCivil year month day) year month day ↔
      Number.FitsInt32 year ∨ ¬ Calendar.IsDate (Int32.ofInt year).toInt month day := by
  have hleft := isDayOf_ofCivil c year month day
  by_cases hfits : Number.FitsInt32 year
  · rw [Int32.toInt_ofInt_of_le hfits.1 hfits.2] at hleft
    exact iff_of_true hleft (.inl hfits)
  · have hnone : ¬ Calendar.IsDate year month day :=
      fun h => hfits (Calendar.fitsInt32_of_inYears h.1)
    rw [or_iff_right hfits, ← hleft.2]
    exact ⟨fun h => h.2.mpr hnone, fun h => ⟨.inl h, iff_of_true h hnone⟩⟩

theorem apply_dateOf (c : Collation) {y m d : Value} (hy : y.integer? = some year)
    (hm : m.integer? = some month) (hd : d.integer? = some day) :
    Builtin.apply c .dateOf [y, m, d] = .ok (.one (ofCivil year month day)) := by
  have hnumbers : (y.isNumber && m.isNumber && d.isNumber) = true := by
    rw [Value.isNumber_of_integer hy, Value.isNumber_of_integer hm, Value.isNumber_of_integer hd]
    rfl
  rw [← Value.asInt_of_integer hy, ← Value.asInt_of_integer hm, ← Value.asInt_of_integer hd]
  change Call.one _ _ (Call.dateOf? [y, m, d]) = _
  rw [Call.dateOf?, if_pos hnumbers]
  rfl

end Dates

/-- From three integers `DATETIME` makes the beginning of a day or null. Month and day of the month
are the ones given, and the year is what is left of it in 32 bits; null comes exactly if the
calendar has no such day. So the day is the one asked for, and null comes exactly if there is none,
as long as the year fits 32 bits or what is left of it gives no day either, and only then. -/
theorem civil_dates (c : Collation) {y m d : Value} {year month day : Int}
    (hy : y.integer? = some year) (hm : m.integer? = some month) (hd : d.integer? = some day) :
    ∃ v, Builtin.apply c .dateOf [y, m, d] = .ok (.one v) ∧
      Dates.IsDayOf c v (year.bmod 4294967296) month day ∧
      (Dates.IsDayOf c v year month day ↔
        Number.FitsInt32 year ∨ ¬ Calendar.IsDate (year.bmod 4294967296) month day) := by
  have hyear : (Int32.ofInt year).toInt = year.bmod 4294967296 := Int32.toInt_ofInt
  rw [← hyear]
  exact ⟨_, Dates.apply_dateOf c hy hm hd, Dates.isDayOf_ofCivil c year month day,
    Dates.isDayOf_ofCivil_iff c year month day⟩

/-- There is a day of number 29 in the February of 2000, and none in that of 1900. -/
theorem civil_dates_leap :
    (∃ v, Builtin.apply .binary .dateOf [.int32 2000, .int64 2, .int32 29] = .ok (.one v) ∧
      Dates.IsDayOf .binary v 2000 2 29 ∧ v ≠ .null) ∧
    (∃ v, Builtin.apply .binary .dateOf [.int32 1900, .int64 2, .int32 29] = .ok (.one v) ∧
      v = .null) := by
  obtain ⟨v, hv, hday, -⟩ := civil_dates .binary (y := .int32 2000) (m := .int64 2) (d := .int32 29)
    rfl rfl rfl
  obtain ⟨v', hv', hday', -⟩ :=
    civil_dates .binary (y := .int32 1900) (m := .int64 2) (d := .int32 29) rfl rfl rfl
  exact ⟨⟨v, hv, hday, fun h => hday.2.mp h (by decide)⟩, v', hv', hday'.2.mpr (by decide)⟩

/-- The year 4294969320 is 2024 in 32 bits: there is no such date, and yet `DATETIME` makes one. -/
theorem civil_dates_wrapped : ¬ ∀ (c : Collation) (y m d : Value) (year month day : Int),
    y.integer? = some year → m.integer? = some month → d.integer? = some day →
      ∃ v, Builtin.apply c .dateOf [y, m, d] = .ok (.one v) ∧
        Dates.IsDayOf c v year month day := by
  intro h
  obtain ⟨v, hv, hday⟩ := h .binary (.int64 4294969320) (.int32 1) (.int32 1) 4294969320 1 1 rfl rfl
    rfl
  rw [Dates.apply_dateOf .binary rfl rfl rfl] at hv
  cases hv
  have hsome : Calendar.IsDate (Int32.ofInt 4294969320).toInt 1 1 := by decide
  exact (Dates.ofCivil_of_isDate .binary hsome).ne_null (hday.2.mpr (by decide))

end DocQuery
