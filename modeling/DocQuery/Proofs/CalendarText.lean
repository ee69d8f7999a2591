import DocQuery.Calendar.Text
import DocQuery.Proofs.Codecs
/-!
# DocQuery.Proofs.CalendarText

The calendar and its text. Every day of the calendar has a year, a month and a day of the month,
and these give the day back (`ofCivil_civil`). A point in time of whole milliseconds in a year of
four digits is read back from its text (`read_toText`).
-/

namespace DocQuery

namespace Calendar

/-! ### Years -/

/-- The number of days of a year. -/
def yearLength (year : Int) : Nat := if isLeap year then 366 else 365

theorem isLeap_iff (year : Int) :
    isLeap year = true ↔ year % 4 = 0 ∧ (year % 100 ≠ 0 ∨ year % 400 = 0) := by
  simp [isLeap]

theorem daysBeforeYear_succ (year : Int) :
    daysBeforeYear (year + 1) = daysBeforeYear year + yearLength year := by
  simp only [daysBeforeYear, yearLength]
  split
  · rename_i h
    rw [isLeap_iff] at h
    omega
  · rename_i h
    rw [isLeap_iff] at h
    omega

theorem daysBeforeYear_mono {a b : Int} (h : a ≤ b) : daysBeforeYear a ≤ daysBeforeYear b := by
  simp only [daysBeforeYear]
  omega

/-! ### Months -/

theorem daysBeforeMonth_one (year : Int) : daysBeforeMonth year 1 = 0 := rfl

theorem daysBeforeMonth_succ (year : Int) {month : Nat} (h : 1 ≤ month) :
    daysBeforeMonth year (month + 1) = daysBeforeMonth year month + monthLength year month := by
  obtain ⟨past, rfl⟩ := Nat.exists_eq_add_of_le' h
  simp only [daysBeforeMonth, Nat.add_sub_cancel]
  rw [List.range'_concat, List.foldl_append]
  simp [Nat.add_comm]

/-- The months together are the year. -/
theorem daysBeforeMonth_thirteen (year : Int) : daysBeforeMonth year 13 = yearLength year := by
  simp only [daysBeforeMonth, yearLength, monthLength]
  cases isLeap year <;> rfl

/-- Counting the days out over the months ends in a month, at a day of it. -/
theorem monthAndDay_spec {year : Int} {month more past m d : Nat} (hmonth : 1 ≤ month)
    (hpast : daysBeforeMonth year month + past < daysBeforeMonth year (month + more + 1))
    (h : monthAndDay year month more past = (m, d)) :
    (month ≤ m ∧ m ≤ month + more) ∧ (1 ≤ d ∧ d ≤ monthLength year m) ∧
      daysBeforeMonth year m + d = daysBeforeMonth year month + past + 1 := by
  have hsucc := daysBeforeMonth_succ year hmonth
  induction more generalizing month past with
  | zero =>
      cases h
      rw [Nat.add_zero] at hpast
      omega
  | succ more ih =>
      rw [monthAndDay] at h
      split at h
      · cases h
        omega
      · rename_i hlong
        have hmore : month + 1 + more + 1 = month + (more + 1) + 1 := by omega
        have hrest := ih (Nat.le_add_left ..) (by rw [hmore]; omega) h
          (daysBeforeMonth_succ year (Nat.le_add_left ..))
        omega

/-! ### Days -/

/-- The day with this number comes `past` days after the first day of `year`. -/
structure LiesIn (n year : Int) (past : Nat) : Prop where
  past_lt : past < yearLength year
  number_eq : daysBeforeYear year + past = n + epochDays

/-- The day is so many cycles of 400 years after the first of year 1, and in its cycle so many
spans of 100 years, in this one so many spans of four years and in this one so many years. Only the
last year of a span has a day of number 365, and the last span of four years lacks it except in
the last hundred years of a cycle. -/
theorem liesIn_of_spans {n cycle century quad single : Int} {past : Nat}
    (hdays : n + epochDays = 146097 * cycle + 36524 * century + 1461 * quad + 365 * single + past)
    (hcentury : 0 ≤ century ∧ century ≤ 3) (hquad : 0 ≤ quad ∧ quad ≤ 24)
    (hsingle : 0 ≤ single ∧ single ≤ 3) (hpast : past ≤ 365)
    (hlast : past = 365 → single = 3 ∧ (quad = 24 → century = 3)) :
    LiesIn n (1 + 400 * cycle + 100 * century + 4 * quad + single) past where
  past_lt := by
    unfold yearLength
    split
    · omega
    · rename_i hleap
      rw [isLeap_iff] at hleap
      omega
  number_eq := by
    rw [hdays, daysBeforeYear]
    omega

theorem liesIn_ofDayNumber (n : Int) :
    ∃ past, LiesIn n (ofDayNumber n).year past ∧
      monthAndDay (ofDayNumber n).year 1 11 past =
        ((ofDayNumber n).month, (ofDayNumber n).day) := by
  unfold ofDayNumber
  extract_lets days inCycle century inCentury inQuad single year
  refine ⟨(inQuad - single * 365).toNat, ?_, rfl⟩
  apply @liesIn_of_spans n (days / 146097) century (inCentury / 1461) single
  all_goals omega

/-- The year, the month and the day that are read off a number. -/
theorem ofDayNumber_spec (n : Int) :
    ∃ past, LiesIn n (ofDayNumber n).year past ∧
      (1 ≤ (ofDayNumber n).month ∧ (ofDayNumber n).month ≤ 12) ∧
      (1 ≤ (ofDayNumber n).day ∧
        (ofDayNumber n).day ≤ monthLength (ofDayNumber n).year (ofDayNumber n).month) ∧
      daysBeforeMonth (ofDayNumber n).year (ofDayNumber n).month + (ofDayNumber n).day =
        past + 1 := by
  obtain ⟨past, hyear, hmonth⟩ := liesIn_ofDayNumber n
  have hpast : daysBeforeMonth (ofDayNumber n).year 1 + past <
      daysBeforeMonth (ofDayNumber n).year (1 + 11 + 1) := by
    rw [daysBeforeMonth_one, Nat.zero_add, daysBeforeMonth_thirteen]
    exact hyear.past_lt
  have hspec := monthAndDay_spec (Nat.le_refl 1) hpast hmonth
  rw [daysBeforeMonth_one, Nat.zero_add] at hspec
  exact ⟨past, hyear, hspec⟩

/-- Every number is the one of its day. -/
theorem dayNumber_ofDayNumber (n : Int) : dayNumber (ofDayNumber n) = n := by
  obtain ⟨past, hyear, -, hday, hpast⟩ := ofDayNumber_spec n
  have hnumber := hyear.number_eq
  rw [dayNumber]
  omega

/-- A number within the calendar is the one of a day of the calendar. -/
theorem isDay_ofDayNumber {n : Int} (hfirst : firstDay ≤ n) (hlast : n ≤ lastDay) :
    Civil.IsDay (ofDayNumber n) := by
  obtain ⟨past, hyear, hmonth, hday, -⟩ := ofDayNumber_spec n
  have hlt := hyear.past_lt
  have hnumber := hyear.number_eq
  have hsucc := daysBeforeYear_succ (ofDayNumber n).year
  refine ⟨⟨?_, ?_⟩, hmonth.1, hmonth.2, hday⟩
  · by_contra hlow
    have hmono := daysBeforeYear_mono (show (ofDayNumber n).year + 1 ≤ firstYear by omega)
    rw [firstDay] at hfirst
    omega
  · by_contra hhigh
    have hmono := daysBeforeYear_mono (show lastYear + 1 ≤ (ofDayNumber n).year by omega)
    rw [lastDay] at hlast
    omega

end Calendar

/-- A date is given back by its year, its month and its day of the month. -/
theorem Date.ofCivil_civil (d : Date) : Date.ofCivil? d.civil = some d := by
  obtain ⟨n, hfirst, hlast⟩ := d
  rw [ofCivil?, civil, if_pos (Calendar.isDay_ofDayNumber hfirst hlast),
    Calendar.dayNumber_ofDayNumber]
  exact dif_pos ⟨hfirst, hlast⟩

theorem Date.civil_isDay (d : Date) : Calendar.Civil.IsDay d.civil :=
  Calendar.isDay_ofDayNumber d.first_le d.le_last

theorem Calendar.monthLength_le (year : Int) (month : Nat) : monthLength year month ≤ 31 := by
  unfold monthLength
  split
  · split <;> decide
  all_goals decide

namespace DateTime

/-! ### Numbers of fixed width -/

/-- A number that fits the width is written with exactly that many digits. -/
structure IsPadded (width n : Nat) (digits : List Char) : Prop where
  length_eq : digits.length = width
  all_isDigit : ∀ c ∈ digits, c.isDigit = true
  value_eq : Number.digitsValue digits = n

theorem digitsValue_replicate (count : Nat) (digits : List Char) :
    Number.digitsValue (List.replicate count '0' ++ digits) = Number.digitsValue digits := by
  induction count with
  | zero => rfl
  | succ count ih => exact ih

theorem isDigit_of_mem_padded {width n : Nat} {c : Char} (h : c ∈ padded width n) :
    c.isDigit = true := by
  rcases List.mem_append.mp h with hzero | hdigit
  · rw [List.eq_of_mem_replicate hzero]
    rfl
  · exact List.all_eq_true.mp (Number.all_toDigits n) c hdigit

theorem isPadded_padded {width n : Nat} (hwidth : 0 < width) (h : n < Nat.pow 10 width) :
    IsPadded width n (padded width n) where
  length_eq := by
    have hlength : (Number.toDigits n).length ≤ width :=
      (Nat.length_toDigits_le_iff (by decide) hwidth).mpr h
    simp only [padded, List.length_append, List.length_replicate]
    omega
  all_isDigit _ := isDigit_of_mem_padded
  value_eq := by rw [padded, digitsValue_replicate, Number.digitsValue_toDigits]

/-- Digits are taken as far as they go, or as far as they may. -/
theorem takeNumber_append {least most : Nat} {digits rest : List Char}
    (hleast : least ≤ digits.length) (hmost : digits.length ≤ most)
    (hdigits : ∀ c ∈ digits, c.isDigit = true)
    (hrest : digits.length = most ∨ ∀ c ∈ rest.head?, c.isDigit = false) :
    takeNumber? least most (digits ++ rest) = some (Number.digitsValue digits, rest) := by
  have hnext : (rest.take (most - digits.length)).takeWhile Char.isDigit = [] := by
    rcases hrest with hfull | hstop
    · rw [hfull, Nat.sub_self]
      rfl
    · cases rest with
      | nil => rw [List.take_nil]; rfl
      | cons c rest =>
          cases most - digits.length with
          | zero => rfl
          | succ count =>
              exact List.takeWhile_cons_of_neg (Bool.eq_false_iff.mp (hstop c rfl))
  have hread : ((digits ++ rest).take most).takeWhile Char.isDigit = digits := by
    rw [List.take_append, List.take_of_length_le hmost, List.takeWhile_append_of_pos hdigits, hnext,
      List.append_nil]
  rw [takeNumber?, hread, if_neg (Nat.not_lt.mpr hleast), List.drop_left]

theorem IsPadded.takeNumber {width n : Nat} {digits : List Char} (h : IsPadded width n digits)
    (rest : List Char) : takeNumber? width width (digits ++ rest) = some (n, rest) := by
  rw [takeNumber_append h.length_eq.ge h.length_eq.le h.all_isDigit (.inl h.length_eq), h.value_eq]

theorem takeChar_self (c : Char) (rest : List Char) : takeChar? c (c :: rest) = some rest :=
  if_pos rfl

/-- Milliseconds are read as nanoseconds. -/
theorem IsPadded.takeFraction {n : Nat} {digits : List Char} (h : IsPadded 3 n digits)
    {c : Char} (hc : c.isDigit = false) (rest : List Char) :
    takeFraction? ('.' :: digits ++ c :: rest) = some (n * 1000000, c :: rest) := by
  rw [List.cons_append, takeFraction?,
    takeNumber_append (by rw [h.length_eq]; decide) (by rw [h.length_eq]; decide) h.all_isDigit
      (.inr (by simpa using hc)), h.value_eq]
  simp only [Option.bind_eq_bind, Option.bind_some, List.length_append, h.length_eq,
    Nat.add_sub_cancel, List.dropWhile_cons_of_neg (Bool.eq_false_iff.mp hc)]
  rfl

/-! ### Points in time -/

/-- A point in time is given back by its parts, unless it lies in a leap second. -/
theorem ofClock_parts {t : DateTime} (h : t.isLeapSecond = false) :
    ofClock? t.date.civil t.hour t.minute t.secondOfMinute t.nano = some t := by
  obtain ⟨date, second, nano, hsecond, hnano⟩ := t
  have hday : second < 86400 := hsecond
  have hrange : second / 3600 < 24 ∧ second / 60 % 60 < 60 ∧ second % 60 ≤ 60 := by omega
  have hclock : second / 3600 * 3600 + second / 60 % 60 * 60 + second % 60 = second := by omega
  have hleap : second % 60 ≠ 60 := by omega
  refine (bind_of_eq_some (Date.ofCivil_civil date) _).trans ?_
  refine (bind_of_eq_some (if_pos hrange) _).trans ?_
  refine (if_neg hleap).trans ?_
  change ofParts? date (second / 3600 * 3600 + second / 60 % 60 * 60 + second % 60) nano = _
  rw [hclock]
  exact dif_pos ⟨hsecond, hnano⟩

theorem subSeconds_zero (t : DateTime) : t.subSeconds? 0 = some t := by
  obtain ⟨date, second, nano, hsecond, hnano⟩ := t
  have hday : second < 86400 := hsecond
  have hnumber : (date.number * secondsPerDay + second - 0) / secondsPerDay = date.number := by
    unfold secondsPerDay
    omega
  have hrest : ((date.number * secondsPerDay + second - 0) % secondsPerDay).toNat = second := by
    unfold secondsPerDay
    omega
  have hdate : Date.ofNumber? date.number = some date := dif_pos ⟨date.first_le, date.le_last⟩
  rw [subSeconds?, ofUnix?, unixSeconds, hnumber, hrest, hdate]
  exact dif_pos ⟨hsecond, hnano⟩

section WrittenForm

variable {year month day hour minute second milli : Nat} {y m d h n s f : List Char}

/-- The written form put together from its parts. -/
def writtenForm (y m d h n s f : List Char) : List Char :=
  y ++ '-' :: m ++ '-' :: d ++ 'T' :: h ++ ':' :: n ++ ':' :: s ++ '.' :: f ++ ['Z']

variable (hy : IsPadded 4 year y) (hm : IsPadded 2 month m) (hd : IsPadded 2 day d)
  (hh : IsPadded 2 hour h) (hn : IsPadded 2 minute n) (hs : IsPadded 2 second s)
  (hf : IsPadded 3 milli f)

include hy hm hd hh hn hs hf

/-- The written form is read part by part. -/
theorem readOffsetForm_writtenForm :
    readOffsetForm? (writtenForm y m d h n s f) =
      (ofClock? ⟨year, month, day⟩ hour minute second (milli * 1000000)).bind
        (·.subSeconds? 0) := by
  have hfraction := hf.takeFraction (c := 'Z') (by decide) []
  have hjoin (rest : List Char) : (takeChar? 'T' ('T' :: rest) <|> takeChar? 't' ('T' :: rest) <|>
      takeChar? ' ' ('T' :: rest)) = some rest := rfl
  simp only [writtenForm, List.append_assoc, List.cons_append] at hfraction ⊢
  refine (bind_of_eq_some (hy.takeNumber _) _).trans ?_
  refine (bind_of_eq_some (takeChar_self ..) _).trans ?_
  refine (bind_of_eq_some (hm.takeNumber _) _).trans ?_
  refine (bind_of_eq_some (takeChar_self ..) _).trans ?_
  refine (bind_of_eq_some (hd.takeNumber _) _).trans ?_
  refine (bind_of_eq_some (hjoin _) _).trans ?_
  refine (bind_of_eq_some (hh.takeNumber _) _).trans ?_
  refine (bind_of_eq_some (takeChar_self ..) _).trans ?_
  refine (bind_of_eq_some (hn.takeNumber _) _).trans ?_
  refine (bind_of_eq_some (takeChar_self ..) _).trans ?_
  refine (bind_of_eq_some (hs.takeNumber _) _).trans ?_
  refine (bind_of_eq_some hfraction _).trans ?_
  rfl

end WrittenForm

/-- There are no blanks in the text of a point in time. -/
theorem trim_toText (t : DateTime) : Text.trim t.toText.toList = t.toText.toList := by
  apply Text.trim_of_not_blank
  have hmark : Text.isBlank '-' = false ∧ Text.isBlank '+' = false ∧ Text.isBlank 'T' = false ∧
      Text.isBlank ':' = false ∧ Text.isBlank '.' = false ∧ Text.isBlank 'Z' = false := by decide
  obtain ⟨hdash, hplus, hjoin, hcolon, hpoint, hzone⟩ := hmark
  have hpadded (width n : Nat) : ∀ c ∈ padded width n, Text.isBlank c = false :=
    fun c hc => Text.isBlank_of_isDigit (isDigit_of_mem_padded hc)
  have hyear (year : Int) : ∀ c ∈ yearText year, Text.isBlank c = false := by
    unfold yearText
    split
    · exact hpadded _ _
    · refine List.forall_mem_cons.mpr ⟨?_, hpadded _ _⟩
      split <;> assumption
  simp only [toText, String.toList_ofList, List.forall_mem_append, List.forall_mem_cons]
  exact ⟨⟨⟨⟨⟨⟨⟨hyear _, hdash, hpadded _ _⟩, hdash, hpadded _ _⟩, hjoin, hpadded _ _⟩,
    hcolon, hpadded _ _⟩, hcolon, hpadded _ _⟩, hpoint, hpadded _ _⟩, hzone, by simp⟩

/-- The written form of a point in time in a year of four digits and in no leap second. -/
theorem toList_toText {t : DateTime} (hyear : 0 ≤ t.date.civil.year ∧ t.date.civil.year ≤ 9999)
    (hleap : t.isLeapSecond = false) :
    t.toText.toList = writtenForm (padded 4 t.date.civil.year.toNat) (padded 2 t.date.civil.month)
      (padded 2 t.date.civil.day) (padded 2 t.hour) (padded 2 t.minute) (padded 2 t.secondOfMinute)
      (padded 3 (t.nano % nanosPerSecond / 1000000)) := by
  simp only [toText, String.toList_ofList, yearText, if_pos hyear, hleap, Bool.false_eq_true,
    if_false, Nat.add_zero]
  rfl

/-- A point in time of whole milliseconds, in a year of four digits and in no leap second, is
read back from its text. -/
theorem read_toText {t : DateTime} (hyear : 0 ≤ t.date.civil.year ∧ t.date.civil.year ≤ 9999)
    (hmilli : t.nano % 1000000 = 0) (hleap : t.isLeapSecond = false) :
    read? t.toText = some t := by
  obtain ⟨-, -, hmonth, -, hday⟩ := t.date.civil_isDay
  have hlength := Calendar.monthLength_le t.date.civil.year t.date.civil.month
  have hsecond : t.second < 86400 := t.second_lt
  have hy : IsPadded 4 t.date.civil.year.toNat _ :=
    isPadded_padded (by decide) (show _ < 10000 by omega)
  have hm : IsPadded 2 t.date.civil.month _ := isPadded_padded (by decide) (show _ < 100 by omega)
  have hd : IsPadded 2 t.date.civil.day _ := isPadded_padded (by decide) (show _ < 100 by omega)
  have hh : IsPadded 2 t.hour _ :=
    isPadded_padded (by decide) (show t.second / 3600 < 100 by omega)
  have hn : IsPadded 2 t.minute _ :=
    isPadded_padded (by decide) (show t.second / 60 % 60 < 100 by omega)
  have hs : IsPadded 2 t.secondOfMinute _ :=
    isPadded_padded (by decide) (show t.second % 60 < 100 by omega)
  have hf : IsPadded 3 (t.nano % nanosPerSecond / 1000000) _ :=
    isPadded_padded (by decide) (show t.nano % 1000000000 / 1000000 < 1000 by omega)
  -- The year loses nothing as a natural number, and the fraction nothing as milliseconds.
  have hcivil : (⟨t.date.civil.year.toNat, t.date.civil.month, t.date.civil.day⟩ : Civil) =
      t.date.civil := by
    rw [Int.toNat_of_nonneg hyear.1]
  have hfraction : t.nano % nanosPerSecond / 1000000 * 1000000 = t.nano := by
    rw [isLeapSecond, decide_eq_false_iff_not] at hleap
    rw [Nat.mod_eq_of_lt (by omega)]
    omega
  have hread : readOffsetForm? t.toText.toList = some t := by
    rw [toList_toText hyear hleap, readOffsetForm_writtenForm hy hm hd hh hn hs hf, hfraction,
      hcivil, ofClock_parts hleap, Option.bind_some, subSeconds_zero]
  rw [read?, trim_toText, hread]
  rfl

end DateTime

end DocQuery
