import DocQuery.Proofs.CivilDates
/-!
# DocQuery.Proofs.DateSteps

Steps in time and the distances that they leave. A point outside leap seconds is a number of
nanoseconds, to which a step of fixed length adds (`addNanos_of_regular`) and whose differences are
the elapsed time (`elapsedNanos_of_regular`). A date lies in a month, counted from year 0, to which
a step by the calendar adds (`months_addMonths`), whatever it does to the day of the month. So a
difference in parts undoes a step of so many parts (`dateDiff_dateAdd`).
-/

namespace DocQuery

/-! ### Steps by the calendar -/

theorem Calendar.monthLength_pos (year : Int) (month : Nat) : 1 ≤ monthLength year month := by
  unfold monthLength
  split
  · split <;> decide
  all_goals decide

namespace Date

variable {d d' : Date} {n : Int}

/-- The month that a date lies in, counted from the first one of year 0. -/
def months (d : Date) : Int := d.civil.year * 12 + (d.civil.month - 1 : Nat)

theorem months_div_mod (d : Date) :
    d.months / 12 = d.civil.year ∧ (d.months % 12).toNat + 1 = d.civil.month := by
  obtain ⟨-, hmonth, hmonth', -⟩ := d.civil_isDay
  rw [months]
  omega

/-- A day that is cut down to the length of its month is one of the calendar if its year is. -/
theorem isDay_clamped_iff {total : Int} {day : Nat} (hday : 1 ≤ day) :
    Calendar.Civil.IsDay ⟨total / 12, (total % 12).toNat + 1,
        min day (Calendar.monthLength (total / 12) ((total % 12).toNat + 1))⟩ ↔
      Calendar.InYears (total / 12) := by
  have hpos := Calendar.monthLength_pos (total / 12) ((total % 12).toNat + 1)
  simp only [Calendar.Civil.IsDay]
  omega

theorem addMonths_isSome_iff :
    (d.addMonths? n).isSome = true ↔ Calendar.InYears ((d.months + n) / 12) := by
  rw [← isDay_clamped_iff d.civil_isDay.2.2.2.1, Option.isSome_iff_exists]
  constructor
  · rintro ⟨d', h⟩
    exact (ofCivil_eq_some_iff.mp h).1
  · exact exists_ofCivil

/-- A step of some months leads to the month with the number so much larger. -/
theorem months_addMonths (h : d.addMonths? n = some d') : d'.months = d.months + n := by
  have hcivil := (ofCivil_eq_some_iff.mp h).2
  rw [months, hcivil, months]
  dsimp only
  omega

end Date

namespace DateTime

variable {t u : DateTime} {n : Int}

theorem addMonths_isSome_iff :
    (t.addMonths? n).isSome = true ↔ Calendar.InYears ((t.date.months + n) / 12) := by
  rw [← Date.addMonths_isSome_iff, addMonths?, Option.isSome_map]

theorem months_addMonths (h : t.addMonths? n = some u) : u.date.months = t.date.months + n := by
  obtain ⟨date, hdate, rfl⟩ := Option.map_eq_some_iff.mp h
  exact Date.months_addMonths hdate

/-! ### Steps of fixed length -/

/-- The nanoseconds since the beginning of 1970, in which no leap second is counted. -/
def unixNanos (t : DateTime) : Int := t.unixSeconds * nanosPerSecond + t.nano

theorem ofUnixNanos_isSome_iff : (ofUnixNanos? n).isSome = true ↔
    Calendar.firstDay ≤ n / nanosPerSecond / secondsPerDay ∧
      n / nanosPerSecond / secondsPerDay ≤ Calendar.lastDay := by
  have hparts : (n / nanosPerSecond % secondsPerDay).toNat < secondsPerDay ∧
      (n % nanosPerSecond).toNat < 2 * nanosPerSecond := by
    unfold nanosPerSecond secondsPerDay
    omega
  rw [ofUnixNanos?, ofUnix?, Date.ofNumber?]
  split
  · rename_i hdate
    simp [ofParts?, hparts, hdate]
  · rename_i hdate
    simp [hdate]

/-- A number of nanoseconds gives the point outside leap seconds that has this number. -/
theorem unixNanos_of_ofUnixNanos (h : ofUnixNanos? n = some t) :
    t.isLeapSecond = false ∧ t.unixNanos = n := by
  rw [ofUnixNanos?, ofUnix?, Option.bind_eq_bind, Option.bind_eq_some_iff] at h
  obtain ⟨date, hdate, hparts⟩ := h
  rw [Date.ofNumber?] at hdate
  split at hdate <;> cases hdate
  rw [ofParts?] at hparts
  split at hparts <;> cases hparts
  constructor
  · refine decide_eq_false_iff_not.mpr (show ¬ nanosPerSecond ≤ (n % nanosPerSecond).toNat from ?_)
    unfold nanosPerSecond
    omega
  · simp only [unixNanos, unixSeconds, nanosPerSecond, secondsPerDay]
    omega

theorem addNanos_of_regular (ht : t.isLeapSecond = false) (delta : Int) :
    t.addNanos? delta = ofUnixNanos? (t.unixNanos + delta) := by
  simp only [addNanos?, ht, Bool.false_eq_true, if_false]
  rfl

theorem elapsedNanos_of_regular (ht : t.isLeapSecond = false) (hu : u.isLeapSecond = false) :
    elapsedNanos t u = u.unixNanos - t.unixNanos := by
  simp only [elapsedNanos, ht, hu, Bool.and_false, Bool.false_eq_true, if_false, unixNanos,
    nanosPerSecond]
  omega

theorem addSeconds_isSome_iff (ht : t.isLeapSecond = false) :
    (t.addNanos? (n * nanosPerSecond)).isSome = true ↔
      Calendar.firstDay ≤ (t.unixSeconds + n) / secondsPerDay ∧
        (t.unixSeconds + n) / secondsPerDay ≤ Calendar.lastDay := by
  have hnano : t.nano < nanosPerSecond := by simpa [isLeapSecond] using ht
  have hseconds : (t.unixNanos + n * nanosPerSecond) / nanosPerSecond = t.unixSeconds + n := by
    rw [unixNanos]
    unfold nanosPerSecond at hnano ⊢
    omega
  rw [addNanos_of_regular ht, ofUnixNanos_isSome_iff, hseconds]

/-- After a step of some seconds so many have elapsed. -/
theorem elapsedSeconds_addNanos (ht : t.isLeapSecond = false)
    (h : t.addNanos? (n * nanosPerSecond) = some u) : elapsedSeconds t u = n := by
  rw [addNanos_of_regular ht] at h
  obtain ⟨hu, hnanos⟩ := unixNanos_of_ofUnixNanos h
  rw [elapsedSeconds, elapsedNanos_of_regular ht hu, hnanos, Int.add_comm, Int.add_sub_cancel]
  exact Int.mul_tdiv_cancel n (by decide)

end DateTime

/-! ### Steps of some parts -/

namespace DatePart

variable {part : DatePart} {t u : DateTime} {n : Int}

/-- The calendar holds the point some parts later. -/
def Reaches (part : DatePart) (t : DateTime) (n : Int) : Prop :=
  match part with
  | .year => Calendar.InYears (t.date.civil.year + n)
  | .month => Calendar.InYears ((t.date.months + n) / 12)
  | part =>
    Calendar.firstDay ≤ (t.unixSeconds + n * part.seconds) / secondsPerDay ∧
      (t.unixSeconds + n * part.seconds) / secondsPerDay ≤ Calendar.lastDay

theorem add_isSome_iff (ht : t.isLeapSecond = false) :
    (part.add? t n).isSome = true ↔ part.Reaches t n := by
  cases part with
  | year =>
      have hyear := t.date.months_div_mod
      rw [add?, DateTime.addMonths_isSome_iff, Reaches]
      have : (t.date.months + n * 12) / 12 = t.date.civil.year + n := by omega
      rw [this]
  | month => exact DateTime.addMonths_isSome_iff
  | _ => exact DateTime.addSeconds_isSome_iff ht

/-- The difference in parts undoes a step of so many parts. -/
theorem difference_add (ht : t.isLeapSecond = false) (h : part.add? t n = some u) :
    part.difference t u = n := by
  have hstart := t.date.months_div_mod
  have hstop := u.date.months_div_mod
  cases part with
  | year =>
      have hmonths := DateTime.months_addMonths h
      rw [difference]
      omega
  | month =>
      have hmonths := DateTime.months_addMonths h
      rw [difference]
      omega
  | _ =>
      have helapsed := DateTime.elapsedSeconds_addNanos ht h
      change (DateTime.elapsedSeconds t u).tdiv _ = n
      rw [helapsed]
      exact Int.mul_tdiv_cancel n (by decide)

end DatePart

/-! ### The functions -/

namespace Dates

variable {name : String} {part : DatePart}

theorem partOf_of_ofText (function : String) (h : DatePart.ofText? name = some part) :
    partOf function name = .ok part := by
  rw [partOf, h]

theorem apply_dateAdd (c : Collation) (h : DatePart.ofText? name = some part) {amount : Value}
    {n : Int} (hn : amount.integer? = some n) (t : DateTime) :
    Builtin.apply c .dateAdd [.string name, amount, .dateTime t] = .ok (.one (add part n t)) := by
  change Call.addToDate .dateAdd [.string name, amount, .dateTime t] = _
  rw [Call.addToDate, if_pos (Value.isNumber_of_integer hn), partOf_of_ofText _ h,
    Value.asInt_of_integer hn]
  rfl

theorem apply_dateDiff (c : Collation) (h : DatePart.ofText? name = some part) (t u : DateTime) :
    Builtin.apply c .dateDiff [.string name, .dateTime t, .dateTime u] =
      .ok (.one (difference part t u)) := by
  change Call.dateDifference .dateDiff [.string name, .dateTime t, .dateTime u] = _
  rw [Call.dateDifference, partOf_of_ofText _ h]
  rfl

end Dates

/-- `DATEADD` of so many of a part to a point in time outside leap seconds yields null exactly if
the calendar does not reach that far. Else it yields a point whose `DATEDIFF` from the first one is
exactly so many of the part, by whatever names of the part the two functions are asked. -/
theorem dateDiff_dateAdd (c : Collation) {name name' : String} {part : DatePart}
    (hname : DatePart.ofText? name = some part) (hname' : DatePart.ofText? name' = some part)
    {amount : Value} {n : Int} (hn : amount.integer? = some n) {t : DateTime}
    (ht : t.isLeapSecond = false) :
    ∃ v, Builtin.apply c .dateAdd [.string name, amount, .dateTime t] = .ok (.one v) ∧
      (v = .null ↔ ¬ part.Reaches t n) ∧
      (v ≠ .null → ∃ k : Int64, k.toInt = n ∧
        Builtin.apply c .dateDiff [.string name', .dateTime t, v] = .ok (.one (.int64 k))) := by
  refine ⟨_, Dates.apply_dateAdd c hname hn t, ?_⟩
  rw [← DatePart.add_isSome_iff ht, Dates.add]
  cases hadd : part.add? t n with
  | none => simp
  | some u =>
      have hfits := Value.fitsInt64_of_integer hn
      refine ⟨by simp, fun _ => ⟨Int64.ofInt n, Int64.toInt_ofInt_of_le hfits.1 hfits.2, ?_⟩⟩
      rw [Option.map_some, Option.getD_some, Dates.apply_dateDiff c hname', Dates.difference,
        DatePart.difference_add ht hadd]

/-- `DATEADD` of a month back from 31 March, of which February has no counterpart: by `DATEDIFF` it
is a month. -/
theorem dateDiff_dateAdd_clamped :
    ∃ t : DateTime, t.date.civil = ⟨2024, 3, 31⟩ ∧ t.isLeapSecond = false ∧
      ∃ v, Builtin.apply .binary .dateAdd [.string "M", .int32 (-1), .dateTime t] = .ok (.one v) ∧
        v ≠ .null ∧
        ∃ k : Int64, k.toInt = -1 ∧
          Builtin.apply .binary .dateDiff [.string "MONTH", .dateTime t, v] =
            .ok (.one (.int64 k)) := by
  obtain ⟨date, hdate⟩ := Date.exists_ofCivil (c := ⟨2024, 3, 31⟩) (by decide)
  have hcivil := (Date.ofCivil_eq_some_iff.mp hdate).2
  have hname : DatePart.ofText? "M" = some .month := rfl
  have hname' : DatePart.ofText? "MONTH" = some .month := by decide +kernel
  have hback : (Value.int32 (-1)).integer? = some (-1) := rfl
  have hleap : (DateTime.ofDate date).isLeapSecond = false := rfl
  obtain ⟨v, hv, hnull, hdiff⟩ := dateDiff_dateAdd .binary hname hname' hback hleap
  have hreaches : DatePart.Reaches .month (.ofDate date) (-1) := by
    change Calendar.InYears ((date.months + -1) / 12)
    rw [Date.months, hcivil]
    decide
  have hne : v ≠ .null := fun h => hnull.mp h hreaches
  exact ⟨.ofDate date, hcivil, hleap, v, hv, hne, hdiff hne⟩

end DocQuery
