import DocQuery.Builtin.Apply
import DocQuery.Proofs.IntegerArithmetic
import Mathlib.Algebra.BigOperators.Group.List.Basic
import Mathlib.Algebra.Ring.Int.Defs
/-!
# DocQuery.Proofs.RunningTotals

The sum of a sequence, number by number. As long as every total on the way fits 64 bits the total at
hand is an exact integer, and it has 32 bits just if all numbers so far have and all totals so far
fit these (`Aggregate.exists_total`): a width that is left is never entered again. In what order the
numbers come makes a difference to the totals on the way and so to the width, but not to the sum
(`sum_exact`).
-/

namespace DocQuery

namespace Aggregate

/-- The integers among some values. -/
def integers (values : List Value) : List Int := values.filterMap Value.integer?

/-- The totals on the way from left to right, of which the first is that of nothing yet. -/
def runningTotals (values : List Value) : List Int := (integers values).scanl (· + ·) 0

theorem integers_cons {v : Value} {n : Int} (h : v.integer? = some n) (rest : List Value) :
    integers (v :: rest) = n :: integers rest :=
  List.filterMap_cons_some h

theorem mem_scanl_self (total : Int) (numbers : List Int) :
    total ∈ numbers.scanl (· + ·) total := by
  cases numbers <;> simp

/-- Only numbers are integers. -/
theorem integers_filter (values : List Value) :
    integers (values.filter Value.isNumber) = integers values := by
  unfold integers
  rw [List.filterMap_filter]
  congr 1
  funext v
  cases v <;> rfl

/-- A total and one more integer make the next total. -/
theorem next_total {start v : Value} {total n : Int} (hstart : start.integer? = some total)
    (hv : v.integer? = some n) (hfits : Number.FitsInt64 (total + n)) :
    ∃ next, Arithmetic.apply .add start v = .ok next ∧ next.integer? = some (total + n) ∧
      (next.isInt32 = true ↔
        (start.isInt32 = true ∧ v.isInt32 = true) ∧ Number.FitsInt32 (total + n)) := by
  have hover :
      ¬ArithmeticOp.add.Overflows (Number.reach (start.isInt32 && v.isInt32)) total n := by
    simp [ArithmeticOp.Overflows]
  have hzero : ArithmeticOp.add.divides = true → n ≠ 0 := fun h => absurd h Bool.false_ne_true
  obtain ⟨next, hnext, hpromoted⟩ := Arithmetic.exists_promoted hstart hv hzero hover
  obtain ⟨hinteger, hnarrow⟩ := hpromoted.integer hfits
  rw [Bool.and_eq_true_iff] at hnarrow
  exact ⟨next, hnext, hinteger, hnarrow⟩

/-- The totals on the way from a total on. -/
theorem exists_total {values : List Value} (hint : ∀ v ∈ values, v.integer?.isSome = true)
    {start : Value} {total : Int} (hstart : start.integer? = some total)
    (hfits : ∀ t ∈ (integers values).scanl (· + ·) total, Number.FitsInt64 t) :
    ∃ v, values.foldlM (Arithmetic.apply .add) start = .ok v ∧
      v.integer? = some (total + (integers values).sum) ∧
      (v.isInt32 = true ↔ start.isInt32 = true ∧ (∀ v ∈ values, v.isInt32 = true) ∧
        ∀ t ∈ (integers values).scanl (· + ·) total, Number.FitsInt32 t) := by
  induction values generalizing start total with
  | nil =>
      refine ⟨start, rfl, by simpa [integers] using hstart, ?_⟩
      have := Value.fitsInt32_of_integer hstart
      simpa [integers] using this
  | cons v rest ih =>
      obtain ⟨hv, hrest⟩ := List.forall_mem_cons.mp hint
      obtain ⟨n, hn⟩ := Option.isSome_iff_exists.mp hv
      rw [integers_cons hn, List.scanl_cons, List.forall_mem_cons] at hfits
      obtain ⟨next, hnext, hinteger, hnarrow⟩ :=
        next_total hstart hn (hfits.2 _ (mem_scanl_self _ _))
      obtain ⟨v', hv', hsum, hrestNarrow⟩ := ih hrest hinteger hfits.2
      refine ⟨v', ?_, ?_, ?_⟩
      · rw [List.foldlM_cons, hnext]
        exact hv'
      · rw [hsum, integers_cons hn, List.sum_cons, Int.add_assoc]
      · rw [hrestNarrow, hnarrow, integers_cons hn, List.scanl_cons, List.forall_mem_cons,
          List.forall_mem_cons]
        have htotal := Value.fitsInt32_of_integer hstart
        -- That the total at hand fits 32 bits is nothing new where it has them.
        constructor
        · intro h
          obtain ⟨⟨⟨hstart, hv⟩, -⟩, hvalues, htotals⟩ := h
          exact ⟨hstart, ⟨hv, hvalues⟩, htotal hstart, htotals⟩
        · intro h
          obtain ⟨hstart, ⟨hv, hvalues⟩, -, htotals⟩ := h
          exact ⟨⟨⟨hstart, hv⟩, htotals _ (mem_scanl_self _ _)⟩, hvalues, htotals⟩

theorem sum_total {values : List Value}
    (hint : ∀ v ∈ values, v.isNumber = true → v.integer?.isSome = true)
    (hfits : ∀ total ∈ runningTotals values, Number.FitsInt64 total) :
    ∃ v, sum values = .ok v ∧ v.integer? = some (integers values).sum ∧
      (v.isInt32 = true ↔ (∀ v ∈ values, v.isNumber = true → v.isInt32 = true) ∧
        ∀ total ∈ runningTotals values, Number.FitsInt32 total) := by
  have hnumbers : ∀ v ∈ values.filter Value.isNumber, v.integer?.isSome = true := by
    simpa using hint
  have hzero : (Value.int32 0).integer? = some 0 := rfl
  rw [runningTotals, ← integers_filter] at hfits ⊢
  obtain ⟨v, hv, hinteger, hnarrow⟩ := exists_total hnumbers hzero hfits
  refine ⟨v, hv, by simpa using hinteger, ?_⟩
  simpa [Value.isInt32] using hnarrow

end Aggregate

/-- Where all numbers of an array are integers and all totals on the way fit 64 bits, its `SUM` is
the exact one. It has 32 bits just if all the numbers have and all totals on the way fit these. In
any other order in which all totals on the way fit 64 bits the numbers have the same `SUM`. -/
theorem sum_exact (c : Collation) {values : List Value}
    (hint : ∀ v ∈ values, v.isNumber = true → v.integer?.isSome = true)
    (hfits : ∀ total ∈ Aggregate.runningTotals values, Number.FitsInt64 total) :
    ∃ v, Builtin.apply c .sum [.array values] = .ok (.one v) ∧
      v.integer? = some (Aggregate.integers values).sum ∧
      (v.isInt32 = true ↔ (∀ v ∈ values, v.isNumber = true → v.isInt32 = true) ∧
        ∀ total ∈ Aggregate.runningTotals values, Number.FitsInt32 total) ∧
      ∀ values' : List Value, values'.Perm values →
        (∀ total ∈ Aggregate.runningTotals values', Number.FitsInt64 total) →
          ∃ v', Builtin.apply c .sum [.array values'] = .ok (.one v') ∧
            v'.integer? = v.integer? := by
  obtain ⟨v, hv, hinteger, hnarrow⟩ := Aggregate.sum_total hint hfits
  refine ⟨v, congrArg (Except.map CallResult.one) hv, hinteger, hnarrow, ?_⟩
  intro values' hperm hfits'
  obtain ⟨v', hv', hinteger', -⟩ :=
    Aggregate.sum_total (fun v hmem => hint v (hperm.mem_iff.mp hmem)) hfits'
  refine ⟨v', congrArg (Except.map CallResult.one) hv', ?_⟩
  rw [hinteger', hinteger]
  exact congrArg some (hperm.filterMap Value.integer?).sum_eq

/-- The second total leaves 32 bits, so the sum has 64 bits though it would fit 32. -/
theorem sum_exact_widened :
    let values : List Value := [.int32 2147483647, .string "x", .int32 1, .int32 (-5)]
    ∃ v, Builtin.apply .binary .sum [.array values] = .ok (.one v) ∧
      v.integer? = some 2147483643 ∧ v.isInt32 = false ∧
      ∃ v', Builtin.apply .binary .sum [.array values.reverse] = .ok (.one v') ∧
        v'.integer? = some 2147483643 := by
  intro values
  have hint : ∀ v ∈ values, v.isNumber = true → v.integer?.isSome = true := by decide
  obtain ⟨v, hv, hinteger, hnarrow, hagain⟩ :=
    sum_exact .binary hint (by decide)
  obtain ⟨v', hv', hsame⟩ := hagain values.reverse (List.reverse_perm values) (by decide)
  have hwide : ¬ ∀ total ∈ Aggregate.runningTotals values, Number.FitsInt32 total := by decide
  refine ⟨v, hv, hinteger, ?_, v', hv', hsame.trans hinteger⟩
  rw [← Bool.not_eq_true, hnarrow]
  exact fun h => hwide h.2

end DocQuery
