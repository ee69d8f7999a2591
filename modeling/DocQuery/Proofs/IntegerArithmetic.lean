import DocQuery.Eval.Arithmetic
/-!
# DocQuery.Proofs.IntegerArithmetic

Arithmetic of integers against the exact results (`ArithmeticOp.exact`). A result is promoted to the
first width that it fits (`Value.Promoted`), with one exception for each width: the remainder of its
least number divided by -1 is zero, but the quotient does not fit, and so the remainder is computed
in the next width (`ArithmeticOp.Overflows`). Sums never meet the exception, so
`Arithmetic.exists_promoted` carries them, too.
-/

namespace DocQuery

/-! ### Exact results in a width -/

namespace ArithmeticOp

/-- The result on integers of any size. A quotient is cut off toward zero, and a remainder has the
sign of the dividend. -/
def exact (op : ArithmeticOp) (a b : Int) : Int :=
  match op with
  | .add => a + b
  | .subtract => a - b
  | .multiply => a * b
  | .divide => a.tdiv b
  | .modulo => a.tmod b

/-- The operator whose result has to fit a width: a remainder is had where the quotient fits. -/
def checked : ArithmeticOp → ArithmeticOp
  | .modulo => .divide
  | op => op

theorem resultIn_eq (op : ArithmeticOp) (fits : Int → Bool) (a b : Int) :
    op.resultIn fits a b =
      if fits (op.checked.exact a b) then some (op.exact a b) else none := by
  cases op <;> rfl

/-- A quotient fits the width of its dividend, which has `w` numbers of either sign, unless this is
the least number and the divisor is -1. -/
theorem tdiv_within_iff {w a b : Int} (ha : -w ≤ a ∧ a < w) (hb : b ≠ 0) :
    (-w ≤ a.tdiv b ∧ a.tdiv b < w) ↔ ¬(a = -w ∧ b = -1) := by
  by_cases hneg : b = -1
  · subst hneg
    rw [Int.tdiv_neg, Int.tdiv_one]
    omega
  · by_cases hone : b = 1
    · subst hone
      rw [Int.tdiv_one]
      omega
    · have hhalf : (a.tdiv b).natAbs ≤ a.natAbs / 2 := by
        rw [Int.natAbs_tdiv]
        exact Nat.div_le_div_left (by omega) (by decide)
      omega

/-- A remainder fits the width of its dividend. -/
theorem tmod_within {w a : Int} (ha : -w ≤ a ∧ a < w) (b : Int) :
    -w ≤ a.tmod b ∧ a.tmod b < w := by
  have hsize : (a.tmod b).natAbs ≤ a.natAbs := by
    rw [Int.natAbs_tmod]
    exact Nat.mod_le _ _
  rcases Int.le_total 0 a with hpos | hneg
  · have := Int.tmod_nonneg b hpos
    omega
  · have := Int.tmod_nonneg b (Int.neg_nonneg_of_nonpos hneg)
    rw [Int.neg_tmod] at this
    omega

/-- The remainder of the least number of a width, divided by -1, is not computed in this width. -/
def Overflows (op : ArithmeticOp) (w a b : Int) : Prop :=
  op = .modulo ∧ a = -w ∧ b = -1

/-- Apart from this case a result is computed in a width just if it fits. -/
theorem checked_within_iff {op : ArithmeticOp} {w a b : Int} (ha : -w ≤ a ∧ a < w)
    (hzero : op.divides = true → b ≠ 0) :
    (-w ≤ op.checked.exact a b ∧ op.checked.exact a b < w) ↔
      (-w ≤ op.exact a b ∧ op.exact a b < w) ∧ ¬ op.Overflows w a b := by
  cases op with
  | modulo =>
      have hmod := tmod_within ha b
      simpa [checked, exact, Overflows, hmod] using tdiv_within_iff ha (hzero rfl)
  | divide | multiply | add | subtract => simp [checked, exact, Overflows]

end ArithmeticOp

/-! ### Promotion -/

/-- How many numbers of either sign there are in 32 bits if `narrow`, else in 64 bits. -/
def Number.reach (narrow : Bool) : Int := if narrow then 2147483648 else 9223372036854775808

namespace Value

/-- The value is an integer of 32 bits. -/
def isInt32 : Value → Bool
  | .int32 _ => true
  | _ => false

/-- What an exact result is promoted to: an integer of 32 bits if `narrow` and if it fits, else an
integer of 64 bits if it fits, else the floating-point number `rounded`. -/
inductive Promoted (narrow : Bool) (exact : Int) (rounded : Double) : Value → Prop where
  | int32 (x : Int32) (hx : x.toInt = exact) (hnarrow : narrow = true) :
      Promoted narrow exact rounded (.int32 x)
  | int64 (x : Int64) (hx : x.toInt = exact) (hwide : narrow = true → ¬ Number.FitsInt32 exact) :
      Promoted narrow exact rounded (.int64 x)
  | double (hbeyond : ¬ Number.FitsInt64 exact) : Promoted narrow exact rounded (.double rounded)

/-- Only what does not fit 64 bits is promoted to a floating-point number. -/
theorem Promoted.beyond {narrow : Bool} {exact : Int} {rounded x : Double}
    (h : Promoted narrow exact rounded (.double x)) : ¬ Number.FitsInt64 exact := by
  cases h with
  | double hbeyond => exact hbeyond

variable {v : Value} {n : Int}

/-- What fits 64 bits is promoted to an integer, and to one of 32 bits just if it can be. -/
theorem Promoted.integer {narrow : Bool} {rounded : Double} (h : v.Promoted narrow n rounded)
    (hfits : Number.FitsInt64 n) :
    v.integer? = some n ∧ (v.isInt32 = true ↔ narrow = true ∧ Number.FitsInt32 n) := by
  cases h with
  | int32 x hx hnarrow =>
      subst hx
      exact ⟨rfl, iff_of_true rfl ⟨hnarrow, Number.fitsInt32_toInt x⟩⟩
  | int64 x hx hwide =>
      subst hx
      exact ⟨rfl, iff_of_false nofun fun h => hwide h.1 h.2⟩
  | double hbeyond => exact absurd hfits hbeyond

/-- An integer is a number and taken by its value. -/
theorem isNumber_of_integer (h : v.integer? = some n) : v.isNumber = true := by
  cases v with
  | int32 | int64 => rfl
  | _ => cases h

theorem asInt_of_integer (h : v.integer? = some n) : v.asInt = n := by
  cases v with
  | int32 x =>
      obtain rfl : x.toInt = n := Option.some.inj h
      exact Int32.toInt_toInt64 x
  | int64 => exact Option.some.inj h
  | _ => cases h

theorem fitsInt64_of_integer (h : v.integer? = some n) : Number.FitsInt64 n := by
  cases v with
  | int32 x =>
      obtain rfl : x.toInt = n := Option.some.inj h
      have := Number.fitsInt32_toInt x
      omega
  | int64 x =>
      obtain rfl : x.toInt = n := Option.some.inj h
      exact Number.fitsInt64_toInt x
  | _ => cases h

theorem fitsInt32_of_integer (h : v.integer? = some n) (hnarrow : v.isInt32 = true) :
    Number.FitsInt32 n := by
  cases v with
  | int32 x =>
      obtain rfl : x.toInt = n := Option.some.inj h
      exact Number.fitsInt32_toInt x
  | _ => cases hnarrow

end Value

namespace ArithmeticOp

variable {op : ArithmeticOp} {narrow : Bool} {a b : Int}

/-- The floating-point number that is the result where no integer is. -/
def rounded (op : ArithmeticOp) (a b : Int) : Double :=
  op.onDoubles (Double.ofInt a) (Double.ofInt b)

theorem onInt64_promoted (ha : Number.FitsInt64 a) (hzero : op.divides = true → b ≠ 0)
    (hover : ¬ op.Overflows 9223372036854775808 a b)
    (hwide : narrow = true → ¬ Number.FitsInt32 (op.exact a b)) :
    Value.Promoted narrow (op.exact a b) (op.rounded a b) (op.onInt64 a b) := by
  have hiff := checked_within_iff ha hzero
  rw [onInt64, resultIn_eq]
  by_cases hfits : Number.FitsInt64 (op.exact a b)
  · rw [if_pos (decide_eq_true (hiff.mpr ⟨hfits, hover⟩))]
    exact .int64 _ (Int64.toInt_ofInt_of_le hfits.1 hfits.2) hwide
  · rw [if_neg (by simpa using fun hchecked => hfits (hiff.mp hchecked).1)]
    exact .double hfits

/-- Unless a number is divided by zero, integers have a result, which is the exact one, promoted. -/
theorem exists_onIntegers (ha : Number.FitsInt64 a) (hnarrow : narrow = true → Number.FitsInt32 a)
    (hzero : op.divides = true → b ≠ 0) (hover : ¬ op.Overflows (Number.reach narrow) a b) :
    ∃ v, op.onIntegers narrow a b = .ok v ∧
      v.Promoted narrow (op.exact a b) (op.rounded a b) := by
  have hdivides : (op.divides && b == 0) = false := by simpa using hzero
  rw [onIntegers, hdivides, if_neg Bool.false_ne_true]
  cases narrow with
  | false => exact ⟨_, rfl, onInt64_promoted ha hzero hover nofun⟩
  | true =>
      have hiff := checked_within_iff (hnarrow rfl) hzero
      rw [if_pos rfl, resultIn_eq]
      by_cases hfits : Number.FitsInt32 (op.exact a b)
      · rw [if_pos (decide_eq_true (hiff.mpr ⟨hfits, hover⟩))]
        exact ⟨_, rfl, .int32 _ (Int32.toInt_ofInt_of_le hfits.1 hfits.2) rfl⟩
      · rw [if_neg (by simpa using fun hchecked => hfits (hiff.mp hchecked).1)]
        refine ⟨_, rfl, onInt64_promoted ha hzero ?_ fun _ => hfits⟩
        -- The dividend is too small to be the least number of 64 bits.
        intro hleast
        have := (hnarrow rfl).1
        have := hleast.2.1
        omega

/-- Where the remainder of the least number is computed in the next width, it is zero there. -/
theorem onIntegers_of_overflows (h : op.Overflows (Number.reach narrow) a b) :
    op.onIntegers narrow a b = .ok (if narrow then .int64 0 else .double (Double.zero true)) := by
  obtain ⟨rfl, rfl, rfl⟩ := h
  cases narrow with
  | true => rfl
  | false =>
      have hrounded : (Double.ofInt (-9223372036854775808)).rem (Double.ofInt (-1)) =
          Double.zero true := by decide +kernel
      exact congrArg (Except.ok ∘ Value.double) hrounded

end ArithmeticOp

namespace Arithmetic

variable {op : ArithmeticOp} {a b : Value} {m n : Int}

theorem apply_integers (ha : a.integer? = some m) (hb : b.integer? = some n) :
    apply op a b = op.onIntegers (a.isInt32 && b.isInt32) m n := by
  cases a <;> cases ha <;> cases b <;> cases hb <;> cases op <;> rfl

theorem apply_zero (ha : a.integer? = some m) (hb : b.integer? = some 0)
    (hdivides : op.divides = true) : apply op a b = .error .zeroDivision := by
  rw [apply_integers ha hb, ArithmeticOp.onIntegers, hdivides]
  rfl

theorem exists_promoted (ha : a.integer? = some m) (hb : b.integer? = some n)
    (hzero : op.divides = true → n ≠ 0)
    (hover : ¬ op.Overflows (Number.reach (a.isInt32 && b.isInt32)) m n) :
    ∃ v, apply op a b = .ok v ∧
      v.Promoted (a.isInt32 && b.isInt32) (op.exact m n) (op.rounded m n) := by
  rw [apply_integers ha hb]
  refine ArithmeticOp.exists_onIntegers (Value.fitsInt64_of_integer ha) ?_ hzero hover
  intro hnarrow
  exact Value.fitsInt32_of_integer ha (Bool.and_eq_true_iff.mp hnarrow).1

theorem apply_of_overflows (ha : a.integer? = some m) (hb : b.integer? = some n)
    (h : op.Overflows (Number.reach (a.isInt32 && b.isInt32)) m n) :
    apply op a b =
      .ok (if a.isInt32 && b.isInt32 then .int64 0 else .double (Double.zero true)) := by
  rw [apply_integers ha hb, ArithmeticOp.onIntegers_of_overflows h]

/-- Integers have no result only where one of them is divided by zero. -/
theorem apply_eq_error (ha : a.integer? = some m) (hb : b.integer? = some n) {error : EvalError} :
    apply op a b = .error error ↔ error = .zeroDivision ∧ op.divides = true ∧ n = 0 := by
  constructor
  · intro herror
    by_cases hzero : op.divides = true ∧ n = 0
    · obtain ⟨hdivides, rfl⟩ := hzero
      rw [apply_zero ha hb hdivides] at herror
      cases herror
      exact ⟨rfl, hdivides, rfl⟩
    · by_cases hover : op.Overflows (Number.reach (a.isInt32 && b.isInt32)) m n
      · rw [apply_of_overflows ha hb hover] at herror
        cases herror
      · obtain ⟨v, hv, -⟩ := exists_promoted ha hb (fun hdivides hn => hzero ⟨hdivides, hn⟩) hover
        rw [hv] at herror
        cases herror
  · intro h
    obtain ⟨rfl, hdivides, rfl⟩ := h
    exact apply_zero ha hb hdivides

end Arithmetic

/-- `+`, `-`, `*`, `/` and `%` have no result on integers only where one of them is divided by zero.
Every other result is the exact one, promoted to the first width from that of the operands on which
it fits, except that the remainder of the least number of this width divided by -1 is zero one width
further on. -/
theorem integers_exact (op : ArithmeticOp) {a b : Value} {m n : Int} (ha : a.integer? = some m)
    (hb : b.integer? = some n) :
    let narrow := a.isInt32 && b.isInt32
    (∀ error, Arithmetic.apply op a b = .error error ↔
      error = .zeroDivision ∧ op.divides = true ∧ n = 0) ∧
    ((op.divides = true → n ≠ 0) → ¬ op.Overflows (Number.reach narrow) m n →
      ∃ v, Arithmetic.apply op a b = .ok v ∧
        v.Promoted narrow (op.exact m n) (op.rounded m n)) ∧
    (op.Overflows (Number.reach narrow) m n →
      Arithmetic.apply op a b =
        .ok (if narrow then .int64 0 else .double (Double.zero true))) := by
  intro narrow
  refine ⟨fun error => Arithmetic.apply_eq_error ha hb, fun hzero hover => ?_, fun hover => ?_⟩
  · exact Arithmetic.exists_promoted ha hb hzero hover
  · exact Arithmetic.apply_of_overflows ha hb hover

/-- The quotient of the least number of 32 bits and -1 has 64 bits, and so has their remainder. -/
theorem integers_exact_least :
    Arithmetic.apply .divide (.int32 (-2147483648)) (.int32 (-1)) = .ok (.int64 2147483648) ∧
    Arithmetic.apply .modulo (.int32 (-2147483648)) (.int32 (-1)) = .ok (.int64 0) := by
  have hleast : (Value.int32 (-2147483648)).integer? = some (-2147483648) := rfl
  have hone : (Value.int32 (-1)).integer? = some (-1) := rfl
  constructor
  · obtain ⟨-, hpromoted, -⟩ := integers_exact .divide hleast hone
    obtain ⟨v, hv, hpromoted⟩ := hpromoted (by decide) (by simp [ArithmeticOp.Overflows])
    cases hpromoted with
    | int32 x hx =>
      have := Number.fitsInt32_toInt x
      rw [hx] at this
      exact absurd this (by decide)
    | int64 x hx =>
      have : x = 2147483648 := Int64.toInt_inj.mp hx
      rw [hv, this]
    | double h => exact absurd (by decide) h
  · exact (integers_exact .modulo hleast hone).2.2 ⟨rfl, rfl, rfl⟩

/-- The remainder of the least number of 64 bits divided by -1 is zero, but `%` tells a
floating-point number. -/
theorem remainder_not_exact : ¬ ∀ (op : ArithmeticOp) (a b : Value) (m n : Int),
    a.integer? = some m → b.integer? = some n → (op.divides = true → n ≠ 0) →
      ∃ v, Arithmetic.apply op a b = .ok v ∧
        v.Promoted (a.isInt32 && b.isInt32) (op.exact m n) (op.rounded m n) := by
  intro h
  obtain ⟨v, hv, hpromoted⟩ := h .modulo (.int64 (-9223372036854775808)) (.int64 (-1))
    (-9223372036854775808) (-1) rfl rfl (by decide)
  rw [Arithmetic.apply_of_overflows rfl rfl ⟨rfl, rfl, rfl⟩] at hv
  cases hv
  exact absurd (by decide) hpromoted.beyond

end DocQuery
