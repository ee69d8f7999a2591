import Mathlib
import DocQuery.Proofs.Numerals
/-!
# DocQuery.Proofs.Doubles

The order of floating-point numbers, and what it makes of integers. Numbers and patterns that are
no numbers are in one line (`Double.key`), so their order is that of their places. Integers are
rounded to floating-point numbers without changing their order, but two of them may meet; up to
2⁵³ they do not (`key_ofInt_lt`).
-/

namespace DocQuery

namespace Double

/-! ### One line -/

/-- The place in the line of all floating-point numbers: a pattern that is no number stands
before or behind all numbers, as its sign says. -/
def key (x : Double) : Int := if x.isNaN then x.bitRank else x.rank

/-- A pattern that is no number lies as far from a number as from the pattern of that number. -/
theorem compare_bitRank {x y : Double} (hx : x.isNaN = true) (hy : y.isNaN = false) :
    Ord.compare x.bitRank y.bitRank = Ord.compare x.bitRank y.rank ∧
      Ord.compare y.bitRank x.bitRank = Ord.compare y.rank x.bitRank := by
  have hx : infinityCode < x.code := of_decide_eq_true hx
  have hy : y.code ≤ infinityCode := Nat.not_lt.mp (of_decide_eq_false hy)
  have hbetween : -(infinityCode : Int) - 1 ≤ y.bitRank ∧ y.bitRank ≤ infinityCode ∧
      -(infinityCode : Int) - 1 ≤ y.rank ∧ y.rank ≤ infinityCode := by
    unfold bitRank rank
    split <;> simp only [Int.ofNat_eq_natCast] <;> omega
  cases hneg : x.isNegative with
  | true =>
      have hrank : x.bitRank = -(x.code : Int) - 1 := by
        rw [bitRank, hneg, if_pos rfl]
        rfl
      have hlt : x.bitRank < y.bitRank ∧ x.bitRank < y.rank := by omega
      constructor
      · rw [Int.compare_eq_lt.mpr hlt.1, Int.compare_eq_lt.mpr hlt.2]
      · rw [Int.compare_eq_gt.mpr hlt.1, Int.compare_eq_gt.mpr hlt.2]
  | false =>
      have hrank : x.bitRank = x.code := by
        rw [bitRank, hneg, if_neg Bool.false_ne_true]
        rfl
      have hlt : y.bitRank < x.bitRank ∧ y.rank < x.bitRank := by omega
      constructor
      · rw [Int.compare_eq_gt.mpr hlt.1, Int.compare_eq_gt.mpr hlt.2]
      · rw [Int.compare_eq_lt.mpr hlt.1, Int.compare_eq_lt.mpr hlt.2]

/-- Floating-point numbers are in the order of their places. -/
theorem compare_eq_key (x y : Double) : x.compare y = Ord.compare x.key y.key := by
  unfold compare key
  cases hx : x.isNaN with
  | true =>
      cases hy : y.isNaN with
      | true => rfl
      | false => exact (compare_bitRank hx hy).1
  | false =>
      cases hy : y.isNaN with
      | true => exact (compare_bitRank hy hx).2
      | false => rfl

/-! ### Rounding

Rounding to the nearest keeps the order: below a power of two the spacing is the same and rounding
is a division, and across a power of two the codes go on where they have ended. -/

theorem roundHalfEven_bounds (a b : Nat) :
    a / b ≤ roundHalfEven a b ∧ roundHalfEven a b ≤ a / b + 1 := by
  unfold roundHalfEven
  extract_lets q r
  split
  · omega
  · split <;> omega

/-- Rounding keeps the order. -/
theorem roundHalfEven_mono {a a' b : Nat} (h : a ≤ a') :
    roundHalfEven a b ≤ roundHalfEven a' b := by
  have hq : a / b ≤ a' / b := Nat.div_le_div_right h
  rcases Nat.lt_or_eq_of_le hq with hlt | heq
  · have hupper := (roundHalfEven_bounds a b).2
    have hlower := (roundHalfEven_bounds a' b).1
    omega
  · have hr : a % b ≤ a' % b := by
      have ha := Nat.div_add_mod a b
      have ha' := Nat.div_add_mod a' b
      rw [heq] at ha
      omega
    unfold roundHalfEven
    simp only [heq]
    repeat' split
    all_goals omega

/-- The code of a whole number of units, without regard to infinity. -/
def unitsCode (s : Nat) : Nat :=
  (s.log2 - 52) * 2 ^ 52 + roundHalfEven s (2 ^ (s.log2 - 52))

theorem nearestCode_one (n : Nat) :
    nearestCode n 1 = min infinityCode (unitsCode (n * unitsPerOne)) := by
  unfold nearestCode unitsCode
  extract_lets scaled shift
  unfold shift
  rw [Nat.div_one, Nat.one_mul]
  rfl

/-- Beyond 2⁵² units, the codes of one power of two are all in front of those of the next one. -/
theorem unitsCode_bounds (s : Nat) :
    unitsCode s ≤ (s.log2 - 52 + 2) * 2 ^ 52 ∧
      (52 < s.log2 → (s.log2 - 52 + 1) * 2 ^ 52 ≤ unitsCode s) := by
  obtain ⟨hlower, hupper⟩ := roundHalfEven_bounds s (2 ^ (s.log2 - 52))
  have hpos : 0 < 2 ^ (s.log2 - 52) := Nat.two_pow_pos _
  have hlt : s / 2 ^ (s.log2 - 52) < 2 ^ 53 := by
    rw [Nat.div_lt_iff_lt_mul hpos, ← Nat.pow_add]
    exact Nat.lt_of_lt_of_le Nat.lt_log2_self (Nat.pow_le_pow_right (by decide) (by omega))
  unfold unitsCode
  refine ⟨by omega, fun hlarge => ?_⟩
  have hs : s ≠ 0 := by
    rintro rfl
    cases hlarge
  have hle : 2 ^ 52 ≤ s / 2 ^ (s.log2 - 52) := by
    rw [Nat.le_div_iff_mul_le hpos, ← Nat.pow_add]
    have hsum : 52 + (s.log2 - 52) = s.log2 := by omega
    rw [hsum]
    exact Nat.log2_self_le hs
  omega

theorem log2_mono {s t : Nat} (h : s ≤ t) : s.log2 ≤ t.log2 := by
  rcases Nat.eq_zero_or_pos s with rfl | hs
  · exact Nat.zero_le _
  · rw [Nat.le_log2 (by omega)]
    exact Nat.le_trans (Nat.log2_self_le (by omega)) h

/-- The nearest code keeps the order. -/
theorem unitsCode_mono {s t : Nat} (h : s ≤ t) : unitsCode s ≤ unitsCode t := by
  have hlog := log2_mono h
  by_cases hshift : s.log2 - 52 = t.log2 - 52
  · unfold unitsCode
    rw [hshift]
    exact Nat.add_le_add_left (roundHalfEven_mono h) _
  · have hs := (unitsCode_bounds s).1
    have ht := (unitsCode_bounds t).2 (by omega)
    have hstep : (s.log2 - 52 + 2) * 2 ^ 52 ≤ (t.log2 - 52 + 1) * 2 ^ 52 :=
      Nat.mul_le_mul_right _ (by omega)
    omega

theorem nearestCode_mono {m n : Nat} (h : m ≤ n) : nearestCode m 1 ≤ nearestCode n 1 := by
  have hunits : unitsCode (m * unitsPerOne) ≤ unitsCode (n * unitsPerOne) :=
    unitsCode_mono (Nat.mul_le_mul_right _ h)
  rw [nearestCode_one, nearestCode_one]
  omega

/-! ### Integers

Up to `2 ^ 53` an integer is a multiple of the spacing of its neighbours. It is not rounded then, so
that different integers stay different. -/

theorem log2_mul_two_pow {k : Nat} (hk : k ≠ 0) (i : Nat) : (k * 2 ^ i).log2 = k.log2 + i := by
  have hne : k * 2 ^ i ≠ 0 := Nat.mul_ne_zero hk (Nat.ne_of_gt (Nat.two_pow_pos i))
  rw [Nat.log2_eq_iff hne]
  constructor
  · rw [Nat.pow_add]
    exact Nat.mul_le_mul_right _ (Nat.log2_self_le hk)
  · rw [Nat.add_right_comm, Nat.pow_add]
    exact Nat.mul_lt_mul_of_pos_right Nat.lt_log2_self (Nat.two_pow_pos i)

/-- The units of one, with a name for the exponent: the power itself is too large to be written
out. -/
theorem unitsPerOne_eq {i : Nat} (h : i = 1074) : unitsPerOne = 2 ^ i := by
  have hpow : Nat.pow 2 i = 2 ^ i := rfl
  unfold unitsPerOne
  rw [← hpow, ← h]

theorem log2_mul_unitsPerOne {k : Nat} (hk : k ≠ 0) :
    (k * unitsPerOne).log2 = k.log2 + 1074 := by
  obtain ⟨i, hi⟩ : ∃ i, i = 1074 := ⟨_, rfl⟩
  rw [unitsPerOne_eq hi, log2_mul_two_pow hk, hi]

theorem roundHalfEven_mul (q : Nat) {b : Nat} (hb : 0 < b) : roundHalfEven (q * b) b = q := by
  simp [roundHalfEven, Nat.mul_div_cancel _ hb, hb]

/-- An integer of at most 53 bits is itself the leading part of its code. -/
theorem unitsCode_of_lt {k : Nat} (hk : k ≠ 0) (hlt : k < 2 ^ 53) :
    unitsCode (k * unitsPerOne) = (k.log2 + 1022) * 2 ^ 52 + k * 2 ^ (52 - k.log2) := by
  have hlog : k.log2 ≤ 52 := Nat.le_of_lt_succ ((Nat.log2_lt hk).mpr hlt)
  have hshift : (k * unitsPerOne).log2 - 52 = k.log2 + 1022 := by
    rw [log2_mul_unitsPerOne hk]
    omega
  have hsplit : k * unitsPerOne = k * 2 ^ (52 - k.log2) * 2 ^ (k.log2 + 1022) := by
    have hsum : 52 - k.log2 + (k.log2 + 1022) = 1074 := by omega
    rw [Nat.mul_assoc, ← Nat.pow_add, unitsPerOne_eq hsum]
  rw [unitsCode, hshift, hsplit, roundHalfEven_mul _ (Nat.two_pow_pos _)]

/-- Up to 2⁵³ the codes of integers are strictly in their order. -/
theorem unitsCode_lt {j k : Nat} (h : j < k) (hk : k ≤ 2 ^ 53) :
    unitsCode (j * unitsPerOne) < unitsCode (k * unitsPerOne) := by
  have hk0 : k ≠ 0 := by omega
  have hlow : (k.log2 + 1023) * 2 ^ 52 ≤ unitsCode (k * unitsPerOne) := by
    have hlog := log2_mul_unitsPerOne hk0
    have hbound := (unitsCode_bounds (k * unitsPerOne)).2 (by omega)
    rwa [hlog] at hbound
  rcases Nat.eq_zero_or_pos j with rfl | hj
  · have hzero : unitsCode (0 * unitsPerOne) = 0 := by
      rw [Nat.zero_mul]
      rfl
    omega
  · have hj0 : j ≠ 0 := by omega
    have hlog : j.log2 ≤ k.log2 := log2_mono (Nat.le_of_lt h)
    rw [unitsCode_of_lt hj0 (by omega)]
    rcases Nat.lt_or_eq_of_le hlog with hless | heq
    · -- the codes of a smaller power of two end before those of the next one begin
      have hbits : j.log2 ≤ 52 := Nat.le_of_lt_succ ((Nat.log2_lt hj0).mpr (by omega))
      have htop : j * 2 ^ (52 - j.log2) < 2 ^ 53 := by
        have hlt : j * 2 ^ (52 - j.log2) < 2 ^ (j.log2 + 1) * 2 ^ (52 - j.log2) :=
          Nat.mul_lt_mul_of_pos_right Nat.lt_log2_self (Nat.two_pow_pos _)
        rw [← Nat.pow_add] at hlt
        have hsum : j.log2 + 1 + (52 - j.log2) = 53 := by omega
        rwa [hsum] at hlt
      have hstep := Nat.mul_le_mul_right (2 ^ 52) (show j.log2 + 1 ≤ k.log2 by omega)
      omega
    · have hbits : k < 2 ^ 53 := by
        -- the power 2 ^ 53 itself would have a larger logarithm than `j`
        have hj53 : j.log2 < 53 := (Nat.log2_lt hj0).mpr (by omega)
        exact (Nat.log2_lt hk0).mp (by omega)
      rw [unitsCode_of_lt hk0 hbits, heq]
      exact Nat.add_lt_add_left (Nat.mul_lt_mul_of_pos_right h (Nat.two_pow_pos _)) _

theorem nearestCode_lt {j k : Nat} (h : j < k) (hk : k ≤ 2 ^ 53) :
    nearestCode j 1 < nearestCode k 1 := by
  have hk0 : k ≠ 0 := by omega
  have hlog : k.log2 ≤ 53 := by
    have hmono := log2_mono hk
    rwa [Nat.log2_two_pow] at hmono
  have hfinite : unitsCode (k * unitsPerOne) ≤ 1077 * 2 ^ 52 := by
    have hbound := (unitsCode_bounds (k * unitsPerOne)).1
    rw [log2_mul_unitsPerOne hk0] at hbound
    exact Nat.le_trans hbound (Nat.mul_le_mul_right _ (by omega))
  have hlt := unitsCode_lt h hk
  have hinfinity : infinityCode = 0x7FF * 2 ^ 52 := rfl
  rw [nearestCode_one, nearestCode_one, hinfinity]
  omega

theorem code_ofCode (negative : Bool) {code : Nat} (h : code < 2 ^ 63) :
    (ofCode negative code).code = code := by
  cases negative <;> simp [ofCode, Double.code] <;> omega

theorem key_ofInt (n : Int) :
    (ofInt n).key = if n < 0 then -(nearestCode n.natAbs 1 : Int) else nearestCode n.natAbs 1 := by
  have hinfinity : nearestCode n.natAbs 1 ≤ infinityCode := Nat.min_le_left ..
  have hsmall : nearestCode n.natAbs 1 < 2 ^ 63 := Nat.lt_of_le_of_lt hinfinity (by decide)
  have hcode : (ofInt n).code = nearestCode n.natAbs 1 := code_ofCode _ hsmall
  have hnegative : (ofInt n).isNegative = decide (n < 0) :=
    Number.isNegative_ofCode _ hsmall
  have hnumber : (ofInt n).isNaN = false := by
    rw [isNaN, hcode]
    exact decide_eq_false (Nat.not_lt.mpr hinfinity)
  unfold key rank
  rw [hnumber, hnegative, hcode]
  by_cases h : n < 0 <;> simp [h]

/-- Rounding integers to floating-point numbers keeps their order. -/
theorem key_ofInt_mono {m n : Int} (h : m ≤ n) : (ofInt m).key ≤ (ofInt n).key := by
  rw [key_ofInt, key_ofInt]
  by_cases hn : n < 0
  · have hcodes := nearestCode_mono (show n.natAbs ≤ m.natAbs by omega)
    rw [if_pos hn, if_pos (by omega)]
    omega
  · rw [if_neg hn]
    by_cases hm : m < 0
    · rw [if_pos hm]
      omega
    · have hcodes := nearestCode_mono (show m.natAbs ≤ n.natAbs by omega)
      rw [if_neg hm]
      omega

/-- Integers of a size up to 2⁵³ remain apart. -/
theorem key_ofInt_lt {m n : Int} (h : m < n) (hm : m.natAbs ≤ 2 ^ 53) (hn : n.natAbs ≤ 2 ^ 53) :
    (ofInt m).key < (ofInt n).key := by
  rw [key_ofInt, key_ofInt]
  by_cases hneg : n < 0
  · have hcodes := nearestCode_lt (show n.natAbs < m.natAbs by omega) hm
    rw [if_pos hneg, if_pos (by omega)]
    omega
  · rw [if_neg hneg]
    by_cases hm0 : m < 0
    · have hcodes := nearestCode_lt (show 0 < m.natAbs by omega) hm
      rw [if_pos hm0]
      omega
    · have hcodes := nearestCode_lt (show m.natAbs < n.natAbs by omega) hn
      rw [if_neg hm0]
      omega

end Double

end DocQuery
