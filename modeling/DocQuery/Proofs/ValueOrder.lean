import DocQuery.Proofs.Doubles
import DocQuery.Value.Order
/-!
# DocQuery.Proofs.ValueOrder

The order of values as an order. It always turns around with its two sides, and a value is the
same as itself. It is transitive wherever the numbers that occur have a rank by which they are
compared (`compare_chained`): among integers alone, and in company of other numbers as long as no
two different integers are rounded to one floating-point number (`Distinguishable`). Beyond 2⁵³
there are such integers, and a floating-point number between them is the same as both.
-/

namespace DocQuery

/-! ### Orderings that belong together

Three comparisons of three values belong together if they could come from an order. Comparing first
by one thing and then by another keeps this, and so it is kept by all the lexicographic comparisons
below. -/

/-- The orderings of the first and the second, of the second and the third, and of the first and
the third of three things agree: who is the same as a neighbour stands to the other one as the
neighbour does, and two steps in one direction lead in that direction. -/
def Chained (x y z : Ordering) : Prop :=
  (x = .eq → z = y) ∧ (y = .eq → z = x) ∧ (x = y → z = x)

theorem Chained.isLE {x y z : Ordering} (h : Chained x y z) (hx : x.isLE) (hy : y.isLE) :
    z.isLE := by
  obtain ⟨hleft, hright, hboth⟩ := h
  cases x with
  | eq => rwa [hleft rfl]
  | gt => cases hx
  | lt =>
      cases y with
      | eq => rwa [hright rfl]
      | gt => cases hy
      | lt => rwa [hboth rfl]

theorem chained_gt (x : Ordering) : Chained x .gt .gt := ⟨fun _ => rfl, by rintro ⟨⟩, Eq.symm⟩

/-- Lexicographic orderings agree if the first parts do, and the second parts do where the first
parts leave it to them. -/
theorem Chained.then {x y z x' y' z' : Ordering} (h : Chained x y z)
    (h' : x = .eq → y = .eq → Chained x' y' z') :
    Chained (x.then x') (y.then y') (z.then z') := by
  obtain ⟨hleft, hright, hboth⟩ := h
  cases x with
  | eq =>
      cases hleft rfl
      cases y with
      | eq => exact h' rfl rfl
      | lt | gt => exact ⟨fun _ => rfl, by rintro ⟨⟩, fun heq => heq.symm⟩
  | lt | gt =>
      cases y with
      | eq =>
          cases hright rfl
          simp [Chained]
      | lt | gt => simp_all [Chained]

theorem chained_of_order {α : Type} [Ord α] [Std.TransOrd α] (x y z : α) :
    Chained (Ord.compare x y) (Ord.compare y z) (Ord.compare x z) := by
  refine ⟨Std.TransCmp.congr_left, fun h => (Std.TransCmp.congr_right h).symm, fun h => ?_⟩
  cases hxy : Ord.compare x y with
  | lt => exact Std.TransCmp.lt_trans hxy (h ▸ hxy)
  | eq => rw [Std.TransCmp.congr_left hxy, ← h, hxy]
  | gt => exact Std.TransCmp.gt_trans hxy (h ▸ hxy)

namespace Value

/-! ### Kinds

Values are compared by their kinds first, and only two values of one kind are looked at. What is
shown of all values is therefore shown kind by kind, by induction on the one on the left. -/

/-- What kind two values are of comes before everything else. -/
theorem compare_eq_then (c : Collation) (a b : Value) :
    compare c a b = (Ord.compare a.kindRank b.kindRank).then (compare c a b) := by
  by_cases h : a.kindRank = b.kindRank
  · rw [h, Std.ReflOrd.compare_self]
    rfl
  · have hne : Ord.compare a.kindRank b.kindRank ≠ .eq := fun heq => h (Nat.compare_eq_eq.mp heq)
    have hrank : compare c a b = Ord.compare a.kindRank b.kindRank := by
      cases a <;> cases b <;> first | rfl | exact absurd rfl h
    rw [hrank]
    cases hcompare : Ord.compare a.kindRank b.kindRank with
    | eq => exact absurd hcompare hne
    | lt | gt => rfl

/-- Two values of different kinds are in the order of the kinds, whichever comes first. -/
theorem compare_swap_of_kind {c : Collation} {a b : Value}
    (h : a.kindRank = b.kindRank → compare c b a = (compare c a b).swap) :
    compare c b a = (compare c a b).swap := by
  rw [compare_eq_then c a b, compare_eq_then c b a, Ordering.swap_then,
    Std.OrientedOrd.eq_swap (a := b.kindRank)]
  by_cases hrank : a.kindRank = b.kindRank
  · rw [h hrank]
  · cases hcompare : Ord.compare a.kindRank b.kindRank with
    | eq => exact absurd (Nat.compare_eq_eq.mp hcompare) hrank
    | lt | gt => rfl

/-- Orderings of values agree if they do where the three values are of one kind. -/
theorem chained_of_kind {c : Collation} {a b d : Value}
    (h : a.kindRank = b.kindRank → b.kindRank = d.kindRank →
      Chained (compare c a b) (compare c b d) (compare c a d)) :
    Chained (compare c a b) (compare c b d) (compare c a d) := by
  -- Where two of the kinds differ the ranks decide, and these are in the order of the numbers.
  rw [compare_eq_then c a b, compare_eq_then c b d, compare_eq_then c a d]
  refine (chained_of_order ..).then fun hab hbd => ?_
  exact h (Nat.compare_eq_eq.mp hab) (Nat.compare_eq_eq.mp hbd)

/-- Two values of one kind. -/
inductive OfOneKind : Value → Value → Prop where
  | minValue : OfOneKind .minValue .minValue
  | null : OfOneKind .null .null
  | string (s t : String) : OfOneKind (.string s) (.string t)
  | document (as bs : List (String × Value)) : OfOneKind (.document as) (.document bs)
  | array (as bs : List Value) : OfOneKind (.array as) (.array bs)
  | binary (s t : List UInt8) : OfOneKind (.binary s) (.binary t)
  | objectId (s t : ObjectId) : OfOneKind (.objectId s) (.objectId t)
  | guid (s t : Guid) : OfOneKind (.guid s) (.guid t)
  | boolean (s t : Bool) : OfOneKind (.boolean s) (.boolean t)
  | dateTime (s t : DateTime) : OfOneKind (.dateTime s) (.dateTime t)
  | maxValue : OfOneKind .maxValue .maxValue
  | number {a b : Value} (ha : a.isNumber = true) (hb : b.isNumber = true) : OfOneKind a b

theorem ofOneKind {a b : Value} (h : a.kindRank = b.kindRank) : OfOneKind a b := by
  cases a <;> cases b <;> first | (cases h; done) | (constructor <;> rfl)

theorem compare_numbers {c : Collation} {a b : Value} (ha : a.isNumber = true)
    (hb : b.isNumber = true) : compare c a b = compareNumbers a b := by
  cases a <;> cases ha <;> cases b <;> cases hb <;> rfl

/-- What holds of documents and arrays whenever it holds of what they contain, and of all other
values. -/
structure Hereditary (P : Value → Prop) : Prop where
  leaf : ∀ v : Value, v.isDocument = false → v.isArray = false → P v
  document : ∀ entries, (∀ entry ∈ entries, P entry.2) → P (.document entries)
  array : ∀ items, (∀ item ∈ items, P item) → P (.array items)

namespace Hereditary

variable {P : Value → Prop}

mutual

theorem holds (h : Hereditary P) : ∀ v, P v
  | .document entries => h.document entries (h.holds_entries entries)
  | .array items => h.array items (h.holds_items items)
  | .minValue | .null | .int32 _ | .int64 _ | .double _ | .decimal _ | .string _ | .binary _
  | .objectId _ | .guid _ | .boolean _ | .dateTime _ | .maxValue => h.leaf _ rfl rfl

theorem holds_items (h : Hereditary P) : ∀ items : List Value, ∀ item ∈ items, P item
  | [] => by simp
  | head :: rest => by
      have hhead := h.holds head
      have hrest := h.holds_items rest
      simpa [hhead] using hrest

theorem holds_entries (h : Hereditary P) :
    ∀ entries : List (String × Value), ∀ entry ∈ entries, P entry.2
  | [] => by simp
  | (name, value) :: rest => by
      have hvalue := h.holds value
      have hrest := h.holds_entries rest
      simpa [hvalue] using hrest

end

end Hereditary

/-! ### Two sides

Comparing with the sides exchanged gives the opposite, for numbers as for anything that holds them.
-/

section Swap

variable {c : Collation}

theorem compareNumbers_swap (a b : Value) : compareNumbers b a = (compareNumbers a b).swap := by
  have hdouble : Double.compare b.asDouble a.asDouble =
      (Double.compare a.asDouble b.asDouble).swap := by
    rw [Double.compare_eq_key, Double.compare_eq_key]
    exact Std.OrientedOrd.eq_swap
  unfold compareNumbers
  cases a.integer? with
  | none =>
      cases b.integer? with
      | none | some n => exact hdouble
  | some m =>
      cases b.integer? with
      | none => exact hdouble
      | some n => exact Std.OrientedOrd.eq_swap

theorem compareBytes_swap (a b : List UInt8) : compareBytes b a = (compareBytes a b).swap :=
  Std.OrientedOrd.eq_swap

theorem dateTime_compare_swap (a b : DateTime) : b.compare a = (a.compare b).swap := by
  unfold DateTime.compare
  rw [Ordering.swap_then, Ordering.swap_then, ← Std.OrientedOrd.eq_swap,
    ← Std.OrientedOrd.eq_swap, ← Std.OrientedOrd.eq_swap]

theorem compareItems_swap {as : List Value}
    (h : ∀ a ∈ as, ∀ b, compare c b a = (compare c a b).swap) (bs : List Value) :
    compareItems c bs as = (compareItems c as bs).swap := by
  induction as generalizing bs with
  | nil => cases bs <;> simp [compareItems]
  | cons a as ih =>
      cases bs with
      | nil => simp [compareItems]
      | cons b bs =>
          rw [compareItems, compareItems, Ordering.swap_then, h a (by simp) b,
            ih (fun a ha => h a (by simp [ha])) bs]

theorem compareEntries_swap {as : List (String × Value)}
    (h : ∀ a ∈ as, ∀ b, compare c b a.2 = (compare c a.2 b).swap) (bs : List (String × Value)) :
    compareEntries c bs as = (compareEntries c as bs).swap := by
  induction as generalizing bs with
  | nil => cases bs <;> simp [compareEntries]
  | cons a as ih =>
      cases bs with
      | nil => simp [compareEntries]
      | cons b bs =>
          have hname : c.compare b.1 a.1 = (c.compare a.1 b.1).swap := Std.OrientedOrd.eq_swap
          rw [compareEntries, compareEntries, Ordering.swap_then, Ordering.swap_then, hname,
            h a (by simp) b.2, ih (fun a ha => h a (by simp [ha])) bs]

theorem hereditary_swap : Hereditary fun a => ∀ b, compare c b a = (compare c a b).swap where
  leaf a hdocument harray b := by
    refine compare_swap_of_kind fun hrank => ?_
    cases ofOneKind hrank with
    | number ha hb => rw [compare_numbers ha hb, compare_numbers hb ha, compareNumbers_swap]
    | document => cases hdocument
    | array => cases harray
    | minValue | null | maxValue => rfl
    | string | boolean => exact Std.OrientedOrd.eq_swap
    | binary | objectId | guid => exact compareBytes_swap ..
    | dateTime s t => exact dateTime_compare_swap s t
  document entries h b := by
    refine compare_swap_of_kind fun hrank => ?_
    cases ofOneKind hrank with
    | document _ bs => exact compareEntries_swap h bs
    | number ha => cases ha
  array items h b := by
    refine compare_swap_of_kind fun hrank => ?_
    cases ofOneKind hrank with
    | array _ bs => exact compareItems_swap h bs
    | number ha => cases ha

/-- The order turns around with its two sides. -/
theorem compare_swap (a b : Value) : compare c b a = (compare c a b).swap :=
  hereditary_swap.holds a b

/-- A value is the same as itself. -/
theorem compare_self (a : Value) : compare c a a = .eq := by
  have hswap := compare_swap (c := c) a a
  cases hcompare : compare c a a with
  | eq => rfl
  | lt | gt =>
      rw [hcompare] at hswap
      cases hswap

end Swap

/-! ### Three in a row

Numbers are the only values for which transitivity is in question, so they are asked to have a rank
by which they are compared. The rank is only needed for the numbers that occur somewhere in the
three values. -/

mutual

/-- The numbers in a value. -/
def numbers : Value → List Value
  | .int32 n => [.int32 n]
  | .int64 n => [.int64 n]
  | .double x => [.double x]
  | .decimal d => [.decimal d]
  | .document entries => numbersOfEntries entries
  | .array items => numbersOfItems items
  | .minValue | .null | .string _ | .binary _ | .objectId _ | .guid _ | .boolean _ | .dateTime _
  | .maxValue => []

def numbersOfItems : List Value → List Value
  | [] => []
  | item :: items => numbers item ++ numbersOfItems items

def numbersOfEntries : List (String × Value) → List Value
  | [] => []
  | (_, value) :: entries => numbers value ++ numbersOfEntries entries

end

theorem mem_numbers_self {v : Value} (h : v.isNumber = true) : v ∈ v.numbers := by
  cases v <;> cases h <;> exact List.mem_singleton_self _

theorem dateTime_compare_chained (a b d : DateTime) :
    Chained (a.compare b) (b.compare d) (a.compare d) :=
  (chained_of_order ..).then fun _ _ => (chained_of_order ..).then fun _ _ => chained_of_order ..

section Chain

variable {c : Collation} {P : Value → Prop}

theorem compareItems_chained {as bs ds : List Value}
    (h : ∀ a ∈ as, ∀ b d, (∀ x ∈ a.numbers, P x) → (∀ x ∈ b.numbers, P x) →
      (∀ x ∈ d.numbers, P x) → Chained (compare c a b) (compare c b d) (compare c a d))
    (ha : ∀ x ∈ numbersOfItems as, P x) (hb : ∀ x ∈ numbersOfItems bs, P x)
    (hd : ∀ x ∈ numbersOfItems ds, P x) :
    Chained (compareItems c as bs) (compareItems c bs ds) (compareItems c as ds) := by
  induction as generalizing bs ds with
  | nil => cases bs <;> cases ds <;> simp [compareItems, Chained]
  | cons a as ih =>
      cases bs with
      | nil => cases ds <;> simp [compareItems, Chained]
      | cons b bs =>
          cases ds with
          -- the longer of two lists comes last, so the third stands before both others
          | nil => exact chained_gt _
          | cons d ds =>
              simp only [numbersOfItems, List.forall_mem_append] at ha hb hd
              rw [compareItems, compareItems, compareItems]
              refine (h a (by simp) b d ha.1 hb.1 hd.1).then fun _ _ => ?_
              exact ih (fun a ha => h a (by simp [ha])) ha.2 hb.2 hd.2

theorem compareEntries_chained {as bs ds : List (String × Value)}
    (h : ∀ a ∈ as, ∀ b d, (∀ x ∈ a.2.numbers, P x) → (∀ x ∈ b.numbers, P x) →
      (∀ x ∈ d.numbers, P x) → Chained (compare c a.2 b) (compare c b d) (compare c a.2 d))
    (ha : ∀ x ∈ numbersOfEntries as, P x) (hb : ∀ x ∈ numbersOfEntries bs, P x)
    (hd : ∀ x ∈ numbersOfEntries ds, P x) :
    Chained (compareEntries c as bs) (compareEntries c bs ds) (compareEntries c as ds) := by
  induction as generalizing bs ds with
  | nil => cases bs <;> cases ds <;> simp [compareEntries, Chained]
  | cons a as ih =>
      cases bs with
      | nil => cases ds <;> simp [compareEntries, Chained]
      | cons b bs =>
          cases ds with
          | nil => exact chained_gt _
          | cons d ds =>
              simp only [numbersOfEntries, List.forall_mem_append] at ha hb hd
              rw [compareEntries, compareEntries, compareEntries]
              refine (chained_of_order ..).then fun _ _ => ?_
              refine (h a (by simp) b.2 d.2 ha.1 hb.1 hd.1).then fun _ _ => ?_
              exact ih (fun a ha => h a (by simp [ha])) ha.2 hb.2 hd.2

variable {rank : Value → Int}
  (hrank : ∀ x y, P x → P y → compareNumbers x y = Ord.compare (rank x) (rank y))
include hrank

theorem compare_numbers_chained {a b d : Value} (hna : a.isNumber = true)
    (hnb : b.isNumber = true) (hnd : d.isNumber = true) (ha : ∀ x ∈ a.numbers, P x)
    (hb : ∀ x ∈ b.numbers, P x) (hd : ∀ x ∈ d.numbers, P x) :
    Chained (compare c a b) (compare c b d) (compare c a d) := by
  have hpa := ha _ (mem_numbers_self hna)
  have hpb := hb _ (mem_numbers_self hnb)
  have hpd := hd _ (mem_numbers_self hnd)
  rw [compare_numbers hna hnb, compare_numbers hnb hnd, compare_numbers hna hnd,
    hrank a b hpa hpb, hrank b d hpb hpd, hrank a d hpa hpd]
  exact chained_of_order ..

theorem hereditary_chained : Hereditary fun a => ∀ b d, (∀ x ∈ a.numbers, P x) →
    (∀ x ∈ b.numbers, P x) → (∀ x ∈ d.numbers, P x) →
      Chained (compare c a b) (compare c b d) (compare c a d) where
  leaf a hdocument harray b d ha hb hd := by
    -- Values of different kinds are ordered by their kinds, so only one kind at a time is left.
    refine chained_of_kind fun hab hbd => ?_
    have hbd := ofOneKind hbd
    cases ofOneKind hab with
    | document => cases hdocument
    | array => cases harray
    | minValue | null | maxValue =>
        cases hbd with
        | number h => cases h
        | _ => exact chained_of_order 0 0 0
    | string _ _ | boolean _ _ | binary _ _ | objectId _ _ | guid _ _ =>
        cases hbd with
        | number h => cases h
        | _ => exact chained_of_order ..
    | dateTime _ _ =>
        cases hbd with
        | number h => cases h
        | _ => exact dateTime_compare_chained ..
    | number hna hnb =>
        have hnd : d.isNumber = true := by
          cases hbd with
          | number _ h => exact h
          | _ => cases hnb
        exact compare_numbers_chained hrank hna hnb hnd ha hb hd
  document entries h b d ha hb hd := by
    refine chained_of_kind fun hab hbd => ?_
    have hbd := ofOneKind hbd
    cases ofOneKind hab with
    | number h => cases h
    | document _ bs =>
        cases hbd with
        | number h => cases h
        | document _ ds => exact compareEntries_chained h ha hb hd
  array items h b d ha hb hd := by
    refine chained_of_kind fun hab hbd => ?_
    have hbd := ofOneKind hbd
    cases ofOneKind hab with
    | number h => cases h
    | array _ bs =>
        cases hbd with
        | number h => cases h
        | array _ ds => exact compareItems_chained h ha hb hd

/-- The orderings of three values agree if all numbers in them have a rank by which they are
compared. -/
theorem compare_chained (a b d : Value) (ha : ∀ x ∈ a.numbers, P x) (hb : ∀ x ∈ b.numbers, P x)
    (hd : ∀ x ∈ d.numbers, P x) :
    Chained (compare c a b) (compare c b d) (compare c a d) :=
  (hereditary_chained hrank).holds a b d ha hb hd

end Chain

/-! ### Numbers in company

Integers by themselves have their value as a rank. As soon as a number of another type is among them
they need the rank of the floating-point numbers that they are rounded to, and it serves as long as
no two of them are rounded to the same. -/

/-- The place of an integer among the integers. -/
def intRank (v : Value) : Int := v.integer?.getD 0

/-- The place of a number among the floating-point numbers. -/
def doubleRank (v : Value) : Int := v.asDouble.key

/-- Either all the numbers are integers, or no two different integers among them are rounded to
one floating-point number. -/
def Distinguishable (numbers : List Value) : Prop :=
  (∀ x ∈ numbers, x.integer?.isSome) ∨
    ∀ x ∈ numbers, ∀ y ∈ numbers, ∀ m n, x.integer? = some m → y.integer? = some n →
      (Double.ofInt m).key = (Double.ofInt n).key → m = n

theorem asDouble_of_integer {v : Value} {n : Int} (h : v.integer? = some n) :
    v.asDouble = Double.ofInt n := by
  cases v <;> cases h <;> rfl

/-- Integers that remain apart are in the order of the floating-point numbers next to them. -/
theorem compare_ofInt {m n : Int} (h : (Double.ofInt m).key = (Double.ofInt n).key → m = n) :
    Ord.compare m n = Ord.compare (Double.ofInt m).key (Double.ofInt n).key := by
  rcases Int.lt_trichotomy m n with hlt | rfl | hgt
  · have hle := Double.key_ofInt_mono (Int.le_of_lt hlt)
    have hne : (Double.ofInt m).key ≠ (Double.ofInt n).key := fun heq => by
      have := h heq
      omega
    rw [Int.compare_eq_lt.mpr hlt, Int.compare_eq_lt.mpr (by omega)]
  · rw [Std.ReflOrd.compare_self, Std.ReflOrd.compare_self]
  · have hle := Double.key_ofInt_mono (Int.le_of_lt hgt)
    have hne : (Double.ofInt m).key ≠ (Double.ofInt n).key := fun heq => by
      have := h heq
      omega
    rw [Int.compare_eq_gt.mpr hgt, Int.compare_eq_gt.mpr (by omega)]

/-- Numbers that can be distinguished have a rank by which they are compared. -/
theorem Distinguishable.exists_rank {numbers : List Value} (h : Distinguishable numbers) :
    ∃ rank : Value → Int, ∀ x y, x ∈ numbers → y ∈ numbers →
      compareNumbers x y = Ord.compare (rank x) (rank y) := by
  rcases h with hints | hapart
  · refine ⟨intRank, fun x y hx hy => ?_⟩
    obtain ⟨m, hm⟩ := Option.isSome_iff_exists.mp (hints x hx)
    obtain ⟨n, hn⟩ := Option.isSome_iff_exists.mp (hints y hy)
    simp [compareNumbers, intRank, hm, hn]
  · refine ⟨doubleRank, fun x y hx hy => ?_⟩
    unfold compareNumbers doubleRank
    split
    next m n hm hn =>
      rw [asDouble_of_integer hm, asDouble_of_integer hn]
      exact compare_ofInt (hapart x hx y hy m n hm hn)
    next => exact Double.compare_eq_key ..

/-- Integers of a size up to 2⁵³ are told apart in any company. -/
theorem distinguishable_of_small {numbers : List Value}
    (h : ∀ x ∈ numbers, ∀ n, x.integer? = some n → n.natAbs ≤ 2 ^ 53) :
    Distinguishable numbers := by
  refine .inr fun x hx y hy m n hm hn heq => ?_
  have hbm := h x hx m hm
  have hbn := h y hy n hn
  rcases Int.lt_trichotomy m n with hlt | rfl | hgt
  · have := Double.key_ofInt_lt hlt hbm hbn
    omega
  · rfl
  · have := Double.key_ofInt_lt hgt hbn hbm
    omega

/-- For either collation `Value.compare` turns around with its two sides, holds every value the same
as itself, and is transitive wherever the numbers in the three values can be distinguished. -/
theorem compare_preorder (c : Collation) :
    (∀ a b, compare c b a = (compare c a b).swap) ∧ (∀ a, compare c a a = .eq) ∧
      ∀ a b d, Distinguishable (a.numbers ++ b.numbers ++ d.numbers) →
        (compare c a b).isLE → (compare c b d).isLE → (compare c a d).isLE := by
  refine ⟨compare_swap, compare_self, fun a b d h hab hbd => ?_⟩
  obtain ⟨rank, hrank⟩ := h.exists_rank
  have hchained := compare_chained (c := c) hrank a b d
    (fun x hx => by simp [hx]) (fun x hx => by simp [hx]) (fun x hx => by simp [hx])
  exact hchained.isLE hab hbd

/-- An array with a fraction stands between two arrays of integers. -/
theorem compare_preorder_between :
    (compare .binary (.array [.int32 1]) (.array [.double ⟨0x3FF8000000000000⟩])).isLE ∧
      (compare .binary (.array [.double ⟨0x3FF8000000000000⟩]) (.array [.int64 2])).isLE ∧
      (compare .binary (.array [.int32 1]) (.array [.int64 2])).isLE := by
  have hbelow : (compare .binary (.array [.int32 1])
      (.array [.double ⟨0x3FF8000000000000⟩])).isLE := by decide +kernel
  have habove : (compare .binary (.array [.double ⟨0x3FF8000000000000⟩])
      (.array [.int64 2])).isLE := by decide +kernel
  refine ⟨hbelow, habove, (compare_preorder .binary).2.2 _ _ _ ?_ hbelow habove⟩
  apply distinguishable_of_small
  intro x hx n hn
  simp only [numbers, numbersOfItems, List.append_nil, List.cons_append, List.nil_append,
    List.mem_cons, List.not_mem_nil, or_false] at hx
  rcases hx with rfl | rfl | rfl <;> cases hn <;> decide

/-- Beyond 2⁵³ an integer and the one before it are the same as one floating-point number, yet
not the same. -/
theorem compare_not_transitive :
    ¬ ∀ (c : Collation) (a b d : Value),
        (compare c a b).isLE → (compare c b d).isLE → (compare c a d).isLE := by
  intro h
  have hle := h .binary (.int64 9007199254740993) (.double ⟨0x4340000000000000⟩)
    (.int64 9007199254740992) (by decide +kernel) (by decide +kernel)
  exact absurd hle (by decide +kernel)

end Value

end DocQuery
