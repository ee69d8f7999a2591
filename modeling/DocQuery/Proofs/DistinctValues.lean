import DocQuery.Builtin.Apply
import Mathlib.Data.List.Basic
import Mathlib.Data.List.Induction
/-!
# DocQuery.Proofs.DistinctValues

Sequences without repetition. Which values are the same depends on the collation, and two values may
both be the same as a third one without being the same, so what is left of a sequence is described
by places (`Aggregate.Stay`): the values that stay are no two of them the same, and every other one
is the same as a value that stays in front of it. `Aggregate.exists_stay` carries this description
along the sequence; that nothing more is dropped a second time, and what is left of a sequence
without the values of another one, are read off it (`repetitions_dropped`).
-/

namespace DocQuery

namespace Aggregate

variable {c : Collation}

/-! ### The values that stay -/

/-- Of some values these stay, each with its place: no two of them are the same, and every other
value is the same as one that stays in front of it. -/
structure Stay (c : Collation) (values : List Value) (placed : List (Value × Nat)) : Prop where
  sublist : placed.Sublist values.zipIdx
  apart : placed.Pairwise fun a b => Value.same c a.1 b.1 = false
  covered : ∀ item ∈ values.zipIdx, item ∈ placed ∨
    ∃ earlier ∈ placed, earlier.2 < item.2 ∧ Value.same c earlier.1 item.1 = true

theorem zipIdx_concat (values : List Value) (v : Value) :
    (values ++ [v]).zipIdx = values.zipIdx ++ [(v, values.length)] := by
  simp [List.zipIdx_append]

namespace Stay

variable {values : List Value} {placed : List (Value × Nat)}

theorem nil : Stay c [] [] where
  sublist := .slnil
  apart := .nil
  covered := nofun

/-- One more value goes if it is the same as one that stays. -/
theorem concat_same (h : Stay c values placed) {v : Value} {earlier : Value × Nat}
    (hmem : earlier ∈ placed) (hsame : Value.same c earlier.1 v = true) :
    Stay c (values ++ [v]) placed where
  sublist := by
    rw [zipIdx_concat]
    exact h.sublist.trans (List.sublist_append_left _ _)
  apart := h.apart
  covered := by
    intro item hitem
    rw [zipIdx_concat] at hitem
    rcases List.mem_append.mp hitem with hold | hnew
    · exact h.covered item hold
    · obtain rfl := List.mem_singleton.mp hnew
      have hplace : earlier.2 < values.length := by
        simpa using List.snd_lt_of_mem_zipIdx (h.sublist.subset hmem)
      exact .inr ⟨earlier, hmem, hplace, hsame⟩

/-- Otherwise it stays, too. -/
theorem concat_apart (h : Stay c values placed) {v : Value}
    (hapart : ∀ earlier ∈ placed, Value.same c earlier.1 v = false) :
    Stay c (values ++ [v]) (placed ++ [(v, values.length)]) where
  sublist := by
    rw [zipIdx_concat]
    exact h.sublist.append (.refl _)
  apart := by
    refine List.pairwise_append.mpr ⟨h.apart, List.pairwise_singleton _ _, ?_⟩
    intro earlier hmem item hitem
    obtain rfl := List.mem_singleton.mp hitem
    exact hapart earlier hmem
  covered := by
    intro item hitem
    rw [zipIdx_concat] at hitem
    rcases List.mem_append.mp hitem with hold | hnew
    · rcases h.covered item hold with hstays | ⟨earlier, hmem, hsame⟩
      · exact .inl (List.mem_append_left _ hstays)
      · exact .inr ⟨earlier, List.mem_append_left _ hmem, hsame⟩
    · exact .inl (List.mem_append_right _ hnew)

theorem sublist_values (h : Stay c values placed) : (placed.map Prod.fst).Sublist values := by
  have := h.sublist.map Prod.fst
  rwa [List.zipIdx_map_fst] at this

theorem apart_values (h : Stay c values placed) :
    (placed.map Prod.fst).Pairwise fun a b => Value.same c a b = false :=
  List.pairwise_map.mpr h.apart

/-- Every value stays or is the same as one that does. -/
theorem mem_or_same (h : Stay c values placed) {v : Value} (hv : v ∈ values) :
    v ∈ placed.map Prod.fst ∨ ∃ kept ∈ placed.map Prod.fst, Value.same c kept v = true := by
  rw [← List.zipIdx_map_fst 0 values] at hv
  obtain ⟨item, hitem, rfl⟩ := List.mem_map.mp hv
  rcases h.covered item hitem with hstays | ⟨earlier, hmem, -, hsame⟩
  · exact .inl (List.mem_map_of_mem hstays)
  · exact .inr ⟨earlier.1, List.mem_map_of_mem hmem, hsame⟩

end Stay

/-! ### Dropping repetitions -/

theorem distinct_concat (values : List Value) (v : Value) :
    distinct c (values ++ [v]) =
      if (distinct c values).any (fun other => Value.same c other v) then distinct c values
      else distinct c values ++ [v] := by
  rw [distinct, List.foldl_concat]
  rfl

/-- The values without repetitions are those that stay. -/
theorem exists_stay (c : Collation) (values : List Value) :
    ∃ placed, Stay c values placed ∧ distinct c values = placed.map Prod.fst := by
  induction values using List.reverseRecOn with
  | nil => exact ⟨[], .nil, rfl⟩
  | append_singleton values v ih =>
      obtain ⟨placed, hstay, heq⟩ := ih
      rw [distinct_concat, heq]
      by_cases hsame : (placed.map Prod.fst).any (fun other => Value.same c other v) = true
      · rw [if_pos hsame]
        obtain ⟨earlier, hmem, hearlier⟩ : ∃ earlier ∈ placed, Value.same c earlier.1 v = true := by
          simpa using hsame
        exact ⟨placed, hstay.concat_same hmem hearlier, rfl⟩
      · rw [if_neg hsame]
        refine ⟨placed ++ [(v, values.length)], hstay.concat_apart ?_, by simp⟩
        simpa using hsame

/-- Where no two values are the same all of them stay. -/
theorem distinct_of_apart {values : List Value}
    (h : values.Pairwise fun a b => Value.same c a b = false) : distinct c values = values := by
  induction values using List.reverseRecOn with
  | nil => rfl
  | append_singleton values v ih =>
      obtain ⟨hvalues, -, hlast⟩ := List.pairwise_append.mp h
      have hany : values.any (fun other => Value.same c other v) = false :=
        List.any_eq_false.mpr fun other hmem => by
          rw [hlast other hmem v List.mem_cons_self]
          exact Bool.false_ne_true
      rw [distinct_concat, ih hvalues, hany, if_neg Bool.false_ne_true]

/-- The values that are the same as none of the others. -/
def outside (c : Collation) (values others : List Value) : List Value :=
  values.filter fun v => decide (∀ other ∈ others, Value.same c v other = false)

theorem mem_outside {values others : List Value} {v : Value} :
    v ∈ outside c values others ↔
      v ∈ values ∧ ∀ other ∈ others, Value.same c v other = false := by
  simp [outside]

/-- What is left of values without others are the values outside of these that stay. -/
theorem except_eq (values others : List Value) :
    except c values others = distinct c (outside c values others) := by
  unfold except outside
  congr 2
  funext v
  rw [Bool.eq_iff_iff]
  simp

theorem apply_distinct (values : List Value) :
    Builtin.apply c .distinct [.array values] = .ok (.many (distinct c values)) := rfl

theorem apply_except (values others : List Value) :
    Builtin.apply c .except [.array values, .array others] =
      .ok (.many (except c values others)) := rfl

end Aggregate

/-- `DISTINCT` leaves of an array what stays, each other value being the same as one that stays in
front of it, and a second time it changes nothing. `UNION` is `DISTINCT` of the one array with the
other one behind it. `EXCEPT` is `DISTINCT` of the values that are the same as none of the other
array: each value of the array is the same as one of the other array, or it stays, or it is the same
as one that stays. -/
theorem repetitions_dropped (c : Collation) (a b : List Value) :
    (∃ placed, Aggregate.Stay c a placed ∧
      Builtin.apply c .distinct [.array a] = .ok (.many (placed.map Prod.fst)) ∧
      Builtin.apply c .distinct [.array (placed.map Prod.fst)] =
        .ok (.many (placed.map Prod.fst))) ∧
    Builtin.apply c .union [.array a, .array b] = Builtin.apply c .distinct [.array (a ++ b)] ∧
    ∃ rest, Builtin.apply c .except [.array a, .array b] = .ok (.many rest) ∧
      Builtin.apply c .distinct [.array (Aggregate.outside c a b)] = .ok (.many rest) ∧
      (∀ v ∈ rest, ∀ other ∈ b, Value.same c v other = false) ∧
      ∀ v ∈ a, (∃ other ∈ b, Value.same c v other = true) ∨ v ∈ rest ∨
        ∃ kept ∈ rest, Value.same c kept v = true := by
  obtain ⟨placed, hstay, hdistinct⟩ := Aggregate.exists_stay c a
  -- `EXCEPT` drops repetitions among what is outside of the other array.
  obtain ⟨left, hleft, hrest⟩ := Aggregate.exists_stay c (Aggregate.outside c a b)
  have hagain := Aggregate.distinct_of_apart hstay.apart_values
  refine ⟨⟨placed, hstay, ?_, ?_⟩, rfl, left.map Prod.fst, ?_, ?_, ?_, ?_⟩
  · rw [Aggregate.apply_distinct, hdistinct]
  · rw [Aggregate.apply_distinct, hagain]
  · rw [Aggregate.apply_except, Aggregate.except_eq, hrest]
  · rw [Aggregate.apply_distinct, hrest]
  · intro v hv
    exact (Aggregate.mem_outside.mp (hleft.sublist_values.subset hv)).2
  · intro v hv
    by_cases hother : ∃ other ∈ b, Value.same c v other = true
    · exact .inl hother
    · refine .inr (hleft.mem_or_same (Aggregate.mem_outside.mpr ⟨hv, ?_⟩))
      simpa using hother

/-- To `DISTINCT` and `EXCEPT`, numbers of different types are the same, and so are strings in
different case. -/
theorem repetitions_dropped_mixed :
    let a : List Value := [.int32 1, .string "b", .int64 1, .string "B"]
    let b : List Value := [.int64 1]
    (∃ placed, Aggregate.Stay .ignoreCase a placed ∧
      placed.map Prod.fst = [.int32 1, .string "b"]) ∧
    ∃ rest, Builtin.apply .ignoreCase .except [.array a, .array b] = .ok (.many rest) ∧
      rest = [.string "b"] ∧ Value.same .ignoreCase (.string "b") (.int64 1) = false ∧
      ∃ kept ∈ rest, Value.same .ignoreCase kept (.string "B") = true := by
  intro a b
  obtain ⟨⟨placed, hstay, hplaced, -⟩, -, rest, hrest, -, hnone, hcovered⟩ :=
    repetitions_dropped .ignoreCase a b
  have hdistinct : Builtin.apply .ignoreCase .distinct [.array a] =
      .ok (.many [.int32 1, .string "b"]) := by rfl
  have hexcept : Builtin.apply .ignoreCase .except [.array a, .array b] =
      .ok (.many [.string "b"]) := by rfl
  obtain rfl : [.string "b"] = rest :=
    CallResult.many.inj (Except.ok.inj (hexcept.symm.trans hrest))
  refine ⟨⟨placed, hstay, CallResult.many.inj (Except.ok.inj (hplaced.symm.trans hdistinct))⟩,
    _, hrest, rfl, hnone _ List.mem_cons_self _ List.mem_cons_self, ?_⟩
  rcases hcovered (.string "B") (by simp [a]) with hother | hstays | hkept
  · exact absurd hother (by decide +kernel)
  · simp at hstays
  · exact hkept

end DocQuery
