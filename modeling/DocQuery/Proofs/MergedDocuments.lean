import DocQuery.Builtin.Apply
import DocQuery.Proofs.ExtendedJson
/-!
# DocQuery.Proofs.MergedDocuments

A document extended by another one. The names of the first stay where they are and the new ones of
the second follow in their order (`names_merge`); where both have a name the second gives the value
(`mem_merge`). Names and values together are the whole document (`eq_of_names_eq`), so the laws of
merging (`documents_merged`) follow from these two without another look at the insertions.
-/

namespace DocQuery

namespace Entries

variable {α : Type} {a b : Entries α}

/-- The entries of `a` with those of `b` given one after the other. -/
def merge (a b : Entries α) : Entries α :=
  b.foldl (fun all (name, value) => insert name value all) a

theorem merge_cons (a : Entries α) (name : String) (value : α) (rest : Entries α) :
    merge a ((name, value) :: rest) = merge (insert name value a) rest := rfl

theorem distinct_cons {name : String} {value : α} {rest : Entries α} :
    Distinct ((name, value) :: rest) ↔ name ∉ names rest ∧ Distinct rest :=
  List.nodup_cons

theorem mem_names {entry : String × α} (h : entry ∈ a) : entry.1 ∈ names a :=
  List.mem_map_of_mem h

/-! ### Names -/

theorem Distinct.merge (ha : Distinct a) (b : Entries α) : Distinct (merge a b) :=
  List.foldlRecOn b _ ha fun _ h entry _ => h.insert entry.1 entry.2

/-- The new names stand behind the old ones. -/
theorem names_merge (a : Entries α) (hb : Distinct b) :
    names (merge a b) = names a ++ (names b).filter (· ∉ names a) := by
  induction b generalizing a with
  | nil => exact (List.append_nil _).symm
  | cons entry rest ih =>
      obtain ⟨name, value⟩ := entry
      obtain ⟨hnew, hrest⟩ := distinct_cons.mp hb
      rw [merge_cons, ih _ hrest, names_insert, names_cons]
      split
      · rename_i hmem
        rw [List.filter_cons_of_neg (by simpa using hmem)]
      · rename_i hmem
        -- The name just added is not among those that are still to come.
        have hfilter : (names rest).filter (· ∉ names a ++ [name]) =
            (names rest).filter (· ∉ names a) := by
          refine List.filter_congr fun other hother => ?_
          have hne : other ≠ name := fun h => hnew (h ▸ hother)
          simp [hne]
        rw [hfilter, List.filter_cons_of_pos (by simpa using hmem), List.append_assoc,
          List.singleton_append]

/-! ### Values -/

theorem mem_insert (ha : Distinct a) {name : String} {value : α} {entry : String × α} :
    entry ∈ insert name value a ↔ entry = (name, value) ∨ entry ∈ a ∧ entry.1 ≠ name := by
  induction a with
  | nil => simp [insert]
  | cons first rest ih =>
      obtain ⟨k, v⟩ := first
      obtain ⟨hnew, hrest⟩ := distinct_cons.mp ha
      rw [insert]
      split
      · rename_i hk
        subst hk
        -- No later entry has the name of the first, which is the one that is replaced.
        have hlater : entry ∈ rest → entry.1 ≠ k := fun h hk => hnew (hk ▸ mem_names h)
        grind
      · rename_i hk
        have hfirst : entry = (k, v) → entry.1 ≠ name := by
          rintro rfl
          exact hk
        rw [List.mem_cons, List.mem_cons, ih hrest]
        grind

/-- The second document gives the value of each of its names, the first that of the others. -/
theorem mem_merge (ha : Distinct a) (hb : Distinct b) {entry : String × α} :
    entry ∈ merge a b ↔ entry ∈ b ∨ entry ∈ a ∧ entry.1 ∉ names b := by
  induction b generalizing a with
  | nil => simp [merge]
  | cons first rest ih =>
      obtain ⟨name, value⟩ := first
      obtain ⟨hnew, hrest⟩ := distinct_cons.mp hb
      have hfirst : entry = (name, value) → entry.1 ∉ names rest := by
        rintro rfl
        exact hnew
      rw [merge_cons, ih (ha.insert name value) hrest, mem_insert ha, names_cons, List.mem_cons,
        List.mem_cons]
      grind

/-- Entries are determined by their names in order and by what they hold. -/
theorem eq_of_names_eq (ha : Distinct a) (hnames : names a = names b)
    (hmem : ∀ entry ∈ a, entry ∈ b) : a = b := by
  induction a generalizing b with
  | nil => exact (List.map_eq_nil_iff.mp hnames.symm).symm
  | cons first rest ih =>
      obtain ⟨name, value⟩ := first
      obtain ⟨⟨k, v⟩, rest', rfl, rfl, hlater⟩ := List.map_eq_cons_iff.mp hnames.symm
      obtain ⟨hnew, hrest⟩ := distinct_cons.mp ha
      have hlater : names rest = names rest' := hlater.symm
      have hvalue : value = v := by
        rcases List.mem_cons.mp (hmem _ List.mem_cons_self) with h | h
        · exact congrArg Prod.snd h
        · rw [hlater] at hnew
          exact absurd (mem_names h) hnew
      subst hvalue
      refine congrArg _ (ih hrest hlater fun entry hentry => ?_)
      rcases List.mem_cons.mp (hmem entry (List.mem_cons_of_mem _ hentry)) with rfl | h
      · exact absurd (mem_names hentry) hnew
      · exact h

/-! ### Laws -/

theorem nil_merge (ha : Distinct a) : merge [] a = a := ofList_of_distinct ha

theorem merge_self (ha : Distinct a) : merge a a = a := by
  refine eq_of_names_eq (ha.merge a) ?_ fun entry hentry => ?_
  · simp [names_merge a ha]
  · exact ((mem_merge ha ha).mp hentry).elim id And.left

theorem merge_assoc {d : Entries α} (ha : Distinct a) (hb : Distinct b) (hd : Distinct d) :
    merge (merge a b) d = merge a (merge b d) := by
  refine eq_of_names_eq ((ha.merge b).merge d) ?_ fun entry hentry => ?_
  · simp only [names_merge _ hb, names_merge _ hd, names_merge _ (hb.merge d), List.filter_append,
      List.filter_filter, List.append_assoc]
    refine congrArg _ (congrArg _ (List.filter_congr fun name _ => ?_))
    simp only [List.mem_append, List.mem_filter]
    grind
  · simp only [mem_merge (ha.merge b) hd, mem_merge ha (hb.merge d), mem_merge ha hb,
      mem_merge hb hd, names_merge b hd, List.mem_append, List.mem_filter] at hentry ⊢
    grind

end Entries

theorem apply_extend (c : Collation) (a b : Document) :
    Builtin.apply c .extend [.document a, .document b] =
      .ok (.one (.document (Entries.merge a b))) := rfl

/-- `EXTEND` of a document by another one keeps the names of the first in order and puts the new
ones of the second behind them in order; the second gives the value of every name that it has.
Extending twice from the left is extending once by the extension, with the same names in the same
order. Nothing changes where one of the two is empty or both are the same. -/
theorem documents_merged (c : Collation) {a b d : Document} (ha : Entries.Distinct a)
    (hb : Entries.Distinct b) (hd : Entries.Distinct d) :
    ∃ ab bd all : Document,
      Builtin.apply c .extend [.document a, .document b] = .ok (.one (.document ab)) ∧
      Entries.names ab =
        Entries.names a ++ (Entries.names b).filter (· ∉ Entries.names a) ∧
      Entries.Distinct ab ∧
      (∀ entry, entry ∈ ab ↔ entry ∈ b ∨ entry ∈ a ∧ entry.1 ∉ Entries.names b) ∧
      Builtin.apply c .extend [.document b, .document d] = .ok (.one (.document bd)) ∧
      Builtin.apply c .extend [.document ab, .document d] = .ok (.one (.document all)) ∧
      Builtin.apply c .extend [.document a, .document bd] = .ok (.one (.document all)) ∧
      Builtin.apply c .extend [.document a, .document []] = .ok (.one (.document a)) ∧
      Builtin.apply c .extend [.document [], .document a] = .ok (.one (.document a)) ∧
      Builtin.apply c .extend [.document a, .document a] = .ok (.one (.document a)) := by
  refine ⟨Entries.merge a b, Entries.merge b d, Entries.merge (Entries.merge a b) d,
    apply_extend c a b, Entries.names_merge a hb, ha.merge b, fun entry => Entries.mem_merge ha hb,
    apply_extend c b d, apply_extend c _ d, ?_, apply_extend c a [], ?_, ?_⟩
  · rw [apply_extend, Entries.merge_assoc ha hb hd]
  · rw [apply_extend, Entries.nil_merge ha]
  · rw [apply_extend, Entries.merge_self ha]

/-- The second document gives the name in the middle its value, where it stands, and the third one
does so for an old name and for a new one. -/
theorem documents_merged_overlapping :
    let a : Document := [("x", .int32 1), ("y", .int32 2), ("z", .int32 3)]
    let b : Document := [("w", .null), ("y", .string "b")]
    let d : Document := [("w", .int32 4), ("v", .null), ("x", .string "d")]
    (Entries.Distinct a ∧ Entries.Distinct b ∧ Entries.Distinct d) ∧
      ∃ ab bd all : Document,
        Builtin.apply .binary .extend [.document a, .document b] = .ok (.one (.document ab)) ∧
        Entries.names ab = ["x", "y", "z", "w"] ∧ ("y", .string "b") ∈ ab ∧ ("z", .int32 3) ∈ ab ∧
        Builtin.apply .binary .extend [.document b, .document d] = .ok (.one (.document bd)) ∧
        Builtin.apply .binary .extend [.document ab, .document d] = .ok (.one (.document all)) ∧
        Builtin.apply .binary .extend [.document a, .document bd] = .ok (.one (.document all)) := by
  intro a b d
  have ha : Entries.Distinct a := by simp [a, Entries.Distinct]
  have hb : Entries.Distinct b := by simp [b, Entries.Distinct]
  have hd : Entries.Distinct d := by simp [d, Entries.Distinct]
  obtain ⟨ab, bd, all, hab, hnames, -, hmem, hbd, hall, hall', -⟩ :=
    documents_merged .binary ha hb hd
  refine ⟨⟨ha, hb, hd⟩, ab, bd, all, hab, hnames, (hmem _).mpr ?_, (hmem _).mpr ?_, hbd, hall,
    hall'⟩
  · exact .inl (by simp [b])
  · exact .inr (by simp [a, b])

end DocQuery
