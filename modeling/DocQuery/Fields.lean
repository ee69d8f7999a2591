import DocQuery.Text.Ascii
/-!
# DocQuery.Fields

The names of the fields of the root document that an expression reads, in the
order in which they first occur. Names that differ only in the case of ASCII
letters count as one.
-/

namespace DocQuery

/-- Field names in order, no two of them the same. -/
structure Fields where
  names : List String := []
  distinct : names.Pairwise (fun a b => Text.sameName a b = false) := by simp
deriving Repr, DecidableEq

namespace Fields

instance : Inhabited Fields := ⟨{}⟩

/-- No names. -/
def empty : Fields := {}

/-- The name is there, in letters of any case. -/
def contains (fields : Fields) (name : String) : Bool :=
  fields.names.any (Text.sameName · name)

/-- The names with one more at the end, unless it is there already. -/
def insert (fields : Fields) (name : String) : Fields :=
  if h : fields.contains name then fields
  else
    { names := fields.names ++ [name]
      distinct := by
        refine List.pairwise_append.mpr ⟨fields.distinct, by simp, fun a ha b hb => ?_⟩
        rw [List.mem_singleton.mp hb]
        simp only [contains, List.any_eq_true, not_exists, not_and, Bool.not_eq_true] at h
        exact h a ha }

/-- The names given one after the other. -/
def insertAll (fields : Fields) (names : List String) : Fields :=
  names.foldl insert fields

/-- The names of both, those of the first in front. -/
def union (a b : Fields) : Fields := a.insertAll b.names

/-- The one name. -/
def single (name : String) : Fields := { names := [name] }

/-- The names joined by commas. -/
def text (fields : Fields) : String := ", ".intercalate fields.names

/-- Two sets of fields with the same names are the same. -/
theorem ext_names {a b : Fields} (h : a.names = b.names) : a = b := by
  cases a; cases b; cases h; rfl

theorem names_insert (fields : Fields) (name : String) :
    (fields.insert name).names =
      if fields.contains name then fields.names else fields.names ++ [name] := by
  unfold insert
  split <;> simp_all

theorem names_insertAll (fields : Fields) (names : List String)
    (h : (fields.names ++ names).Pairwise (fun a b => Text.sameName a b = false)) :
    (fields.insertAll names).names = fields.names ++ names := by
  induction names generalizing fields with
  | nil => simp [insertAll]
  | cons name rest ih =>
    have hn : fields.contains name = false := by
      simp only [contains, List.any_eq_false]
      intro a ha
      simp [(List.pairwise_append.mp h).2.2 a ha name (by simp)]
    have hi : (fields.insert name).names = fields.names ++ [name] := by simp [names_insert, hn]
    have hr := ih (fields.insert name) (by rw [hi]; simpa using h)
    rw [hi] at hr
    simpa [insertAll] using hr

@[simp] theorem empty_union (a : Fields) : empty.union a = a :=
  ext_names (by
    simpa [empty, union] using names_insertAll empty a.names (by simpa [empty] using a.distinct))

end Fields

end DocQuery
