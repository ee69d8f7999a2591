import DocQuery.Text.Ascii
/-!
# DocQuery.Entries

Named entries in the order in which their names first came. A name occurs once;
giving it again replaces its value and leaves it in its place.
-/

namespace DocQuery

/-- Named values in order. -/
abbrev Entries (α : Type) := List (String × α)

namespace Entries

variable {α : Type}

/-- The entries with `name` standing for `value`: in its place if the name is
there, else at the end. -/
def insert (name : String) (value : α) : Entries α → Entries α
  | [] => [(name, value)]
  | (k, v) :: rest => if k = name then (k, value) :: rest else (k, v) :: insert name value rest

/-- Entries given one after the other. -/
def ofList (entries : List (String × α)) : Entries α :=
  entries.foldl (fun all (name, value) => insert name value all) []

/-- The value of a name: the entry of exactly that name, else the first one whose
name agrees without regard to ASCII case. -/
def find? (entries : Entries α) (name : String) : Option α :=
  match List.find? (fun entry => entry.1 = name) entries with
  | some (_, value) => some value
  | none => (List.find? (fun entry => Text.sameName entry.1 name) entries).map Prod.snd

/-- The names in order. -/
def names (entries : Entries α) : List String := entries.map Prod.fst

/-- The values in the order of their names. -/
def values (entries : Entries α) : List α := entries.map Prod.snd

/-- No name occurs twice. -/
def Distinct (entries : Entries α) : Prop := entries.names.Nodup

@[simp] theorem names_nil : names ([] : Entries α) = [] := rfl

@[simp] theorem names_cons (k : String) (v : α) (rest : Entries α) :
    names ((k, v) :: rest) = k :: names rest := rfl

/-- Inserting leaves the names alone if the name is there, and else adds it at the end. -/
theorem names_insert (name : String) (value : α) (entries : Entries α) :
    (insert name value entries).names =
      if name ∈ entries.names then entries.names else entries.names ++ [name] := by
  induction entries with
  | nil => simp [insert]
  | cons entry rest ih =>
    obtain ⟨k, v⟩ := entry
    by_cases h : k = name
    · simp [insert, h]
    · have h' : name ≠ k := fun e => h e.symm
      simp only [insert, h, if_false, names_cons, ih, List.mem_cons, h', false_or]
      by_cases hm : name ∈ names rest <;> simp [hm]

/-- Inserting keeps the names distinct. -/
theorem Distinct.insert {entries : Entries α} (h : Distinct entries) (name : String) (value : α) :
    Distinct (Entries.insert name value entries) := by
  simp only [Distinct, names_insert]
  split
  · exact h
  · rename_i hm
    exact List.nodup_append.mpr ⟨h, by simp, by
      intro a ha b hb
      simp only [List.mem_singleton] at hb
      exact fun e => hm (hb ▸ e ▸ ha)⟩

end Entries

end DocQuery
