import DocQuery.Proofs.CalendarText
import DocQuery.Value.Json
/-!
# DocQuery.Proofs.ExtendedJson

Values written as JSON and read back. Every type that JSON lacks has a text of its own, which is
read back as the same value, and no other document is taken for such a text. What JSON does not
tell apart is whether an integer has 32 or 64 bits, so an integer of 64 bits that fits 32 comes
back with 32 (`narrowed`).
-/

namespace DocQuery

/-! ### Documents -/

namespace Entries

variable {α : Type}

theorem insert_of_not_mem {name : String} {value : α} {entries : Entries α}
    (h : name ∉ entries.names) : insert name value entries = entries ++ [(name, value)] := by
  induction entries with
  | nil => rfl
  | cons entry rest ih =>
      obtain ⟨k, v⟩ := entry
      rw [names_cons, List.mem_cons, not_or] at h
      rw [insert, if_neg (Ne.symm h.1), ih h.2, List.cons_append]

theorem foldl_insert {all entries : Entries α} (h : Distinct (all ++ entries)) :
    entries.foldl (fun all entry => insert entry.1 entry.2 all) all = all ++ entries := by
  induction entries generalizing all with
  | nil => exact (List.append_nil all).symm
  | cons entry rest ih =>
      have hnew : entry.1 ∉ all.names := by
        rw [Distinct, names, List.map_append, List.map_cons] at h
        exact fun hmem => (List.nodup_append.mp h).2.2 _ hmem _ List.mem_cons_self rfl
      rw [List.foldl_cons, insert_of_not_mem hnew, ih (by simpa using h), List.append_assoc]
      rfl

/-- Entries of distinct names stay as they are. -/
theorem ofList_of_distinct {entries : Entries α} (h : Distinct entries) :
    ofList entries = entries :=
  @foldl_insert α [] entries h

end Entries

namespace Value

/-! ### Integers -/

theorem ofJsonNumber_int32 {n : Int} (h : Number.FitsInt32 n) :
    ofJsonNumber (.whole n) = .int32 (Int32.ofInt n) := by
  rw [ofJsonNumber, Number.toInt32?, if_pos h]

theorem ofJsonNumber_int64 {n : Int} (hlarge : ¬Number.FitsInt32 n) (h : Number.FitsInt64 n) :
    ofJsonNumber (.whole n) = .int64 (Int64.ofInt n) := by
  rw [ofJsonNumber, Number.toInt32?, if_neg hlarge, Number.toInt64?, if_pos h]

mutual

/-- The value with every integer of 64 bits that fits 32 bits in 32 bits. -/
def narrowed : Value → Value
  | .int64 n => if Number.FitsInt32 n.toInt then .int32 (Int32.ofInt n.toInt) else .int64 n
  | .document entries => .document (narrowedEntries entries)
  | .array items => .array (narrowedItems items)
  | value => value

/-- The narrowed items. -/
def narrowedItems : List Value → List Value
  | [] => []
  | item :: rest => item.narrowed :: narrowedItems rest

/-- The narrowed values under their names. -/
def narrowedEntries : List (String × Value) → List (String × Value)
  | [] => []
  | (name, value) :: rest => (name, value.narrowed) :: narrowedEntries rest

end

theorem names_narrowedEntries (entries : List (String × Value)) :
    Entries.names (narrowedEntries entries) = Entries.names entries := by
  induction entries with
  | nil => rfl
  | cons entry rest ih => rw [narrowedEntries, Entries.names_cons, ih]; rfl

/-! ### Typed values -/

/-- The names by which a document with a single entry stands for a value of some type. -/
def sigils : List String :=
  ["$binary", "$oid", "$guid", "$date", "$numberLong", "$numberDecimal", "$minValue", "$maxValue"]

theorem head_of_mem_sigils : ∀ name ∈ sigils, name.toList.head? = some '$' := by decide

theorem ofTyped_eq_none {name : String} (h : name ∉ sigils) (text : String) :
    ofTyped? name text = none := by
  unfold ofTyped?
  split <;> first | rfl | exact absurd (by decide) h

/-- The value is written as a JSON string or number, from which the contents of a typed value are
taken. -/
def isPayload : Value → Bool
  | .string _ | .int32 _ | .int64 _ | .double _ => true
  | _ => false

theorem typedText_toJson {v : Value} (h : v.isPayload = false) : typedText? v.toJson = none := by
  cases v with
  | string | int32 | int64 | double => cases h
  | _ => rfl

theorem ofMembers_toJsonMembers {entries : List (String × Value)}
    (h : ∀ name value, entries = [(name, value)] → name ∈ sigils → value.isPayload = false) :
    ofMembers? (toJsonMembers entries) = none := by
  match entries with
  | [] => rfl
  | [(name, value)] =>
      change (typedText? value.toJson).bind (ofTyped? name) = none
      by_cases hname : name ∈ sigils
      · rw [typedText_toJson (h name value rfl hname), Option.bind_none]
      · exact Option.bind_eq_none_iff.mpr fun text _ => ofTyped_eq_none hname text
  | _ :: _ :: _ => rfl

/-! ### The way there and back -/

/-- The value survives being written as JSON: its floating-point numbers are finite, its decimals
are ones that were read, its points in time are whole milliseconds in a year of four digits and in
no leap second, its documents have distinct names, and none of them looks like a typed value. -/
inductive Portable : Value → Prop where
  | minValue : Portable .minValue
  | null : Portable .null
  | int32 (n : Int32) : Portable (.int32 n)
  | int64 (n : Int64) : Portable (.int64 n)
  | double {x : Double} (h : x.isFinite = true) : Portable (.double x)
  | decimal {d : Decimal} {s : String} (h : Decimal.read? s = some d) : Portable (.decimal d)
  | string (s : String) : Portable (.string s)
  | document {entries : List (String × Value)} (hnames : Entries.Distinct entries)
      (hsigil : ∀ name value, entries = [(name, value)] → name ∈ sigils → value.isPayload = false)
      (h : ∀ entry ∈ entries, entry.2.Portable) : Portable (.document entries)
  | array {items : List Value} (h : ∀ item ∈ items, item.Portable) : Portable (.array items)
  | binary (bytes : List UInt8) : Portable (.binary bytes)
  | objectId (id : ObjectId) : Portable (.objectId id)
  | guid (id : Guid) : Portable (.guid id)
  | boolean (b : Bool) : Portable (.boolean b)
  | dateTime {t : DateTime} (hyear : 0 ≤ t.date.civil.year ∧ t.date.civil.year ≤ 9999)
      (hmilli : t.nano % 1000000 = 0) (hleap : t.isLeapSecond = false) : Portable (.dateTime t)
  | maxValue : Portable .maxValue

/-- An object with a single name of a type and a text is read as a value of that type. -/
theorem ofJson_typedJson {name text : String} {value : Value}
    (h : ofTyped? name text = some value) : ofJson (typedJson name text) = value := by
  have hmembers : ofMembers? [(name, .string text)] = some value := h
  rw [typedJson, ofJson, hmembers]

theorem ofJsonItems_toJsonItems {items : List Value}
    (h : ∀ item ∈ items, ofJson item.toJson = item.narrowed) :
    ofJsonItems (toJsonItems items) = narrowedItems items := by
  induction items with
  | nil => rfl
  | cons item rest ih =>
      rw [List.forall_mem_cons] at h
      rw [toJsonItems, ofJsonItems, narrowedItems, h.1, ih h.2]

theorem ofJsonMembers_toJsonMembers {entries : List (String × Value)}
    (h : ∀ entry ∈ entries, ofJson entry.2.toJson = entry.2.narrowed) :
    ofJsonMembers (toJsonMembers entries) = narrowedEntries entries := by
  induction entries with
  | nil => rfl
  | cons entry rest ih =>
      rw [List.forall_mem_cons] at h
      rw [toJsonMembers, ofJsonMembers, narrowedEntries, h.1, ih h.2]

/-- A value that is written as JSON (`Value.toJson`) and read back (`Value.ofJson`) is the same, but
for the width of its integers. -/
theorem ofJson_toJson {v : Value} (h : v.Portable) : ofJson v.toJson = v.narrowed := by
  induction h with
  | minValue | maxValue => rfl
  | null | string | boolean => rfl
  | int32 n =>
      change ofJsonNumber (.whole n.toInt) = _
      rw [ofJsonNumber_int32 (Number.fitsInt32_toInt n), Int32.ofInt_toInt]
      rfl
  | int64 n =>
      change ofJsonNumber (.whole n.toInt) = _
      rw [narrowed]
      split
      · rename_i hsmall
        rw [ofJsonNumber_int32 hsmall]
      · rename_i hlarge
        rw [ofJsonNumber_int64 hlarge (Number.fitsInt64_toInt n), Int64.ofInt_toInt]
  | double h =>
      rw [toJson, if_pos h]
      rfl
  -- From here on the text under the name of the type is read back by its own code.
  | decimal h =>
      refine ofJson_typedJson ?_
      rw [ofTyped?, Decimal.read_text h]
      rfl
  | binary bytes =>
      refine ofJson_typedJson ?_
      rw [ofTyped?, String.toList_ofList, Bytes.ofBase64_toBase64]
      rfl
  | objectId id =>
      refine ofJson_typedJson ?_
      rw [ofTyped?, ObjectId.read_text]
      rfl
  | guid id =>
      refine ofJson_typedJson ?_
      rw [ofTyped?, Guid.read_text]
      rfl
  | dateTime hyear hmilli hleap =>
      refine ofJson_typedJson ?_
      rw [ofTyped?, DateTime.read_toText hyear hmilli hleap]
      rfl
  | array _ ih =>
      rw [toJson, ofJson, ofJsonItems_toJsonItems ih, narrowed]
  -- No document that is portable looks like a typed value, and the names stay different.
  | @document entries hnames hsigil _ ih =>
      have hdistinct : Entries.Distinct (narrowedEntries entries) := by
        rwa [Entries.Distinct, names_narrowedEntries]
      rw [toJson, ofJson, ofMembers_toJsonMembers hsigil, narrowed]
      dsimp only
      rw [ofJsonMembers_toJsonMembers ih, Entries.ofList_of_distinct hdistinct]

/-- An integer of 64 bits comes back with 32, beside a larger one, and beside a decimal, a point
in time and bytes that come back as they are; so does a document under the name of a type that has
no text in it. -/
theorem ofJson_toJson_nested :
    let kept : List Value := [.int64 5000000000, .decimal ⟨"-1.50"⟩, .dateTime (.ofDate .epoch),
      .binary [255, 0], .document [("$oid", .null)]]
    let v : Value := .document [("n", .int64 5), ("list", .array kept)]
    v.Portable ∧ ofJson v.toJson = .document [("n", .int32 5), ("list", .array kept)] := by
  intro kept v
  have hdecimal : Decimal.read? "-1.50" = some ⟨"-1.50"⟩ := by decide +kernel
  have hnull : Portable (.document [("$oid", .null)]) := by
    refine .document (by simp [Entries.Distinct]) ?_ fun entry hentry => ?_
    · rintro _ _ ⟨⟩ -
      rfl
    · rw [List.mem_singleton.mp hentry]
      exact .null
  have hkept : Portable (.array kept) := by
    refine .array fun item hitem => ?_
    simp only [kept, List.mem_cons, List.not_mem_nil, or_false] at hitem
    rcases hitem with rfl | rfl | rfl | rfl | rfl
    · exact .int64 _
    · exact .decimal hdecimal
    · exact .dateTime (by decide) (by decide) (by decide)
    · exact .binary _
    · exact hnull
  have hv : v.Portable := by
    refine .document (by simp [Entries.Distinct]) (by rintro _ _ ⟨⟩) fun entry hentry => ?_
    simp only [List.mem_cons, List.not_mem_nil, or_false] at hentry
    rcases hentry with rfl | rfl
    · exact .int64 _
    · exact hkept
  exact ⟨hv, (ofJson_toJson hv).trans (by rfl)⟩

end Value

end DocQuery
