import DocQuery.Proofs.ExtendedJson
import DocQuery.Proofs.Parsed
import DocQuery.Proofs.RoundTrip
/-!
# DocQuery.Proofs.JsonText

JSON text as an expression. The text of a JSON value on one line is read as an expression,
in any scope, and its value is that of the JSON value.
-/

namespace DocQuery

namespace Number

/-! ### Numbers -/

theorem readInt32_intText (n : Int) : readInt32? (intText n).toList = toInt32? n := by
  rw [readInt32?, readInt_intText]
  rfl

theorem readInt64_intText (n : Int) : readInt64? (intText n).toList = toInt64? n := by
  rw [readInt64?, readInt_intText]
  rfl

/-- The shortest digits of a number are digits: in each try they are those of a natural number. -/
theorem all_isDigit_shortest (tie : Tie) (x : Double) :
    (shortest tie x).digits.all Char.isDigit = true := by
  have hnat (n : Nat) (exponent : Int) :
      (Scientific.ofNat n exponent).digits.all Char.isDigit = true := by
    refine List.all_eq_true.mpr fun c hc => ?_
    have hc := (List.dropWhile_sublist _).mem (List.mem_reverse.mp hc)
    exact List.all_eq_true.mp (all_toDigits n) c (List.mem_reverse.mp hc)
  have hfrom (interval : Interval) (point : Int) (count tries : Nat) :
      (shortestFrom interval tie point count tries).digits.all Char.isDigit = true := by
    induction tries generalizing count with
    | zero => rfl
    | succ tries ih =>
        unfold shortestFrom
        extract_lets exponent step scale
        split
        · exact hnat ..
        · exact ih _
  exact hfrom ..

/-- The text of a floating-point number as JSON without its sign. -/
def jsonText (x : Double) : String :=
  String.ofList (if x.isNegative then (Layout.json.write x).tail else Layout.json.write x)

theorem signed_jsonText (x : Double) :
    (if x.isNegative then '-' :: (jsonText x).toList else (jsonText x).toList) =
      Layout.json.write x := by
  rw [jsonText, String.toList_ofList]
  unfold Layout.write
  cases x.isNegative <;> rfl

/-- A minus sign is read by itself, and what stands behind it as the size. -/
theorem read_signed (negative : Bool) {c : Char} (rest : List Char) (hminus : c ≠ '-')
    (hplus : c ≠ '+') : Double.read? (if negative then '-' :: c :: rest else c :: rest) =
      readMagnitude? negative (c :: rest) := by
  cases negative with
  | true => rfl
  | false =>
      simp only [Bool.false_eq_true, if_false]
      unfold Double.read?
      split
      · simp_all
      · simp_all
      · rfl

theorem areDigits_append {a b : List Char} (hne : a ≠ [] ∨ b ≠ [])
    (ha : a.all Char.isDigit = true) (hb : b.all Char.isDigit = true) :
    TokenKind.AreDigits (a ++ b) := by
  refine ⟨fun h => ?_, by rw [List.all_append, ha, hb, Bool.and_self]⟩
  obtain ⟨rfl, rfl⟩ := List.append_eq_nil_iff.mp h
  exact hne.elim (fun h => h rfl) fun h => h rfl

theorem all_isDigit_replicate (n : Nat) : (List.replicate n '0').all Char.isDigit = true := by
  simp

/-- In positional notation there is a fraction, if only there are digits where the point stands
in front of all of them. -/
theorem isNumeral_positionalText {s : Scientific} (hdigits : s.digits.all Char.isDigit = true)
    (hne : s.point = 0 → s.digits ≠ []) :
    TokenKind.IsNumeral (Layout.json.positionalText s) := by
  unfold Layout.positionalText
  -- Three cases: the point is in front of all digits, behind all of them or between two.
  split
  · rename_i hpoint
    refine ⟨['0'], '.' :: (List.replicate (-s.point).toNat '0' ++ s.digits), [], ?_,
      ⟨by rintro ⟨⟩, rfl⟩, .inr ⟨_, rfl, ?_⟩, .inl rfl, by rintro ⟨⟩⟩
    · simp
    · refine areDigits_append ?_ (all_isDigit_replicate _) hdigits
      by_cases hzero : s.point = 0
      · exact .inr (hne hzero)
      · left
        simp only [ne_eq, List.replicate_eq_nil_iff]
        omega
  · rename_i hpoint
    split
    · rename_i hlength
      refine ⟨s.digits ++ List.replicate (s.point.toNat - s.digits.length) '0', ['.', '0'], [], rfl,
        areDigits_append ?_ hdigits (all_isDigit_replicate _),
        .inr ⟨['0'], rfl, by rintro ⟨⟩, rfl⟩, .inl rfl, by rintro ⟨⟩⟩
      rw [← List.length_pos_iff, ne_eq, List.replicate_eq_nil_iff]
      omega
    · rename_i hlength
      refine ⟨s.digits.take s.point.toNat, '.' :: s.digits.drop s.point.toNat, [], by simp,
        ⟨?_, ?_⟩, .inr ⟨_, rfl, ?_, ?_⟩, .inl rfl, by rintro ⟨⟩⟩
      · rw [ne_eq, List.take_eq_nil_iff, ← List.length_eq_zero_iff]
        omega
      · exact List.all_eq_true.mpr fun c hc =>
          List.all_eq_true.mp hdigits c (List.mem_of_mem_take hc)
      · rw [ne_eq, List.drop_eq_nil_iff]
        omega
      · exact List.all_eq_true.mpr fun c hc =>
          List.all_eq_true.mp hdigits c (List.mem_of_mem_drop hc)

/-- With an exponent there is a digit and, if there are more of them, a fraction. -/
theorem isNumeral_exponentText {s : Scientific} (hdigits : s.digits.all Char.isDigit = true)
    (hne : s.digits ≠ []) : TokenKind.IsNumeral (exponentText s) := by
  have hpower : TokenKind.IsPower ('e' :: (if s.point - 1 < 0 then '-' else '+') ::
      toDigits (s.point - 1).natAbs) := by
    refine .inr ⟨_, _, rfl, ?_, Nat.toDigits_ne_nil, all_toDigits _⟩
    split
    · exact .inr rfl
    · exact .inl rfl
  cases hs : s.digits with
  | nil => exact absurd hs hne
  | cons d rest =>
      rw [hs, List.all_cons, Bool.and_eq_true] at hdigits
      have hd : TokenKind.AreDigits [d] := ⟨by rintro ⟨⟩, by simp [hdigits.1]⟩
      cases rest with
      | nil =>
          exact ⟨[d], [], _, by simp [exponentText, hs], hd, .inl rfl, hpower, by rintro ⟨⟩⟩
      | cons d' rest =>
          exact ⟨[d], '.' :: d' :: rest, _, by simp [exponentText, hs], hd,
            .inr ⟨_, rfl, by rintro ⟨⟩, hdigits.2⟩, hpower, by rintro ⟨⟩⟩

/-- Without its sign the text is that of zero or one of the two notations. -/
theorem toList_jsonText (x : Double) :
    (jsonText x).toList =
      if x.code = 0 then ['0', '.', '0']
      else if Layout.json.positional (shortest .toEven x).point then
        Layout.json.positionalText (shortest .toEven x)
      else exponentText (shortest .toEven x) := by
  rw [jsonText, String.toList_ofList]
  unfold Layout.write
  cases x.isNegative <;> rfl

/-- The text of a finite number that is read back is one of a token. -/
theorem isWritten_jsonText {x : Double} (h : Double.read? (Layout.json.write x) = some x) :
    (TokenKind.double (jsonText x)).IsWritten := by
  change TokenKind.IsNumeral (jsonText x).toList
  rw [← signed_jsonText] at h
  rw [toList_jsonText] at h ⊢
  have hdigits := all_isDigit_shortest .toEven x
  generalize shortest .toEven x = s at h hdigits
  split
  · exact ⟨['0'], ['.', '0'], [], rfl, ⟨by rintro ⟨⟩, rfl⟩, .inr ⟨['0'], rfl, by rintro ⟨⟩, rfl⟩,
      .inl rfl, by rintro ⟨⟩⟩
  · rename_i hcode
    rw [if_neg hcode] at h
    split
    · rename_i hpositional
      rw [if_pos hpositional] at h
      refine isNumeral_positionalText hdigits fun hpoint hnil => hcode ?_
      -- Without digits the text is that of zero.
      have htext : Layout.json.positionalText s = ['0', '.'] := by
        simp [Layout.positionalText, hpoint, hnil]
      have hzero : ∀ negative, (readMagnitude? negative ['0', '.']).map Double.code = some 0 := by
        decide
      rw [htext, read_signed _ _ (by decide) (by decide)] at h
      have hread := hzero x.isNegative
      rw [h] at hread
      exact Option.some.inj hread
    · rename_i hpositional
      rw [if_neg hpositional] at h
      refine isNumeral_exponentText hdigits fun hnil => ?_
      -- Without digits an exponent stands by itself, which is no number.
      have htext : exponentText s = 'e' :: (if s.point - 1 < 0 then '-' else '+') ::
          toDigits (s.point - 1).natAbs := by
        simp [exponentText, hnil]
      rw [htext, read_signed _ _ (by decide) (by decide), readMagnitude_eq_none _ _ (by decide)
        (by decide) (by decide) (by decide)] at h
      cases h

end Number

/-! ### Constant expressions -/

namespace Node

/-- The expression has this value in every context, and it is known that it depends on none. -/
structure Yields (n : Node) (value : Value) : Prop where
  isScalar : n.isScalar = true
  isImmutable : n.info.isImmutable = true
  isSteady : n.isSteady = true
  usesSort : n.usesSort = false
  scalar : ∀ ctx, n.scalar ctx = .ok value

namespace Yields

/-- A constant yields its value. -/
theorem constant (type : ExprType) (value : Value) (source : String) :
    (Node.constant type value source).Yields value where
  isScalar := rfl
  isImmutable := rfl
  isSteady := rfl
  usesSort := rfl
  scalar ctx := by
    rw [scalar_eq]
    rfl

/-- Items that yield values yield them together. -/
theorem itemValues {items : List Node} {values : List Value}
    (h : List.Forall₂ Yields items values) (ctx : Context) :
    Pool.itemValues evaluator ctx items = .ok values := by
  induction h with
  | nil => rfl
  | cons hitem _ ih =>
      have hvalue := hitem.scalar ctx
      change evaluator.scalar _ ctx = _ at hvalue
      rw [Pool.itemValues, hvalue, ih]
      rfl

/-- An entry with this name and this value. -/
def Entry (entry : String × Node) (named : String × Value) : Prop :=
  entry.1 = named.1 ∧ entry.2.Yields named.2

theorem entryValues {entries : List (String × Node)} {values : List (String × Value)}
    (h : List.Forall₂ Entry entries values) (ctx : Context) :
    Pool.entryValues evaluator ctx entries = .ok values := by
  induction h with
  | nil => rfl
  | @cons entry named _ _ hentry _ ih =>
      obtain ⟨name, n⟩ := entry
      obtain ⟨name', value⟩ := named
      obtain ⟨rfl, hn⟩ := hentry
      have hvalue := hn.scalar ctx
      change evaluator.scalar _ ctx = _ at hvalue
      rw [Pool.entryValues, hvalue, ih]
      rfl

/-- An expression of constant parts with such a value is constant. -/
theorem compose {type : ExprType} {source : String} {form : Form Node} {value : Value}
    (hparts : ∀ part ∈ form.children, ∃ value, Yields part value)
    (hsteady : ∀ generator site, form ≠ .generate generator site)
    (hsort : ∀ source key order, form ≠ .sort source key order)
    (hvalue : ∀ ctx, Pool.actionScalar evaluator true source
      (Node.compose type true source form).action ctx = .ok value) :
    Yields (Node.compose type true source form) value where
  isScalar := rfl
  isImmutable := List.all_eq_true.mpr fun part hpart =>
    let ⟨_, h⟩ := hparts part hpart
    h.isImmutable
  isSteady := by
    refine (isSteady_mk _ form).trans (Bool.and_eq_true_iff.mpr ⟨?_, ?_⟩)
    · split
      · exact absurd rfl (hsteady _ _)
      · rfl
    · exact List.all_eq_true.mpr fun part hpart =>
        let ⟨_, h⟩ := hparts part hpart
        h.isSteady
  usesSort := by
    refine (usesSort_eq _).trans (Bool.or_eq_false_iff.mpr ⟨?_, ?_⟩)
    · split
      · rename_i hform
        exact absurd hform (hsort _ _ _)
      · rfl
    · exact List.any_eq_false.mpr fun part hpart =>
        let ⟨_, h⟩ := hparts part hpart
        Bool.eq_false_iff.mp h.usesSort
  scalar ctx := by
    rw [scalar_eq]
    exact hvalue ctx

/-- An array of such parts yields the array of their values. -/
theorem array {items : List Node} {values : List Value} (h : List.Forall₂ Yields items values) :
    Yields (Node.array items) (.array values) := by
  refine compose (Phrase.forall_of_forall₂ h fun _ value hitem => ⟨value, hitem⟩) ?_ ?_
    fun ctx => ?_
  · rintro _ _ ⟨⟩
  · rintro _ _ _ ⟨⟩
  · change (Pool.itemValues evaluator ctx items).map Value.array = _
    rw [itemValues h]
    rfl

/-- A document of such parts yields the document of their values, or what that stands for. -/
theorem document {entries : List (String × Node)} {values : List (String × Value)}
    (h : List.Forall₂ Entry entries values) :
    Yields (Node.document entries) (Value.ofEntries values) := by
  refine compose (fun part hpart => ?_) ?_ ?_ fun ctx => ?_
  · obtain ⟨entry, hentry, rfl⟩ := List.mem_map.mp hpart
    exact Phrase.forall_of_forall₂ (P := fun entry => ∃ value, Yields entry.2 value) h
      (fun _ named hentry => ⟨named.2, hentry.2⟩) entry hentry
  · rintro _ _ ⟨⟩
  · rintro _ _ _ ⟨⟩
  · change (Pool.entryValues evaluator ctx entries).map Value.ofEntries = _
    rw [entryValues h]
    rfl

end Yields

end Node

/-! ### Values -/

/-- The number is read from its text as it is: an integer of 64 bits, or a finite floating-point
number that its text gives back. -/
def JsonNumber.IsExact : JsonNumber → Prop
  | .whole n => Number.FitsInt64 n
  | .double x => x.isFinite = true ∧ Double.read? (Number.Layout.json.write x) = some x

/-- The JSON value means the same as an expression. Its numbers are read as they are, its names
differ by more than the case of letters, and no member with a sigil that stands by itself has an
object behind it, which could be taken for the text of a typed value. -/
inductive Json.IsExpression : Json → Prop where
  | null : IsExpression .null
  | bool (b : Bool) : IsExpression (.bool b)
  | number {n : JsonNumber} (h : n.IsExact) : IsExpression (.number n)
  | string (s : String) : IsExpression (.string s)
  | array {items : List Json} (h : ∀ item ∈ items, item.IsExpression) : IsExpression (.array items)
  | object {members : List (String × Json)}
      (hnames : (members.map Prod.fst).Pairwise fun a b => Text.sameName a b = false)
      (hsigil : ∀ name inner, members = [(name, .object inner)] → name.toList.head? ≠ some '$')
      (h : ∀ member ∈ members, member.2.IsExpression) : IsExpression (.object members)

namespace Value

/-- The text by which a number gives the contents of a typed value is the same as JSON and as a
value. -/
theorem payloadText_ofJsonNumber {n : JsonNumber} (h : n.IsExact) :
    (ofJsonNumber n).payloadText? = some (String.ofList n.write) := by
  cases n with
  | double x =>
      change some (double x).text = _
      simp only [text, toJson, h.1, if_true]
      rfl
  | whole n =>
      by_cases hsmall : Number.FitsInt32 n
      · rw [ofJsonNumber_int32 hsmall]
        change some (Json.number (.whole (Int32.ofInt n).toInt)).toText = _
        rw [Int32.toInt_ofInt_of_le hsmall.1 hsmall.2]
        rfl
      · rw [ofJsonNumber_int64 hsmall h]
        change some (Json.number (.whole (Int64.ofInt n).toInt)).toText = _
        rw [Int64.toInt_ofInt_of_le h.1 h.2]
        rfl

/-- Something that is no object gives the contents of a typed value as JSON just if it does as a
value. -/
theorem payloadText_ofJson {json : Json} (h : json.IsExpression)
    (hobject : ∀ members, json ≠ .object members) :
    (ofJson json).payloadText? = typedText? json := by
  cases h with
  | null | bool | string | array => rfl
  | number h => exact payloadText_ofJsonNumber h
  | object => exact absurd rfl (hobject _)

/-- An object has the value of the document that its members are put together to. -/
theorem ofEntries_ofJsonMembers {members : List (String × Json)}
    (h : (Json.object members).IsExpression) :
    ofEntries (ofJsonMembers members) = ofJson (.object members) := by
  cases h with
  | object _ hsigil hvalues =>
      match members with
      | [] => rfl
      | [(name, contents)] =>
          -- A single member with a sigil is a typed value on both sides if its contents have a
          -- text, and both take the text of the same things.
          have htyped : typedOrNone name (ofJson contents) = ofMembers? [(name, contents)] := by
            by_cases hname : name.toList.head? = some '$'
            · have hobject : ∀ inner, contents ≠ .object inner := by
                rintro inner rfl
                exact hsigil name inner rfl hname
              have hcontents := hvalues _ (List.mem_singleton_self _)
              rw [typedOrNone, if_pos hname, payloadText_ofJson hcontents hobject]
              rfl
            · have hsigils : name ∉ sigils := fun h => hname (head_of_mem_sigils name h)
              rw [typedOrNone, if_neg hname, ofMembers?]
              cases typedText? contents with
              | none => rfl
              | some text => exact (ofTyped_eq_none hsigils text).symm
          change (typedOrNone name (ofJson contents)).getD _ = _
          rw [htyped, ofJson]
          cases ofMembers? [(name, contents)] <;> rfl
      | _ :: _ :: _ => rfl

end Value

/-! ### Texts

The text of a JSON value is written piece by piece; here it is put together as canonical text is,
from the texts of its parts with commas between them. -/

namespace Json

theorem compactItems_eq (items : List Json) :
    compactItems items = (",".intercalate (items.map toText)).toList := by
  match items with
  | [] => rfl
  | [item] =>
      rw [List.map_singleton, String.toList_intercalate]
      simp [compactItems, toText, List.intercalate]
  | item :: next :: rest =>
      rw [List.map_cons, List.map_cons, Phrase.toList_intercalate_cons, ← List.map_cons,
        ← compactItems_eq (next :: rest), toText, String.toList_ofList]
      rfl

/-- The text of a member. -/
def compactMember (member : String × Json) : String := Text.quote member.1 ++ ":" ++ member.2.toText

theorem toList_compactMember (member : String × Json) :
    (compactMember member).toList = Text.quoted member.1.toList ++ ':' :: member.2.compact := by
  simp [compactMember, Text.quote, toText]

theorem compactMembers_eq (members : List (String × Json)) :
    compactMembers members = (",".intercalate (members.map compactMember)).toList := by
  match members with
  | [] => rfl
  | [member] =>
      rw [List.map_singleton, String.toList_intercalate]
      simp [compactMembers, toList_compactMember, List.intercalate]
  | member :: next :: rest =>
      rw [List.map_cons, List.map_cons, Phrase.toList_intercalate_cons, ← List.map_cons,
        ← compactMembers_eq (next :: rest), toList_compactMember]
      simp [compactMembers]

/-- An array is written as its items between brackets. -/
theorem toText_array (items : List Json) :
    (array items).toText = "[" ++ ",".intercalate (items.map toText) ++ "]" := by
  rw [toText, compact, compactItems_eq]
  simp [String.ext_iff]

/-- An object is written as its members between braces. -/
theorem toText_object (members : List (String × Json)) :
    (object members).toText = "\x7b" ++ ",".intercalate (members.map compactMember) ++ "\x7d" := by
  rw [toText, compact, compactMembers_eq]
  simp [String.ext_iff]

end Json

/-! ### Phrases -/

namespace Phrase

/-- The phrase is written as the JSON value, and has its value in every scope. -/
structure Denotes (e : Phrase) (json : Json) : Prop where
  writes : e.Writes json.toText
  isTerm : e.isTerm = true
  node : ∃ n : Node, n.Yields (.ofJson json) ∧ ∀ scope, e.node scope = some n

theorem Denotes.writesItem {e : Phrase} {json : Json} (h : e.Denotes json) :
    WritesItem e json.toText :=
  ⟨h.writes, isBounds_of_isTerm h.isTerm⟩

/-- A phrase for a constant denotes its value, since it is the same in every scope. -/
theorem denotes_constant {layer : Layer Phrase} {json : Json}
    (hwrites : (mk layer).Writes json.toText) (hterm : (mk layer).isTerm = true)
    (hnode : ∃ type source, ∀ scope, layer.node isBounds node scope =
      some (.constant type (.ofJson json) source)) : (mk layer).Denotes json where
  writes := hwrites
  isTerm := hterm
  node := by
    obtain ⟨type, source, hnode⟩ := hnode
    exact ⟨_, .constant .., fun scope => (node_eq _ _).trans (hnode scope)⟩

/-- An integer is read as one of 32 bits if it fits and as one of 64 bits otherwise, just as its
JSON value is. -/
theorem exists_denotes_whole {n : Int} (h : Number.FitsInt64 n) :
    ∃ e : Phrase, e.Denotes (.number (.whole n)) := by
  have hwrites : (mk (.number (decide (n < 0)) false (Number.digitsText n))).Writes
      (Json.number (.whole n)).toText := by
    have htext : (Json.number (.whole n)).toText = Number.intText n := String.ofList_toList
    rw [htext]
    exact writes_int n
  by_cases hsmall : Number.FitsInt32 n
  · refine ⟨_, denotes_constant hwrites rfl
      ⟨.int, Number.intText (Int32.ofInt n).toInt, fun scope => ?_⟩⟩
    rw [Value.ofJson, Value.ofJsonNumber_int32 hsmall]
    simp only [Layer.node, numberNode?, Number.signed_digitsText, Parser.intNode?,
      Number.readInt32_intText, Number.toInt32?, if_pos hsmall, Bool.false_eq_true, if_false]
    rfl
  · refine ⟨_, denotes_constant hwrites rfl
      ⟨.int, Number.intText (Int64.ofInt n).toInt, fun scope => ?_⟩⟩
    rw [Value.ofJson, Value.ofJsonNumber_int64 hsmall h]
    simp only [Layer.node, numberNode?, Number.signed_digitsText, Parser.intNode?,
      Number.readInt32_intText, Number.readInt64_intText, Number.toInt32?, if_neg hsmall,
      Number.toInt64?, if_pos h, Bool.false_eq_true, if_false]
    rfl

/-- A floating-point number is read back from the text that it is written as. -/
theorem exists_denotes_double {x : Double} (h : (JsonNumber.double x).IsExact) :
    ∃ e : Phrase, e.Denotes (.number (.double x)) := by
  obtain ⟨hfinite, hread⟩ := h
  have hwrites : (mk (.number x.isNegative true (Number.jsonText x))).Writes
      (Json.number (.double x)).toText := by
    have h : (mk (.number x.isNegative true (Number.jsonText x))).Writes _ :=
      writes_number (Number.isWritten_jsonText hread)
    rwa [Number.signed_jsonText] at h
  refine ⟨_, denotes_constant hwrites rfl
    ⟨.double, String.ofList (Number.writePlaces x), fun scope => ?_⟩⟩
  simp only [Layer.node, numberNode?, if_true, Number.signed_jsonText, Parser.doubleNode?,
    hread, guard, Option.bind_eq_bind, Option.bind_some, hfinite]
  rfl

/-- Parts that denote the items of an array yield their values. -/
theorem exists_nodes {es : List Phrase} {items : List Json}
    (h : List.Forall₂ Denotes es items) :
    ∃ ns, (∀ scope, nodes node scope es = some ns) ∧
      List.Forall₂ Node.Yields ns (Value.ofJsonItems items) := by
  induction h with
  | nil => exact ⟨[], fun _ => rfl, .nil⟩
  | cons hitem _ ih =>
      obtain ⟨n, hn, hnode⟩ := hitem.node
      obtain ⟨ns, hnodes, hns⟩ := ih
      refine ⟨n :: ns, fun scope => nodes_cons_eq_some.mpr ?_, .cons hn hns⟩
      exact ⟨n, hnode scope, ns, hnodes scope, rfl⟩

/-- An entry that denotes a member. -/
def EntryDenotes (entry : String × Phrase) (member : String × Json) : Prop :=
  entry.1 = member.1 ∧ entry.2.Denotes member.2

/-- Entries that denote members yield their values under their own names, as none is in use yet. -/
theorem exists_entryNodes {entries : List (String × Phrase)} {members : List (String × Json)}
    (h : List.Forall₂ EntryDenotes entries members) {others : List String} {counter : Nat}
    (hfresh : FreshNames others (members.map Prod.fst)) :
    ∃ list, (∀ scope, entryNodes node scope
        (entries.map fun (name, e) => (.string name, some e)) others counter = some list) ∧
      List.Forall₂ Node.Yields.Entry list (Value.ofJsonMembers members) := by
  induction h generalizing others with
  | nil => exact ⟨[], fun _ => rfl, .nil⟩
  | @cons entry member entries members hentry _ ih =>
      obtain ⟨name, e⟩ := entry
      obtain ⟨name', json⟩ := member
      obtain ⟨rfl, he⟩ := hentry
      obtain ⟨hfree, hfresh⟩ := hfresh
      obtain ⟨n, hn, hnode⟩ := he.node
      obtain ⟨list, hlist, hvalues⟩ := ih hfresh
      refine ⟨(name, n) :: list, fun scope => entryNodes_cons_eq_some.mpr ?_,
        .cons ⟨rfl, hn⟩ hvalues⟩
      refine ⟨n, hnode scope, name, counter, Parser.freshName_eq_self counter hfree, list,
        hlist scope, ?_⟩
      rw [asScalar_of_isScalar hn.isScalar]

/-- Entries that denote members are written as these. -/
theorem writes_object {entries : List (String × Phrase)} {members : List (String × Json)}
    (h : List.Forall₂ EntryDenotes entries members) :
    (mk (.document (entries.map fun (name, e) => (.string name, some e)))).Writes
      (Json.object members).toText := by
  have hitems : List.Forall₂ WritesItem (entries.map Prod.snd)
      (members.map fun member => member.2.toText) := by
    rw [List.forall₂_map_left_iff, List.forall₂_map_right_iff]
    exact h.imp fun _ _ hentry => hentry.2.writesItem
  have hwrites := @writes_entries .string Text.quote (fun name _ _ => .string false name) entries
    _ hitems
  -- Names are taken from the members, so both lists of names are one.
  have hnames : entries.map Prod.fst = members.map Prod.fst := by
    refine List.forall₂_eq_eq_eq ▸ ?_
    rw [List.forall₂_map_left_iff, List.forall₂_map_right_iff]
    exact h.imp fun _ _ hentry => hentry.1
  rw [hnames, List.zipWith_map, List.zipWith_self] at hwrites
  rwa [Json.toText_object]

/-- Where something is found for each of the elements, they can be taken together. -/
theorem exists_forall₂ {α β : Type} {R : α → β → Prop} {bs : List β}
    (h : ∀ b ∈ bs, ∃ a, R a b) : ∃ as, List.Forall₂ R as bs := by
  induction bs with
  | nil => exact ⟨[], .nil⟩
  | cons b bs ih =>
      obtain ⟨⟨a, ha⟩, hrest⟩ := List.forall_mem_cons.mp h
      obtain ⟨as, has⟩ := ih hrest
      exact ⟨a :: as, .cons ha has⟩

/-- Names of which no two are the same ignoring case are fresh, one after the other. -/
theorem freshNames_of_pairwise {others names : List String}
    (hothers : ∀ other ∈ others, ∀ name ∈ names, Text.sameName other name = false)
    (h : names.Pairwise fun a b => Text.sameName a b = false) : FreshNames others names := by
  induction names generalizing others with
  | nil => trivial
  | cons name names ih =>
      obtain ⟨hname, hnames⟩ := List.pairwise_cons.mp h
      refine ⟨fun other hother => hothers other hother name (List.mem_cons_self ..), ih ?_ hnames⟩
      refine List.forall_mem_append.mpr ⟨fun other hother next hnext => ?_, ?_⟩
      · exact hothers other hother next (List.mem_cons_of_mem _ hnext)
      · rintro _ hself next hnext
        cases List.mem_singleton.mp hself
        exact hname next hnext

/-- An array is written as its items, and its value is the array of theirs. -/
theorem denotes_array {es : List Phrase} {items : List Json} (hes : List.Forall₂ Denotes es items) :
    (mk (.array es)).Denotes (.array items) := by
  obtain ⟨ns, hnodes, hns⟩ := exists_nodes hes
  refine ⟨?_, rfl, Node.array ns, .array hns, fun scope => ?_⟩
  · rw [Json.toText_array]
    refine writes_array ?_
    rw [List.forall₂_map_right_iff]
    exact hes.imp fun _ _ he => he.writesItem
  · have hone : ∀ n ∈ ns, n.isScalar = true :=
      forall_of_forall₂ hns fun _ _ hn => hn.isScalar
    have hscalar : ns.map Node.asScalar = ns :=
      (List.map_congr_left fun n hn => asScalar_of_isScalar (hone n hn)).trans (List.map_id _)
    rw [node_eq]
    simp only [layer, Layer.node, hnodes, Option.map_some, hscalar]

/-- An object is written as its members, and its value is the document of theirs: no two members
have the same name, so each keeps its own. -/
theorem denotes_object {entries : List (String × Phrase)} {members : List (String × Json)}
    (hentries : List.Forall₂ EntryDenotes entries members)
    (h : (Json.object members).IsExpression)
    (hnames : (members.map Prod.fst).Pairwise fun a b => Text.sameName a b = false) :
    (mk (.document (entries.map fun (name, e) => (.string name, some e)))).Denotes
      (.object members) := by
  have hfresh : FreshNames [] (members.map Prod.fst) :=
    freshNames_of_pairwise (by rintro _ ⟨⟩) hnames
  obtain ⟨list, hlist, hvalues⟩ := @exists_entryNodes entries members hentries [] 1 hfresh
  refine ⟨writes_object hentries, rfl, Node.document list, ?_, fun scope => ?_⟩
  · rw [← Value.ofEntries_ofJsonMembers h]
    exact .document hvalues
  · rw [node_eq]
    simp only [layer, Layer.node, hlist, Option.map_some]

/-- Every such JSON value is denoted by a phrase. -/
theorem exists_denotes {json : Json} (h : json.IsExpression) : ∃ e : Phrase, e.Denotes json := by
  induction h with
  | null => exact ⟨_, denotes_constant writes_null rfl ⟨.null, "null", fun _ => rfl⟩⟩
  | bool b =>
      refine ⟨mk (.truth b), denotes_constant ?_ rfl
        ⟨.boolean, if b then "true" else "false", fun _ => rfl⟩⟩
      have hwrites := writes_truth b
      cases b <;> exact hwrites
  | @number n h =>
      cases n with
      | whole n => exact exists_denotes_whole h
      | double x => exact exists_denotes_double h
  | string s =>
      exact ⟨_, denotes_constant (writes_string s) rfl ⟨.string, Text.quote s, fun _ => rfl⟩⟩
  | @array items _ ih =>
      -- A phrase is found for each item; together they are those of the array.
      obtain ⟨es, hes⟩ := exists_forall₂ ih
      exact ⟨_, denotes_array hes⟩
  | @object members hnames hsigil hvalues ih =>
      have hexists : ∀ member ∈ members, ∃ entry, EntryDenotes entry member := by
        intro member hmember
        obtain ⟨e, he⟩ := ih member hmember
        exact ⟨(member.1, e), rfl, he⟩
      obtain ⟨entries, hentries⟩ := exists_forall₂ hexists
      exact ⟨_, denotes_object hentries (.object hnames hsigil hvalues) hnames⟩

end Phrase

/-- The text of a JSON value on one line (`Json.toText`) is an expression in every scope. It yields
one value and depends on nothing, and on both backends its value in every context is that of the
JSON value (`Value.ofJson`): members with a sigil that stand by themselves are typed values on
either side, or null where their contents are not those of the type. -/
theorem Json.parse_toText {json : Json} (h : json.IsExpression) (scope : Scope) (mode : ParseMode) :
    ∃ n, parse json.toText scope mode = .ok n ∧ n.isScalar = true ∧ n.info.isImmutable = true ∧
      ∀ backend : Backend, ∃ program, backend.build n = .ok program ∧ ∀ parameters ctx,
        (Expression.ofNode backend n program parameters).execute ctx = [.ok (.ofJson json)] ∧
        (Expression.ofNode backend n program parameters).executeScalar ctx =
          .ok (.ofJson json) := by
  obtain ⟨e, hdenotes⟩ := Phrase.exists_denotes h
  obtain ⟨n, hn, hnode⟩ := hdenotes.node
  have htext := hdenotes.writes.isTextOf hdenotes.writesItem.2
  obtain ⟨s, s', hs, hspells, hend⟩ := htext.spells
  obtain ⟨m, hparse, hunsited⟩ : ∃ m, parse json.toText scope mode = .ok m ∧
      m.unsited = n.unsited :=
    parse_meets hs htext.wellFormed htext.isBounds (fun _ => hdenotes.isTerm) hspells hend
      (hnode scope)
  -- There is no generator in the expression, so what is read is the node itself.
  obtain rfl := Node.eq_of_unsited hunsited hn.isSteady
  refine ⟨m, hparse, hn.isScalar, hn.isImmutable, fun backend => ?_⟩
  have hdisciplined := disciplined_of_parse hparse
  -- No sort is in it either, so there is a plan.
  have hbuild : ∃ program, backend.build m = .ok program := by
    cases backend with
    | instructions => exact ⟨_, rfl⟩
    | functions =>
        rw [Backend.build, Node.plan_eq hdisciplined, Node.planned, hn.usesSort]
        exact ⟨_, rfl⟩
  obtain ⟨program, hprogram⟩ := hbuild
  refine ⟨program, hprogram, fun parameters ctx => ⟨?_, ?_⟩⟩
  · rw [Expression.execute_of_build _ _ hdisciplined hprogram, Node.values_of_isScalar hn.isScalar,
      hn.scalar]
    rfl
  · rw [Expression.executeScalar_of_build _ _ hdisciplined hprogram, hn.scalar]
    rfl

/-- A typed value whose contents are not those of its type is null, inside of a document as
well. -/
theorem Json.parse_toText_typed :
    ∃ n, parse "\x7b\"a\":[7,-2.5],\"b\":\x7b\"$oid\":\"x\"\x7d\x7d" .current .full = .ok n ∧
      ∃ program, Backend.functions.build n = .ok program ∧ ∀ parameters ctx,
        (Expression.ofNode .functions n program parameters).execute ctx =
          [.ok (.document [("a", .array [.int32 7, .double ⟨0xC004000000000000⟩]),
            ("b", .null)])] := by
  let half : Double := ⟨0xC004000000000000⟩
  let inner : Json := .object [("$oid", .string "x")]
  have hinner : inner.IsExpression := by
    refine .object (.cons (by rintro _ ⟨⟩) .nil) ?_ (List.forall_mem_singleton.mpr (.string _))
    rintro _ _ ⟨⟩
  have hitems : (Json.array [.number (.whole 7), .number (.double half)]).IsExpression :=
    .array (List.forall_mem_cons.mpr ⟨.number (show Number.FitsInt64 7 by decide),
      List.forall_mem_singleton.mpr (.number ⟨by decide, by decide +kernel⟩)⟩)
  have h : (Json.object [("a", .array [.number (.whole 7), .number (.double half)]),
      ("b", inner)]).IsExpression := by
    refine .object ?_ (by rintro _ _ ⟨⟩) ?_
    · exact .cons (List.forall_mem_singleton.mpr (by decide)) (.cons (by rintro _ ⟨⟩) .nil)
    · exact List.forall_mem_cons.mpr ⟨hitems, List.forall_mem_singleton.mpr hinner⟩
  obtain ⟨n, hparse, -, -, hbackends⟩ := Json.parse_toText h .current .full
  obtain ⟨program, hprogram, hvalue⟩ := hbackends .functions
  have htext : (Json.object [("a", .array [.number (.whole 7), .number (.double half)]),
      ("b", inner)]).toText = "\x7b\"a\":[7,-2.5],\"b\":\x7b\"$oid\":\"x\"\x7d\x7d" := by
    decide +kernel
  rw [htext] at hparse
  exact ⟨n, hparse, program, hprogram, fun parameters ctx => (hvalue parameters ctx).1⟩

end DocQuery
