import DocQuery.Proofs.Dependence
import DocQuery.Proofs.RoundTrip
/-!
# DocQuery.Proofs.FieldUse

The fields that are known of an expression are those of the root document that it reads. If the
paths of an expression begin with names, it has the same values for two root documents that have
the same entries under its fields (`fields_complete`). What stands under other names can be left
out of account, as an index on these fields does.
-/

namespace DocQuery

open Pool (origin firstField)

/-! ### Names and entries -/

namespace Fields

theorem contains_of_sameName (fields : Fields) {a b : String} (h : Text.sameName a b = true)
    (ha : fields.contains a = true) : fields.contains b = true := by
  obtain ⟨name, hmem, hname⟩ := List.any_eq_true.mp ha
  exact List.any_eq_true.mpr ⟨name, hmem, Text.sameName_trans hname h⟩

@[simp] theorem contains_single (name : String) : (single name).contains name = true := by
  simp [contains, single]

theorem contains_insert (fields : Fields) (a b : String) :
    (fields.insert a).contains b = (fields.contains b || Text.sameName a b) := by
  by_cases h : fields.contains a = true
  · rw [show fields.insert a = fields from dif_pos h]
    cases hab : Text.sameName a b with
    | false => rw [Bool.or_false]
    | true => rw [contains_of_sameName fields hab h, Bool.true_or]
  · unfold contains
    rw [names_insert, if_neg h, List.any_append]
    simp

theorem contains_union (a b : Fields) (name : String) :
    (a.union b).contains name = (a.contains name || b.contains name) := by
  have hall (names : List String) (a : Fields) :
      (a.insertAll names).contains name =
        (a.contains name || names.any (Text.sameName · name)) := by
    induction names generalizing a with
    | nil => rw [List.any_nil, Bool.or_false, insertAll, List.foldl_nil]
    | cons first rest ih =>
        change ((a.insert first).insertAll rest).contains name = _
        rw [ih, contains_insert, List.any_cons, Bool.or_assoc]
  exact hall b.names a

end Fields

namespace Entries

variable {α : Type}

theorem find?_filter_congr {p q : α → Bool} (h : ∀ a, q a = true → p a = true) (list : List α) :
    (list.filter p).find? q = list.find? q := by
  rw [List.find?_filter]
  congr 1
  funext a
  cases hq : q a with
  | false => simp
  | true => simp [h a hq]

/-- A name is looked up among the entries of that name only. -/
theorem find?_filter (fields : Fields) (entries : Entries α) {name : String}
    (h : fields.contains name = true) :
    find? (entries.filter fun entry => fields.contains entry.1) name = find? entries name := by
  have hexact : List.find? (fun entry => entry.1 = name)
      (entries.filter fun entry => fields.contains entry.1) =
        List.find? (fun entry => entry.1 = name) entries := by
    refine find?_filter_congr (fun entry heq => ?_) entries
    rw [of_decide_eq_true heq]
    exact h
  have hsame : List.find? (fun entry => Text.sameName entry.1 name)
      (entries.filter fun entry => fields.contains entry.1) =
        List.find? (fun entry => Text.sameName entry.1 name) entries := by
    refine find?_filter_congr (fun entry heq => ?_) entries
    rw [Text.sameName_comm] at heq
    exact fields.contains_of_sameName heq h
  rw [find?, find?, hexact, hsame]

end Entries

/-! ### The fields of an expression -/

/-- A path of the root document begins with a name. -/
def Form.beginsWithField {ν : Type} : Form ν → Bool
  | .path .document (.member _ :: _) => true
  | .path .document _ => false
  | _ => true

namespace Node

/-- Every path of the root document in the expression begins with a name. -/
def beginsWithFields : Node → Bool :=
  fold fun _ form => form.beginsWithField && form.children.all Prod.snd

theorem beginsWithFields_mk (info : NodeInfo) (form : Form Node) :
    (mk info form).beginsWithFields =
      (form.beginsWithField && form.children.all beginsWithFields) := by
  rw [beginsWithFields, fold_mk, Form.children_mapParts, List.all_map]
  congr 1
  cases form with
  | path root steps =>
      cases root with
      | current => rfl
      | document =>
          cases steps with
          | nil => rfl
          | cons step rest => cases step <;> rfl
  | _ => rfl

theorem beginsWithField_of_within {n : Node} (h : n.beginsWithFields = true) :
    ∀ m, n.Within m → m.form.beginsWithField = true := by
  induction n using Node.induction with
  | step n ih =>
      obtain ⟨info, form⟩ := n
      rw [beginsWithFields_mk, Bool.and_eq_true, List.all_eq_true] at h
      exact forall_within.mpr ⟨h.1, fun part hpart => ih part hpart (h.2 part hpart)⟩

/-- Fields put together are the fields of each. -/
theorem contains_foldl_union {parts : List Node} {fields : Fields} {name : String}
    (h : fields.contains name = true ∨ ∃ part ∈ parts, part.info.fields.contains name = true) :
    (parts.foldl (fun fields part => fields.union part.info.fields) fields).contains name =
      true := by
  induction parts generalizing fields with
  | nil => simpa using h
  | cons first rest ih =>
      refine ih ?_
      rw [Fields.contains_union, Bool.or_eq_true]
      rcases h with h | ⟨part, hpart, h⟩
      · exact .inl (.inl h)
      · rcases List.mem_cons.mp hpart with rfl | hrest
        · exact .inl (.inr h)
        · exact .inr ⟨part, hrest, h⟩

theorem contains_fields_path {fields : Fields} {root : PathRoot} {steps : List (PathStep Node)}
    {name : String} (h : fields.contains name = true ∨
      ∃ part ∈ steps.flatMap PathStep.children, part.info.fields.contains name = true) :
    (path fields root steps).info.fields.contains name = true := by
  change (fields.union _).contains name = true
  rw [Fields.contains_union, Bool.or_eq_true]
  exact h.imp_right fun hpart => contains_foldl_union (.inr hpart)

/-- Where a path of the root document in the node begins with a name, this is a field of the
node, and not the empty name. -/
def Records (fields : Fields) (m : Node) : Prop :=
  ∀ name rest, m.form = .path .document (.member name :: rest) →
    name ≠ "" ∧ fields.contains name = true

theorem Records.mono {fields fields' : Fields} {m : Node} (h : m.Records fields)
    (hfields : ∀ name, fields.contains name = true → fields'.contains name = true) :
    m.Records fields' :=
  fun name rest hform => ⟨(h name rest hform).1, hfields name (h name rest hform).2⟩

/-- Every field with which a path of the root document begins is known of the expression. -/
theorem Built.records {n : Node} (h : n.Built True) :
    ∀ m, n.Within m → m.Records n.info.fields := by
  induction h with
  | documents | parameter | generate =>
      exact forall_within.mpr ⟨by rintro _ _ ⟨⟩, List.forall_mem_nil _⟩
  | shorthand name hname =>
      refine forall_within.mpr ⟨?_, List.forall_mem_nil _⟩
      rintro name' rest heq
      cases heq
      exact ⟨hname trivial, contains_fields_path (.inl (Fields.contains_single _))⟩
  | @path start scope steps hbegins _ ih =>
      obtain ⟨fields, steps', heq, hchildren, hfirst⟩ := start.node_eq scope steps
      rw [heq]
      refine forall_within.mpr ⟨?_, fun part hpart m hm => ?_⟩
      · intro name rest hform
        injection hform with hroot hsteps
        -- Either the first step is the field that has been recorded, or the path was written
        -- without a field, and then it does not begin with a name.
        obtain ⟨hname, rfl, hfields⟩ | ⟨hempty, rfl⟩ := hfirst
        · cases hsteps
          refine ⟨hname, contains_fields_path (.inl ?_)⟩
          rw [hfields hroot]
          exact Fields.contains_single _
        · exact absurd hsteps (hbegins trivial hroot hempty name rest)
      · have hmem : part ∈ steps.flatMap PathStep.children := hchildren ▸ hpart
        exact (ih part hmem m hm).mono fun name hname =>
          contains_fields_path (.inr ⟨part, hpart, hname⟩)
  | @compose _ _ _ form hform _ ih =>
      refine forall_within.mpr ⟨?_, fun part hpart m hm => ?_⟩
      · rintro name rest rfl
        cases hform
      · exact (ih part hpart m hm).mono fun name hname =>
          contains_foldl_union (.inr ⟨part, hpart, hname⟩)
  | @parenthesized n _ ih =>
      obtain ⟨info, form⟩ := n
      obtain ⟨hself, hparts⟩ := forall_within.mp ih
      exact forall_within.mpr ⟨hself, hparts⟩
  | @spread info root steps _ ih =>
      obtain ⟨hself, hparts⟩ := forall_within.mp ih
      refine forall_within.mpr ⟨?_, fun part hpart => hparts part ?_⟩
      · intro name rest heq
        cases steps with
        | nil => cases heq
        | cons step steps =>
            cases heq
            exact hself name steps rfl
      · simpa [children, Node.form, Form.children, PathStep.children] using hpart

end Node

/-! ### Two root documents -/

/-- Contexts that differ in nothing but the root document and what generators draw on. Under the
names of some fields, the two documents have the same entries in the same order. -/
structure Context.SameUnder (fields : Fields) (c c' : Context) : Prop where
  documents : c.documents = c'.documents
  current : c.current = c'.current
  parameters : c.parameters = c'.parameters
  collation : c.collation = c'.collation
  roots : ∃ entries entries', c.root = some (.document entries) ∧
    c'.root = some (.document entries') ∧
    (entries.filter fun entry => fields.contains entry.1) =
      entries'.filter fun entry => fields.contains entry.1

namespace Likeness

/-- Contexts with root documents that are the same under the names of some fields. -/
def rooted (fields : Fields) : Likeness where
  alike := Context.SameUnder fields
  collation h := h.collation
  withCurrent _ h := ⟨h.documents, rfl, h.parameters, h.collation, h.roots⟩

theorem entrance_eq {fields : Fields} {c c' : Context} (h : c.SameUnder fields c') {name : String}
    (hname : name ≠ "") (hfield : fields.contains name = true) :
    entrance c .document name = entrance c' .document name := by
  obtain ⟨entries, entries', hroot, hroot', hentries⟩ := h.roots
  have hempty : name.isEmpty = false :=
      Bool.eq_false_iff.mpr fun h => hname (String.isEmpty_iff.mp h)
  simp only [entrance, origin, hroot, hroot', Except.map, Value.member, hempty]
  rw [← Entries.find?_filter fields entries hfield, hentries,
    Entries.find?_filter fields entries' hfield]
  rfl

/-- What a layer takes from a context is the same in both contexts: of the root document it is the
field that its path begins with, and this one is recorded. -/
theorem grounds_rooted {fields : Fields} {n : Node} (hsteady : ¬ n.IsGenerator)
    (hbegins : n.form.beginsWithField = true) (hrecords : n.Records fields) :
    (rooted fields).Grounds n := by
  obtain ⟨info, form⟩ := n
  intro c c' hc
  have hc : c.SameUnder fields c' := hc
  cases form with
  | parameter name =>
      change c.parameter name = c'.parameter name
      rw [Context.parameter, Context.parameter, hc.parameters]
  | documents => exact hc.documents
  | generate generator site => exact absurd ⟨generator, site, rfl⟩ hsteady
  | path root steps =>
      refine Agree.of_eq (fun _ => rfl) ?_
      cases root with
      | current =>
          unfold entrance origin
          rw [hc.current]
      | document =>
          cases steps with
          | nil => cases hbegins
          | cons step rest =>
              cases step with
              | member name =>
                  obtain ⟨hname, hfield⟩ := hrecords name rest rfl
                  exact entrance_eq hc hname hfield
              | index _ | indexOf _ | all | filter _ | items => cases hbegins
  | _ => trivial

end Likeness

/-- The fields that are known of a compiled expression (`NodeInfo.fields`) are all that it reads of
the root document, whatever backend it is compiled by, if its paths of the root document begin with
names and none of these is the empty name in the text. For two root documents with the same entries
under these fields it yields the same. -/
theorem fields_complete {backend : Backend} {code : String} {options : CompileOptions}
    {e : Expression} (h : Expression.build backend code options = .ok e) :
    (∃ phrase : Phrase, phrase.IsReadFrom code options.scope e.node) ∧
      ∀ phrase : Phrase, phrase.IsReadFrom code options.scope e.node →
        phrase.Everywhere Phrase.Layer.BeginsNamed → e.node.isSteady = true →
        e.node.beginsWithFields = true → ∀ c c' : Context, c.SameUnder e.node.info.fields c' →
          e.execute c = e.execute c' ∧ e.executeScalar c = e.executeScalar c' := by
  obtain ⟨n, program, hparse, -, rfl⟩ := Expression.exists_of_build h
  refine ⟨?_, ?_⟩
  · obtain ⟨s, s', phrase, hs, -, hreads, -⟩ := parse_reads hparse
    exact ⟨phrase, s, s', hs, hreads⟩
  · rintro phrase ⟨s, s', -, hreads⟩ hnamed hsteady hbegins c c' hc
    have hbuilt : n.Built True := Phrase.built hreads.wellFormed (fun _ => hnamed) hreads.node
    have hfixes : (Likeness.rooted n.info.fields).Fixes n := Likeness.fixes_of_grounds fun m hm =>
      Likeness.grounds_rooted (Node.not_isGenerator_of_isSteady hsteady m hm)
        (Node.beginsWithField_of_within hbegins m hm) (hbuilt.records m hm)
    exact hfixes.execute h hc

/-- Of a path that is only a name, the values under this name are all that counts: an entry with
another name may be left out. -/
theorem fields_complete_bare : ∃ e, Expression.build .functions "a" {} = .ok e ∧
    (∀ c c' : Context, c.SameUnder (Fields.single "a") c' → e.execute c = e.execute c') ∧
    ∃ c c' : Context, c.SameUnder (Fields.single "a") c' ∧ c.root ≠ c'.root := by
  have hbare : Phrase.IsTextOf "a" (.mk (.path (.bare "a") [] none)) :=
    (Phrase.writes_bare rfl rfl).isTextOf rfl
  have hbuilt : ((Expression.build .functions "a" {}).toOption.map fun e => e.node.isSteady) =
      some true := by decide +kernel
  obtain ⟨e, he, hsteady⟩ := Option.map_eq_some_iff.mp hbuilt
  have hbuild := Precedence.toOption_eq_some.mp he
  obtain ⟨n, program, hparse, -, heq⟩ := Expression.exists_of_build hbuild
  have hnode : e.node = n := congrArg Expression.node heq
  obtain ⟨m, hm, hunsited⟩ := hbare.exists_node hparse
  -- The path of the one name: there is no generator in what has been read, so this is it.
  have hn : e.node = m := by
    have hpath : m.unsited = m := by
      cases hm
      exact Node.unsited_path ..
    rw [← hpath, hunsited, ← hnode, Node.unsited_of_isSteady hsteady]
  have hread : Phrase.IsReadFrom "a" .root e.node (.mk (.path (.bare "a") [] none)) := by
    obtain ⟨s, s', hs, hspells, -⟩ := hbare.spells
    exact ⟨s, s', hs, hbare.wellFormed, hn ▸ hm, hspells⟩
  let ctx (entries : Entries Value) : Context :=
    { documents := [], root := some (.document entries), current := none, parameters := []
      collation := .binary, ambient := ⟨.ofDate .epoch, fun _ _ => 0⟩ }
  have hother : (Fields.single "a").contains "b" = false := by decide +kernel
  have hsame : (ctx [("a", .int32 1)]).SameUnder (Fields.single "a")
      (ctx [("b", .int32 2), ("a", .int32 1)]) :=
    ⟨rfl, rfl, rfl, rfl, _, _, rfl, rfl, by simp [hother]⟩
  refine ⟨e, hbuild, fun c c' hc => ?_, _, _, hsame, by simp [ctx]⟩
  have hnamed : (Phrase.mk (.path (.bare "a") [] none)).Everywhere Phrase.Layer.BeginsNamed :=
    .mk (fun h => absurd h (by decide)) (List.forall_mem_nil _)
  refine ((fields_complete hbuild).2 _ hread hnamed hsteady ?_ c c' ?_).1
  · rw [hn]
    cases hm
    decide +kernel
  · rw [hn]
    cases hm
    exact hc

/-- A field of the empty name is passed over together with the name behind it, and so a path is
not known to read that. -/
theorem fields_incomplete : ∃ e, Expression.build .instructions "$.[\"\"].b" {} = .ok e ∧
    e.node.isSteady = true ∧ e.node.beginsWithFields = true ∧
    ∃ c c' : Context, c.SameUnder e.node.info.fields c' ∧ e.execute c ≠ e.execute c' := by
  let ctx (n : Int32) : Context :=
    { documents := [], root := some (.document [("b", .int32 n)]), current := none, parameters := []
      collation := .binary, ambient := ⟨.ofDate .epoch, fun _ _ => 0⟩ }
  have hbuilt : ((Expression.build .instructions "$.[\"\"].b" {}).toOption.map fun e =>
      e.node.isSteady && e.node.beginsWithFields && e.node.info.fields.names.isEmpty &&
        ((e.execute (ctx 1)).map fun r => r.toOption.bind Value.integer?) == [some 1] &&
        ((e.execute (ctx 2)).map fun r => r.toOption.bind Value.integer?) == [some 2]) =
      some true := by decide +kernel
  obtain ⟨e, he, hall⟩ := Option.map_eq_some_iff.mp hbuilt
  simp only [Bool.and_eq_true, beq_iff_eq] at hall
  obtain ⟨⟨⟨⟨hsteady, hbegins⟩, hfields⟩, hone⟩, htwo⟩ := hall
  refine ⟨e, Precedence.toOption_eq_some.mp he, hsteady, hbegins, ctx 1, ctx 2, ?_, ?_⟩
  · have hnone (name : String) : e.node.info.fields.contains name = false := by
      rw [Fields.contains, List.isEmpty_iff.mp hfields]
      rfl
    exact ⟨rfl, rfl, rfl, rfl, _, _, rfl, rfl, by simp [hnone]⟩
  · intro heq
    rw [heq, htwo] at hone
    cases hone

end DocQuery
