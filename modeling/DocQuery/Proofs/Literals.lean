import DocQuery.Proofs.Comparisons
import DocQuery.Proofs.Contained
import DocQuery.Proofs.ExtendedJson
/-!
# DocQuery.Proofs.Literals

Documents that are written out lose nothing. Each entry is kept in its place, under its key or the
key with a counter behind it (`Phrase.EntryKept`), and no two of the names agree. So the document
that is evaluated has all of the entries, none of which takes the place of another
(`Node.document_of_scalar`).
-/

namespace DocQuery

/-! ### Entries as they are written -/

namespace FreshNames

/-- Fresh names agree neither with those that were there nor with one another. -/
theorem pairwise {others names : List String} (h : FreshNames others names) :
    (∀ other ∈ others, ∀ name ∈ names, Text.sameName other name = false) ∧
      names.Pairwise fun a b => Text.sameName a b = false := by
  induction names generalizing others with
  | nil => exact ⟨fun _ _ => List.forall_mem_nil _, .nil⟩
  | cons name names ih =>
      obtain ⟨hfirst, hrest⟩ := h
      obtain ⟨hothers, hnames⟩ := ih hrest
      refine ⟨fun other hother => List.forall_mem_cons.mpr ⟨hfirst other hother, ?_⟩,
        .cons ?_ hnames⟩
      · exact hothers other (List.mem_append_left _ hother)
      · exact hothers name (List.mem_append_right _ (List.mem_singleton_self name))

end FreshNames

/-- A field of the root document is read by an entry without a value. -/
theorem Node.scalar_shorthand (name : String) {ctx : Context} {root : Value}
    (h : ctx.root = some root) : (Node.shorthand name).scalar ctx = .ok (root.member name) := by
  rw [scalar_of_isScalar rfl]
  change (Pool.origin ctx .document name >>= fun start =>
    Pool.follow evaluator _ ctx start [.member name]) = _
  rw [Pool.origin, h]
  rfl

namespace Phrase

/-- What an entry of a document is written as is kept: its key, but for a counter behind it, and
its value. Without a value it reads the field of its key. -/
structure EntryKept (scope : Scope) (written : EntryName × Option Phrase) (entry : String × Node) :
    Prop where
  name : entry.1 = written.1.name ∨ ∃ j : Nat, entry.1 = written.1.name ++ Number.intText j
  value : ∀ e ∈ written.2, ∃ n, e.node scope = some n ∧ entry.2 = n.asScalar
  shorthand : written.2 = none → entry.2 = Node.shorthand written.1.name ∧
    ∀ ctx root, ctx.root = some root → entry.2.scalar ctx = .ok (root.member written.1.name)

/-- All entries are kept, in the order in which they are written. -/
theorem entriesKept {scope : Scope} {es : List (EntryName × Option Phrase)} {others : List String}
    {counter : Nat} {entries : List (String × Node)}
    (h : entryNodes node scope es others counter = some entries) :
    List.Forall₂ (EntryKept scope) es entries := by
  induction es generalizing others counter entries with
  | nil =>
      cases h
      exact .nil
  | cons entry es ih =>
      obtain ⟨n, hn, name, next, hname, rest, hrest, rfl⟩ := entryNodes_cons_eq_some.mp h
      obtain ⟨key, value⟩ := entry
      have hfresh : (Parser.freshName key.name others key.name counter).1 = key.name ∨ ∃ j, _ ∧ _ :=
        (Parser.freshName_spec fun j _ => Text.sameName_counter key.name j).1
      rw [hname] at hfresh
      refine .cons ⟨hfresh.imp_right fun ⟨j, _, hj⟩ => ⟨j, hj⟩, ?_, ?_⟩ (ih hrest)
      · rintro e rfl
        exact ⟨n, hn, rfl⟩
      · rintro rfl
        cases hn
        exact ⟨rfl, fun ctx root hroot => Node.scalar_shorthand _ hroot⟩

end Phrase

/-! ### Entries as they are evaluated -/

/-- The values of entries are those of their parts. -/
theorem Pool.entryValues_ok {ctx : Context} {entries : List (String × Node)}
    {fields : List (String × Value)} (h : entryValues Node.evaluator ctx entries = .ok fields) :
    List.Forall₂ (fun entry field => field.1 = entry.1 ∧ entry.2.scalar ctx = .ok field.2)
      entries fields := by
  induction entries generalizing fields with
  | nil =>
      cases h
      exact .nil
  | cons entry entries ih =>
      obtain ⟨name, part⟩ := entry
      obtain ⟨value, hvalue, h⟩ := bind_eq_ok.mp h
      obtain ⟨rest, hrest, h⟩ := bind_eq_ok.mp h
      cases h
      exact .cons ⟨rfl, hvalue⟩ (ih hrest)

namespace Value

theorem isDocument_getD {α : Type} {type : α → Value} (h : ∀ a, (type a).isDocument = false)
    (read? : Option α) : ((read?.map type).getD .null).isDocument = false := by
  cases read? with
  | none => rfl
  | some a => exact h a

/-- No typed value is a document. -/
theorem isDocument_of_typed {name : String} {payload value : Value}
    (h : typedOrNone name payload = some value) : value.isDocument = false := by
  unfold typedOrNone at h
  split at h
  · obtain ⟨text, -, h⟩ := Option.bind_eq_some_iff.mp h
    unfold ofTyped? at h
    split at h <;> cases h
    case h_7 | h_8 => rfl
    all_goals exact isDocument_getD (fun _ => rfl) _
  · cases h

/-- Entries of distinct names make a document of just these, or one of them by itself stands for a
typed value. -/
theorem ofEntries_cases {fields : List (String × Value)} (h : Entries.Distinct fields) :
    ofEntries fields = .document fields ∨ (ofEntries fields).isDocument = false ∧
      ∃ name payload, fields = [(name, payload)] ∧
        typedOrNone name payload = some (ofEntries fields) := by
  have hlist := Entries.ofList_of_distinct h
  unfold ofEntries
  split
  · rename_i name payload
    cases htyped : typedOrNone name payload with
    | none => exact .inl (congrArg Value.document hlist)
    | some value => exact .inr ⟨isDocument_of_typed htyped, name, payload, rfl, htyped⟩
  · exact .inl (congrArg Value.document hlist)

end Value

/-- Fields that have the names of entries, one after the other, have the same names. -/
theorem map_fst_of_forall₂ {entries : List (String × Node)} {fields : List (String × Value)}
    {P : String × Node → String × Value → Prop}
    (h : List.Forall₂ (fun entry field => field.1 = entry.1 ∧ P entry field) entries fields) :
    fields.map Prod.fst = entries.map Prod.fst := by
  induction h with
  | nil => rfl
  | cons hfield _ ih => rw [List.map_cons, List.map_cons, hfield.1, ih]

/-- What a document that is written out evaluates to has all of its entries, under their names and
in their order; only a single entry may stand for a typed value. -/
theorem Node.document_of_scalar {n : Node} {entries : List (String × Node)} {ctx : Context}
    {value : Value} (hn : n.Disciplined) (hform : n.form = .document entries)
    (hnames : (entries.map Prod.fst).Nodup) (h : n.scalar ctx = .ok value) :
    ∃ fields, List.Forall₂ (fun entry field => field.1 = entry.1 ∧
        entry.2.scalar ctx = .ok field.2) entries fields ∧
      (value = .document fields ∨ value.isDocument = false ∧ ∃ name payload,
        fields = [(name, payload)] ∧ Value.typedOrNone name payload = some value) := by
  obtain ⟨info, form⟩ := n
  obtain rfl : form = _ := hform
  have hscalar : (mk info (.document entries)).isScalar = true := hn.form.1
  rw [scalar_of_isScalar hscalar] at h
  change (Pool.entryValues evaluator ctx entries).map Value.ofEntries = _ at h
  cases hvalues : Pool.entryValues evaluator ctx entries with
  | error e =>
      rw [hvalues] at h
      cases h
  | ok fields =>
      rw [hvalues] at h
      cases h
      have hfields := Pool.entryValues_ok hvalues
      have hdistinct : Entries.Distinct fields := by rwa [← map_fst_of_forall₂ hfields] at hnames
      exact ⟨fields, hfields, Value.ofEntries_cases hdistinct⟩

/-- A text is read as a phrase, and every document that is written in it is a document in its
expression: with each entry in its place, under its key or the key with a counter behind it, and
under names of which no two agree. When the document is evaluated it has all of these entries with
their values; only a single entry may stand for a typed value. -/
theorem documents_kept {code : String} {scope : Scope} {mode : ParseMode} {n : Node}
    (h : parse code scope mode = .ok n) :
    (∃ e : Phrase, e.IsReadFrom code scope n) ∧
    ∀ e : Phrase, e.IsReadFrom code scope n → ∀ written, e.Within (.mk (.document written)) →
      ∃ inner m entries, n.Within m ∧ (e = .mk (.document written) → m = n) ∧
        m.form = .document entries ∧ List.Forall₂ (Phrase.EntryKept inner) written entries ∧
        entries.Pairwise (fun a b => Text.sameName a.1 b.1 = false) ∧
        ∀ (backend : Backend) program, backend.build m = .ok program → ∀ parameters ctx value,
          (Expression.ofNode backend m program parameters).execute ctx = [.ok value] →
          ∃ fields, List.Forall₂ (fun entry field => field.1 = entry.1 ∧
              ∃ part, backend.build entry.2 = .ok part ∧
                (Expression.ofNode backend entry.2 part parameters).execute ctx = [.ok field.2])
              entries fields ∧
            (value = .document fields ∨ value.isDocument = false ∧ ∃ name payload,
              fields = [(name, payload)] ∧ Value.typedOrNone name payload = some value) := by
  constructor
  · obtain ⟨s, s', e, hs, -, hreads, -⟩ := parse_reads h
    exact ⟨e, s, s', hs, hreads⟩
  rintro e ⟨s, s', -, hreads⟩ written hwritten
  obtain ⟨inner, entries, hentries, m, hm, hform, hwhole⟩ :=
    Phrase.exists_node_within hreads.node hwritten
  -- No two names agree up to case, so none of the entries takes the place of another one.
  have hnames := (Phrase.freshNames_entryNodes hentries).pairwise.2
  have hdisciplined : m.Disciplined := (disciplined_of_parse h).within hm
  have hpart : ∀ entry ∈ entries, entry.2 ∈ m.children := fun entry hentry => by
    rw [Node.children, hform]
    exact List.mem_map_of_mem hentry
  have hscalar : m.form.Disciplined m.info := hdisciplined.form
  rw [hform] at hscalar
  refine ⟨inner, m, entries, hm, hwhole, hform, Phrase.entriesKept hentries,
    List.pairwise_map.mp hnames, fun backend program hbuild parameters ctx value hvalue => ?_⟩
  rw [Expression.execute_one hdisciplined hscalar.1 hbuild] at hvalue
  obtain ⟨fields, hfields, hresult⟩ := Node.document_of_scalar hdisciplined hform
    (hnames.imp fun {a b} hname heq => by simp [heq, Text.sameName] at hname)
    (List.singleton_inj.mp hvalue)
  -- A backend that compiles the document compiles its parts, and runs them in the same context.
  have hparts : ∀ entry ∈ entries, entry.2.isScalar = true ∧ entry.2.Disciplined ∧
      ∃ part, backend.build entry.2 = .ok part := fun entry hentry =>
    ⟨hscalar.2 _ (List.mem_map_of_mem hentry), hdisciplined.part (hpart entry hentry),
      Backend.build_part hdisciplined (hpart entry hentry) hbuild⟩
  refine ⟨fields, (List.forall₂_and_left _ _ |>.mpr ⟨hparts, hfields⟩).imp ?_, hresult⟩
  rintro entry field ⟨⟨hone, hentry, part, hbuilt⟩, hname, hfield⟩
  refine ⟨hname, part, hbuilt, ?_⟩
  rw [Expression.execute_one hentry hone hbuilt, hfield]

/-- The names of the entries, if this is a document. -/
def Form.entryNames {ν : Type} : Form ν → List String
  | .document entries => entries.map Prod.fst
  | _ => []

/-- One key given three times: a field that is read by its name, and two values with a counter
behind their keys. -/
theorem documents_kept_counted : ∃ n entries, parse "\x7ba,a:2,A:3\x7d" .root .full = .ok n ∧
    n.form = .document entries ∧ ∃ fields : List (String × Value),
      fields.map Prod.fst = ["a", "a1", "A2"] ∧
      fields.head? = some ("a", .int32 7) ∧
      (Expression.ofNode .instructions n (.pool n.flatten) []).execute
        (.ofDocument (.document [("a", .int32 7)]) [] .ignoreCase
          ⟨.ofDate .epoch, fun _ _ => 0⟩) = [.ok (.document fields)] := by
  let root : Value := .document [("a", .int32 7)]
  let ctx := Context.ofDocument root [] .ignoreCase ⟨.ofDate .epoch, fun _ _ => 0⟩
  let execute (n : Node) := (Expression.ofNode .instructions n (.pool n.flatten) []).execute ctx
  let number (i : Int) : Phrase := .mk (.number (decide (i < 0)) false (Number.digitsText i))
  let written : List (EntryName × Option Phrase) :=
    [(.word "a", none), (.word "a", some (number 2)), (.word "A", some (number 3))]
  have hentries : List.Forall₂ (fun marks text => Phrase.MarksWrite marks text.toList)
      (written.map (Phrase.entryMarks Phrase.marks)) ["a", "a:2", "A:3"] :=
    .cons (.word false rfl .nil)
      (.cons (.word false rfl (.symbol false .colon (Phrase.writes_int 2).marks))
        (.cons (.word false rfl (.symbol false .colon (Phrase.writes_int 3).marks)) .nil))
  have hwrites : (Phrase.mk (.document written)).Writes "\x7ba,a:2,A:3\x7d" := by
    refine .of_layer ?_ ?_ (.symbol false .leftBrace
      ((Phrase.MarksWrite.separated hentries).append (.symbol false .rightBrace .nil))) rfl
    · refine List.forall_mem_cons.mpr ⟨by rintro _ ⟨⟩, List.forall_mem_cons.mpr
        ⟨?_, List.forall_mem_singleton.mpr ?_⟩⟩ <;>
      · rintro _ ⟨⟩
        rfl
    · exact List.forall_mem_cons.mpr ⟨(Phrase.writes_int 2).wellFormed,
        List.forall_mem_singleton.mpr (Phrase.writes_int 3).wellFormed⟩
  have hparsed : (parse "\x7ba,a:2,A:3\x7d" .root .full).toOption.map (fun n =>
      (n.isSteady, n.form.entryNames, (execute n).map fun result =>
        result.toOption.map Value.isDocument)) =
          some (true, ["a", "a1", "A2"], [some true]) := by decide +kernel
  obtain ⟨n, hn, hall⟩ := Option.map_eq_some_iff.mp hparsed
  obtain ⟨hsteady, hall⟩ := Prod.mk.inj hall
  obtain ⟨hnames, hresult⟩ := Prod.mk.inj hall
  have hparse := Precedence.toOption_eq_some.mp hn
  have hread := (hwrites.isTextOf rfl).isReadFrom hparse hsteady
  obtain ⟨inner, m, entries, -, hwhole, hform, hkept, -, hvalues⟩ :=
    (documents_kept hparse).2 _ hread written .self
  obtain rfl := hwhole rfl
  obtain ⟨result, hexecute, hdocument⟩ := List.map_eq_singleton_iff.mp hresult
  obtain ⟨value, hvalue, hdocument⟩ := Option.map_eq_some_iff.mp hdocument
  rw [Precedence.toOption_eq_some.mp hvalue] at hexecute
  obtain ⟨fields, hfields, hwhole⟩ := hvalues .instructions _ rfl [] ctx value hexecute
  rcases hwhole with rfl | ⟨hno, -⟩
  · rw [hform] at hnames
    refine ⟨m, entries, hparse, hform, fields, (map_fst_of_forall₂ hfields).trans hnames, ?_,
      hexecute⟩
    change List.Forall₂ (Phrase.EntryKept inner) ((.word "a", none) :: _) entries at hkept
    cases hkept with
    | cons hfirst _ =>
        cases hfields with
        | @cons _ field _ _ hfield _ =>
            have hshorthand := (hfirst.shorthand rfl).1
            change _ = Node.shorthand "a" at hshorthand
            obtain ⟨hname, part, hbuilt, hpart⟩ := hfield
            rw [hshorthand] at hbuilt hpart
            rw [Expression.execute_one (.shorthand "a") rfl hbuilt,
              Node.scalar_shorthand "a" rfl] at hpart
            have hkey : field.1 = "a" := hname.trans (List.cons.inj hnames).1
            exact congrArg some (Prod.ext hkey (Except.ok.inj (List.singleton_inj.mp hpart)).symm)
  · rw [hno] at hdocument
    cases hdocument

end DocQuery
