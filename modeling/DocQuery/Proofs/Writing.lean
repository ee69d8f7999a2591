import DocQuery.Proofs.Kept
import DocQuery.Proofs.Lexing
import DocQuery.Proofs.Names
import DocQuery.Proofs.Typing
/-!
# DocQuery.Proofs.Writing

Phrases that canonical text is the text of. A phrase writes a text (`Phrase.Writes`) if it is
well-formed, all of its tokens can be written, and written they are that text. There is one
lemma for each layer of the phrases that canonical text is made of, which puts the text of
the layer together from the texts of its parts as the node is put together.
-/

namespace DocQuery

namespace Phrase

theorem toList_intercalate_cons (text text' : String) (texts : List String) :
    (",".intercalate (text :: text' :: texts)).toList =
      text.toList ++ ',' :: (",".intercalate (text' :: texts)).toList := by
  rw [String.toList_intercalate, String.toList_intercalate]
  simp [List.intercalate]

/-- The marks can be written, and this is their text. -/
structure MarksWrite (marks : List Mark) (chars : List Char) : Prop where
  isWritten : ∀ mark ∈ marks, mark.IsWritten
  text : text marks = chars

namespace MarksWrite

variable {marks marks' : List Mark} {chars chars' : List Char}

theorem nil : MarksWrite [] [] := ⟨List.forall_mem_nil _, rfl⟩

/-- What two lists of marks write is written one behind the other. -/
theorem append (h : MarksWrite marks chars) (h' : MarksWrite marks' chars') :
    MarksWrite (marks ++ marks') (chars ++ chars') := by
  refine ⟨List.forall_mem_append.mpr ⟨h.isWritten, h'.isWritten⟩, ?_⟩
  rw [Phrase.text, List.flatMap_append]
  exact congrArg₂ (· ++ ·) h.text h'.text

/-- A mark in front writes what it stands for, in front of the rest. -/
theorem cons {mark : Mark} (hmark : mark.IsWritten) (h : MarksWrite marks chars) :
    MarksWrite (mark :: marks) (mark.written ++ chars) := by
  refine ⟨List.forall_mem_cons.mpr ⟨hmark, h.isWritten⟩, ?_⟩
  rw [Phrase.text, List.flatMap_cons]
  exact congrArg (mark.written ++ ·) h.text

theorem symbol (touching : Bool) (s : Symbol) (h : MarksWrite marks chars) :
    MarksWrite (.token touching (.symbol s) :: marks) (s.text.toList ++ chars) :=
  cons ⟨trivial, rfl⟩ h

theorem word (touching : Bool) {name : String} (hname : Text.isWord name = true)
    (h : MarksWrite marks chars) :
    MarksWrite (.token touching (.word name) :: marks) (name.toList ++ chars) :=
  cons ⟨hname, rfl⟩ h

theorem string (touching : Bool) (s : String) (h : MarksWrite marks chars) :
    MarksWrite (.token touching (.string s) :: marks) ((Text.quote s).toList ++ chars) := by
  rw [Text.quote, String.toList_ofList]
  exact cons ⟨trivial, rfl⟩ h

theorem keyword {name : String} (hname : Text.isWord name = true) (h : MarksWrite marks chars) :
    MarksWrite (.keyword name :: marks) (name.toList ++ chars) :=
  cons hname h

theorem blank (h : MarksWrite marks chars) : MarksWrite (.blank :: marks) (' ' :: chars) :=
  cons trivial h

/-- A mark that only bars what may come next writes nothing; it matters when the text is read. -/
theorem stop (touching : Bool) (bars : TokenKind → Bool) (h : MarksWrite marks chars) :
    MarksWrite (.stop touching bars :: marks) chars :=
  cons trivial h

/-- Where every mark flows into those behind it, a stream of the text spells the marks. -/
theorem exists_spells {code : String} (h : MarksWrite marks code.toList) (hflows : Flows marks) :
    ∃ s s', TokenStream.ofText code = .ok s ∧ Spells marks s s' ∧ s'.isExhausted = true := by
  obtain ⟨s, s', hs, hspells, hend⟩ := spells_of_flows h.isWritten hflows
  rw [h.text, String.ofList_toList] at hs
  exact ⟨s, s', hs, hspells, hend⟩

/-- Parts with commas between them. -/
theorem separated {parts : List (List Mark)} {texts : List String}
    (h : List.Forall₂ (fun marks text => MarksWrite marks text.toList) parts texts) :
    MarksWrite (Phrase.separated parts) (",".intercalate texts).toList := by
  induction h with
  | nil => exact .nil
  | @cons marks text parts texts hpart hrest ih =>
      cases hrest with
      | nil =>
          rw [String.toList_intercalate]
          simpa [Phrase.separated] using hpart
      | @cons marks' text' parts texts hnext hrest =>
          rw [toList_intercalate_cons, separated_cons _ (List.cons_ne_nil _ _)]
          exact hpart.append (ih.symbol false .comma)

end MarksWrite

/-- The phrase can be written, and this is its text. -/
structure Writes (e : Phrase) (source : String) : Prop where
  wellFormed : e.WellFormed
  marks : MarksWrite e.marks source.toList

/-- A layer writes a text if it and its parts are well formed and its marks write that text. Every
lemma on a layer below comes down to this one. -/
theorem Writes.of_layer {layer : Layer Phrase} {source : String} (hlayer : layer.WellFormed)
    (hparts : ∀ part ∈ layer.children, part.WellFormed) {chars : List Char}
    (hmarks : MarksWrite (layer.marks isParameter Phrase.marks) chars)
    (hchars : chars = source.toList) : (Phrase.mk layer).Writes source := by
  refine ⟨.mk hlayer hparts, ?_⟩
  rw [marks_eq]
  exact hchars ▸ hmarks

/-! ### Values -/

/-- A number writes its digits behind its sign. -/
theorem writes_number {negative isDouble : Bool} {text : String}
    (h : (if isDouble then TokenKind.double text else .int text).IsWritten) :
    (mk (.number negative isDouble text)).Writes
      (String.ofList (if negative then '-' :: text.toList else text.toList)) := by
  -- The sign is a mark of its own, and the digits are one token whether it is there or not.
  have hnumber (touching : Bool) : MarksWrite
      [.token touching (if isDouble then TokenKind.double text else .int text)] text.toList := by
    have hblank : (if isDouble then TokenKind.double text else .int text).isBlank = false := by
      cases isDouble <;> rfl
    have hmarks := MarksWrite.nil.cons (show (Mark.token touching _).IsWritten from ⟨h, hblank⟩)
    rw [List.append_nil] at hmarks
    cases isDouble <;> exact hmarks
  have hmarks : MarksWrite ((Layer.number negative isDouble text).marks isParameter Phrase.marks)
      (if negative then '-' :: text.toList else text.toList) := by
    cases negative with
    | true => exact .symbol false .minus (hnumber true)
    | false => exact hnumber false
  exact .of_layer trivial (List.forall_mem_nil _) hmarks String.toList_ofList.symm

/-- An integer is written as its sign and the digits of its size. -/
theorem writes_int (i : Int) :
    (mk (.number (decide (i < 0)) false (Number.digitsText i))).Writes (Number.intText i) := by
  have h : (mk (.number (decide (i < 0)) false (Number.digitsText i))).Writes _ :=
    writes_number (Number.isWritten_digitsText i)
  rwa [Number.signed_digitsText, String.ofList_toList] at h

/-- A double is written with its decimal places, which tell it from an integer. -/
theorem writes_double (x : Double) :
    (mk (.number x.isNegative true (Number.placesText x))).Writes
      (String.ofList (Number.writePlaces x)) := by
  have h : (mk (.number x.isNegative true (Number.placesText x))).Writes _ :=
    writes_number (Number.isWritten_placesText x)
  rwa [Number.signed_placesText] at h

theorem writes_truth (b : Bool) : (mk (.truth b)).Writes (if b then "true" else "false") := by
  cases b with
  | true => exact .of_layer trivial (List.forall_mem_nil _) (.keyword rfl .nil) rfl
  | false => exact .of_layer trivial (List.forall_mem_nil _) (.keyword rfl .nil) rfl

theorem writes_null : (mk .null).Writes "null" :=
  .of_layer trivial (List.forall_mem_nil _) (.keyword rfl .nil) rfl

theorem writes_string (s : String) : (mk (.string s)).Writes (Text.quote s) :=
  .of_layer trivial (List.forall_mem_nil _) (.string false s .nil) (List.append_nil _)

/-- The asterisk writes itself; that no period follows is asked by a mark that writes nothing. -/
theorem writes_documents : (mk (.documents none)).Writes "*" :=
  .of_layer (by rintro _ ⟨⟩) (List.forall_mem_nil _)
    (.symbol false .asterisk (.stop true _ .nil)) rfl

/-- The name of a parameter is a word or digits, and touches the sign in front of it. -/
theorem writes_parameter {isInt : Bool} {name : String}
    (h : (if isInt then TokenKind.int name else .word name).IsWritten) :
    (mk (.parameter isInt name)).Writes ("@" ++ name) := by
  cases isInt with
  | true =>
      refine .of_layer trivial (List.forall_mem_nil _)
        (.symbol false .atSign (.cons ⟨h, rfl⟩ .nil)) ?_
      simp [Mark.written, Mark.kind?, TokenKind.written, Symbol.text]
  | false =>
      refine .of_layer trivial (List.forall_mem_nil _)
        (.symbol false .atSign (.cons ⟨h, rfl⟩ .nil)) ?_
      simp [Mark.written, Mark.kind?, TokenKind.written, Symbol.text]

/-! ### Parts in a row

The items of an array and the arguments of a call are parts of one kind: each is a phrase that
writes its text and is no pair of bounds, with commas between them. -/

/-- The phrase writes the text and is no pair of bounds. -/
def WritesItem (e : Phrase) (source : String) : Prop := e.Writes source ∧ e.isBounds = false

section

variable {items : List Phrase} {sources : List String}

theorem forall_of_forall₂ {α β : Type} {R : α → β → Prop} {P : α → Prop} {as : List α}
    {bs : List β} (h : List.Forall₂ R as bs) (hP : ∀ a b, R a b → P a) : ∀ a ∈ as, P a := by
  induction h with
  | nil => rintro _ ⟨⟩
  | cons hab _ ih => exact List.forall_mem_cons.mpr ⟨hP _ _ hab, ih⟩

theorem marksWrite_items (h : List.Forall₂ WritesItem items sources) :
    MarksWrite (separated (items.map Phrase.marks)) (",".intercalate sources).toList :=
  .separated (List.forall₂_map_left_iff.mpr (h.imp fun _ _ hitem => hitem.1.marks))

theorem writes_array (h : List.Forall₂ WritesItem items sources) :
    (mk (.array items)).Writes ("[" ++ ",".intercalate sources ++ "]") := by
  refine .of_layer (forall_of_forall₂ h fun _ _ hitem => hitem.2)
    (forall_of_forall₂ h fun _ _ hitem => hitem.1.wellFormed)
    (.symbol false .leftBracket ((marksWrite_items h).append (.symbol false .rightBracket .nil))) ?_
  simp [Symbol.text]

theorem writes_call {name : String} (hword : Text.isWord name = true)
    (hconstant : isConstantWord name = false) (hsequence : isSequenceWord name = false)
    (site : Nat) (h : List.Forall₂ WritesItem items sources) :
    (mk (.call name site items)).Writes (name ++ "(" ++ ",".intercalate sources ++ ")") := by
  refine .of_layer ⟨hconstant, hsequence, forall_of_forall₂ h fun _ _ hitem => hitem.2⟩
    (forall_of_forall₂ h fun _ _ hitem => hitem.1.wellFormed)
    ((MarksWrite.word false hword (.symbol false .leftParen .nil)).append
      (marksWrite_items h) |>.append (.symbol false .rightParen .nil)) ?_
  simp [Symbol.text]

end

/-! ### Documents -/

/-- The name of an entry as canonical text has it. -/
def canonicalKey (name : String) : EntryName :=
  if Text.isWord name then .word name else .string name

@[simp] theorem name_canonicalKey (name : String) : (canonicalKey name).name = name := by
  unfold canonicalKey
  split <;> rfl

/-- A name that is a word is written as it is, any other one between quotes. -/
theorem marksWrite_key (name : String) {marks : List Mark} {chars : List Char}
    (h : MarksWrite marks chars) :
    MarksWrite ((canonicalKey name).mark :: marks) ((keyText name).toList ++ chars) := by
  unfold canonicalKey keyText
  cases hword : Text.isWord name with
  | true => exact .word false hword h
  | false => exact .string false name h

/-- Entries are written with their names as these are written. -/
theorem writes_entries {key : String → EntryName} {keyText : String → String}
    (hkey : ∀ name marks chars, MarksWrite marks chars →
      MarksWrite ((key name).mark :: marks) ((keyText name).toList ++ chars))
    {entries : List (String × Phrase)} {sources : List String}
    (h : List.Forall₂ WritesItem (entries.map Prod.snd) sources) :
    (mk (.document (entries.map fun (name, e) => (key name, some e)))).Writes
      ("\x7b" ++ ",".intercalate (List.zipWith (fun name source => keyText name ++ ":" ++ source)
        (entries.map Prod.fst) sources) ++ "\x7d") := by
  have hvalues : ∀ e ∈ entries.map Prod.snd, e.isBounds = false ∧ e.WellFormed :=
    forall_of_forall₂ h fun _ _ hitem => ⟨hitem.2, hitem.1.wellFormed⟩
  have hentries : MarksWrite
      (separated ((entries.map fun (name, e) => (key name, some e)).map
        (entryMarks Phrase.marks)))
      (",".intercalate (List.zipWith (fun name source => keyText name ++ ":" ++ source)
        (entries.map Prod.fst) sources)).toList := by
    refine .separated ?_
    -- The induction is on the entries, and each of them puts its name and a colon in front of its
    -- value.
    clear hvalues
    induction entries generalizing sources with
    | nil => cases h with | nil => exact .nil
    | cons entry rest ih =>
        cases h with
        | cons hitem hrest =>
            refine .cons ?_ (ih hrest)
            rw [String.toList_append, String.toList_append, List.append_assoc]
            exact hkey _ _ _ (.symbol false .colon hitem.1.marks)
  refine .of_layer ?_ ?_
    (.symbol false .leftBrace (hentries.append (.symbol false .rightBrace .nil))) ?_
  · intro entry hentry e he
    obtain ⟨⟨name, value⟩, hmem, rfl⟩ := List.mem_map.mp hentry
    cases he
    exact (hvalues _ (List.mem_map_of_mem hmem)).1
  · intro part hpart
    obtain ⟨entry, hentry, he⟩ := List.mem_flatMap.mp hpart
    obtain ⟨⟨name, value⟩, hmem, rfl⟩ := List.mem_map.mp hentry
    cases List.mem_singleton.mp he
    exact (hvalues _ (List.mem_map_of_mem hmem)).2
  · simp [Symbol.text]

/-- A document is written with canonical names. -/
theorem writes_document {entries : List (String × Phrase)} {sources : List String}
    (h : List.Forall₂ WritesItem (entries.map Prod.snd) sources) :
    (mk (.document (entries.map fun (name, e) => (canonicalKey name, some e)))).Writes
      ("\x7b" ++ ",".intercalate (List.zipWith (fun name source => keyText name ++ ":" ++ source)
        (entries.map Prod.fst) sources) ++ "\x7d") :=
  writes_entries (fun name _ _ => marksWrite_key name) h

/-! ### Functions on sequences -/

section

variable {source part : Phrase} {sourceText partText : String}

/-- The three functions on sequences are written alike: the source, an arrow, the part for each
element, and what may stand behind it. -/
theorem marksWrite_sequence {name : String} (hname : Text.isWord name = true)
    (hsource : source.Writes sourceText) (hpart : part.Writes partText) {behind : List Mark}
    {chars : List Char} (hbehind : MarksWrite behind chars) :
    MarksWrite (sequenceMarks Phrase.marks name source part behind)
      ((name ++ "(" ++ sourceText ++ "=>" ++ partText).toList ++ chars ++ ")".toList) := by
  have h := ((((MarksWrite.keyword hname (.symbol false .leftParen .nil)).append
    hsource.marks).append (.symbol false .arrow .nil)).append hpart.marks).append hbehind |>.append
      (.symbol false .rightParen .nil)
  refine ⟨h.isWritten, h.text.trans ?_⟩
  simp [Symbol.text]

variable (hsource : source.Writes sourceText) (hterm : source.isTerm = true)
  (hpart : part.Writes partText) (hclass : part.isBounds = false)

include hsource hterm hpart hclass

theorem writes_map :
    (mk (.map source part)).Writes ("MAP(" ++ sourceText ++ "=>" ++ partText ++ ")") := by
  refine .of_layer ⟨hterm, hclass⟩ ?_ (marksWrite_sequence rfl hsource hpart .nil) ?_
  · simpa [Layer.children] using ⟨hsource.wellFormed, hpart.wellFormed⟩
  · simp

theorem writes_filter :
    (mk (.filter source part)).Writes ("FILTER(" ++ sourceText ++ "=>" ++ partText ++ ")") := by
  refine .of_layer ⟨hterm, hclass⟩ ?_ (marksWrite_sequence rfl hsource hpart .nil) ?_
  · simpa [Layer.children] using ⟨hsource.wellFormed, hpart.wellFormed⟩
  · simp

/-- The order of a sort is written behind a comma where there is one, and nothing where there is
none. -/
theorem writes_sort {order : Option Phrase} {orderText : Option String}
    (horder : Option.Rel WritesItem order orderText) :
    (mk (.sort source part order)).Writes
      ("SORT(" ++ sourceText ++ "=>" ++ partText ++ (orderText.elim "" ("," ++ ·)) ++ ")") := by
  cases horder with
  | none =>
      refine .of_layer ⟨hterm, hclass, by rintro _ ⟨⟩⟩ ?_
        (marksWrite_sequence rfl hsource hpart .nil) ?_
      · simpa [Layer.children] using ⟨hsource.wellFormed, hpart.wellFormed⟩
      · simp
  | @some order orderText horder =>
      refine .of_layer ⟨hterm, hclass, ?_⟩ ?_
        (marksWrite_sequence rfl hsource hpart (.symbol false .comma horder.1.marks)) ?_
      · simpa using horder.2
      · simpa [Layer.children] using
          ⟨hsource.wellFormed, hpart.wellFormed, horder.1.wellFormed⟩
      · simp [Symbol.text]

end

theorem writes_parens {e : Phrase} {source : String} (h : WritesItem e source) :
    (mk (.parens e)).Writes ("(" ++ source ++ ")") := by
  refine .of_layer h.2 ?_
    (.symbol false .leftParen (h.1.marks.append (.symbol false .rightParen .nil))) ?_
  · simpa [Layer.children] using h.1.wellFormed
  · simp [Symbol.text]

/-! ### Paths -/

/-- The name of a field as canonical text has it. -/
def canonicalField (name : String) : FieldName :=
  if Text.isWord name then .word name else .quoted name

@[simp] theorem name_canonicalField (name : String) : (canonicalField name).name = name := by
  unfold canonicalField
  split <;> rfl

/-- A member is written behind its period, as a word or, between brackets, as a string. -/
theorem marksWrite_field (touching : Bool) (name : String) :
    MarksWrite (.touch .period :: (canonicalField name).marks touching)
      (memberText name).toList := by
  unfold canonicalField memberText
  cases hword : Text.isWord name with
  | true =>
      have h := MarksWrite.symbol true .period (.word touching hword .nil)
      refine ⟨h.isWritten, h.text.trans ?_⟩
      simp [Symbol.text]
  | false =>
      have h := MarksWrite.symbol true .period
        (.symbol touching .leftBracket (.string false name (.symbol false .rightBracket .nil)))
      refine ⟨h.isWritten, h.text.trans ?_⟩
      simp [Symbol.text]

/-- A place is written as an integer is, the sign as a mark of its own. -/
theorem marksWrite_place (place : Int) :
    MarksWrite (placeMarks (decide (place < 0)) (Number.digitsText place))
      (Number.intText place).toList := by
  have hsigned := Number.signed_digitsText place
  have hdigits : MarksWrite [.token false (.int (Number.digitsText place))]
      ((Number.digitsText place).toList ++ []) :=
    .cons ⟨Number.isWritten_digitsText place, rfl⟩ .nil
  cases hneg : decide (place < 0) with
  | true =>
      rw [hneg] at hsigned
      rw [← hsigned]
      exact ⟨(hdigits.symbol false .minus).isWritten, (hdigits.symbol false .minus).text.trans
        (congrArg ('-' :: ·) (List.append_nil _))⟩
  | false =>
      rw [hneg] at hsigned
      rw [← hsigned]
      exact ⟨hdigits.isWritten, hdigits.text.trans (List.append_nil _)⟩

/-- The step can be written, and its text is that of the other one. -/
inductive StepWrites : WrittenStep Phrase → PathStep Node → Prop where
  | member (name : String) : StepWrites (.member (canonicalField name)) (.member name)
  | index (place : Int) :
      StepWrites (.place (decide (place < 0)) (Number.digitsText place)) (.index place)
  | indexOf {e : Phrase} {n : Node} (h : WritesItem e n.source) (hplain : e.isPlain = true)
      (hparameter : e.isParameter = true) : StepWrites (.part e) (.indexOf n)
  | all : StepWrites .all .all
  | filter {e : Phrase} {n : Node} (h : WritesItem e n.source) (hplain : e.isPlain = true)
      (hparameter : e.isParameter = false) : StepWrites (.part e) (.filter n)
  | items : StepWrites .all .items

namespace StepWrites

variable {w : WrittenStep Phrase} {step : PathStep Node}

/-- A written step yields more than one value if the step of the node does. -/
theorem isMany (h : StepWrites w step) : w.isMany isParameter = step.isEnumerable := by
  cases h with
  | indexOf h hplain hparameter | filter h hplain hparameter =>
      simp [WrittenStep.isMany, PathStep.isEnumerable, hparameter]
  | _ => rfl

theorem isMember (h : StepWrites w step) :
    w.isMember = true → ∃ name, step = .member name := by
  cases h with
  | member name => exact fun _ => ⟨name, rfl⟩
  | _ => rintro ⟨⟩

theorem part (h : StepWrites w step) {e : Phrase} (he : w = .part e) :
    e.WellFormed ∧ e.isBounds = false ∧ e.isPlain = true := by
  cases h with
  | indexOf h hplain hparameter | filter h hplain hparameter =>
      cases he
      exact ⟨h.1.wellFormed, h.2, hplain⟩
  | _ => cases he

/-- All steps but members stand between brackets. -/
theorem marks (h : StepWrites w step) : MarksWrite (stepMarks Phrase.marks w) step.text.toList := by
  have bracketed {inner : List Mark} {chars : List Char} {source : String}
      (h : MarksWrite inner chars) (hsource : chars = source.toList) :
      MarksWrite (.touch .leftBracket :: inner ++ [.symbol .rightBracket])
        ("[" ++ source ++ "]").toList := by
    have h := (h.append (.symbol false .rightBracket .nil)).symbol true .leftBracket
    refine ⟨h.isWritten, h.text.trans ?_⟩
    rw [hsource]
    simp [Symbol.text]
  cases h with
  | member name => exact marksWrite_field true name
  | index place => exact bracketed (marksWrite_place place) rfl
  | indexOf h hplain hparameter | filter h hplain hparameter => exact bracketed h.1.marks rfl
  | all | items =>
      exact .symbol true .leftBracket
        (.symbol false .asterisk (.symbol false .rightBracket .nil))

end StepWrites

theorem map_isMany {ws : List (WrittenStep Phrase)} {steps : List (PathStep Node)}
    (h : List.Forall₂ StepWrites ws steps) :
    ws.map (WrittenStep.isMany isParameter) = steps.map PathStep.isEnumerable := by
  induction h with
  | nil => rfl
  | cons hstep _ ih => rw [List.map_cons, List.map_cons, hstep.isMany, ih]

/-- The root of a path writes its sigil. Without a field, a mark behind `@` bars a name that would
make it a parameter. -/
theorem marksWrite_start (root : PathRoot) (field : Option String) :
    MarksWrite (PathStart.sigil root (field.map canonicalField)).marks
      (root.sigil ++ field.elim "" memberText).toList := by
  cases field with
  | none =>
      cases root with
      | document => exact .symbol false .dollar .nil
      | current => exact .symbol false .atSign (.stop true _ .nil)
  | some name =>
      rw [Option.map_some, PathStart.marks_sigil, String.toList_append]
      refine .append ?_ (marksWrite_field false name)
      cases root with
      | document => exact .symbol false .dollar .nil
      | current => exact .symbol false .atSign .nil

theorem marksWrite_steps {ws : List (WrittenStep Phrase)} {steps : List (PathStep Node)}
    (h : List.Forall₂ StepWrites ws steps) :
    MarksWrite (ws.flatMap (stepMarks Phrase.marks))
      (String.join (steps.map PathStep.text)).toList := by
  induction h with
  | nil => exact .nil
  | @cons w step ws steps hstep _ ih =>
      rw [List.flatMap_cons, List.map_cons, String.join_cons, String.toList_append]
      exact hstep.marks.append ih

/-- Nothing is written behind a path that has nothing behind it. -/
theorem marksWrite_behind (ws : List (WrittenStep Phrase)) :
    MarksWrite (behindMarks isParameter Phrase.marks ws none) [] := by
  unfold behindMarks
  dsimp only
  split <;> exact .stop true _ .nil

/-- A path from its root, a first field that may be missing, and steps. -/
theorem writes_path (root : PathRoot) (field : Option String) {ws : List (WrittenStep Phrase)}
    {steps : List (PathStep Node)} (h : List.Forall₂ StepWrites ws steps)
    (hsingle : steps.dropLast.any PathStep.isEnumerable = false)
    (hfirst : field = none → ∀ name, steps.head? ≠ some (.member name)) :
    (mk (.path (.sigil root (field.map canonicalField)) ws none)).Writes
      (root.sigil ++ field.elim "" memberText ++ String.join (steps.map PathStep.text)) := by
  have hparts : ∀ w ∈ ws, ∀ e, w = .part e → e.WellFormed ∧ e.isBounds = false ∧ e.isPlain = true :=
    forall_of_forall₂ h fun _ _ hstep _ he => hstep.part he
  have hmarks := ((marksWrite_start root field).append (marksWrite_steps h)).append
    (marksWrite_behind ws)
  refine .of_layer ⟨?_, ?_, ?_, by rintro _ ⟨⟩⟩ ?_ hmarks ?_
  · -- Without a first field the path begins with no member: as text the two would be the same.
    cases field with
    | some name => trivial
    | none =>
        change ws.head?.any WrittenStep.isMember = false
        cases h with
        | nil => rfl
        | @cons w step ws steps hstep _ =>
            refine Bool.eq_false_iff.mpr fun hmember => ?_
            obtain ⟨name, hname⟩ := hstep.isMember hmember
            exact hfirst rfl name (congrArg some hname)
  · exact fun e he => (hparts _ he e rfl).2
  · have hmany := congrArg List.dropLast (map_isMany h)
    rw [← List.map_dropLast, ← List.map_dropLast] at hmany
    -- Only the last step may yield more than one value, in the written steps as in the node.
    rw [any_eq_any_id, hmany, ← any_eq_any_id]
    exact hsingle
  · intro part hpart
    rw [Layer.children, Option.toList_none, List.append_nil] at hpart
    obtain ⟨w, hw, hpart⟩ := List.mem_flatMap.mp hpart
    cases w with
    | part e =>
        cases List.mem_singleton.mp hpart
        exact (hparts _ hw part rfl).1
    | _ => cases hpart
  · simp

end Phrase

end DocQuery
