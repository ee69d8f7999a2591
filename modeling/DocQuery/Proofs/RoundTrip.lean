import DocQuery.Proofs.Flow
import DocQuery.Proofs.Rereading
import DocQuery.Proofs.Restated
/-!
# DocQuery.Proofs.RoundTrip

Canonical text read again. The canonical text of an expression that a text has been parsed into
is parsed in any scope, and into an expression of the same text of which the same is known
(`parse_source`). There is one exception, and it is told by the expression alone: a pair of bounds
that a quantified comparison has made a sequence of is written where bounds are asked for, and
what is written there is none (`Node.keepsBounds`).
-/

namespace DocQuery

/-- What is known of an expression is known of what has been read, but for its fields. -/
theorem Node.Kept.info {named same exact : Prop} {a b : Node} (h : Kept named same exact a b)
    (hnamed : named) : b.info = { a.info with fields := b.info.fields } := by
  obtain ⟨info, form⟩ := a
  obtain ⟨info', form'⟩ := b
  have htype : info'.type = info.type := h.type
  have hscalar : info'.isScalar = info.isScalar := h.isScalar
  have himmutable : info'.isImmutable = info.isImmutable := h.isImmutable
  have huses : info'.usesSource = info.usesSource := h.usesSource
  have hsource : info'.source = info.source := h.source hnamed
  change info' = { info with fields := info'.fields }
  rw [← htype, ← hscalar, ← himmutable, ← huses, ← hsource]

namespace Phrase

/-- The text is written as the phrase. -/
structure IsTextOf (code : String) (e : Phrase) : Prop where
  wellFormed : e.WellFormed
  isBounds : e.isBounds = false
  spells : ∃ s s' : TokenStream, TokenStream.ofText code = .ok s ∧ Spells e.marks s s' ∧
    s'.isExhausted = true

/-- What a phrase writes is its text. -/
theorem Writes.isTextOf {e : Phrase} {source : String} (h : e.Writes source)
    (hclass : e.isBounds = false) : e.IsTextOf source where
  wellFormed := h.wellFormed
  isBounds := hclass
  spells := by
    have hflows : Flows e.marks := by
      have hend := e.flowsOn Follows.nil
      rwa [List.append_nil] at hend
    exact h.marks.exists_spells hflows

/-- A path that is a name by itself writes this name. -/
theorem writes_bare {name : String} (hword : Text.isWord name = true)
    (hname : isConstantWord name = false) :
    (Phrase.mk (.path (.bare name) [] none)).Writes name := by
  refine .of_layer ⟨hname, by rintro _ ⟨⟩, rfl, by rintro _ ⟨⟩⟩ (List.forall_mem_nil _)
    (.word false hword (.stop false _ (.stop true _ .nil))) ?_
  exact List.append_nil _

variable {code : String} {scope : Scope} {n : Node} {e : Phrase}

/-- A text that is parsed is written as some phrase. -/
theorem exists_isTextOf (h : parse code scope .full = .ok n) : ∃ e, IsTextOf code e := by
  obtain ⟨s, s', e, hcode, hclass, hreads, hend⟩ := parse_reads h
  exact ⟨e, hreads.wellFormed, hclass, s, s', hcode, hreads.spells, hend rfl⟩

/-- A text written as a phrase is parsed if the phrase stands for something. -/
theorem IsTextOf.parse_ok (h : IsTextOf code e) (hn : e.node scope = some n) :
    ∃ m, parse code scope .full = .ok m ∧ m.unsited = n.unsited := by
  obtain ⟨s, s', hcode, hspells, hend⟩ := h.spells
  exact parse_meets hcode h.wellFormed h.isBounds (by rintro ⟨⟩) hspells hend hn

theorem IsTextOf.parse_error (h : IsTextOf code e) (hn : e.node scope = none) :
    ∃ error, parse code scope .full = .error error := by
  obtain ⟨s, s', hcode, hspells, hend⟩ := h.spells
  exact parse_fails hcode h.wellFormed h.isBounds (by rintro ⟨⟩) hspells hend hn

/-- What a text is parsed into is what any phrase stands for that it is written as. -/
theorem IsTextOf.exists_node (h : IsTextOf code e) (hparse : parse code scope .full = .ok n) :
    ∃ m, e.node scope = some m ∧ m.unsited = n.unsited := by
  cases hm : e.node scope with
  | none =>
      obtain ⟨error, herror⟩ := h.parse_error hm
      rw [herror] at hparse
      cases hparse
  | some m =>
      obtain ⟨n', hn', hunsited⟩ := h.parse_ok hm
      rw [hn'] at hparse
      cases hparse
      exact ⟨m, rfl, hunsited.symm⟩

/-- What a text without generators is parsed into is read from any phrase that it is written
as. -/
theorem IsTextOf.isReadFrom (h : IsTextOf code e) (hparse : parse code scope .full = .ok n)
    (hsteady : n.isSteady = true) : e.IsReadFrom code scope n := by
  obtain ⟨m, hm, hunsited⟩ := h.exists_node hparse
  obtain rfl := Node.eq_of_unsited hunsited hsteady
  obtain ⟨s, s', hs, hspells, -⟩ := h.spells
  exact ⟨s, s', hs, h.wellFormed, hm, hspells⟩

/-- A phrase that a text is written as can be restated as far as its names and numbers allow. -/
theorem IsTextOf.restatable (h : IsTextOf code e) {named exact : Prop}
    (hback : e.Everywhere Layer.ReadsBack) (hnamed : named → e.Everywhere Layer.IsNamed)
    (hexact : exact → e.Everywhere Layer.IsExact) : e.Restatable named exact := by
  obtain ⟨s, s', hcode, hspells, -⟩ := h.spells
  refine ⟨h.wellFormed, fun mark hmark => ?_, hback, hnamed, hexact⟩
  cases mark with
  | token touching kind => exact isProper_of_spells hcode hspells hmark
  | _ => trivial

/-- The canonical text of what a phrase stands for is parsed into the expression read again, but
for the offsets of generators; or it is not parsed at all. -/
theorem again_parse {named exact : Prop} (hfits : e.Restatable named exact)
    (hclass : e.isBounds = false) (hn : e.node scope = some n) (scope' : Scope) :
    Again n.keepsBounds
      (fun m => ∃ m', Node.Kept named (scope' = scope) exact n.reread m' ∧ m.unsited = m'.unsited)
      (parse n.source scope' .full).toOption := by
  obtain ⟨e', he⟩ := exists_renders hfits hn
  have htext : IsTextOf n.source e' := he.restates.writes.isTextOf (he.isBounds.trans hclass)
  have hagain := he.restates.again scope'
  cases hkeeps : n.keepsBounds with
  | true =>
      rw [hkeeps] at hagain
      obtain ⟨m', hm', hkept⟩ := hagain
      obtain ⟨m, hparse, hm⟩ := htext.parse_ok hm'
      rw [hparse]
      exact .some ⟨m', hkept, hm⟩
  | false =>
      rw [hkeeps] at hagain
      obtain ⟨error, hparse⟩ := htext.parse_error hagain
      rw [hparse]
      rfl

end Phrase

namespace Node

/-- Whether bounds are kept does not depend on the offsets of generators. -/
theorem keepsBounds_unsited (n : Node) : n.unsited.keepsBounds = n.keepsBounds := by
  induction n using Node.induction with
  | step n ih =>
      obtain ⟨info, form⟩ := n
      have hparts : (form.children.map unsited).all keepsBounds =
          form.children.all keepsBounds := by
        rw [Bool.eq_iff_iff, List.all_eq_true, List.all_eq_true, List.forall_mem_map]
        exact forall₂_congr fun part hpart => by rw [ih part hpart]
      have hquantified (part : Node) : part.unsited.isQuantified = part.isQuantified := by
        obtain ⟨info, form⟩ := part
        rw [unsited_mk]
        cases form <;> rfl
      rw [unsited_mk, keepsBounds_mk, keepsBounds_mk, Form.children_eraseSite,
        Form.children_mapParts, hparts]
      congr 2
      cases form with
      | quantified quantifier op left right => cases op <;> first | rfl | exact hquantified right
      | _ => rfl

end Node

open Phrase (Layer IsTextOf)

/-- The canonical text (`Node.source`) of an expression that a text has been parsed into is parsed
in any scope, provided that its bounds are kept and no path in the text begins with an empty name.
What is known of the expression is known again (`Node.info`): its type and text, how many values it
yields and what these depend on; and in the same scope, the fields that it reads. If its bounds are
not kept, the canonical text is not parsed in any scope. -/
theorem parse_source {code : String} {scope : Scope} {n : Node}
    (h : parse code scope .full = .ok n) :
    (∃ e, IsTextOf code e) ∧ ∀ e, IsTextOf code e → e.Everywhere Layer.ReadsBack →
      (n.keepsBounds = false → ∀ scope', ∃ error, parse n.source scope' .full = .error error) ∧
      (n.keepsBounds = true → e.Everywhere Layer.IsNamed → ∀ scope',
        ∃ m, parse n.source scope' .full = .ok m ∧
          m.info = { n.info with fields := m.info.fields } ∧
          (scope' = scope → m.info.fields = n.info.fields)) := by
  refine ⟨Phrase.exists_isTextOf h, fun e he hback => ?_⟩
  -- The node of the phrase has other offsets of generators than `n`, and the same for the rest.
  obtain ⟨n', hn', hunsited⟩ := he.exists_node h
  have hinfo : n'.info = n.info := by rw [← n'.info_unsited, hunsited, n.info_unsited]
  have hsource : n'.source = n.source := congrArg NodeInfo.source hinfo
  have hbounds : n'.keepsBounds = n.keepsBounds := by
    rw [← n'.keepsBounds_unsited, hunsited, n.keepsBounds_unsited]
  refine ⟨fun hkeeps scope' => ?_, fun hkeeps hnamed scope' => ?_⟩
  · have hfits : e.Restatable False False := he.restatable hback False.elim False.elim
    have hagain := Phrase.again_parse hfits he.isBounds hn' scope'
    rw [hbounds, hkeeps, hsource] at hagain
    have hnone : (parse n.source scope' .full).toOption = none := hagain
    cases hparse : parse n.source scope' .full with
    | error error => exact ⟨error, rfl⟩
    | ok m =>
        rw [hparse] at hnone
        cases hnone
  · have hfits : e.Restatable True False := he.restatable hback (fun _ => hnamed) False.elim
    have hagain := Phrase.again_parse hfits he.isBounds hn' scope'
    rw [hbounds, hkeeps, hsource] at hagain
    obtain ⟨m, hm, m', hkept, hm'⟩ := hagain
    have hread : m.info = m'.info := by rw [← m.info_unsited, hm', m'.info_unsited]
    have hn : n'.reread.info = n.info := n'.info_reread.trans hinfo
    refine ⟨m, Precedence.toOption_eq_some.mp hm, ?_, fun hscope => ?_⟩
    · rw [hread, hkept.info trivial, hn]
    · rw [hread, hkept.fields trivial hscope, hn]

/-- A row of operators of several levels is read again, in its own scope and in another one. Its
terms are a bare name, a quoted one, a floating-point number and the bounds of a `BETWEEN`. -/
theorem parse_source_joined : ∃ n,
    parse "x+$.[\"a b\"]*1.5 BETWEEN 1 AND 2 AND true" .root .full = .ok n ∧
    (∃ m, parse n.source .root .full = .ok m ∧ m.info = n.info) ∧
    ∃ m, parse n.source .source .full = .ok m ∧
      m.info = { n.info with fields := m.info.fields } := by
  let number (i : Int) : Phrase := .mk (.number (decide (i < 0)) false (Number.digitsText i))
  let name : Phrase := .mk (.path (.bare "x") [] none)
  let quoted : Phrase := .mk (.path (.sigil .document (some (Phrase.canonicalField "a b"))) [] none)
  let half : Phrase := .mk (.number false true "1.5")
  let bounds : Phrase := .mk (.bounds (number 1) (number 2))
  let product : OpTree Phrase :=
    .node (.binary (.arithmetic .multiply)) (.leaf quoted) (.leaf half)
  let sum : OpTree Phrase := .node (.binary (.arithmetic .add)) (.leaf name) product
  let comparison : OpTree Phrase := .node (.binary (.comparison .between)) sum (.leaf bounds)
  let row : OpTree Phrase := .node (.logic .and) comparison (.leaf (.mk (.truth true)))
  -- The parts are written as they stand in the text, from the leaves to the whole row.
  have hname : name.Writes "x" := Phrase.writes_bare rfl rfl
  have hquoted : quoted.Writes "$.[\"a b\"]" :=
    Phrase.writes_path .document (some "a b") .nil rfl (by rintro - _ ⟨⟩)
  have hhalf : half.Writes "1.5" := by
    have hdigits (c : Char) (h : c.isDigit = true) : TokenKind.AreDigits [c] :=
      ⟨List.cons_ne_nil _ _, by simp [h]⟩
    exact Phrase.writes_number ⟨['1'], ['.', '5'], [], rfl, hdigits _ rfl,
      .inr ⟨['5'], rfl, hdigits _ rfl⟩, .inl rfl, List.cons_ne_nil _ _⟩
  have hbounds : bounds.Writes "1 AND 2" :=
    Phrase.writes_bounds (Phrase.writes_int 1) rfl (Phrase.writes_int 2) rfl
  have hproduct : product.IsRow :=
    (.leaf hquoted.wellFormed (.inl rfl) : OpTree.IsRow _).node
      (.leaf hhalf.wellFormed (.inl rfl)) (by rintro ⟨⟩) (by rintro ⟨⟩)
  have hsum : sum.IsRow :=
    (.leaf hname.wellFormed (.inl rfl) : OpTree.IsRow _).node hproduct (by rintro ⟨⟩)
      (by rintro ⟨⟩)
  have hcomparison : comparison.IsRow :=
    hsum.node (.leaf hbounds.wellFormed (.inr rfl)) (fun _ => rfl) (fun _ => .inl rfl)
  have hrow : row.IsRow :=
    hcomparison.node (.leaf (Phrase.writes_truth true).wellFormed (.inl rfl)) (by rintro ⟨⟩)
      (by rintro ⟨⟩)
  have hwrites : Phrase.WritesItem (.ofTree row) "x+$.[\"a b\"]*1.5 BETWEEN 1 AND 2 AND true" :=
    hrow.writes rfl
      ((((OpTree.WritesRow.leaf hname).node
        ((OpTree.WritesRow.leaf hquoted).node (.leaf hhalf))).node (.leaf hbounds)).node
          (.leaf (Phrase.writes_truth true)))
  have htext := hwrites.1.isTextOf hwrites.2
  -- What holds of the row and of each kind of leaf holds everywhere in the phrase.
  have heverywhere {P : Layer Phrase → Prop} (hrow : P (Phrase.ofTree row).layer)
      (hnumbers : ∀ i, P (number i).layer) (hname : P name.layer) (hquoted : P quoted.layer)
      (hhalf : P half.layer) (hbounds : P bounds.layer) (htruth : P (.truth true)) :
      (Phrase.ofTree row).Everywhere P := by
    have hnumber (i : Int) : (number i).Everywhere P := .mk (hnumbers i) (List.forall_mem_nil _)
    have hends : bounds.Everywhere P := .mk hbounds (List.forall_mem_cons.mpr
      ⟨hnumber 1, List.forall_mem_singleton.mpr (hnumber 2)⟩)
    refine .mk hrow (List.forall_mem_cons.mpr ⟨.mk hname (List.forall_mem_nil _), ?_⟩)
    refine List.forall_mem_cons.mpr ⟨.mk hquoted (List.forall_mem_nil _), ?_⟩
    refine List.forall_mem_cons.mpr ⟨.mk hhalf (List.forall_mem_nil _), ?_⟩
    exact List.forall_mem_cons.mpr
      ⟨hends, List.forall_mem_singleton.mpr (.mk htruth (List.forall_mem_nil _))⟩
  have hback : (Phrase.ofTree row).Everywhere Layer.ReadsBack := by
    refine heverywhere trivial (fun _ => trivial) trivial trivial ?_ trivial trivial
    intro x hx
    obtain ⟨y, hnode, hread⟩ := Phrase.exists_double hx
    have hone : Double.read? "1.5".toList = some ⟨4609434218613702656⟩ := by decide +kernel
    obtain rfl : y = ⟨4609434218613702656⟩ := Option.some.inj (hread.symm.trans hone)
    obtain rfl : x = ⟨4609434218613702656⟩ :=
      Value.double.inj (Form.constant.inj (congrArg Node.form hnode))
    exact ⟨_, by decide +kernel, rfl, rfl⟩
  have hnamed : (Phrase.ofTree row).Everywhere Layer.IsNamed := by
    refine heverywhere trivial (fun _ => trivial) trivial (fun h => ?_) trivial trivial trivial
    have hempty := congrArg FieldName.name h
    rw [Phrase.name_canonicalField] at hempty
    exact absurd hempty (by decide)
  have hkeeps : (parse "x+$.[\"a b\"]*1.5 BETWEEN 1 AND 2 AND true" .root .full).toOption.map
      Node.keepsBounds = some true := by
    decide +kernel
  obtain ⟨n, hn, hkeeps⟩ := Option.map_eq_some_iff.mp hkeeps
  have hparse := Precedence.toOption_eq_some.mp hn
  obtain ⟨-, hagain⟩ := parse_source hparse
  have hagain := (hagain _ htext hback).2 hkeeps hnamed
  obtain ⟨m, hm, hinfo, hfields⟩ := hagain .root
  obtain ⟨m', hm', hinfo', -⟩ := hagain .source
  refine ⟨n, hparse, ⟨m, hm, ?_⟩, m', hm', hinfo'⟩
  rw [hinfo, hfields rfl]

/-- Bounds on the left of a quantified comparison are written as `ITEMS(1 AND 2)`, and this is not
read behind `BETWEEN`, where bounds are asked for. -/
theorem parse_source_fails : ∃ n, parse "x ALL BETWEEN 1 AND 2 ANY = 3" .root .full = .ok n ∧
    ∀ scope, ∃ error, parse n.source scope .full = .error error := by
  have hfails : ∀ scope ∈ [Scope.root, .current, .source],
      ((parse "x ALL BETWEEN 1 AND 2 ANY = 3" .root .full).toOption.map fun n =>
        (parse n.source scope .full).toOption.isNone) = some true := by
    decide +kernel
  cases h : parse "x ALL BETWEEN 1 AND 2 ANY = 3" .root .full with
  | error e =>
      have hroot := hfails .root (List.mem_cons_self ..)
      rw [h] at hroot
      cases hroot
  | ok n =>
      refine ⟨n, rfl, fun scope => ?_⟩
      have hscope := hfails scope (by cases scope <;> decide)
      rw [h] at hscope
      have hnone : (parse n.source scope .full).toOption.isNone = true := Option.some.inj hscope
      cases hparse : parse n.source scope .full with
      | error error => exact ⟨error, rfl⟩
      | ok m =>
          rw [hparse] at hnone
          cases hnone

end DocQuery
