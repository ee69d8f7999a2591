import DocQuery.Proofs.Frames
/-!
# DocQuery.Proofs.Insertion

Tokens put between the tokens of a stream. What a stream spells depends on the kinds of its tokens
alone (`SpellsKinds`), and marks that have taken some tokens take them whatever stands behind these,
as long as nothing there is barred (`SpellsKinds.replay`). No mark of a phrase bars a closing
parenthesis, and what stands in front of a part of a phrase ends in a token and bars nothing: so
where a stream spells a phrase, it spells the phrase with a part in parentheses once these have been
put around the tokens of the part (`SpellsKinds.wrap`).
-/

namespace DocQuery

namespace TokenKind

/-- Tokens of this kind are blanks. -/
def isSpace : TokenKind → Bool
  | .space _ => true
  | _ => false

/-- The first of these kinds that is read; the end if there is none. -/
def next (skip : Bool) (kinds : List TokenKind) : TokenKind :=
  (if skip then kinds.dropWhile isSpace else kinds).head?.getD .finish

/-- The kinds behind the first one that is read. -/
def past (skip : Bool) (kinds : List TokenKind) : List TokenKind :=
  (if skip then kinds.dropWhile isSpace else kinds).tail

/-- The blanks that are skipped in front of what is read. -/
def Gap (skip : Bool) (gap : List TokenKind) : Prop :=
  (∀ kind ∈ gap, kind.isSpace = true) ∧ (skip = false → gap = [])

/-- What is read stands behind a gap, and what is past it is the rest. -/
theorem exists_of_next {skip : Bool} {kinds : List TokenKind} (h : next skip kinds ≠ .finish) :
    ∃ gap, Gap skip gap ∧ kinds = gap ++ next skip kinds :: past skip kinds := by
  cases skip with
  | false =>
      refine ⟨[], ⟨List.forall_mem_nil _, fun _ => rfl⟩, ?_⟩
      cases kinds with
      | nil => exact absurd rfl h
      | cons kind rest => rfl
  | true =>
      refine ⟨kinds.takeWhile isSpace, ⟨fun kind hkind => List.mem_takeWhile_imp hkind, nofun⟩, ?_⟩
      have hsplit : kinds = kinds.takeWhile isSpace ++ kinds.dropWhile isSpace :=
        List.takeWhile_append_dropWhile.symm
      cases hrest : kinds.dropWhile isSpace with
      | nil => simp [next, hrest] at h
      | cons kind rest =>
          rw [hrest] at hsplit
          simpa [next, past, hrest] using hsplit

/-- A kind that is no blank is read behind any gap. -/
theorem next_gap {skip : Bool} {gap rest : List TokenKind} {kind : TokenKind} (hgap : Gap skip gap)
    (hkind : kind.isSpace = false) :
    next skip (gap ++ kind :: rest) = kind ∧ past skip (gap ++ kind :: rest) = rest := by
  cases skip with
  | false =>
      rw [hgap.2 rfl]
      exact ⟨rfl, rfl⟩
  | true =>
      have hdrop : (gap ++ kind :: rest).dropWhile isSpace = kind :: rest := by
        rw [List.dropWhile_append_of_pos hgap.1, List.dropWhile_cons, hkind]
        rfl
      simp [next, past, hdrop]

theorem next_blanks {gap rest : List TokenKind} (hgap : ∀ kind ∈ gap, kind.isSpace = true) :
    next true (gap ++ rest) = next true rest ∧ past true (gap ++ rest) = past true rest := by
  have hdrop : (gap ++ rest).dropWhile isSpace = rest.dropWhile isSpace :=
    List.dropWhile_append_of_pos hgap
  simp [next, past, hdrop]

/-- What is read first is in front of what stands behind something that is no blank. -/
theorem next_append {gap rest : List TokenKind} {kind : TokenKind}
    (hgap : ∀ kind ∈ gap, kind.isSpace = true) (hkind : kind.isSpace = false) (skip : Bool)
    (ks ks' : List TokenKind) :
    next skip (gap ++ kind :: rest ++ ks) = next skip (gap ++ kind :: rest ++ ks') := by
  cases skip with
  | false => cases gap <;> rfl
  | true =>
      have hskip : Gap true gap := ⟨hgap, nofun⟩
      rw [List.append_assoc, List.append_assoc, List.cons_append, List.cons_append,
        (next_gap hskip hkind).1, (next_gap hskip hkind).1]

theorem exists_append_past (skip : Bool) (kinds : List TokenKind) :
    ∃ front, kinds = front ++ past skip kinds := by
  have hsuffix : past skip kinds <:+ kinds := by
    unfold past
    split
    · exact (List.tail_suffix _).trans (List.dropWhile_suffix _)
    · exact List.tail_suffix _
  obtain ⟨front, hfront⟩ := hsuffix
  exact ⟨front, hfront.symm⟩

end TokenKind

namespace TokenStream

/-- The kinds of the tokens that are to be read. -/
def kinds (s : TokenStream) : List TokenKind := s.ahead.map Token.kind

theorem kinds_rest (s : TokenStream) (skip : Bool) : (s.rest skip).map Token.kind =
    if skip then s.kinds.dropWhile TokenKind.isSpace else s.kinds := by
  unfold rest kinds
  split
  · rw [List.dropWhile_map]
    rfl
  · rfl

/-- A stream shows the first kind, and the end where no token is left. -/
theorem kind_peek {s : TokenStream} (hs : s.Ended) (skip : Bool) :
    (s.peek skip).kind = TokenKind.next skip s.kinds := by
  rw [TokenKind.next, ← kinds_rest, peek]
  cases s.rest skip with
  | nil => exact hs
  | cons t rest => rfl

theorem kinds_advance (s : TokenStream) (skip : Bool) :
    (s.advance skip).kinds = TokenKind.past skip s.kinds := by
  rw [TokenKind.past, ← kinds_rest, ← List.map_tail]
  rfl

end TokenStream

/-- Tokens of these kinds are as marked up to those of the kinds that are left. -/
def SpellsKinds : List Mark → List TokenKind → List TokenKind → Prop
  | [], ks, ks' => ks = ks'
  | .token touching kind :: rest, ks, ks' =>
    TokenKind.next (!touching) ks = kind ∧ SpellsKinds rest (TokenKind.past (!touching) ks) ks'
  | .keyword text :: rest, ks, ks' =>
    (TokenKind.next true ks).isKeyword text = true ∧ SpellsKinds rest (TokenKind.past true ks) ks'
  | .blank :: rest, ks, ks' => SpellsKinds rest ks ks'
  | .stop touching bars :: rest, ks, ks' =>
    bars (TokenKind.next (!touching) ks) = false ∧ SpellsKinds rest ks ks'

namespace SpellsKinds

/-- What a stream spells is told by the kinds of its tokens. -/
theorem of_spells {marks : List Mark} {s s' : TokenStream} (hs : s.Ended)
    (h : Spells marks s s') : SpellsKinds marks s.kinds s'.kinds := by
  induction marks generalizing s with
  | nil => exact congrArg TokenStream.kinds h
  | cons mark rest ih =>
      cases mark with
      | blank => exact ih hs h
      | token touching kind =>
          refine ⟨?_, ?_⟩
          · rw [← TokenStream.kind_peek hs]
            exact h.1
          · rw [← TokenStream.kinds_advance]
            exact ih (hs.advance _) h.2
      | keyword text =>
          refine ⟨?_, ?_⟩
          · rw [← TokenStream.kind_peek hs]
            exact h.1
          · rw [← TokenStream.kinds_advance]
            exact ih (hs.advance _) h.2
      | stop touching bars =>
          refine ⟨?_, ih hs h.2⟩
          rw [← TokenStream.kind_peek hs]
          exact h.1

/-- Tokens of kinds that are as marked are as marked, up to a place with those kinds left. -/
theorem exists_spells {marks : List Mark} {s : TokenStream} {ks : List TokenKind} (hs : s.Ended)
    (h : SpellsKinds marks s.kinds ks) : ∃ s', Spells marks s s' ∧ s'.kinds = ks := by
  induction marks generalizing s with
  | nil => exact ⟨s, rfl, h⟩
  | cons mark rest ih =>
      cases mark with
      | blank => exact ih hs h
      | token touching kind =>
          obtain ⟨hkind, hrest⟩ := h
          rw [← TokenStream.kinds_advance] at hrest
          obtain ⟨s', hspells, hks⟩ := ih (hs.advance _) hrest
          exact ⟨s', ⟨(TokenStream.kind_peek hs _).trans hkind, hspells⟩, hks⟩
      | keyword text =>
          obtain ⟨hkind, hrest⟩ := h
          rw [← TokenStream.kinds_advance] at hrest
          obtain ⟨s', hspells, hks⟩ := ih (hs.advance _) hrest
          refine ⟨s', ⟨?_, hspells⟩, hks⟩
          rw [TokenStream.kind_peek hs]
          exact hkind
      | stop touching bars =>
          obtain ⟨hbars, hrest⟩ := h
          obtain ⟨s', hspells, hks⟩ := ih hs hrest
          refine ⟨s', ⟨?_, hspells⟩, hks⟩
          rw [TokenStream.kind_peek hs]
          exact hbars

/-- Marks behind marks take what is left by these. -/
theorem append {a b : List Mark} {ks ks' ks'' : List TokenKind} (ha : SpellsKinds a ks ks')
    (hb : SpellsKinds b ks' ks'') : SpellsKinds (a ++ b) ks ks'' := by
  induction a generalizing ks with
  | nil =>
      obtain rfl : ks = ks' := ha
      exact hb
  | cons mark rest ih =>
      cases mark with
      | blank => exact ih ha
      | token touching kind | keyword text | stop touching bars => exact ⟨ha.1, ih ha.2⟩

theorem exists_append {marks : List Mark} {ks ks' : List TokenKind} (h : SpellsKinds marks ks ks') :
    ∃ front, ks = front ++ ks' := by
  induction marks generalizing ks with
  | nil => exact ⟨[], h⟩
  | cons mark rest ih =>
      cases mark with
      | blank => exact ih h
      | stop touching bars => exact ih h.2
      | token touching kind | keyword text =>
          obtain ⟨front, hfront⟩ := ih h.2
          obtain ⟨front', hfront'⟩ := TokenKind.exists_append_past _ ks
          refine ⟨front' ++ front, ?_⟩
          rw [List.append_assoc, ← hfront]
          exact hfront'

end SpellsKinds

/-! ### What may stand behind marks -/

namespace Mark

/-- The mark asks for no blank and not for the end, and bars no closing parenthesis. -/
def isSound : Mark → Bool
  | .token _ kind => !kind.isSpace && decide (kind ≠ .finish)
  | .stop _ bars => !bars (.symbol .rightParen)
  | _ => true

end Mark

/-- Behind the marks there may stand tokens of these kinds: they are not what the marks bar. -/
def Admits (ks : List TokenKind) : List Mark → Prop
  | [] => True
  | .stop touching bars :: rest =>
    (rest.any Mark.isRead = true ∨ bars (TokenKind.next (!touching) ks) = false) ∧ Admits ks rest
  | _ :: rest => Admits ks rest

theorem any_isRead_of_endInToken {marks : List Mark} (h : endInToken marks = true) :
    marks.any Mark.isRead = true := by
  induction marks with
  | nil => cases h
  | cons mark rest ih =>
      rw [endInToken, Bool.or_eq_true, Bool.and_eq_true] at h
      rw [List.any_cons, Bool.or_eq_true]
      rcases h with h | ⟨h, -⟩
      · exact .inr (ih h)
      · exact .inl h

/-- Marks that end in a token bar nothing behind it. -/
theorem admits_of_endInToken (ks : List TokenKind) {marks : List Mark}
    (h : endInToken marks = true) : Admits ks marks := by
  have hblank {rest : List Mark} (hall : rest.all Mark.isBlank = true) : Admits ks rest := by
    induction rest with
    | nil => trivial
    | cons mark rest ih =>
        rw [List.all_cons, Bool.and_eq_true] at hall
        cases mark with
        | blank => exact ih hall.2
        | _ => cases hall.1
  induction marks with
  | nil => cases h
  | cons mark rest ih =>
      rw [endInToken, Bool.or_eq_true, Bool.and_eq_true] at h
      rcases h with h | ⟨hread, hrest⟩
      · cases mark with
        | stop touching bars => exact ⟨.inl (any_isRead_of_endInToken h), ih h⟩
        | _ => exact ih h
      · cases mark with
        | token touching kind | keyword text =>
            have hadmits : Admits ks rest := hblank hrest
            exact hadmits
        | _ => cases hread

/-- Sound marks do not bar a closing parenthesis. -/
theorem admits_rightParen (ks : List TokenKind) {marks : List Mark}
    (h : ∀ mark ∈ marks, mark.isSound = true) : Admits (.symbol .rightParen :: ks) marks := by
  induction marks with
  | nil => trivial
  | cons mark rest ih =>
      obtain ⟨hmark, hrest⟩ := List.forall_mem_cons.mp h
      cases mark with
      | stop touching bars =>
          have hgap : TokenKind.Gap (!touching) [] := ⟨List.forall_mem_nil _, fun _ => rfl⟩
          have hnext : TokenKind.next (!touching) ([] ++ .symbol .rightParen :: ks) =
              .symbol .rightParen :=
            (TokenKind.next_gap hgap rfl).1
          refine ⟨.inr ?_, ih hrest⟩
          rw [List.nil_append] at hnext
          rw [hnext]
          simpa [Mark.isSound] using hmark
      | _ => exact ih hrest

namespace SpellsKinds

variable {marks : List Mark} {front ks ks' : List TokenKind}

/-- What is read in front of what is left stands in front of it. -/
theorem split_of_read {skip : Bool} (hfinish : TokenKind.next skip (front ++ ks) ≠ .finish)
    (h : SpellsKinds marks (TokenKind.past skip (front ++ ks)) ks) :
    ∃ gap front', TokenKind.Gap skip gap ∧
      front = gap ++ TokenKind.next skip (front ++ ks) :: front' ∧
      TokenKind.past skip (front ++ ks) = front' ++ ks := by
  obtain ⟨front', hfront'⟩ := h.exists_append
  obtain ⟨gap, hgap, hsplit⟩ := TokenKind.exists_of_next hfinish
  refine ⟨gap, front', hgap, ?_, hfront'⟩
  rw [hfront', ← List.cons_append, ← List.append_assoc] at hsplit
  exact List.append_cancel_right hsplit

/-- Marks without tokens take none. -/
theorem eq_of_not_read (h : SpellsKinds marks ks ks') (hread : marks.any Mark.isRead = false) :
    ks = ks' := by
  induction marks with
  | nil => exact h
  | cons mark rest ih =>
      rw [List.any_cons, Bool.or_eq_false_iff] at hread
      cases mark with
      | blank => exact ih h hread.2
      | stop touching bars => exact ih h.2 hread.2
      | token touching kind | keyword text => cases hread.1

/-- A word is no blank and not the end. -/
theorem isWord_proper {kind : TokenKind} {text : String} (h : kind.isKeyword text = true) :
    kind.isSpace = false ∧ kind ≠ .finish := by
  obtain ⟨w, rfl⟩ := Phrase.isWord_of_keyword h
  exact ⟨rfl, nofun⟩

theorem isSound_token {touching : Bool} {kind : TokenKind}
    (h : (Mark.token touching kind).isSound = true) : kind.isSpace = false ∧ kind ≠ .finish := by
  simpa [Mark.isSound] using h

/-- Marks with tokens among them take one that is no blank. -/
theorem exists_read (hsound : ∀ mark ∈ marks, mark.isSound = true)
    (h : SpellsKinds marks (front ++ ks) ks) (hread : marks.any Mark.isRead = true) :
    ∃ gap kind rest, (∀ kind ∈ gap, kind.isSpace = true) ∧ kind.isSpace = false ∧
      front = gap ++ kind :: rest := by
  induction marks with
  | nil => cases hread
  | cons mark rest ih =>
      obtain ⟨hmark, hrest⟩ := List.forall_mem_cons.mp hsound
      cases mark with
      | blank => exact ih hrest h hread
      | stop touching bars => exact ih hrest h.2 hread
      | token touching kind =>
          obtain ⟨hspace, hfinish⟩ := isSound_token hmark
          obtain ⟨rfl, hothers⟩ := h
          -- A token that is taken is among those in front of what is left.
          obtain ⟨gap, front', hgap, hfront, -⟩ := split_of_read hfinish hothers
          exact ⟨gap, _, front', hgap.1, hspace, hfront⟩
      | keyword text =>
          obtain ⟨hspace, hfinish⟩ := isWord_proper h.1
          obtain ⟨gap, front', hgap, hfront, -⟩ := split_of_read hfinish h.2
          exact ⟨gap, _, front', hgap.1, hspace, hfront⟩

/-- What has been taken is taken again, whatever stands behind it that is not barred. -/
theorem replay (hsound : ∀ mark ∈ marks, mark.isSound = true)
    (h : SpellsKinds marks (front ++ ks) ks) (hadmits : Admits ks' marks) :
    SpellsKinds marks (front ++ ks') ks' := by
  -- A token that is taken stands in `front`, with what the other marks take behind it.
  have htake {rest : List Mark} {front : List TokenKind} {skip : Bool}
      (hproper : (TokenKind.next skip (front ++ ks)).isSpace = false ∧
        TokenKind.next skip (front ++ ks) ≠ .finish)
      (hrest : SpellsKinds rest (TokenKind.past skip (front ++ ks)) ks)
      (ih : ∀ {front : List TokenKind}, SpellsKinds rest (front ++ ks) ks →
        SpellsKinds rest (front ++ ks') ks') :
      TokenKind.next skip (front ++ ks') = TokenKind.next skip (front ++ ks) ∧
        SpellsKinds rest (TokenKind.past skip (front ++ ks')) ks' := by
    obtain ⟨gap, front', hgap, hfront, hpast⟩ := split_of_read hproper.2 hrest
    rw [hpast] at hrest
    generalize TokenKind.next skip (front ++ ks) = kind at hproper hfront
    obtain ⟨hnext, hpast'⟩ : TokenKind.next skip (gap ++ kind :: (front' ++ ks')) = kind ∧
        TokenKind.past skip (gap ++ kind :: (front' ++ ks')) = front' ++ ks' :=
      TokenKind.next_gap hgap hproper.1
    rw [hfront, List.append_assoc, List.cons_append, hnext, hpast']
    exact ⟨rfl, ih hrest⟩
  induction marks generalizing front with
  | nil =>
      have hnil : front = [] := List.append_left_eq_self.mp h
      rw [hnil]
      rfl
  | cons mark rest ih =>
      obtain ⟨hmark, hrest⟩ := List.forall_mem_cons.mp hsound
      cases mark with
      | blank => exact ih hrest h hadmits
      | token touching kind =>
          obtain ⟨rfl, hothers⟩ := h
          exact htake (isSound_token hmark) hothers fun hfront => ih hrest hfront hadmits
      | keyword text =>
          obtain ⟨hword, hothers⟩ := h
          obtain ⟨hnext, hspells⟩ :=
            htake (isWord_proper hword) hothers fun hfront => ih hrest hfront hadmits
          refine ⟨?_, hspells⟩
          rw [hnext]
          exact hword
      | stop touching bars =>
          refine ⟨?_, ih hrest h.2 hadmits.2⟩
          -- A bar holds of the next token. If one of the marks behind takes a token, that is it in
          -- both streams; else it is the first of what stands behind.
          cases hread : rest.any Mark.isRead with
          | true =>
              obtain ⟨gap, kind, others, hgap, hkind, rfl⟩ := exists_read hrest h.2 hread
              rw [TokenKind.next_append hgap hkind (!touching) ks' ks]
              exact h.1
          | false =>
              have hnil : front = [] := List.append_left_eq_self.mp (h.2.eq_of_not_read hread)
              rw [hnil]
              exact hadmits.1.resolve_left (by simp [hread])

/-- Marks that begin with a token go past blanks in front of it. -/
theorem of_blanks {plain : Bool} {gap : List TokenKind} (hbegins : Phrase.Begins plain marks)
    (hgap : ∀ kind ∈ gap, kind.isSpace = true) (h : SpellsKinds marks (gap ++ ks) ks') :
    SpellsKinds marks ks ks' := by
  obtain ⟨hnext, hpast⟩ : TokenKind.next true (gap ++ ks) = TokenKind.next true ks ∧
      TokenKind.past true (gap ++ ks) = TokenKind.past true ks := TokenKind.next_blanks hgap
  cases marks with
  | nil => cases hbegins
  | cons mark rest =>
      cases mark with
      | token touching kind =>
          obtain ⟨rfl, -⟩ := hbegins
          obtain ⟨hkind, hrest⟩ := h
          exact ⟨hnext.symm.trans hkind, hpast ▸ hrest⟩
      | keyword text =>
          obtain ⟨hkind, hrest⟩ := h
          exact ⟨hnext ▸ hkind, hpast ▸ hrest⟩
      | blank | stop touching bars => cases hbegins

/-- Where marks take some tokens, the marks with parentheses around some of them take the tokens
with parentheses around those that these take. -/
theorem wrap {plain : Bool} {front inner back : List Mark}
    {before gap within after left : List TokenKind}
    (hfront : SpellsKinds front (before ++ (gap ++ (within ++ after))) (gap ++ (within ++ after)))
    (hinner : SpellsKinds inner (gap ++ (within ++ after)) after)
    (hback : SpellsKinds back after left)
    (hend : front = [] ∨ endInToken front = true) (hgap : ∀ kind ∈ gap, kind.isSpace = true)
    (hbegins : Phrase.Begins plain inner) (hsound : ∀ mark ∈ front ++ inner, mark.isSound = true) :
    SpellsKinds (front ++ (.symbol .leftParen :: inner ++ [.symbol .rightParen]) ++ back)
      (before ++ (gap ++ .symbol .leftParen :: (within ++ .symbol .rightParen :: after))) left := by
  rw [List.forall_mem_append] at hsound
  have hadmits (ks : List TokenKind) : Admits ks front := by
    rcases hend with rfl | hend
    · trivial
    · exact admits_of_endInToken ks hend
  have hopen (rest : List TokenKind) : SpellsKinds [.symbol .leftParen]
      (gap ++ .symbol .leftParen :: rest) rest := TokenKind.next_gap ⟨hgap, nofun⟩ rfl
  have hclose : SpellsKinds [.symbol .rightParen] (.symbol .rightParen :: after) after :=
    ⟨rfl, rfl⟩
  -- What is inside is taken again with the closing parenthesis behind it, and what is in front with
  -- the opening one behind it.
  have hwithin := (hinner.of_blanks hbegins hgap).replay hsound.2 (admits_rightParen after hsound.2)
  have hparens := ((hopen _).append hwithin).append hclose
  exact ((hfront.replay hsound.1 (hadmits _)).append hparens).append hback

end SpellsKinds

/-! ### Marks of phrases

A mark is sound if it takes no blank and not the end, and if what it bars is no closing parenthesis.
All marks of phrases are; for marks without parts this is a computation, so there is one lemma for
each kind of part that has others in it. -/

namespace Phrase

/-- What holds of the marks of parts and of a comma holds of the parts with commas between them. -/
theorem all_separated {p : Mark → Bool} {parts : List (List Mark)}
    (hcomma : p (.symbol .comma) = true) (h : ∀ marks ∈ parts, marks.all p = true) :
    (separated parts).all p = true := by
  induction parts with
  | nil => rfl
  | cons marks rest ih =>
      obtain ⟨hmarks, hrest⟩ := List.forall_mem_cons.mp h
      cases rest with
      | nil => exact hmarks
      | cons next rest =>
          rw [separated_cons _ (List.cons_ne_nil next rest), List.all_append, List.all_cons, hmarks,
            hcomma, ih hrest]
          rfl

theorem all_isSound_operator (op : Operator) : op.marks.all Mark.isSound = true := by
  rcases op with ⟨op⟩ | ⟨quantifier, op⟩ | op
  · cases op with
    | arithmetic op => rfl
    | comparison op => cases op <;> rfl
  · cases op <;> rfl
  · rfl

theorem all_isSound_field (touching : Bool) (field : FieldName) :
    (field.marks touching).all Mark.isSound = true := by
  cases field <;> rfl

theorem all_isSound_start (start : PathStart) : start.marks.all Mark.isSound = true := by
  rcases start with ⟨_ | _, _ | field⟩ | name
  case sigil.document.some | sigil.current.some => exact all_isSound_field false field
  all_goals rfl

section

variable {ν : Type} {m : ν → List Mark}

theorem all_isSound_step {w : WrittenStep ν}
    (h : ∀ part ∈ w.children, (m part).all Mark.isSound = true) :
    (stepMarks m w).all Mark.isSound = true := by
  cases w with
  | member field => exact all_isSound_field true field
  | place negative digits => cases negative <;> rfl
  | all => rfl
  | part part =>
      have hpart := h part (List.mem_singleton_self part)
      simp [stepMarks, hpart, Mark.isSound, TokenKind.isSpace]

theorem all_isSound_behind (isParameter : ν → Bool) (ws : List (WrittenStep ν))
    {behind : Option ν} (h : ∀ part ∈ behind, (m part).all Mark.isSound = true) :
    (behindMarks isParameter m ws behind).all Mark.isSound = true := by
  cases behind with
  | none =>
      unfold behindMarks
      dsimp only
      split <;> rfl
  | some behind => exact h behind rfl

theorem all_isSound_entry {entry : EntryName × Option ν}
    (h : ∀ part ∈ entry.2, (m part).all Mark.isSound = true) :
    (entryMarks m entry).all Mark.isSound = true := by
  obtain ⟨key, value⟩ := entry
  have hkey : key.mark.isSound = true := by cases key <;> rfl
  cases value with
  | none => simp [entryMarks, hkey]
  | some value =>
      have hvalue := h value rfl
      simp only [entryMarks, List.cons_append, List.nil_append, List.all_cons, hkey, hvalue]
      rfl

theorem all_isSound_sequence (name : String) {source part : ν} {behind : List Mark}
    (hsource : (m source).all Mark.isSound = true) (hpart : (m part).all Mark.isSound = true)
    (hbehind : behind.all Mark.isSound = true) :
    (sequenceMarks m name source part behind).all Mark.isSound = true := by
  simp only [sequenceMarks, List.all_append, hsource, hpart, hbehind]
  rfl

/-- The marks of a layer are sound if those of its parts are. In each case the parts of that layer
are told apart in `h`, and the marks around them are computed. -/
theorem all_isSound_layer (isParameter : ν → Bool) {layer : Layer ν}
    (h : ∀ part ∈ layer.children, (m part).all Mark.isSound = true) :
    (layer.marks isParameter m).all Mark.isSound = true := by
  cases layer with
  | number negative isDouble text => cases negative <;> cases isDouble <;> rfl
  | truth b | null | string s => rfl
  | parameter isInt name => cases isInt <;> rfl
  | documents selector =>
      cases selector with
      | none => rfl
      | some selector => exact h selector (List.mem_singleton_self selector)
  | document entries =>
      have hentries : (separated (entries.map (entryMarks m))).all Mark.isSound = true := by
        refine all_separated rfl (List.forall_mem_map.mpr fun entry hentry => ?_)
        exact all_isSound_entry fun part hpart =>
          h part (List.mem_flatMap.mpr ⟨entry, hentry, Option.mem_toList.mpr hpart⟩)
      simp only [Layer.marks, List.cons_append, List.all_cons, List.all_append, hentries]
      rfl
  | array items =>
      have hitems : (separated (items.map m)).all Mark.isSound = true :=
        all_separated rfl (List.forall_mem_map.mpr h)
      simp only [Layer.marks, List.cons_append, List.all_cons, List.all_append, hitems]
      rfl
  | path start ws behind =>
      -- Parts stand in the steps of a path and behind it.
      have hsteps : (ws.flatMap (stepMarks m)).all Mark.isSound = true := by
        rw [List.all_flatMap, List.all_eq_true]
        exact fun w hw => all_isSound_step fun part hpart =>
          h part (List.mem_append_left _ (List.mem_flatMap.mpr ⟨w, hw, hpart⟩))
      have hbehind : (behindMarks isParameter m ws behind).all Mark.isSound = true :=
        all_isSound_behind isParameter ws fun part hpart =>
          h part (List.mem_append_right _ (Option.mem_toList.mpr hpart))
      simp only [Layer.marks, List.all_append, all_isSound_start, hsteps, hbehind]
      rfl
  | map source part | filter source part =>
      obtain ⟨hsource, hrest⟩ := List.forall_mem_cons.mp h
      exact all_isSound_sequence _ hsource (hrest part (List.mem_singleton_self part)) rfl
  | sort source key order =>
      obtain ⟨hsource, hrest⟩ := List.forall_mem_cons.mp h
      obtain ⟨hkey, horder⟩ := List.forall_mem_cons.mp hrest
      cases order with
      | none => exact all_isSound_sequence _ hsource hkey rfl
      | some order =>
          exact all_isSound_sequence _ hsource hkey (horder order (List.mem_singleton_self order))
  | call name site args =>
      have hargs : (separated (args.map m)).all Mark.isSound = true :=
        all_separated rfl (List.forall_mem_map.mpr h)
      simp only [Layer.marks, List.all_append, hargs]
      rfl
  | parens inner =>
      have hinner := h inner (List.mem_singleton_self inner)
      simp only [Layer.marks, List.cons_append, List.all_cons, List.all_append, hinner]
      rfl
  | joined first tail =>
      obtain ⟨hfirst, htail⟩ := List.forall_mem_cons.mp h
      -- Each operator is in front of one of the parts behind the first.
      have hentries : (tail.flatMap (tailMarks m)).all Mark.isSound = true := by
        rw [List.all_flatMap, List.all_eq_true]
        intro entry hentry
        rw [tailMarks, List.all_append, all_isSound_operator,
          htail _ (List.mem_map_of_mem hentry)]
        rfl
      rw [Layer.marks, List.all_append, hfirst, hentries]
      rfl
  | bounds lower upper =>
      obtain ⟨hlower, hrest⟩ := List.forall_mem_cons.mp h
      have hupper := hrest upper (List.mem_singleton_self upper)
      simp only [Layer.marks, List.all_append, hlower, hupper]
      rfl

end

/-- The marks of a phrase are sound. -/
theorem isSound_marks (e : Phrase) : ∀ mark ∈ e.marks, mark.isSound = true := by
  rw [← List.all_eq_true]
  induction e using Phrase.induction with
  | step e ih =>
      rw [marks_eq]
      exact all_isSound_layer _ ih

end Phrase

end DocQuery
