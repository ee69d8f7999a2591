import DocQuery.Proofs.CallSites
import DocQuery.Proofs.Comparisons
import DocQuery.Proofs.Draws
import DocQuery.Proofs.Insertion
import DocQuery.Proofs.Pieces
import DocQuery.Proofs.Rereading
/-!
# DocQuery.Proofs.Parentheses

Parentheses that say nothing new. A text that is parsed has been read as a phrase, and every part
of the phrase has been read from a piece of the text. With parentheses around that piece the text
is parsed as well, what is known of the expression stays known but for its text, and on both
backends it is evaluated as before (`parse_parenthesized`).
-/

namespace DocQuery

/-! ### Expressions that are evaluated alike -/

theorem Node.usesSort_unsited (n : Node) : n.unsited.usesSort = n.usesSort := by
  induction n using Node.induction with
  | step n ih =>
      obtain ⟨info, form⟩ := n
      have hparts : (form.mapParts unsited).eraseSite.children.any usesSort =
          form.children.any usesSort := by
        rw [Form.children_eraseSite, Form.children_mapParts, List.any_map, Bool.eq_iff_iff,
          List.any_eq_true, List.any_eq_true]
        refine exists_congr fun part => and_congr_right fun hpart => ?_
        rw [Function.comp_apply, ih part hpart]
      rw [unsited_mk, usesSort_eq, usesSort_eq]
      refine congrArg₂ or ?_ hparts
      cases form <;> rfl

namespace Expression

/-- What a backend makes of the expression, or why it refuses it. -/
def compile (backend : Backend) (n : Node) (parameters : Document) : Except Error Expression :=
  match backend.build n with
  | .ok program => .ok (ofNode backend n program parameters)
  | .error error => .error ⟨.eval error, n.source⟩

/-- Two expressions are evaluated alike where the same numbers are drawn for the calls of
generators in the one and in the other, one after the other: they yield the same values, and errors
of the same kind. Whatever is drawn for the one can be drawn for the other. -/
structure Alike (e e' : Expression) : Prop where
  redraw : ∀ draw : Nat → Option Value → Nat, ∃ draw',
    e.node.sites.map draw = e'.node.sites.map draw'
  redraw_symm : ∀ draw' : Nat → Option Value → Nat, ∃ draw,
    e.node.sites.map draw = e'.node.sites.map draw'
  execute : ∀ ctx draw, e.node.sites.map ctx.ambient.draw = e'.node.sites.map draw →
    AgreeAll EvalError.SameKind (e.execute ctx) (e'.execute (ctx.redraw draw))
  executeScalar : ∀ ctx draw, e.node.sites.map ctx.ambient.draw = e'.node.sites.map draw →
    ∃ value value', Agree EvalError.SameKind value value' ∧
      e.executeScalar ctx = value.mapError e.error ∧
      e'.executeScalar (ctx.redraw draw) = value'.mapError e'.error

/-- Expressions are made that are evaluated alike, or none for the same cause. -/
inductive AlikeMade : Except Error Expression → Except Error Expression → Prop where
  | ok {e e' : Expression} (h : e.Alike e') : AlikeMade (.ok e) (.ok e')
  | error (cause : Cause) (code code' : String) :
      AlikeMade (.error ⟨cause, code⟩) (.error ⟨cause, code'⟩)

end Expression

/-- The two expressions are the same to a backend, but for the texts that errors name and for the
offsets at which generators are called. -/
structure Node.Corresponds (n m : Node) : Prop where
  usesSort : m.usesSort = n.usesSort
  redraw : ∀ draw : Nat → Option Value → Nat, ∃ draw', n.sites.map draw = m.sites.map draw'
  redraw_symm : ∀ draw' : Nat → Option Value → Nat, ∃ draw, n.sites.map draw = m.sites.map draw'
  redrawn : ∀ {draw draw'}, n.sites.map draw = m.sites.map draw' → Node.Redrawn draw draw' n m

namespace Expression

variable {n m : Node} (h : n.Corresponds m) (hn : n.Disciplined) (hm : m.Disciplined)

include h hn hm

theorem alike_ofNode {backend : Backend} {program program' : Program}
    (hprogram : backend.build n = .ok program) (hprogram' : backend.build m = .ok program')
    (parameters : Document) :
    (ofNode backend n program parameters).Alike (ofNode backend m program' parameters) where
  redraw := h.redraw
  redraw_symm := h.redraw_symm
  execute ctx draw hdraw := by
    rw [execute_of_build _ _ hn hprogram, execute_of_build _ _ hm hprogram']
    exact (h.redrawn hdraw).values ctx _ ⟨rfl, rfl⟩
  executeScalar ctx draw hdraw :=
    ⟨_, _, (h.redrawn hdraw).scalar ctx _ ⟨rfl, rfl⟩, executeScalar_of_build _ _ hn hprogram,
      executeScalar_of_build _ _ hm hprogram'⟩

/-- What corresponds is made into expressions that are evaluated alike. -/
theorem alikeMade_compile (backend : Backend) (parameters : Document) :
    AlikeMade (compile backend n parameters) (compile backend m parameters) := by
  unfold compile
  cases hprogram : backend.build n with
  | ok program =>
      obtain ⟨program', hprogram'⟩ := (Backend.exists_build hm).mpr fun hfunctions =>
        h.usesSort.trans ((Backend.exists_build hn).mp ⟨program, hprogram⟩ hfunctions)
      rw [hprogram']
      exact .ok (alike_ofNode h hn hm hprogram hprogram' parameters)
  | error error =>
      -- Only sorting is refused, where it is to be made into functions, and both expressions sort.
      cases backend with
      | instructions => cases hprogram
      | functions =>
          rw [Backend.build, Node.plan_eq hn, Node.planned] at hprogram
          rw [Backend.build, Node.plan_eq hm, Node.planned, h.usesSort]
          cases hsort : n.usesSort with
          | false =>
              rw [hsort] at hprogram
              cases hprogram
          | true =>
              rw [hsort] at hprogram
              cases hprogram
              exact .error _ _ _

end Expression

namespace Node

variable {n m m' : Node}

/-- What may stand in the place of an expression may do so with other offsets. -/
theorem Substitutes.redrawn (h : n.Substitutes m) (hm : m'.unsited = m.unsited)
    {draw draw' : Nat → Option Value → Nat} (hdraw : n.sites.map draw = m'.sites.map draw') :
    Redrawn draw draw' n m' := by
  have houtline : m.outline = m'.outline := by rw [← m.outline_unsited, ← hm, m'.outline_unsited]
  -- On the way to `m` the same is drawn at the same offsets, from there on the offsets change.
  have hagain : Redrawn draw draw' m m' := by
    refine redrawn_of_outline houtline ?_
    rw [h.sites]
    exact hdraw
  exact ⟨h.isScalar.trans hagain.isScalar, h.pattern.trans hagain.pattern,
    fun c c' hc => (h.scalar c).trans (fun _ _ _ => .trans) (hagain.scalar c c' hc),
    fun c c' hc => (h.values c).trans (fun _ _ _ => .trans) (hagain.values c c' hc)⟩

theorem Substitutes.corresponds (h : n.Substitutes m) : n.Corresponds m where
  usesSort := h.usesSort
  redraw draw := ⟨draw, by rw [h.sites]⟩
  redraw_symm draw := ⟨draw, by rw [h.sites]⟩
  redrawn := h.redrawn rfl

/-- Offsets that are all different can be told from one another wherever they are. -/
theorem Substitutes.corresponds_of_unsited (h : n.Substitutes m) (hm : m'.unsited = m.unsited)
    (hsites : n.sites.Nodup) (hsites' : m'.sites.Nodup) : n.Corresponds m' := by
  have hlength : n.sites.length = m'.sites.length := by
    rw [← h.sites, ← length_sites_outline, ← outline_unsited, ← hm, outline_unsited,
      length_sites_outline]
  refine ⟨?_, exists_redraw hlength hsites', fun draw' => ?_, h.redrawn hm⟩
  · rw [← m'.usesSort_unsited, hm, m.usesSort_unsited, h.usesSort]
  · obtain ⟨draw, hdraw⟩ := exists_redraw hlength.symm hsites draw'
    exact ⟨draw, hdraw.symm⟩

/-- What may be read in the place of an expression has everything in common with it that is known
of the two, but for the text. -/
theorem Replaces.info_eq (h : n.Replaces m) (hm : m'.unsited = m.unsited) :
    m'.info = { n.info with source := m'.source } := by
  have hinfo : m'.info = m.info := by rw [← m'.info_unsited, hm, m.info_unsited]
  have hscalar : m.info.isScalar = n.info.isScalar := h.isScalar.symm
  change m'.info = { n.info with source := m'.info.source }
  dsimp only
  rw [hinfo, ← h.type, ← hscalar, ← h.isImmutable, ← h.usesSource, ← h.fields]

end Node

/-! ### Readings -/

/-- Whether tokens are as marked can be decided. -/
instance Spells.decidable :
    (marks : List Mark) → (s s' : TokenStream) → Decidable (Spells marks s s')
  | [], s, s' => inferInstanceAs (Decidable (s = s'))
  | .token touching _ :: rest, s, s' =>
    have := decidable rest (s.advance (!touching)) s'
    inferInstanceAs (Decidable (_ ∧ _))
  | .keyword _ :: rest, s, s' =>
    have := decidable rest (s.advance true) s'
    inferInstanceAs (Decidable (_ ∧ _))
  | .blank :: rest, s, s' => decidable rest s s'
  | .stop _ _ :: rest, s, s' =>
    have := decidable rest s s'
    inferInstanceAs (Decidable (_ ∧ _))

/-- The tokens between two places are read as the phrase in this mode: a term by itself, or terms
joined by operators with nothing behind them. -/
structure Phrase.ReadsIn (mode : ParseMode) (e : Phrase) (scope : Scope) (n : Node)
    (s s' : TokenStream) : Prop extends e.Reads scope n s s' where
  isBounds : e.isBounds = false
  isTerm : mode = .single → e.isTerm = true
  isExhausted : mode = .full → s'.isExhausted = true

/-- A text that is parsed has been read as some phrase. -/
theorem exists_readsIn {code : String} {scope : Scope} {mode : ParseMode} {n : Node}
    (h : parse code scope mode = .ok n) :
    ∃ s s' e, TokenStream.ofText code = .ok s ∧ Phrase.ReadsIn mode e scope n s s' := by
  cases mode with
  | full =>
      obtain ⟨s, s', e, hs, hclass, hread, hend⟩ := parse_reads h
      exact ⟨s, s', e, hs, hread, hclass, by simp, hend⟩
  | single =>
      obtain ⟨s, s', hs, hrun⟩ := parse_ok.mp h
      simp only [Parser.inMode, Parser.single, Parser.bind_ok, Parser.remaining_ok] at hrun
      obtain ⟨_, _, ⟨rfl, rfl⟩, hterm⟩ := hrun
      obtain ⟨e, he, hread⟩ := Parser.termUpTo_reads _ (TokenStream.ended_of_text hs) hterm
      exact ⟨s, s', e, hs, hread, Phrase.isBounds_of_isTerm he, fun _ => he, by simp⟩

/-- Where the tokens between `s` and `s'` spell the frame with this part in it, those between `u`
and `u'` spell the part. -/
def Phrase.Frame.Holds (frame : Phrase.Frame) (part : Phrase) (s u u' s' : TokenStream) : Prop :=
  ∃ front back, (front = [] ∨ endInToken front = true) ∧
    (∀ p : Phrase, p.isParameter = part.isParameter →
      (frame.fill p).marks = front ++ p.marks ++ back) ∧
    Spells front s u ∧ Spells part.marks u u' ∧ Spells back u' s'

theorem Phrase.Frame.exists_holds {frame : Phrase.Frame} {part : Phrase} {s s' : TokenStream}
    (h : Spells (frame.fill part).marks s s') : ∃ u u', frame.Holds part s u u' s' := by
  obtain ⟨front, back, hend, hmarks⟩ := frame.exists_marks part
  rw [hmarks part rfl] at h
  obtain ⟨u', h, hback⟩ := Spells.append_iff.mp h
  obtain ⟨u, hfront, hpart⟩ := Spells.append_iff.mp h
  exact ⟨u, u', front, back, hend, hmarks, hfront, hpart, hback⟩

/-! ### Tokens of a part -/

theorem TokenStream.exists_rest_advance (s : TokenStream) (skip : Bool) {taken left : List Token}
    (h : (s.advance skip).ahead = taken ++ left) : ∃ taken', s.rest skip = taken' ++ left := by
  have htail : (s.rest skip).tail = taken ++ left := h
  cases hrest : s.rest skip with
  | nil =>
      rw [hrest] at htail
      exact ⟨taken, htail⟩
  | cons t others =>
      rw [hrest] at htail
      exact ⟨t :: taken, congrArg (t :: ·) htail⟩

/-- The tokens that marks take stand in front of those that are left. -/
theorem Spells.exists_ahead {marks : List Mark} {s s' : TokenStream} (h : Spells marks s s') :
    ∃ taken, s.ahead = taken ++ s'.ahead := by
  induction marks generalizing s with
  | nil => exact ⟨[], congrArg TokenStream.ahead h⟩
  | cons mark rest ih =>
      cases mark with
      | blank => exact ih h
      | stop touching bars => exact ih h.2
      | token touching kind | keyword text =>
          obtain ⟨taken, htaken⟩ := ih h.2
          obtain ⟨taken', htaken'⟩ := s.exists_rest_advance _ htaken
          obtain ⟨gap, -, hgap⟩ := s.exists_ahead_rest _
          exact ⟨gap ++ taken', by rw [List.append_assoc, ← htaken', ← hgap]⟩

/-- The tokens of a phrase begin behind the blanks. -/
theorem Phrase.exists_rest {e : Phrase} {s s' : TokenStream} (h : Spells e.marks s s') :
    ∃ taken, s.rest true = taken ++ s'.ahead := by
  have hbegins := e.begins_marks
  cases hmarks : e.marks with
  | nil =>
      rw [hmarks] at hbegins
      cases hbegins
  | cons mark rest =>
      rw [hmarks] at h hbegins
      cases mark with
      | token touching kind =>
          obtain ⟨rfl, -⟩ := hbegins
          obtain ⟨taken, htaken⟩ := h.2.exists_ahead
          exact s.exists_rest_advance true htaken
      | keyword text =>
          obtain ⟨taken, htaken⟩ := h.2.exists_ahead
          exact s.exists_rest_advance true htaken
      | blank | stop touching bars => cases hbegins

theorem TokenStream.peek_mem (s : TokenStream) (skip : Bool) :
    s.peek skip ∈ (s.rest skip ++ [s.finish]).head? := by
  unfold peek
  cases s.rest skip <;> rfl

/-- Whether anything is left to be read is told by the kinds of the tokens. -/
theorem TokenStream.isExhausted_iff {s : TokenStream} (hs : s.Ended) :
    s.isExhausted = true ↔ TokenKind.next true s.kinds = .finish := by
  rw [isExhausted, Token.isFinish_iff, kind_peek hs]

/-! ### Parentheses in a text -/

/-- A text is parted in one way where its first piece has so many bytes. -/
theorem Text.append_inj_of_bytes {a a' b b' : List Char} (h : a ++ b = a' ++ b')
    (hbytes : bytes a = bytes a') : a = a' ∧ b = b' := by
  have hnil {rest : List Char} (hrest : bytes rest = 0) : rest = [] :=
    by_contra fun hne => absurd hrest (Nat.pos_iff_ne_zero.mp (bytes_pos hne))
  rcases List.append_eq_append_iff.mp h with ⟨rest, rfl, rfl⟩ | ⟨rest, rfl, rfl⟩
  · rw [bytes_append] at hbytes
    obtain rfl : rest = [] := hnil (by omega)
    simp
  · rw [bytes_append] at hbytes
    obtain rfl : rest = [] := hnil (by omega)
    simp

/-- The text is these three pieces, and the one in the middle is what the part in the frame has been
read from: it begins with the first token of the part and ends with the last one. -/
def Phrase.Frame.Places (frame : Phrase.Frame) (part : Phrase) (code : String)
    (s s' : TokenStream) (a t b : List Char) : Prop :=
  ∃ u u', frame.Holds part s u u' s' ∧ code.toList = a ++ t ++ b ∧
    Text.bytes a = (u.peek true).range.start.offset ∧
    Text.bytes (a ++ t) = (u'.peek false).range.start.offset

/-- The text of three pieces, with parentheses around the one in the middle. -/
def parenthesized (a t b : List Char) : String := String.ofList (a ++ '(' :: t ++ ')' :: b)

/-- A part has been read from tokens in the midst of the others, and with parentheses around these
tokens, they are the frame with the part in parentheses. -/
theorem Phrase.Frame.Holds.exists_tokens {frame : Phrase.Frame} {part : Phrase}
    {s u u' s' : TokenStream} (h : frame.Holds part s u u' s') (hs : s.Ended) :
    ∃ front inner, s.ahead = front ++ (inner ++ u'.ahead) ∧ u.rest true = inner ++ u'.ahead ∧
      SpellsKinds (frame.fill (.mk (.parens part))).marks
        (front.map Token.kind ++ .symbol .leftParen :: inner.map Token.kind ++
          .symbol .rightParen :: u'.kinds) s'.kinds := by
  obtain ⟨front, back, hend, hmarks, hfront, hpart, hback⟩ := h
  obtain ⟨before, hbefore⟩ := hfront.exists_ahead
  -- Blanks in front of the part stay outside of the parentheses.
  obtain ⟨gap, hgap, hrest⟩ := u.exists_ahead_rest true
  obtain ⟨inner, hinner⟩ := Phrase.exists_rest hpart
  have hu := hfront.ended hs
  have hkinds : u.kinds = gap.map Token.kind ++ (inner.map Token.kind ++ u'.kinds) := by
    rw [TokenStream.kinds, hrest, hinner, List.map_append, List.map_append]
    rfl
  have hkinds' : s.kinds = before.map Token.kind ++ u.kinds := by
    rw [TokenStream.kinds, hbefore, List.map_append]
    rfl
  refine ⟨before ++ gap, inner, ?_, hinner, ?_⟩
  · rw [hbefore, hrest, hinner, List.append_assoc]
  · have hfront' := SpellsKinds.of_spells hs hfront
    have hpart' := SpellsKinds.of_spells hu hpart
    rw [hkinds', hkinds] at hfront'
    rw [hkinds] at hpart'
    have hspace : ∀ kind ∈ gap.map Token.kind, kind.isSpace = true :=
      List.forall_mem_map.mpr fun t ht => hgap t ht
    have hsound : ∀ mark ∈ front ++ part.marks, mark.isSound = true := by
      have hall := (frame.fill part).isSound_marks
      rw [hmarks part rfl] at hall
      exact fun mark hmark => hall mark (List.mem_append_left back hmark)
    -- The marks are spelt by the kinds of the tokens, with two more of them around the part.
    have hwrap := hfront'.wrap hpart' (SpellsKinds.of_spells (hpart.ended hu) hback) hend hspace
      part.begins_marks hsound
    have hparens : (Phrase.mk (.parens part)).marks =
        .symbol .leftParen :: part.marks ++ [.symbol .rightParen] := marks_eq _
    rw [hmarks _ (isParameter_eq _), hparens]
    simpa using hwrap

section

variable {frame : Phrase.Frame} {part : Phrase} {code : String} {mode : ParseMode} {scope : Scope}
variable {n : Node} {s s' : TokenStream} (hs : TokenStream.ofText code = .ok s)
variable (hread : (frame.fill part).ReadsIn mode scope n s s') (hclass : part.isBounds = false)

include hs hread hclass

/-- Between some places of the text a part of it stands, and with parentheses around it the text is
parsed into what may be read in the place of the expression. -/
theorem Phrase.Frame.Holds.exists_parenthesized {u u' : TokenStream}
    (h : frame.Holds part s u u' s') :
    ∃ a t b, code.toList = a ++ t ++ b ∧ Text.bytes a = (u.peek true).range.start.offset ∧
      Text.bytes (a ++ t) = (u'.peek false).range.start.offset ∧
      ∃ n' m, parse (parenthesized a t b) scope mode = .ok n' ∧ n.Replaces m ∧
        n'.unsited = m.unsited := by
  have hended := TokenStream.ended_of_text hs
  obtain ⟨front, inner, hahead, hinner, hkinds⟩ := h.exists_tokens hended
  obtain ⟨_, _, -, -, hfront, hpart, -⟩ := h
  obtain ⟨a, t, b, htext, hstart, hstop, w, hw, hwkinds⟩ := TokenStream.exists_wrapped hs hahead
  have hended' := TokenStream.ended_of_text hw
  refine ⟨a, t, b, htext, ?_, ?_, ?_⟩
  · refine (hstart _ ?_).symm
    rw [← hinner, ← hfront.finish_eq]
    exact u.peek_mem true
  · refine (hstop _ ?_).symm
    rw [← hfront.finish_eq, ← hpart.finish_eq]
    exact u'.peek_mem false
  · have hparens := frame.replaces (.parens (Frame.wellFormed_part hread.wellFormed) hclass)
    obtain ⟨m, hm, hreplaces⟩ := hparens.reads scope n hread.node
    have hwrapped : w.kinds = front.map Token.kind ++ .symbol .leftParen :: inner.map Token.kind ++
        .symbol .rightParen :: u'.kinds := hwkinds
    rw [← hwrapped] at hkinds
    -- What the tokens spell is told by their kinds, so the phrase in parentheses is what they
    -- spell, although they stand in other places.
    obtain ⟨w', hspells, hleft⟩ := SpellsKinds.exists_spells hended' hkinds
    have hend (hfull : mode = .full) : w'.isExhausted = true := by
      have hend := hread.isExhausted hfull
      rw [TokenStream.isExhausted_iff (hread.ended hended)] at hend
      rwa [TokenStream.isExhausted_iff (hspells.ended hended'), hleft]
    obtain ⟨n', hparse, hunsited⟩ := parse_of_spells hw (hparens.wellFormed hread.wellFormed)
      (hparens.isBounds.trans hread.isBounds) (fun h => hparens.isTerm (hread.isTerm h)) hspells
      hend hm
    exact ⟨n', m, hparse, hreplaces, hunsited⟩

/-- Every part has been read from a piece of the text. -/
theorem Phrase.Frame.exists_places : ∃ a t b, frame.Places part code s s' a t b := by
  obtain ⟨u, u', hholds⟩ := Phrase.Frame.exists_holds hread.spells
  obtain ⟨a, t, b, htext, hstart, hstop, -⟩ := hholds.exists_parenthesized hs hread hclass
  exact ⟨a, t, b, u, u', hholds, htext, hstart, hstop⟩

theorem Phrase.Frame.Places.exists_parenthesized {a t b : List Char}
    (h : frame.Places part code s s' a t b) :
    ∃ n' m, parse (parenthesized a t b) scope mode = .ok n' ∧ n.Replaces m ∧
      n'.unsited = m.unsited := by
  obtain ⟨u, u', hholds, htext, hstart, hstop⟩ := h
  obtain ⟨a', t', b', htext', hstart', hstop', hparse⟩ :=
    hholds.exists_parenthesized hs hread hclass
  obtain ⟨heq, rfl⟩ := Text.append_inj_of_bytes (htext.symm.trans htext') (hstop.trans hstop'.symm)
  obtain ⟨rfl, rfl⟩ := Text.append_inj_of_bytes heq (hstart.trans hstart'.symm)
  exact hparse

end

/-- A path of one value is made a sequence by a step more, and in parentheses by a call. The two
yield the same elements on both backends. -/
theorem Node.alikeMade_asSequence {path : Node} (hpath : path.Disciplined)
    (hopen : path.isOpenPath = true) (hscalar : path.isScalar = true) :
    path.asSequence = path.widened .items ∧
      path.parenthesized.asSequence = path.parenthesized.itemsCall ∧
      ∀ backend parameters, Expression.AlikeMade
        (Expression.compile backend path.asSequence parameters)
        (Expression.compile backend path.parenthesized.asSequence parameters) := by
  have hsubstitutes := path.substitutes_parenthesized.asSequence
  refine ⟨?_, ?_, fun backend parameters => ?_⟩
  · obtain ⟨info, root, steps, rfl⟩ := exists_of_isOpenPath hopen
    rw [asSequence, if_pos hscalar, spread_of_isOpenPath hopen]
  · rw [asSequence, if_pos (path.isScalar_parenthesized.trans hscalar),
      spread_of_not_isOpenPath path.isOpenPath_parenthesized]
  · exact Expression.alikeMade_compile hsubstitutes.corresponds hpath.asSequence
      hpath.parenthesized.asSequence backend parameters

/-- Parentheses around a part of an expression change nothing but the text. A text that is parsed
has been read as some phrase, and every part of such a phrase from a piece of the text. With
parentheses around the piece it is parsed into an expression of which the same is known and which
is evaluated alike. A path of one value is the same sequence in parentheses and without them,
although it is made one in two ways, by a step and by a call of `ITEMS`. -/
theorem parse_parenthesized {code : String} {options : CompileOptions} {n : Node}
    (h : parse code options.scope options.mode = .ok n) :
    (∃ s s' e, TokenStream.ofText code = .ok s ∧
      Phrase.ReadsIn options.mode e options.scope n s s') ∧
    (∀ (s s' : TokenStream) (frame : Phrase.Frame) (part : Phrase),
      TokenStream.ofText code = .ok s →
      (frame.fill part).ReadsIn options.mode options.scope n s s' → part.isBounds = false →
      (∃ a t b, frame.Places part code s s' a t b) ∧
      ∀ a t b, frame.Places part code s s' a t b →
        ∃ n', parse (parenthesized a t b) options.scope options.mode = .ok n' ∧
          n'.info = { n.info with source := n'.source } ∧
          ∀ backend, Expression.AlikeMade (Expression.build backend code options)
            (Expression.build backend (parenthesized a t b) options)) ∧
    ∀ path : Node, path.Disciplined → path.isOpenPath = true → path.isScalar = true →
      path.asSequence = path.widened .items ∧
        path.parenthesized.asSequence = path.parenthesized.itemsCall ∧
        ∀ backend parameters, Expression.AlikeMade
          (Expression.compile backend path.asSequence parameters)
          (Expression.compile backend path.parenthesized.asSequence parameters) := by
  refine ⟨exists_readsIn h, fun s s' frame part hs hread hclass => ?_,
    fun path hpath hopen hscalar => Node.alikeMade_asSequence hpath hopen hscalar⟩
  refine ⟨Phrase.Frame.exists_places hs hread hclass, fun a t b hplaces => ?_⟩
  obtain ⟨n', m, hparse, hreplaces, hunsited⟩ := hplaces.exists_parenthesized hs hread hclass
  -- Offsets move by the two characters, and draws go by the order of the calls, which is the same.
  have hcorresponds := hreplaces.corresponds_of_unsited hunsited
    ((sites_ascend h).imp Nat.ne_of_lt) ((sites_ascend hparse).imp Nat.ne_of_lt)
  refine ⟨n', hparse, hreplaces.info_eq hunsited, fun backend => ?_⟩
  rw [Expression.build_of_parse h, Expression.build_of_parse hparse]
  exact Expression.alikeMade_compile hcorresponds (disciplined_of_parse h)
    (disciplined_of_parse hparse) backend options.parameters

open Phrase in
/-- The field that a `MAP` goes through, with parentheses and without them. -/
theorem parse_parenthesized_map : ∃ n n', parse "MAP(a=>@)" .root .full = .ok n ∧
    parse "MAP((a)=>@)" .root .full = .ok n' ∧ n'.info = { n.info with source := n'.source } ∧
    (∀ backend, Expression.AlikeMade (Expression.build backend "MAP(a=>@)" {})
      (Expression.build backend "MAP((a)=>@)" {})) ∧
    ∀ backend parameters, Expression.AlikeMade
      (Expression.compile backend (Node.shorthand "a").asSequence parameters)
      (Expression.compile backend (Node.shorthand "a").parenthesized.asSequence parameters) := by
  let part : Phrase := .mk (.path (.bare "a") [] none)
  let selector : Phrase := .mk (.path (.sigil .current none) [] none)
  let frame : Frame := [⟨.map none (some selector), [], [selector], rfl⟩]
  let front : List Mark := [.keyword "MAP", .symbol .leftParen]
  let back : List Mark := [.symbol .arrow] ++ selector.marks ++ [.symbol .rightParen]
  have hmarks (p : Phrase) : (frame.fill p).marks = front ++ p.marks ++ back := by
    refine (marks_eq _).trans ?_
    simp [frame, front, back, Frame.fill, Gap.fill, Phrase.layer, Layer.mapParts, Layer.marks,
      sequenceMarks]
  have hchecked : ((TokenStream.ofText "MAP(a=>@)").toOption.map fun s =>
      let u := (s.advance true).advance true
      let u' := u.advance true
      let s' := ((u'.advance true).advance true).advance true
      decide (Spells front s u) && decide (Spells part.marks u u') && decide (Spells back u' s') &&
        s'.isExhausted && (u.peek true).range.start.offset == 4 &&
        (u'.peek false).range.start.offset == 5) = some true := by
    decide +kernel
  obtain ⟨s, hsome, hall⟩ := Option.map_eq_some_iff.mp hchecked
  have hs := Precedence.toOption_eq_some.mp hsome
  extract_lets u u' s' at hall
  simp only [Bool.and_eq_true, decide_eq_true_eq, beq_iff_eq] at hall
  obtain ⟨⟨⟨⟨⟨hfront, hpart⟩, hback⟩, hend⟩, hstart⟩, hstop⟩ := hall
  have hspells : Spells (frame.fill part).marks s s' := by
    rw [hmarks]
    exact (hfront.append hpart).append hback
  have hwfPath : ∀ start : PathStart, start = .bare "a" ∨ start = .sigil .current none →
      (Phrase.mk (.path start [] none)).WellFormed := by
    rintro _ (rfl | rfl) <;> exact .mk ⟨rfl, by simp, rfl, by simp⟩ (List.forall_mem_nil _)
  have hwf : (frame.fill part).WellFormed :=
    .mk ⟨rfl, rfl⟩ (List.forall_mem_cons.mpr
      ⟨hwfPath _ (.inl rfl), List.forall_mem_singleton.mpr (hwfPath _ (.inr rfl))⟩)
  obtain ⟨m, hm, hsteady⟩ : ∃ m, (frame.fill part).node .root = some m ∧ m.isSteady = true :=
    ⟨_, rfl, rfl⟩
  obtain ⟨n, hparse, hunsited⟩ : ∃ n, parse "MAP(a=>@)" .root .full = .ok n ∧
      n.unsited = m.unsited :=
    parse_meets hs hwf rfl (by simp) hspells hend hm
  obtain rfl := Node.eq_of_unsited hunsited hsteady
  obtain ⟨-, hparts, hpaths⟩ := @parse_parenthesized _ {} n hparse
  have hread : (frame.fill part).ReadsIn .full .root n s s' :=
    ⟨⟨hwf, hm, hspells⟩, rfl, by simp, fun _ => hend⟩
  obtain ⟨-, hwrap⟩ := hparts s s' frame part hs hread rfl
  have hplaces : frame.Places part "MAP(a=>@)" s s' ['M', 'A', 'P', '('] ['a']
      ['=', '>', '@', ')'] :=
    ⟨u, u', ⟨front, back, .inr rfl, fun p _ => hmarks p, hfront, hpart, hback⟩, rfl,
      hstart.symm, hstop.symm⟩
  obtain ⟨n', hparse', hinfo, halike⟩ := hwrap _ _ _ hplaces
  obtain ⟨-, -, hpath⟩ := hpaths (.shorthand "a") (.shorthand "a") rfl rfl
  exact ⟨n, n', hparse, hparse', hinfo, halike, hpath⟩

end DocQuery
