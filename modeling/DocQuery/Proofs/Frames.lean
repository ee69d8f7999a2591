import DocQuery.Proofs.Wrapping
/-!
# DocQuery.Proofs.Frames

A part of a phrase, and what is around it. A `Phrase.Gap` is a layer with one part missing, and a
`Phrase.Frame` is layers within one another, each in the gap of the one around it; what fills the
innermost gap is a part of the whole.

What may be written for the part may be written for the whole (`Phrase.Frame.replaces`). The marks
of the whole are those of the part between marks that come from the frame alone, and a part that
is not the first thing in the whole stands behind a token (`Phrase.Frame.exists_marks`).
-/

namespace DocQuery

/-! ### Marks between parts -/

namespace Mark

/-- The mark stands for a token. -/
def isRead : Mark → Bool
  | .token _ _ | .keyword _ => true
  | _ => false

/-- The mark is a blank. -/
def isBlank : Mark → Bool
  | .blank => true
  | _ => false

end Mark

/-- The marks end in a token, blanks behind it aside. -/
def endInToken : List Mark → Bool
  | [] => false
  | mark :: rest => endInToken rest || (mark.isRead && rest.all Mark.isBlank)

/-- What stands in front does not matter for how marks end. -/
theorem endInToken_append (front : List Mark) {marks : List Mark} (h : endInToken marks = true) :
    endInToken (front ++ marks) = true := by
  induction front with
  | nil => exact h
  | cons mark rest ih => rw [List.cons_append, endInToken, ih, Bool.true_or]

theorem endInToken_operator (op : Operator) : endInToken op.marks = true := by
  rcases op with ⟨op⟩ | ⟨quantifier, op⟩ | op
  · cases op with
    | arithmetic op => rfl
    | comparison op => cases op <;> rfl
  · cases op <;> rfl
  · rfl

namespace Phrase

variable {ν : Type}

/-- What is written for parts, each behind some marks, and the marks behind the last one. -/
def splice (m : ν → List Mark) (pieces : List (List Mark × ν)) (last : List Mark) : List Mark :=
  (pieces.flatMap fun piece => piece.1 ++ m piece.2) ++ last

/-- What is written for these parts are their marks in this order, each behind a token, and marks
that do not depend on how the parts are written. -/
def Spliced (parts : List ν) (written : (ν → List Mark) → List Mark) : Prop :=
  ∃ pieces last, pieces.map Prod.snd = parts ∧ (∀ m, written m = splice m pieces last) ∧
    ∀ piece ∈ pieces, endInToken piece.1 = true

namespace Spliced

variable {parts parts' : List ν} {written written' : (ν → List Mark) → List Mark}

theorem const (marks : List Mark) : Spliced ([] : List ν) fun _ => marks :=
  ⟨[], marks, rfl, fun _ => rfl, List.forall_mem_nil _⟩

/-- A part stands behind its glue, which ends in a token. -/
theorem part {glue : List Mark} (h : endInToken glue = true) (part : ν) :
    Spliced [part] fun m => glue ++ m part :=
  ⟨[(glue, part)], [], rfl, fun _ => by simp [splice], List.forall_mem_singleton.mpr h⟩

theorem congr (h : Spliced parts written) (heq : ∀ m, written' m = written m) :
    Spliced parts written' := by
  obtain ⟨pieces, last, hparts, hwritten, hglue⟩ := h
  exact ⟨pieces, last, hparts, fun m => (heq m).trans (hwritten m), hglue⟩

/-- What is written behind the last part of a list stands in front of the first one of the next. -/
theorem append (h : Spliced parts written) (h' : Spliced parts' written') :
    Spliced (parts ++ parts') fun m => written m ++ written' m := by
  obtain ⟨pieces, last, rfl, hwritten, hglue⟩ := h
  obtain ⟨pieces', last', rfl, hwritten', hglue'⟩ := h'
  cases pieces' with
  | nil =>
      refine ⟨pieces, last ++ last', by simp, fun m => ?_, hglue⟩
      simp [hwritten, hwritten', splice]
  -- The marks behind the last part become glue, and with the glue of the next part end in a token.
  | cons piece rest =>
      obtain ⟨hpiece, hrest⟩ := List.forall_mem_cons.mp hglue'
      refine ⟨pieces ++ (last ++ piece.1, piece.2) :: rest, last', by simp, fun m => ?_, ?_⟩
      · simp [hwritten, hwritten', splice]
      · rw [List.forall_mem_append]
        exact ⟨hglue, List.forall_mem_cons.mpr ⟨endInToken_append last hpiece, hrest⟩⟩

theorem behind (h : Spliced parts written) (marks : List Mark) :
    Spliced parts fun m => written m ++ marks := by
  simpa using h.append (.const marks)

theorem flatMap {α : Type} {items : List α} {children : α → List ν}
    {written : α → (ν → List Mark) → List Mark}
    (h : ∀ item ∈ items, Spliced (children item) (written item)) :
    Spliced (items.flatMap children) fun m => items.flatMap fun item => written item m := by
  induction items with
  | nil => exact const []
  | cons item rest ih =>
      obtain ⟨hitem, hrest⟩ := List.forall_mem_cons.mp h
      exact hitem.append (ih hrest)

/-- Items with commas between them, behind a token. -/
theorem separated {α : Type} {items : List α} {children : α → List ν}
    {written : α → (ν → List Mark) → List Mark}
    (h : ∀ item ∈ items, ∀ glue, endInToken glue = true →
      Spliced (children item) fun m => glue ++ written item m)
    {glue : List Mark} (hglue : endInToken glue = true) :
    Spliced (items.flatMap children) fun m =>
      glue ++ Phrase.separated (items.map fun item => written item m) := by
  induction items generalizing glue with
  | nil => exact (const glue).congr fun m => List.append_nil _
  | cons item rest ih =>
      obtain ⟨hitem, hrest⟩ := List.forall_mem_cons.mp h
      cases rest with
      | nil =>
          rw [List.flatMap_cons, List.flatMap_nil, List.append_nil]
          exact hitem glue hglue
      | cons next rest =>
          have hcomma : endInToken [.symbol .comma] = true := rfl
          refine ((hitem glue hglue).append (ih hrest hcomma)).congr fun m => ?_
          simp [Phrase.separated]

theorem listed (parts : List ν) {glue : List Mark} (hglue : endInToken glue = true) :
    Spliced parts fun m => glue ++ Phrase.separated (parts.map m) := by
  have hparts := separated (fun item (_ : item ∈ parts) _ h => part h item) hglue
  rwa [← List.map_eq_flatMap, List.map_id'] at hparts

/-- Only the parts that are there are asked how they are written. -/
theorem splice_congr {m m' : ν → List Mark} {pieces : List (List Mark × ν)}
    (h : ∀ piece ∈ pieces, m' piece.2 = m piece.2) (last : List Mark) :
    splice m' pieces last = splice m pieces last := by
  unfold splice
  congr 1
  exact List.flatMap_congr fun piece hpiece => by rw [h piece hpiece]

theorem written_congr (h : Spliced parts written) {m m' : ν → List Mark}
    (heq : ∀ part ∈ parts, m' part = m part) : written m' = written m := by
  obtain ⟨pieces, last, rfl, hwritten, -⟩ := h
  rw [hwritten, hwritten]
  exact splice_congr (fun piece hpiece => heq _ (List.mem_map_of_mem hpiece)) last

/-- However one of the parts is written, what is written around it stays the same. -/
theorem exists_around {before after : List ν} {hole : ν}
    (h : Spliced (before ++ hole :: after) written) (m : ν → List Mark) :
    ∃ front back, endInToken front = true ∧
      ∀ m' : ν → List Mark, (∀ part ∈ before ++ after, m' part = m part) →
        written m' = front ++ m' hole ++ back := by
  obtain ⟨pieces, last, hparts, hwritten, hglue⟩ := h
  -- The pieces are cut where the part is; its glue goes to what stands in front.
  obtain ⟨front, others, rfl, rfl, hothers⟩ := List.map_eq_append_iff.mp hparts
  obtain ⟨⟨glue, _⟩, back, rfl, rfl, rfl⟩ := List.map_eq_cons_iff.mp hothers
  have hend := hglue _ (List.mem_append_right _ (List.mem_cons_self ..))
  refine ⟨splice m front glue, splice m back last, endInToken_append _ hend, fun m' hm' => ?_⟩
  rw [hwritten, ← splice_congr (fun piece hpiece =>
      hm' _ (List.mem_append_left _ (List.mem_map_of_mem hpiece))) glue,
    ← splice_congr (fun piece hpiece =>
      hm' _ (List.mem_append_right _ (List.mem_map_of_mem hpiece))) last]
  simp [splice]

end Spliced

theorem spliced_step (w : WrittenStep ν) :
    Spliced w.children fun m => stepMarks m w := by
  cases w with
  | part part =>
      have hopen : endInToken [.touch .leftBracket] = true := rfl
      exact (Spliced.part hopen part).behind [.symbol .rightBracket]
  | _ => exact .const _

/-- What is evaluated behind a path stands behind a period. -/
theorem spliced_behind (isParameter : ν → Bool) (ws : List (WrittenStep ν)) (behind : Option ν) :
    Spliced behind.toList fun m => behindMarks isParameter m ws behind := by
  cases behind with
  | none => exact .const _
  | some behind =>
      have hperiod : endInToken [.touch .period] = true := rfl
      exact .part hperiod behind

/-- The source stands behind the parenthesis, and what is evaluated for its elements behind the
arrow. -/
theorem spliced_sequence (name : String) (source part : ν) {parts : List ν}
    {behind : (ν → List Mark) → List Mark} (h : Spliced parts behind) :
    Spliced (source :: part :: parts) fun m => sequenceMarks m name source part (behind m) := by
  have hopen : endInToken [.keyword name, .symbol .leftParen] = true := rfl
  have harrow : endInToken [.symbol .arrow] = true := rfl
  refine ((((Spliced.part hopen source).append (.part harrow part)).append h).behind
    [.symbol .rightParen]).congr fun m => ?_
  simp [sequenceMarks]

/-- Every part of a layer stands behind a token, unless it is the first thing that is written. -/
theorem Layer.spliced (isParameter : ν → Bool) (layer : Layer ν) :
    Spliced layer.children (fun m => Layer.marks isParameter m layer) ∨
      ∃ first rest written, layer.children = first :: rest ∧ Spliced rest written ∧
        ∀ m, Layer.marks isParameter m layer = m first ++ written m := by
  -- Only a row and a range begin with a part; all others begin with a token of their own.
  cases layer with
  | number negative isDouble text | truth b | null | string s | parameter isInt name =>
      exact .inl (.const _)
  | documents selector =>
      cases selector with
      | none => exact .inl (.const _)
      | some selector =>
          have hperiod : endInToken [.symbol .asterisk, .touch .period] = true := rfl
          exact .inl (.part hperiod selector)
  | document entries =>
      have hopen : endInToken [.symbol .leftBrace] = true := rfl
      have hentries : ∀ entry ∈ entries, ∀ glue, endInToken glue = true →
          Spliced entry.2.toList fun m => glue ++ entryMarks m entry := by
        rintro ⟨key, value⟩ _ glue _
        cases value with
        | none => exact Spliced.const (glue ++ [key.mark])
        | some value =>
            have hcolon : endInToken [key.mark, .symbol .colon] = true := by cases key <;> rfl
            refine (Spliced.part (endInToken_append glue hcolon) value).congr fun m => ?_
            simp [entryMarks]
      exact .inl ((Spliced.separated hentries hopen).behind [.symbol .rightBrace])
  | array items =>
      have hopen : endInToken [.symbol .leftBracket] = true := rfl
      have hitems := (Spliced.listed items hopen).behind [.symbol .rightBracket]
      exact .inl hitems
  | path start ws behind =>
      have hsteps := Spliced.flatMap fun w (_ : w ∈ ws) => spliced_step w
      exact .inl (((Spliced.const start.marks).append hsteps).append
        (spliced_behind isParameter ws behind))
  | map source part | filter source part =>
      exact .inl (spliced_sequence _ source part (.const []))
  | sort source key order =>
      cases order with
      | none => exact .inl (spliced_sequence _ source key (.const []))
      | some order =>
          have hcomma : endInToken [.symbol .comma] = true := rfl
          exact .inl (spliced_sequence _ source key (.part hcomma order))
  | call name site args =>
      have hopen : endInToken [.token false (.word name), .symbol .leftParen] = true := rfl
      exact .inl ((Spliced.listed args hopen).behind [.symbol .rightParen])
  | parens inner =>
      have hopen : endInToken [.symbol .leftParen] = true := rfl
      exact .inl ((Spliced.part hopen inner).behind [.symbol .rightParen])
  | joined first tail =>
      have htail := Spliced.flatMap fun entry (_ : entry ∈ tail) =>
        Spliced.part (endInToken_operator entry.1) entry.2
      rw [← List.map_eq_flatMap] at htail
      exact .inr ⟨first, _, _, rfl, htail, fun m => rfl⟩
  | bounds lower upper =>
      have hjoint : endInToken [.blank, .keyword "AND", .blank] = true := rfl
      exact .inr ⟨lower, [upper], _, rfl, .part hjoint upper, fun m => List.append_assoc ..⟩

/-! ### Gaps and frames -/

/-- A layer with one part missing. -/
structure Gap where
  layer : Layer (Option Phrase)
  before : List Phrase
  after : List Phrase
  children_eq : layer.children = before.map some ++ none :: after.map some

namespace Gap

/-- The layer with this part in the gap. -/
def fill (gap : Gap) (p : Phrase) : Phrase := .mk (gap.layer.mapParts (·.getD p))

theorem none_mem (gap : Gap) : none ∈ gap.layer.children := by
  rw [gap.children_eq]
  exact List.mem_append_right _ (List.mem_cons_self ..)

/-- What may be written for the part may be written for the whole. -/
theorem replaces (gap : Gap) {p p' : Phrase} (h : p.Replaces p') :
    (gap.fill p).Replaces (gap.fill p') :=
  .layer fun part _ => match part with
    | none => h
    | some q => .refl q

theorem wellFormed_part {gap : Gap} {p : Phrase} (h : (gap.fill p).WellFormed) : p.WellFormed := by
  refine h.part (?_ : p ∈ (gap.layer.mapParts (·.getD p)).children)
  rw [Layer.children_mapParts]
  exact List.mem_map_of_mem gap.none_mem

/-- Only parentheses ask their part whether it is a parameter. -/
theorem isParameter_fill (gap : Gap) {p p' : Phrase} (h : p'.isParameter = p.isParameter) :
    (gap.fill p').isParameter = (gap.fill p).isParameter := by
  obtain ⟨outer, before, after, hchildren⟩ := gap
  rw [isParameter_eq, isParameter_eq]
  cases outer with
  | parens inner =>
      cases inner with
      | none => exact h
      | some q => rfl
  | _ => rfl

/-- The marks of a part stand between marks that come from the gap. -/
theorem exists_marks (gap : Gap) (p : Phrase) :
    ∃ front back, (front = [] ∨ endInToken front = true) ∧
      ∀ p' : Phrase, p'.isParameter = p.isParameter →
        (gap.fill p').marks = front ++ p'.marks ++ back := by
  obtain ⟨outer, before, after, hchildren⟩ := gap
  -- The marks of the layer with the part filled in, as those of the gap with marks for the part.
  have hmarks (p' : Phrase) (h : p'.isParameter = p.isParameter) :
      (Phrase.mk (outer.mapParts (·.getD p'))).marks =
        Layer.marks (fun part => (part.getD p).isParameter) (fun part => (part.getD p').marks)
          outer := by
    rw [marks_eq, Phrase.layer, Layer.marks_mapParts]
    congr 1
    funext part
    cases part with
    | none => exact h
    | some q => rfl
  have hsame (p' : Phrase) : ∀ part ∈ before.map some ++ after.map some,
      (part.getD p').marks = (part.getD p).marks := by
    intro part hpart
    rw [← List.map_append] at hpart
    obtain ⟨q, -, rfl⟩ := List.mem_map.mp hpart
    rfl
  rcases Layer.spliced (fun part : Option Phrase => (part.getD p).isParameter) outer with
    hspliced | ⟨first, rest, written, hparts, hspliced, hwritten⟩
  · rw [hchildren] at hspliced
    obtain ⟨front, back, hend, haround⟩ := hspliced.exists_around fun part => (part.getD p).marks
    exact ⟨front, back, .inr hend, fun p' hp' => (hmarks p' hp').trans (haround _ (hsame p'))⟩
  · rw [hchildren] at hparts
    cases before with
    -- The part is the first thing that is written.
    | nil =>
        obtain ⟨rfl, rfl⟩ := List.cons.inj hparts
        refine ⟨[], written fun part => (part.getD p).marks, .inl rfl, fun p' hp' => ?_⟩
        have hrest := hspliced.written_congr fun part hpart => hsame p' part hpart
        refine (hmarks p' hp').trans ?_
        rw [hwritten, hrest]
        rfl
    -- Another part is the first thing, and the one in the gap stands behind a token.
    | cons q before =>
        obtain ⟨rfl, rfl⟩ := List.cons.inj hparts
        obtain ⟨front, back, hend, haround⟩ :=
          hspliced.exists_around fun part => (part.getD p).marks
        refine ⟨q.marks ++ front, back, .inr (endInToken_append _ hend), fun p' hp' => ?_⟩
        have hrest := haround (fun part => (part.getD p').marks) fun part hpart =>
          hsame p' part (List.mem_cons_of_mem _ hpart)
        refine (hmarks p' hp').trans ?_
        rw [hwritten, hrest]
        simp

end Gap

/-- Layers within one another, each in the gap of the one in front of it. -/
abbrev Frame := List Gap

namespace Frame

/-- The frame with this part in its innermost gap. -/
def fill (frame : Frame) (p : Phrase) : Phrase := frame.foldr Gap.fill p

theorem replaces (frame : Frame) {p p' : Phrase} (h : p.Replaces p') :
    (frame.fill p).Replaces (frame.fill p') := by
  induction frame with
  | nil => exact h
  | cons gap frame ih => exact gap.replaces ih

theorem wellFormed_part {frame : Frame} {p : Phrase} (h : (frame.fill p).WellFormed) :
    p.WellFormed := by
  induction frame with
  | nil => exact h
  | cons gap frame ih => exact ih (Gap.wellFormed_part h)

theorem isParameter_fill (frame : Frame) {p p' : Phrase} (h : p'.isParameter = p.isParameter) :
    (frame.fill p').isParameter = (frame.fill p).isParameter := by
  induction frame with
  | nil => exact h
  | cons gap frame ih => exact gap.isParameter_fill ih

/-- The marks of a part stand between marks that come from the frame. What stands in front of the
part ends in a token, if it is anything. -/
theorem exists_marks (frame : Frame) (p : Phrase) :
    ∃ front back, (front = [] ∨ endInToken front = true) ∧
      ∀ p' : Phrase, p'.isParameter = p.isParameter →
        (frame.fill p').marks = front ++ p'.marks ++ back := by
  induction frame with
  | nil => exact ⟨[], [], .inl rfl, fun p' _ => (List.append_nil _).symm⟩
  | cons gap frame ih =>
      -- From the inside out: what the inner layers write stands within what the outer one writes.
      obtain ⟨front, back, hend, hinner⟩ := ih
      obtain ⟨front', back', hend', houter⟩ := gap.exists_marks (Frame.fill frame p)
      refine ⟨front' ++ front, back ++ back', ?_, fun p' hp' => ?_⟩
      · rcases hend with rfl | hend
        · rwa [List.append_nil]
        · exact .inr (endInToken_append front' hend)
      · refine (houter _ (isParameter_fill frame hp')).trans ?_
        rw [hinner p' hp']
        simp

end Frame

end Phrase

end DocQuery
