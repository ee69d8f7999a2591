import DocQuery.Proofs.Rereading.Lists
/-!
# DocQuery.Proofs.Rereading.Paths

Paths are read as they are written. A step ends a path if it may yield any number of values; what
stands behind such a path with a period is evaluated for each of them.
-/

namespace DocQuery

namespace Parser

open Phrase
open Node (unsited)

variable {s s' : TokenStream}

section

variable (scope : Scope) {k : Nat} {term : Scope → Parser Node} (ht : RereadsTerms k term)

include ht

omit ht in
/-- The name of a field is read, as a word or between brackets. Whether blanks may stand in front of
it is up to the place it has in the path. -/
theorem fieldName_run {touching : Bool} {field : FieldName}
    (h : Spells (field.marks touching) s s') :
    (fieldName (s.peek (!touching))).run (s.advance (!touching)) = .ok field.name s' := by
  cases field with
  | word name =>
      unfold fieldName
      rw [h.1, ← h.2]
      rfl
  | quoted name =>
      obtain ⟨hopen, hname, hclose, rfl⟩ := h
      have hname : ((s.advance (!touching)).peek true).kind = .string name := hname
      have hclose : (((s.advance (!touching)).advance true).peek true).kind =
        .symbol .rightBracket := hclose
      unfold fieldName
      rw [hopen]
      dsimp only
      rw [EStateM.run_bind, run_next]
      dsimp only
      rw [hname]
      dsimp only
      rw [EStateM.run_bind, run_expect, if_pos (isSymbol_iff.mpr hclose)]
      rfl

omit ht in
/-- A place is read if its digits are those of a 32-bit integer. -/
theorem placeStep_meets {token : Token} {text : List Char} :
    Meets (PathStep.map unsited) (placeStep token text) s
      ((Number.readInt32? text).map fun n => .index n.toInt) s := by
  unfold placeStep
  cases Number.readInt32? text with
  | none => exact .throw _
  | some n => exact .pure rfl

/-- The phrase may stand between the brackets of a step. -/
structure FitsStep (e : Phrase) : Prop where
  isBounds : e.isBounds = false
  isPlain : e.isPlain = true
  wellFormed : e.WellFormed

omit ht in
/-- A place between brackets is read, whether a minus sign stands in front of it or not. -/
theorem bracketed_place {negative : Bool} {digits : String}
    (h : Spells (placeMarks negative digits) s s') :
    Meets (PathStep.map unsited) (bracketed term) s
      (stepNode Phrase.node (.place negative digits)) s' := by
  unfold bracketed
  refine .peek ?_
  cases negative with
  | false =>
      obtain ⟨hint, rfl⟩ : (s.peek true).kind = .int digits ∧ s.advance true = s' := h
      rw [hint]
      exact .pass placeStep_meets
  | true =>
      obtain ⟨hminus, h⟩ := Spells.symbol_cons.mp h
      obtain ⟨hint, rfl⟩ : ((s.advance true).peek true).kind = .int digits ∧
        (s.advance true).advance true = s' := h
      rw [hminus]
      dsimp only
      refine .pass (.next ?_)
      rw [hint]
      exact placeStep_meets

omit ht in
/-- The sign for all elements is read between brackets. -/
theorem bracketed_all (h : Spells [.symbol .asterisk] s s') :
    Meets (PathStep.map unsited) (bracketed term) s (stepNode Phrase.node .all) s' := by
  obtain ⟨hall, rfl⟩ : (s.peek true).kind = .symbol .asterisk ∧ s.advance true = s' := h
  unfold bracketed
  refine .peek ?_
  rw [hall]
  exact .pass (.pure rfl)

/-- A phrase between brackets is read: no plain phrase begins like a place or like the sign for
all elements. -/
theorem bracketed_part {e : Phrase} (he : FitsStep e) (hend : EndsRow s') (hs : Room k s)
    (h : Spells e.marks s s') :
    Meets (PathStep.map unsited) (bracketed term) s (stepNode Phrase.node (.part e)) s' := by
  have hbegins := (begins_of_spells h).2
  rw [he.isPlain] at hbegins
  unfold bracketed
  refine .peek ?_
  -- The branches for an asterisk, an integer and a minus sign are not taken, since the phrase does
  -- not begin so.
  split
  · rename_i hkind
    rw [hkind] at hbegins
    cases hbegins
  · rename_i hkind
    rw [hkind] at hbegins
    cases hbegins
  · rename_i hkind
    rw [hkind] at hbegins
    cases hbegins
  · rw [stepNode, Option.map_eq_bind]
    refine (joined_meets .current ht he.wellFormed he.isBounds hs hend h).bind
      fun a b _ hb => .pure ?_
    -- The type of what is read decides between a place that is computed and a filter.
    rw [Node.type_eq_of_unsited hb]
    dsimp only
    split
    · exact congrArg PathStep.indexOf hb
    · exact congrArg PathStep.filter hb

/-- What stands between the brackets of a step is read, and the closing bracket. -/
theorem bracketStep_meets {w : WrittenStep Phrase} (hw : w.isMember = false)
    (hparts : ∀ e, w = .part e → FitsStep e) (hs : Room k s)
    (h : Spells (stepMarks Phrase.marks w) s s') :
    (s.peek false).kind = .symbol .leftBracket ∧
    Meets (PathStep.map unsited) (bracketStep term) (s.advance false)
      (stepNode Phrase.node w) s' := by
  -- All that may stand between the brackets is followed by the closing one.
  have closed {u : TokenStream} {x : Option (PathStep Node)}
      (hclose : (u.peek true).kind = .symbol .rightBracket) (hend : u.advance true = s')
      (hmeets : Meets (PathStep.map unsited) (bracketed term) (s.advance false) x u) :
      Meets (PathStep.map unsited) (bracketStep term) (s.advance false) x s' := by
    rw [← Option.bind_fun_some x, ← hend]
    exact hmeets.bind fun a b _ hb => .expect hclose (.pure hb)
  cases w with
  | member field => cases hw
  | place negative digits =>
      obtain ⟨hopen, h⟩ := Spells.touch_cons.mp h
      obtain ⟨u, hplace, hclose, hend⟩ := Spells.append_iff.mp h
      exact ⟨hopen, closed hclose hend (bracketed_place hplace)⟩
  | all =>
      obtain ⟨hopen, h⟩ := Spells.touch_cons.mp h
      obtain ⟨hall, hclose, hend⟩ := h
      exact ⟨hopen, closed hclose hend (bracketed_all ⟨hall, rfl⟩)⟩
  | part e =>
      obtain ⟨hopen, h⟩ := Spells.touch_cons.mp h
      obtain ⟨u, he, hclose, hend⟩ := Spells.append_iff.mp h
      have hpart := bracketed_part ht (hparts e rfl) (.of_symbol hclose rfl) (hs.advance false) he
      exact ⟨hopen, closed hclose hend hpart⟩

omit ht in
/-- Where a path does not go on, no step is read. -/
theorem steps_meets_nil {bound : Nat} (hkind : (s.peek false).kind.goesOnPath = false) :
    Meets (List.map (PathStep.map unsited)) (steps term bound) s (some []) s := by
  -- The reader looks for a period or a bracket, and neither comes next.
  cases bound with
  | zero => exact .pure rfl
  | succ bound =>
      rw [steps]
      refine .peek ?_
      split
      · rename_i hperiod
        rw [hperiod] at hkind
        cases hkind
      · rename_i hopen
        rw [hopen] at hkind
        cases hkind
      · exact .pure rfl

/-- The steps of a path are read up to where it does not go on. The induction is on the steps as
they are written; that they are read one by one rests on their number of tokens, and that the reader
stops at the right one on `isMany`, which says of a written step what `isEnumerable` says of one
that is read. -/
theorem steps_meets {ws : List (WrittenStep Phrase)} {bound : Nat}
    (hparts : ∀ e, .part e ∈ ws → FitsStep e)
    (hsingle : ws.dropLast.any (WrittenStep.isMany isParameter) = false)
    (hend : ws.getLast?.any (WrittenStep.isMany isParameter) = false →
      (s'.peek false).kind.goesOnPath = false)
    (hs : Room k s) (hbound : s.remaining ≤ bound)
    (h : Spells (ws.flatMap (stepMarks Phrase.marks)) s s') :
    Meets (List.map (PathStep.map unsited)) (steps term bound) s
      (stepNodes Phrase.node ws) s' := by
  induction ws generalizing s bound with
  | nil =>
      obtain rfl : s = s' := h
      exact steps_meets_nil (hend rfl)
  | cons w rest ih =>
      rw [List.flatMap_cons] at h
      obtain ⟨t, hw, hrest⟩ := Spells.append_iff.mp h
      have hparts' : ∀ e, .part e ∈ rest → FitsStep e :=
        fun e he => hparts e (List.mem_cons_of_mem _ he)
      -- The reader counts tokens down, and every step takes one at least.
      have hfirst {kind : TokenKind} (hkind : (s.peek false).kind = kind) (hne : kind ≠ .finish)
          (ht : t.remaining ≤ (s.advance false).remaining) :
          ∃ b, bound = b + 1 ∧ t.remaining ≤ b := by
        have hlt : (s.advance false).remaining < s.remaining :=
          hs.ended.remaining_advance_lt (by rwa [hkind])
        obtain ⟨b, rfl⟩ : ∃ b, bound = b + 1 := Nat.exists_eq_succ_of_ne_zero (by omega)
        exact ⟨b, rfl, by omega⟩
      -- Behind a step that yields one value the others are read.
      have hothers (hone : w.isMany isParameter = false) {bound : Nat}
          (hbound : t.remaining ≤ bound) :
          Meets (List.map (PathStep.map unsited)) (steps term bound) t
            (stepNodes Phrase.node rest) s' := by
        rw [any_dropLast_cons hone] at hsingle
        rw [any_getLast?_cons hone] at hend
        exact ih hparts' hsingle hend (hs.spells hw) hbound hrest
      -- Only a step with brackets can yield more than one value and end the path.
      by_cases hmember : w.isMember = true
      · cases w with
        | member field =>
            obtain ⟨hperiod, hfield⟩ := Spells.touch_cons.mp hw
            obtain ⟨bound, rfl, hle⟩ := hfirst hperiod (by rintro ⟨⟩) hfield.remaining_le
            have hnodes : stepNodes Phrase.node (.member field :: rest) =
                stepNodes Phrase.node rest >>=
                  fun steps => some (.member field.name :: steps) := rfl
            rw [steps, hnodes]
            refine .peek ?_
            rw [hperiod]
            refine .pass (.next (.of_run (fieldName_run hfield) ?_))
            refine (hothers rfl hle).bind fun as bs _ hbs => .pure ?_
            exact congrArg (PathStep.member field.name :: ·) hbs
        | place negative digits | all | part e => cases hmember
      · have hpart : ∀ e, w = .part e → FitsStep e :=
          fun e he => hparts e (he ▸ List.mem_cons_self ..)
        obtain ⟨hopen, hmeets⟩ := bracketStep_meets ht (by simpa using hmember) hpart hs hw
        have hinside : t.remaining ≤ (s.advance false).remaining := by
          cases w with
          | member field => exact absurd rfl hmember
          | place negative digits | all | part e => exact Spells.remaining_le hw.2
        obtain ⟨bound, rfl, hle⟩ := hfirst hopen (by rintro ⟨⟩) hinside
        rw [steps, stepNodes]
        refine .peek ?_
        rw [hopen]
        refine .pass (hmeets.bind fun a b ha hb => ?_)
        have hmany : b.isEnumerable = w.isMany isParameter := by
          rw [← PathStep.isEnumerable_map unsited, hb, PathStep.isEnumerable_map,
            isEnumerable_stepNode (fun e he => (hpart e he).wellFormed) ha]
        rw [hmany]
        cases hmany' : w.isMany isParameter with
        | false =>
            refine (hothers hmany' hle).bind fun as bs _ hbs => .pure ?_
            exact congrArg₂ List.cons hb hbs
        | true =>
            -- A step that yields any number of values is the last one.
            obtain rfl := eq_nil_of_any_dropLast hmany' hsingle
            obtain rfl : t = s' := hrest
            exact .pure (congrArg (fun step => [step]) hb)

/-- What stands behind the beginning of a path is read. -/
theorem pathBehind_meets (start : PathStart) {ws : List (WrittenStep Phrase)}
    {behind : Option Phrase} (hwf : Layer.WellFormed (.path start ws behind))
    (hparts : ∀ part ∈ (Layer.path start ws behind).children, part.WellFormed) (hs : Room k s)
    (h : Spells (ws.flatMap (stepMarks Phrase.marks) ++
      behindMarks isParameter Phrase.marks ws behind) s s') :
    Meets unsited (pathBehind term (start.root scope) start.field scope) s
      (Layer.node isBounds Phrase.node scope (.path start ws behind)) s' := by
  obtain ⟨u, hws, hbehind⟩ := Spells.append_iff.mp h
  obtain ⟨hstart, hclasses, hsingle, hlast⟩ := hwf
  have hfits : ∀ e, .part e ∈ ws → FitsStep e := by
    intro e he
    obtain ⟨hclass, hplain⟩ := hclasses e he
    refine ⟨hclass, hplain, hparts e (List.mem_append_left _ ?_)⟩
    exact List.mem_flatMap.mpr ⟨_, he, List.mem_singleton_self e⟩
  -- If the last step yields one value, nothing with a period stands behind the path, and the marks
  -- ask that it does not go on.
  have hends : ws.getLast?.any (WrittenStep.isMany isParameter) = false →
      (u.peek false).kind.goesOnPath = false := by
    intro hone
    cases behind with
    | some e => exact absurd (hlast e rfl).2 (by simp [hone])
    | none =>
        rw [behindMarks, hone] at hbehind
        exact hbehind.1
  have hsteps := steps_meets ht hfits hsingle hends hs (Nat.le_refl _) hws
  -- Whether more than one value may come out shows in the last step as it is written.
  have hmany (path : Node) (more : List (PathStep Node))
      (hmore : stepNodes Phrase.node ws = some more)
      (hpath : path.unsited = (start.node scope more).unsited) :
      (!path.isScalar) = ws.getLast?.any (WrittenStep.isMany isParameter) := by
    rw [Node.isScalar_eq_of_unsited hpath, PathStart.isScalar_node, Bool.not_not,
      any_isEnumerable_of_single (fun e he => (hfits e he).wellFormed) hsingle hmore]
  unfold pathBehind
  refine .remaining ?_
  cases behind with
  | none =>
      rw [Layer.node, Option.map_eq_bind]
      refine hsteps.bind fun a b ha hb => .peek ?_
      have hpath := start.unsited_node scope hb
      change Meets unsited (if (!(start.node scope b).isScalar && _) = true then _ else _) u _ s'
      -- The reader goes on only behind a path that may yield more values and only with a period;
      -- there is no such path here, or no period.
      have hno : (!(start.node scope b).isScalar && (u.peek false).isSymbol .period) = false := by
        rw [hmany _ a ha hpath]
        cases hlast' : ws.getLast?.any (WrittenStep.isMany isParameter) with
        | false => rfl
        | true =>
            rw [behindMarks, hlast'] at hbehind
            rw [Bool.true_and, Token.isSymbol_eq]
            exact hbehind.1
      have hend : u = s' := by
        rw [behindMarks] at hbehind
        split at hbehind
        · exact hbehind.2
        · exact hbehind.2
      rw [hno, ← hend]
      exact .pure hpath
  | some e =>
      obtain ⟨hterm, hlast⟩ := hlast e rfl
      obtain ⟨hperiod, he⟩ := Spells.touch_cons.mp hbehind
      have hewf := hparts e (List.mem_append_right _ (List.mem_singleton_self e))
      rw [Layer.node]
      refine hsteps.bind fun a b ha hb => .peek ?_
      have hpath := start.unsited_node scope hb
      change Meets unsited (if (!(start.node scope b).isScalar && _) = true then _ else _) u _ s'
      rw [hmany _ a ha hpath, hlast, isSymbol_iff.mpr hperiod]
      refine .pass ?_
      refine (ht .current hewf hterm ((hs.spells hws).advance false) he).bind
        fun a' b' _ hb' => .pure ?_
      change (Node.map (start.node scope b) b').unsited = _
      rw [Node.unsited_map, Node.unsited_map, hpath, hb']

/-- What stands behind the sigil of a path is read. -/
theorem sigilPath_meets {root : PathRoot} {field : Option FieldName}
    {ws : List (WrittenStep Phrase)} {behind : Option Phrase}
    (hwf : Layer.WellFormed (.path (.sigil root field) ws behind))
    (hparts : ∀ part ∈ (Layer.path (.sigil root field) ws behind).children, part.WellFormed)
    (hs : Room k s)
    (h : Spells ((field.elim [] fun field => .touch .period :: field.marks false) ++
      (ws.flatMap (stepMarks Phrase.marks) ++ behindMarks isParameter Phrase.marks ws behind))
      s s') :
    Meets unsited (sigilPath term root scope) s
      (Layer.node isBounds Phrase.node scope (.path (.sigil root field) ws behind)) s' := by
  obtain ⟨t, hfield, hpath⟩ := Spells.append_iff.mp h
  have hmeets := pathBehind_meets scope ht _ hwf hparts (hs.spells hfield) hpath
  unfold sigilPath
  refine .peek ?_
  cases field with
  | some field =>
      obtain ⟨hperiod, hfield⟩ := Spells.touch_cons.mp hfield
      rw [isSymbol_iff.mpr hperiod]
      exact .pass (.next (.of_run (fieldName_run hfield) hmeets))
  | none =>
      obtain rfl : s = t := hfield
      -- The first field is the only one that is read with the sigil. Without it there are no steps
      -- and the path does not go on, or its first step is in brackets.
      have hno : (s.peek false).isSymbol .period = false := by
        rw [Bool.eq_false_iff]
        intro hperiod
        rw [isSymbol_iff] at hperiod
        cases ws with
        | nil =>
            cases behind with
            | some e => exact absurd (hwf.2.2.2 e rfl).2 (by rintro ⟨⟩)
            | none =>
                have hno : TokenKind.goesOnPath (s.peek false).kind = false := hpath.1
                rw [hperiod] at hno
                cases hno
        | cons w rest =>
            cases w with
            | member field => cases hwf.1
            | place negative digits | all | part e =>
                have hopen : (s.peek false).kind = .symbol .leftBracket := hpath.1
                rw [hperiod] at hopen
                cases hopen
      rw [hno]
      exact hmeets

end

end Parser

end DocQuery
