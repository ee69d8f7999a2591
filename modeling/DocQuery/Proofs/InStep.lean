import DocQuery.Proofs.InStep.Lists
/-!
# DocQuery.Proofs.InStep

Terms and expressions keep step (`Parser.termUpTo_keepsStep`, `Parser.full_keepsStep`): on two
streams that go on with the same tokens up to a place where no expression goes on, they take the
same tokens and yield the same. The lemmas for paths and calls come first, as for lists with any
two readers of terms that keep step; terms within so many others follow by induction.
-/

namespace DocQuery

namespace Parser

open TokenStream

section

variable {x y : TokenStream} {top : List Token} (hbars : Bars x y) {k k' : Nat}
variable {term term' : Scope → Parser Node} (ht : TermsKeepStep x y top k k' term term')
variable {scope : Scope} {j j' : Nat} {s s' : TokenStream}

include hbars ht

/-! ### Paths

Both streams have the same tokens in front of a bar. So the reader on one of them takes the same
turn as on the other one (`KeepsStep.peek`, `KeepsStep.next`), until it stands before the bar on
both: there either both fail alike, or, where the reader only looks ahead, both stop alike. Every
proof below treats the bar first and a common token second. -/

omit hbars ht in
/-- At the end there is nothing between brackets. -/
theorem bracketed_end (hterm : FailsAt term s) (hs : (s.peek true).kind = .finish) :
    (bracketed term).run s = .error (.unexpected (s.peek true)) (s.advance true) := by
  rw [bracketed, EStateM.run_bind, run_peek]
  dsimp only
  rw [hs]
  dsimp only
  rw [EStateM.run_bind, joined_end hterm]

/-- A step in brackets. At a bar both readers look for a term and find none. -/
theorem bracketed_keepsStep (h : InStep x y top j j' s s') (hj : j ≤ k) (hj' : j' ≤ k') :
    KeepsStep x y (SameIn (InStep x y top j j')) (bracketed term) (bracketed term') s s' := by
  have stops (hs : (s.peek true).kind = .finish) :
      KeepsStep x y (SameIn (InStep x y top j j')) (bracketed term) (bracketed term') s s' := by
    obtain ⟨hterm, hterm'⟩ := ht.ends hj hj' h hs
    exact .of_fails h (bracketed_end hterm hs) (bracketed_end hterm' hs)
  unfold bracketed
  -- Where the common token begins no place, both go on with terms joined by operators.
  have part : KeepsStep x y (SameIn (InStep x y top j j'))
      (do
        let part ← joined term .current
        return if part.info.type = .parameter then PathStep.indexOf part else .filter part)
      (do
        let part ← joined term' .current
        return if part.info.type = .parameter then PathStep.indexOf part else .filter part)
      s s' :=
    (joined_keepsStep hbars ht h hj hj').bind_same fun part t u hin => .pure ⟨rfl, hin⟩
  refine .peek hbars h ?_ ?_
  · rintro _ _ rfl rfl ⟨hs, -⟩
    exact stops hs
  · intro t i i' _ hi hi' hin
    split
    · exact .pass ((placeStep_keepsStep hin _ _).weaken (Nat.le_of_lt hi) (Nat.le_of_lt hi'))
    · -- Behind a sign an integer is asked for, which no bar is.
      refine .pass (.next hbars hin ?_ ?_)
      · intro t htok
        have htok : t.kind = .finish := htok
        refine ⟨.expected t "int", fun u => ?_⟩
        rw [htok]
        exact ⟨rfl, rfl⟩
      · intro t l l' v v' _ hl hl' hin
        split
        · exact (placeStep_keepsStep hin _ _).weaken (by omega) (by omega)
        · exact .throw _ hin
    · exact .pass (.pure ⟨rfl, hin.mono (Nat.le_of_lt hi) (Nat.le_of_lt hi')⟩)
    · exact part

/-- The bracket behind the step has to be there on both streams. -/
theorem bracketStep_keepsStep (h : InStep x y top j j' s s') (hj : j ≤ k) (hj' : j' ≤ k') :
    KeepsStep x y (SameIn (InStep x y top j j')) (bracketStep term) (bracketStep term') s s' := by
  unfold bracketStep
  refine (bracketed_keepsStep hbars ht h hj hj').bind_same fun step t u hin => ?_
  refine .expect hbars hin fun i i' v v' hi hi' hin => ?_
  exact .pure ⟨rfl, hin.mono (Nat.le_of_lt hi) (Nat.le_of_lt hi')⟩

/-- A turn of the loop over the steps of a path keeps step if what it goes on with does. -/
theorem stepsTurn_keepsStep {G : TokenStream → TokenStream → Prop}
    {again again' : Parser (List (PathStep Node))} (h : InStep x y top j j' s s') (hj : j ≤ k)
    (hj' : j' ≤ k') (hend : ∀ {t u}, InStep x y top j j' t u → G t u)
    (hagain : ∀ {i i' t u}, i < j → i' < j' → InStep x y top i i' t u →
      KeepsStep x y (SameIn G) again again' t u) :
    KeepsStep x y (SameIn G) (stepsTurn term again) (stepsTurn term' again') s s' := by
  unfold stepsTurn
  refine .peek hbars h ?_ ?_
  · intro t t' _ _ ⟨htok, htok'⟩
    -- A bar is no period and no bracket, so on both streams the path ends.
    rcases htok with htok | ⟨count, htok⟩ <;> rcases htok' with htok' | ⟨count', htok'⟩
    all_goals
      rw [htok, htok']
      exact .pure ⟨rfl, hend h⟩
  · intro t i i' _ hi hi' hin
    -- The common token is a period, a bracket or neither; in the first two cases the loop goes on
    -- with fewer tokens.
    split
    · refine .pass (.next hbars hin ?_ ?_)
      · intro t htok
        refine ⟨.expected t "field name", fun u => ?_⟩
        rw [fieldName_of_isGap htok]
        exact ⟨rfl, rfl⟩
      · intro t l l' v v' _ hl hl' hin
        refine (fieldName_keepsStep hbars hin t).bind_same fun name w w' hin => ?_
        exact (hagain (by omega) (by omega) hin).bind_same fun rest z z' hG => .pure ⟨rfl, hG⟩
    · refine .pass ((bracketStep_keepsStep hbars ht hin (by omega) (by omega)).bind_same ?_)
      intro step v v' hin
      split
      · exact .pure ⟨rfl, hend (hin.mono (Nat.le_of_lt hi) (Nat.le_of_lt hi'))⟩
      · exact (hagain hi hi' hin).bind_same fun rest w w' hG => .pure ⟨rfl, hG⟩
    · exact .pure ⟨rfl, hend h⟩

omit hbars ht in
/-- A gap ends a path. -/
theorem stepsTurn_gap {again : Parser (List (PathStep Node))} (hs : (s.peek false).IsGap) :
    (stepsTurn term again).run s = .ok [] s := by
  rw [stepsTurn, EStateM.run_bind, run_peek]
  rcases hs with hs | ⟨count, hs⟩ <;> simp [hs]

omit hbars ht in
/-- Whatever the bound, a gap ends the steps. -/
theorem steps_gap (hs : (s.peek false).IsGap) (n : Nat) : (steps term n).run s = .ok [] s := by
  cases n with
  | zero => rfl
  | succ n => exact stepsTurn_gap hs

/-- The steps of a path keep step, by the lemma for loops: each turn does, and at a bar there is
none. -/
theorem steps_keepsStep (h : InStep x y top j j' s s') (hj : j ≤ k) (hj' : j' ≤ k') :
    KeepsStep x y (SameIn (InStep x y top j j')) (steps term j) (steps term' j') s s' := by
  refine .loop hbars (fun n (_ : Unit) => steps term n) (fun n _ => steps term' n) false ?_ ?_ ()
    hj hj' h
  · intro _ m m' s s' _ _ h hends
    exact .of_ok (steps_gap hends.1 m) (steps_gap hends.2 m') ⟨rfl, h⟩
  · intro _ j j' m m' s s' hj hj' h hagain
    rw [steps_succ, steps_succ]
    exact stepsTurn_keepsStep hbars ht h hj hj' id (hagain ())

/-- A path from behind its beginning on. -/
theorem pathBehind_keepsStep (h : InStep x y top j j' s s') (hj : j ≤ k) (hj' : j' ≤ k')
    (root : PathRoot) (field : String) :
    KeepsStep x y (SameIn (InStep x y top j j')) (pathBehind term root field scope)
      (pathBehind term' root field scope) s s' := by
  unfold pathBehind
  have hle := h.left_le
  have hle' := h.right_le
  refine .remaining ((steps_keepsStep hbars ht h.tight (by omega) (by omega)).bind_same ?_)
  intro more t u hin
  have hin := hin.mono hle hle'
  extract_lets named fields path
  refine .peek hbars hin ?_ ?_
  · -- A bar is no period, so on both streams there is nothing for each value.
    intro t t' _ _ ⟨htok, htok'⟩
    rw [htok.isSymbol_eq, htok'.isSymbol_eq, Bool.and_false, if_neg Bool.false_ne_true]
    exact .pure ⟨rfl, hin⟩
  · intro t i i' _ hi hi' hbehind
    split
    · refine .pass ((ht.keeps (by omega) (by omega) hbehind).bind_same fun selector v v' hin => ?_)
      exact .pure ⟨rfl, hin.mono (Nat.le_of_lt hi) (Nat.le_of_lt hi')⟩
    · exact .pure ⟨rfl, hin⟩

/-- A path from behind its root sign on; a bar there ends a path that is its root alone. -/
theorem sigilPath_keepsStep (h : InStep x y top j j' s s') (hj : j ≤ k) (hj' : j' ≤ k')
    (root : PathRoot) :
    KeepsStep x y (SameIn (InStep x y top j j')) (sigilPath term root scope)
      (sigilPath term' root scope) s s' := by
  unfold sigilPath
  refine .peek hbars h ?_ ?_
  · intro t t' _ _ ⟨htok, htok'⟩
    rw [htok.isSymbol_eq, htok'.isSymbol_eq, if_neg Bool.false_ne_true]
    exact pathBehind_keepsStep hbars ht h hj hj' root ""
  · intro t i i' _ hi hi' hin
    split
    · refine .pass (.next hbars hin ?_ ?_)
      · intro t htok
        refine ⟨.expected t "field name", fun u => ?_⟩
        rw [fieldName_of_isGap (.inl htok)]
        exact ⟨rfl, rfl⟩
      · intro t l l' v v' _ hl hl' hin
        refine (fieldName_keepsStep hbars hin t).bind_same fun name w w' hin => ?_
        exact (pathBehind_keepsStep hbars ht hin (by omega) (by omega) root name).weaken
          (by omega) (by omega)
    · exact pathBehind_keepsStep hbars ht h hj hj' root ""

/-! ### Calls -/

/-- The arguments of a function on sequences: what has to be between them is expected on both
streams. -/
theorem sequenceArgs_keepsStep (h : InStep x y top j j' s s') (hj : j ≤ k) (hj' : j' ≤ k') :
    KeepsStep x y (SameIn (InStep x y top j j')) (sequenceArgs term scope)
      (sequenceArgs term' scope) s s' := by
  unfold sequenceArgs
  refine .expect hbars h fun i i' t u hi hi' hin => ?_
  refine (ht.keeps (by omega) (by omega) hin).bind_same fun source v v' hin => ?_
  refine .expect hbars hin fun l l' w w' hl hl' hin => ?_
  refine (joined_keepsStep hbars ht hin (by omega) (by omega)).bind_same fun part z z' hin => ?_
  exact .pure ⟨rfl, hin.mono (by omega) (by omega)⟩

/-- The call of a function on sequences keeps step, whatever is made of its arguments. -/
theorem sequenceCall_keepsStep (h : InStep x y top j j' s s') (hj : j ≤ k) (hj' : j' ≤ k')
    (build : Node → Node → Node) :
    KeepsStep x y (SameIn (InStep x y top j j'))
      (do
        let (sequence, part) ← sequenceArgs term scope
        expect .rightParen
        return build sequence part)
      (do
        let (sequence, part) ← sequenceArgs term' scope
        expect .rightParen
        return build sequence part) s s' := by
  refine (sequenceArgs_keepsStep hbars ht h hj hj').bind_same fun args t u hin => ?_
  refine .expect hbars hin fun i i' v v' hi hi' hin => ?_
  exact .pure ⟨rfl, hin.mono (Nat.le_of_lt hi) (Nat.le_of_lt hi')⟩

omit hbars ht in
/-- At the end a call of `SORT` is not closed. -/
theorem sortOrder_end (build : Option Node → Node) (hs : (s.peek true).kind = .finish) :
    (do
      let order ← sortOrder? term scope
      expect .rightParen
      return build order : Parser Node).run s =
      .error (.expected (s.peek true) (TokenKind.symbol .rightParen).name) (s.advance true) := by
  have horder : (sortOrder? term scope).run s = .ok none s := by
    rw [sortOrder?, EStateM.run_bind, run_peek]
    dsimp only
    rw [Token.isSymbol_of_finish hs, if_neg Bool.false_ne_true]
    rfl
  rw [EStateM.run_bind, horder]
  dsimp only
  rw [EStateM.run_bind, run_expect, Token.isSymbol_of_finish hs, if_neg Bool.false_ne_true]

/-- The direction of a sort and the parenthesis behind it, whatever is made of them. -/
theorem sortOrder_keepsStep (h : InStep x y top j j' s s') (hj : j ≤ k) (hj' : j' ≤ k')
    (build : Option Node → Node) :
    KeepsStep x y (SameIn (InStep x y top j j'))
      (do
        let order ← sortOrder? term scope
        expect .rightParen
        return build order)
      (do
        let order ← sortOrder? term' scope
        expect .rightParen
        return build order) s s' := by
  -- At a bar there is no comma, and then no parenthesis either, so both fail alike.
  have stops (hs : (s.peek true).kind = .finish) :
      KeepsStep x y (SameIn (InStep x y top j j'))
        (do
          let order ← sortOrder? term scope
          expect .rightParen
          return build order)
        (do
          let order ← sortOrder? term' scope
          expect .rightParen
          return build order) s s' :=
    .of_fails h (sortOrder_end build hs) (sortOrder_end build hs)
  have close (order : Option Node) {i i' : Nat} {t u : TokenStream} (hi : i ≤ j) (hi' : i' ≤ j')
      (hin : InStep x y top i i' t u) :
      KeepsStep x y (SameIn (InStep x y top j j'))
        (do expect .rightParen; return build order)
        (do expect .rightParen; return build order) t u :=
    .expect hbars hin fun l l' v v' hl hl' hin => .pure ⟨rfl, hin.mono (by omega) (by omega)⟩
  unfold sortOrder? at stops ⊢
  rw [bind_assoc, bind_assoc] at stops ⊢
  refine .peek hbars h ?_ ?_
  · rintro _ _ rfl rfl ⟨hs, -⟩
    exact stops hs
  · intro t i i' _ hi hi' hin
    -- Behind a comma the direction is read, and without one the parenthesis is expected.
    by_cases hcomma : t.isSymbol .comma = true
    · simp only [hcomma, if_true, bind_assoc]
      refine .pass ((joined_keepsStep hbars ht hin (by omega) (by omega)).bind_same ?_)
      intro order v v' hin
      by_cases hscalar : order.isScalar = true
      · simp only [hscalar]
        exact close (some order) (Nat.le_of_lt hi) (Nat.le_of_lt hi') hin
      · simp only [hscalar]
        exact .throw _ hin
    · simp only [hcomma]
      exact close none (Nat.le_refl _) (Nat.le_refl _) h

theorem sortCall_keepsStep (h : InStep x y top j j' s s') (hj : j ≤ k) (hj' : j' ≤ k') :
    KeepsStep x y (SameIn (InStep x y top j j')) (sortCall term scope) (sortCall term' scope)
      s s' := by
  unfold sortCall
  refine (sequenceArgs_keepsStep hbars ht h hj hj').bind_same fun args t u hin => ?_
  exact sortOrder_keepsStep hbars ht hin hj hj' (Node.sort args.1 args.2)

/-- A call with its arguments. They are the same on both sides, so both take the same branch. -/
theorem call_keepsStep (h : InStep x y top j j' s s') (hj : j ≤ k) (hj' : j' ≤ k')
    (token : Token) (name : String) :
    KeepsStep x y (SameIn (InStep x y top j j')) (call term token name scope)
      (call term' token name scope) s s' := by
  unfold call
  refine .expect hbars h fun i i' t u hi hi' hin => ?_
  refine (list_keepsStep hbars ht hin (by omega) (by omega)).bind_same fun args v v' hin => ?_
  have hin := hin.mono (Nat.le_of_lt hi) (Nat.le_of_lt hi')
  split
  · rename_i test ifTrue ifFalse
    by_cases hname : Text.sameName name "IIF" = true
    · by_cases hscalar : test.isScalar = true
      · simp only [hname, hscalar]
        exact .pure ⟨rfl, hin⟩
      · simp only [hname, hscalar]
        exact .throw _ hin
    · simp only [hname]
      exact callOf_keepsStep hin token name _
  · exact callOf_keepsStep hin token name _

/-- What a word begins. A bar behind it is no parenthesis, so it is a path. -/
theorem wordTerm_keepsStep (h : InStep x y top j j' s s') (hj : j ≤ k) (hj' : j' ≤ k')
    (token : Token) (word : String) :
    KeepsStep x y (SameIn (InStep x y top j j')) (wordTerm term token word scope)
      (wordTerm term' token word scope) s s' := by
  unfold wordTerm
  -- The constants ask for nothing behind them.
  split
  · exact .pure ⟨rfl, h⟩
  split
  · exact .pure ⟨rfl, h⟩
  split
  · exact .pure ⟨rfl, h⟩
  have path : KeepsStep x y (SameIn (InStep x y top j j'))
      (pathBehind term (bareRoot scope) word scope)
      (pathBehind term' (bareRoot scope) word scope) s s' :=
    pathBehind_keepsStep hbars ht h hj hj' (bareRoot scope) word
  refine .peek hbars h ?_ ?_
  · intro t t' _ _ ⟨htok, htok'⟩
    rw [Token.isSymbol_of_finish htok, htok'.not_leftParen, if_neg Bool.false_ne_true]
    exact path
  · intro t i i' _ hi hi' hin
    split
    · split
      · exact sequenceCall_keepsStep hbars ht h hj hj' Node.map
      · split
        · exact sequenceCall_keepsStep hbars ht h hj hj' Node.filter
        · split
          · exact sortCall_keepsStep hbars ht h hj hj'
          · exact call_keepsStep hbars ht h hj hj' token word
    · exact path

/-! ### Terms -/

theorem documentsTerm_keepsStep (h : InStep x y top j j' s s') (hj : j ≤ k) (hj' : j' ≤ k') :
    KeepsStep x y (SameIn (InStep x y top j j')) (documentsTerm term) (documentsTerm term')
      s s' := by
  unfold documentsTerm
  refine .peek hbars h ?_ ?_
  · intro t t' _ _ ⟨htok, htok'⟩
    rw [htok.isSymbol_eq, htok'.isSymbol_eq, if_neg Bool.false_ne_true]
    exact .pure ⟨rfl, h⟩
  · intro t i i' _ hi hi' hin
    split
    · refine .pass ((ht.keeps (by omega) (by omega) hin).bind_same fun selector u u' hin => ?_)
      exact .pure ⟨rfl, hin.mono (Nat.le_of_lt hi) (Nat.le_of_lt hi')⟩
    · exact .pure ⟨rfl, h⟩

/-- What an at sign begins: neither a word nor an integer is a bar. -/
theorem atTerm_keepsStep (h : InStep x y top j j' s s') (hj : j ≤ k) (hj' : j' ≤ k') :
    KeepsStep x y (SameIn (InStep x y top j j')) (atTerm term scope) (atTerm term' scope)
      s s' := by
  unfold atTerm
  have path : KeepsStep x y (SameIn (InStep x y top j j')) (sigilPath term .current scope)
      (sigilPath term' .current scope) s s' :=
    sigilPath_keepsStep hbars ht h hj hj' .current
  refine .peek hbars h ?_ ?_
  · intro t t' _ _ ⟨htok, htok'⟩
    rcases htok with htok | ⟨count, htok⟩ <;> rcases htok' with htok' | ⟨count', htok'⟩
    all_goals
      rw [htok, htok']
      exact path
  · intro t i i' _ hi hi' hin
    split
    · exact .pass (.pure ⟨rfl, hin.mono (Nat.le_of_lt hi) (Nat.le_of_lt hi')⟩)
    · exact .pass (.pure ⟨rfl, hin.mono (Nat.le_of_lt hi) (Nat.le_of_lt hi')⟩)
    · exact path

omit hbars ht in
/-- At the end there is no term, whatever the reader of the terms inside is. -/
theorem termWith_end (hs : (s.peek true).kind = .finish) : FailsAt (termWith term) s := by
  intro scope
  rw [termWith, EStateM.run_bind, run_next]
  dsimp only
  rw [hs]
  rfl

/-- A reader of terms keeps step if the one for the terms inside does so on the tokens behind
the first one. It takes a token. -/
theorem termWith_keepsStep (h : InStep x y top j j' s s') (hj : j ≤ k + 1) (hj' : j' ≤ k' + 1) :
    KeepsStep x y (fun a b t u => a = b ∧ ∃ i i', i < j ∧ i' < j' ∧ InStep x y top i i' t u)
      (termWith term scope) (termWith term' scope) s s' := by
  unfold termWith
  refine .next hbars h ?_ ?_
  · intro t htok
    have htok : t.kind = .finish := htok
    refine ⟨.unexpected t, fun u => ?_⟩
    rw [htok]
    exact ⟨rfl, rfl⟩
  · intro t i i' u u' _ hi hi' hin
    have hik : i ≤ k := by omega
    have hik' : i' ≤ k' := by omega
    -- What is behind the first token keeps step with fewer tokens left, which is all that is
    -- claimed.
    have behind {r r' : Parser Node} (hr : KeepsStep x y (SameIn (InStep x y top i i')) r r' u u') :
        KeepsStep x y (fun a b t u => a = b ∧ ∃ i i', i < j ∧ i' < j' ∧ InStep x y top i i' t u)
          r r' u u' :=
      hr.imp fun a b v v' hab => ⟨hab.1, i, i', hi, hi', hab.2⟩
    split
    · exact behind (minusTerm_keepsStep hbars hin t)
    · exact behind (number_keepsStep hin t false)
    · exact behind (number_keepsStep hin t false)
    · exact behind (wordTerm_keepsStep hbars ht hin hik hik' t _)
    · exact behind (.pure ⟨rfl, hin⟩)
    · exact behind (documentsTerm_keepsStep hbars ht hin hik hik')
    · exact behind (document_keepsStep hbars ht hin hik hik')
    · exact behind (array_keepsStep hbars ht hin hik hik')
    · exact behind (atTerm_keepsStep hbars ht hin hik hik')
    · exact behind (sigilPath_keepsStep hbars ht hin hik hik' .document)
    · refine behind ((joined_keepsStep hbars ht hin hik hik').bind_same fun inner v v' hin => ?_)
      refine .expect hbars hin fun l l' w w' hl hl' hin => ?_
      exact .pure ⟨rfl, hin.mono (Nat.le_of_lt hl) (Nat.le_of_lt hl')⟩
    · exact .throw _ hin

end

/-! ### Expressions -/

section

variable {x y : TokenStream} {top : List Token} (hbars : Bars x y)

theorem termUpTo_end {s : TokenStream} (hs : (s.peek true).kind = .finish) (bound : Nat) :
    FailsAt (termUpTo bound) s := by
  cases bound with
  | zero =>
      intro scope
      rfl
  | succ bound => exact termWith_end hs

include hbars

/-- Readers of terms within at most so many others keep step on streams of as many tokens. -/
theorem termUpTo_keepsStep (bound bound' : Nat) :
    TermsKeepStep x y top bound bound' (termUpTo bound) (termUpTo bound') := by
  -- The bounds go down together. A stream with a common token in front has one left on both sides,
  -- so the other bound is not zero either.
  induction bound generalizing bound' with
  | zero =>
      refine ⟨fun _ _ _ hs => ⟨termUpTo_end hs _, termUpTo_end hs _⟩, ?_⟩
      intro scope j j' s s' hj hj' h
      obtain ⟨m, m', hm, -⟩ | hstop := h.exists_turn hbars true
      · omega
      · exact .of_fails h (termUpTo_end hstop.1 0 scope) (termUpTo_end hstop.1 bound' scope)
  | succ bound ih =>
      refine ⟨fun _ _ _ hs => ⟨termUpTo_end hs _, termUpTo_end hs _⟩, ?_⟩
      intro scope j j' s s' hj hj' h
      obtain ⟨m, m', -, rfl⟩ | hstop := h.exists_turn hbars true
      · obtain ⟨bound', rfl⟩ : ∃ n, bound' = n + 1 := ⟨bound' - 1, by omega⟩
        refine (termWith_keepsStep hbars (ih bound') h hj hj').imp ?_
        intro a b t u ⟨heq, i, i', hi, hi', hin⟩
        exact ⟨heq, hin.mono (Nat.le_of_lt hi) (Nat.le_of_lt hi')⟩
      · exact .of_fails h (termUpTo_end hstop.1 _ scope) (termUpTo_end hstop.1 bound' scope)

variable {k k' : Nat} {s s' : TokenStream}

/-- Terms joined by operators are read alike from streams in step. -/
theorem full_keepsStep (scope : Scope) (h : InStep x y top k k' s s') :
    KeepsStep x y (SameIn (InStep x y top k k')) (full scope) (full scope) s s' := by
  unfold full
  refine .remaining ?_
  exact (joined_keepsStep hbars (termUpTo_keepsStep hbars _ _) h.tight (Nat.le_refl _)
    (Nat.le_refl _)).weaken h.left_le h.right_le

end

end Parser

end DocQuery
