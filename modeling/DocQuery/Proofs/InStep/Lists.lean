import DocQuery.Proofs.InStep.Streams
/-!
# DocQuery.Proofs.InStep.Lists

Rows of operators, documents, arrays and arguments keep step. Each of their loops is one turn over
and over (`Parser.rowTurn` and those behind it), so its lemma is about the turn, with any two
readers that keep step for what is behind it, and then an induction on the number of turns. The
readers are given the reader of a term, and the lemmas are about any two that keep step
(`Parser.TermsKeepStep`).
-/

namespace DocQuery

namespace Parser

open TokenStream

/-! ### One turn of each loop

The loops of the reader count down the tokens that are left, and two readers that keep step may have
different numbers of them. Written as a turn, a loop no longer mentions the number; the equations
below say that every loop is its turn over and over. -/

section

variable (term : Scope → Parser Node) (scope : Scope)

/-- Reads an operator and the term on its right, and goes on with `again`. -/
def rowTurn (again : Parser Precedence.Tail) : Parser Precedence.Tail := do
  match ← operator? with
  | none => return []
  | some op =>
    let right ← rightTerm term op scope
    return (op, right) :: (← again)

/-- Reads an entry, and behind a comma goes on with `again`. -/
def entriesTurn (again : List String → Nat → Parser (List (String × Node)))
    (others : List String) (counter : Nat) : Parser (List (String × Node)) := do
  let written ← key
  let (value, terminator) ← entryValue term written scope
  let (name, counter) := freshName written others written counter
  if terminator.isSymbol .comma then
    return (name, value.asScalar) :: (← again (others ++ [name]) counter)
  else if terminator.isSymbol .rightBrace then return [(name, value.asScalar)]
  else throw (.expected terminator "`,` or `\x7d`")

/-- Reads an expression, and behind a comma goes on with `again`. -/
def listTurn (close : Symbol) (again : Parser (List Node)) : Parser (List Node) := do
  let item ← joined term scope
  let terminator ← next true
  if terminator.isSymbol .comma then return item :: (← again)
  else if terminator.isSymbol close then return [item]
  else throw (.expected terminator ("`,` or " ++ (TokenKind.symbol close).name))

/-- Reads a step, and goes on with `again` behind a step that yields one value. -/
def stepsTurn (again : Parser (List (PathStep Node))) : Parser (List (PathStep Node)) := do
  match (← peek false).kind with
  | .symbol .period =>
    pass false
    let name ← fieldName (← next false)
    return .member name :: (← again)
  | .symbol .leftBracket =>
    pass false
    let step ← bracketStep term
    if step.isEnumerable then return [step]
    else return step :: (← again)
  | _ => return []

theorem operations_succ (bound : Nat) :
    operations term scope (bound + 1) = rowTurn term scope (operations term scope bound) := rfl

theorem entries_succ (bound : Nat) (others : List String) (counter : Nat) :
    entries term scope (bound + 1) others counter =
      entriesTurn term scope (entries term scope bound) others counter := rfl

theorem listed_succ (close : Symbol) (bound : Nat) :
    listed term scope close (bound + 1) =
      listTurn term scope close (listed term scope close bound) := rfl

theorem steps_succ (bound : Nat) :
    steps term (bound + 1) = stepsTurn term (steps term bound) := rfl

end

/-! ### Readers that keep step -/

/-- There is no term at the beginning of the stream. -/
def FailsAt (term : Scope → Parser Node) (s : TokenStream) : Prop :=
  ∀ scope : Scope, (term scope).run s = .error (.unexpected (s.peek true)) (s.advance true)

/-- The readers of terms keep step on streams of so many tokens. -/
structure TermsKeepStep (x y : TokenStream) (top : List Token) (k k' : Nat)
    (term term' : Scope → Parser Node) : Prop where
  ends : ∀ {j j' : Nat} {s s' : TokenStream}, j ≤ k → j' ≤ k' → InStep x y top j j' s s' →
    (s.peek true).kind = .finish → FailsAt term s ∧ FailsAt term' s
  keeps : ∀ {scope : Scope} {j j' : Nat} {s s' : TokenStream}, j ≤ k → j' ≤ k' →
    InStep x y top j j' s s' →
    KeepsStep x y (SameIn (InStep x y top j j')) (term scope) (term' scope) s s'

section

variable {x y : TokenStream} {top : List Token} (hbars : Bars x y)
variable {j j' : Nat} {s s' : TokenStream} (h : InStep x y top j j' s s')

include hbars h

/-- Readers of the next operator keep step; one that finds an operator takes a token. -/
theorem operator?_keepsStep :
    KeepsStep x y (fun a b t u => a = b ∧ ∃ i i', i ≤ j ∧ i' ≤ j' ∧
      (a.isSome = true → i < j ∧ i' < j') ∧ InStep x y top i i' t u) operator? operator? s s' := by
  unfold operator?
  refine .peek hbars h ?_ ?_
  · intro t t' _ _ ⟨ht, ht'⟩
    -- Neither the end nor what stands for it in the other stream is an operator or begins one.
    have hnone : t.operator? = none ∧ t.quantifier? = none := by
      have hdelimits : t.Delimits := .inl ht
      exact ⟨hdelimits.operator?_eq, hdelimits.quantifier?_eq⟩
    rw [hnone.1, hnone.2, ht'.operator?_eq, ht'.quantifier?_eq]
    exact .pure ⟨rfl, j, j', Nat.le_refl _, Nat.le_refl _, by simp, h⟩
  · intro t i i' _ hi hi' hin
    cases t.operator? with
    | some op =>
        exact .pass (.pure ⟨rfl, i, i', Nat.le_of_lt hi, Nat.le_of_lt hi',
          fun _ => ⟨hi, hi'⟩, hin⟩)
    | none =>
        -- A quantifier needs a comparison behind it; without one both readers fail on the same
        -- token.
        cases t.quantifier? with
        | none => exact .pure ⟨rfl, j, j', Nat.le_refl _, Nat.le_refl _, by simp, h⟩
        | some quantifier =>
            refine .pass (.next hbars hin ?_ ?_)
            · intro t ht
              have hnone : t.operator? = none := Token.Delimits.operator?_eq (.inl ht)
              refine ⟨.expected t "operator", fun u => ?_⟩
              rw [hnone]
              exact ⟨rfl, rfl⟩
            · intro t l l' _ _ _ hl hl' hin
              split
              · exact .pure ⟨rfl, l, l', by omega, by omega, fun _ => ⟨by omega, by omega⟩, hin⟩
              · exact .throw _ hin
              · exact .throw _ hin

/-- Readers of a name keep step and take a token. -/
theorem key_keepsStep :
    KeepsStep x y (fun a b t u => a = b ∧ ∃ i i', i < j ∧ i' < j' ∧ InStep x y top i i' t u)
      key key s s' := by
  unfold key
  refine .next hbars h ?_ ?_
  · intro t ht
    have ht : t.kind = .finish := ht
    refine ⟨.expected t "key", fun u => ?_⟩
    rw [ht]
    exact ⟨rfl, rfl⟩
  · intro t i i' u u' _ hi hi' hin
    -- Words, integers and strings are names, and both readers see the same token.
    split
    · exact .pure ⟨rfl, i, i', hi, hi', hin⟩
    · exact .pure ⟨rfl, i, i', hi, hi', hin⟩
    · exact .pure ⟨rfl, i, i', hi, hi', hin⟩
    · exact .throw _ hin

omit hbars in
/-- A number is read from one token, which both readers have. -/
theorem number_keepsStep (token : Token) (negative : Bool) :
    KeepsStep x y (SameIn (InStep x y top j j')) (number token negative) (number token negative)
      s s' := by
  unfold number
  extract_lets signed node?
  cases node? with
  | some node => exact .pure ⟨rfl, h⟩
  | none => exact .throw _ h

omit hbars h in
theorem fieldName_of_isGap {token : Token} (hgap : token.IsGap) :
    fieldName token = throw (.expected token "field name") := by
  rcases hgap with hkind | ⟨count, hkind⟩ <;> rw [fieldName, hkind]

/-- The name of a field is read from a token and, for one in brackets, from the two behind it. -/
theorem fieldName_keepsStep (token : Token) :
    KeepsStep x y (SameIn (InStep x y top j j')) (fieldName token) (fieldName token) s s' := by
  unfold fieldName
  split
  · exact .pure ⟨rfl, h⟩
  · refine .next hbars h ?_ ?_
    · intro t ht
      have ht : t.kind = .finish := ht
      refine ⟨.expected t "string", fun u => ?_⟩
      rw [ht]
      exact ⟨rfl, rfl⟩
    · intro t i i' u u' _ hi hi' hin
      split
      · refine .expect hbars hin fun l l' v v' hl hl' hin => ?_
        exact .pure ⟨rfl, hin.mono (by omega) (by omega)⟩
      · exact .throw _ hin
  · exact .throw _ h

omit hbars in
theorem placeStep_keepsStep (token : Token) (text : List Char) :
    KeepsStep x y (SameIn (InStep x y top j j')) (placeStep token text) (placeStep token text)
      s s' := by
  unfold placeStep
  split
  · exact .pure ⟨rfl, h⟩
  · exact .throw _ h

omit hbars in
theorem callOf_keepsStep (token : Token) (name : String) (args : List Node) :
    KeepsStep x y (SameIn (InStep x y top j j')) (callOf token name args)
      (callOf token name args) s s' := by
  unfold callOf
  split
  · exact .pure ⟨rfl, h⟩
  · exact .pure ⟨rfl, h⟩
  · exact .throw _ h

theorem minusTerm_keepsStep (token : Token) :
    KeepsStep x y (SameIn (InStep x y top j j')) (minusTerm token) (minusTerm token) s s' := by
  unfold minusTerm
  refine .peek hbars h ?_ ?_
  · intro t t' _ _ ⟨ht, ht'⟩
    -- Behind the minus sign there is a blank or nothing, and both readers fail.
    rcases ht with ht | ⟨count, ht⟩ <;> rcases ht' with ht' | ⟨count', ht'⟩
    all_goals
      rw [ht, ht']
      exact .throw _ h
  · intro t i i' _ hi hi' hin
    split
    · exact .pass ((number_keepsStep hin t true).weaken (Nat.le_of_lt hi) (Nat.le_of_lt hi'))
    · exact .pass ((number_keepsStep hin t true).weaken (Nat.le_of_lt hi) (Nat.le_of_lt hi'))
    · exact .throw _ h

end

section

variable {x y : TokenStream} {top : List Token} (hbars : Bars x y) {k k' : Nat}
variable {term term' : Scope → Parser Node} (ht : TermsKeepStep x y top k k' term term')
variable {scope : Scope} {j j' : Nat} {s s' : TokenStream}

include hbars ht

/-! ### Terms joined by operators -/

/-- What stands on the right of an operator keeps step, bounds with their `AND` or a term. -/
theorem rightTerm_keepsStep (h : InStep x y top j j' s s') (hj : j ≤ k) (hj' : j' ≤ k')
    (op : Operator) :
    KeepsStep x y (SameIn (InStep x y top j j')) (rightTerm term op scope)
      (rightTerm term' op scope) s s' := by
  unfold rightTerm
  refine (ht.keeps hj hj' h).bind_same fun lower t u hin => ?_
  split
  · refine .next hbars hin ?_ ?_
    · intro joint hjoint
      have hno : joint.isKeyword "AND" = false := by simp_all [Token.isKeyword]
      refine ⟨.expected joint "AND", fun u => ?_⟩
      rw [hno]
      exact ⟨rfl, rfl⟩
    · intro joint i i' v v' _ hi hi' hin
      -- The checks that follow are on what has been read, and that is the same.
      by_cases hand : joint.isKeyword "AND" = true
      · simp only [hand, if_true]
        refine (ht.keeps (by omega) (by omega) hin).bind_same fun upper v v' hin => ?_
        have hin := hin.mono (Nat.le_of_lt hi) (Nat.le_of_lt hi')
        by_cases hlower : lower.isScalar = true
        · by_cases hupper : upper.isScalar = true
          · simp only [hlower, hupper]
            exact .pure ⟨rfl, hin⟩
          · simp only [hlower, hupper]
            exact .throw _ hin
        · simp only [hlower]
          exact .throw _ hin
      · simp only [hand]
        exact .throw _ hin
  · exact .pure ⟨rfl, hin⟩

/-- A turn of the loop over operators keeps step if what it goes on with does. -/
theorem rowTurn_keepsStep {G : TokenStream → TokenStream → Prop}
    {again again' : Parser Precedence.Tail} (h : InStep x y top j j' s s') (hj : j ≤ k)
    (hj' : j' ≤ k') (hend : ∀ {t u}, InStep x y top j j' t u → G t u)
    (hagain : ∀ {i i' t u}, i < j → i' < j' → InStep x y top i i' t u →
      KeepsStep x y (SameIn G) again again' t u) :
    KeepsStep x y (SameIn G) (rowTurn term scope again) (rowTurn term' scope again') s s' := by
  unfold rowTurn
  refine (operator?_keepsStep hbars h).bind ?_
  intro op _ t u ⟨heq, i, i', hi, hi', hsome, hin⟩
  subst heq
  -- Without an operator the row ends here. With one a token has been taken, so what follows has
  -- fewer.
  cases op with
  | none => exact .pure ⟨rfl, hend (hin.mono hi hi')⟩
  | some op =>
      obtain ⟨hlt, hlt'⟩ := hsome rfl
      refine (rightTerm_keepsStep hbars ht hin (by omega) (by omega) op).bind_same ?_
      intro right v v' hin
      exact (hagain hlt hlt' hin).bind_same fun tail w w' hG => .pure ⟨rfl, hG⟩

omit hbars ht in
/-- Where no expression goes on there is no operator. -/
theorem rowTurn_end {again : Parser Precedence.Tail} (hs : (s.peek true).Delimits) :
    (rowTurn term scope again).run s = .ok [] s := by
  simp [rowTurn, operator?, EStateM.run_bind, hs.operator?_eq, hs.quantifier?_eq]

omit hbars ht in
theorem operations_end (hs : (s.peek true).Delimits) (n : Nat) :
    (operations term scope n).run s = .ok [] s := by
  cases n with
  | zero => rfl
  | succ n => exact rowTurn_end hs

/-- Rows of operators keep step. By `KeepsStep.loop` this comes down to one turn, and to the end of
the first stream, where both rows end. -/
theorem operations_keepsStep (h : InStep x y top j j' s s') (hj : j ≤ k) (hj' : j' ≤ k') :
    KeepsStep x y (SameIn (InStep x y top j j')) (operations term scope j)
      (operations term' scope j') s s' := by
  refine .loop hbars (fun n (_ : Unit) => operations term scope n)
    (fun n _ => operations term' scope n) true ?_ ?_ () hj hj' h
  · intro _ m m' s s' _ _ h hends
    exact .of_ok (operations_end (.inl hends.1) m) (operations_end hends.2 m') ⟨rfl, h⟩
  · intro _ j j' m m' s s' hj hj' h hagain
    rw [operations_succ, operations_succ]
    exact rowTurn_keepsStep hbars ht h hj hj' id (hagain ())

/-- A term and the row behind it keep step, and so does what is made of them. -/
theorem joined_keepsStep (h : InStep x y top j j' s s') (hj : j ≤ k) (hj' : j' ≤ k') :
    KeepsStep x y (SameIn (InStep x y top j j')) (joined term scope) (joined term' scope)
      s s' := by
  unfold joined
  refine (ht.keeps hj hj' h).bind_same fun first t u hin => .remaining ?_
  have hle := hin.left_le
  have hle' := hin.right_le
  refine (operations_keepsStep hbars ht hin.tight (by omega) (by omega)).bind_same ?_
  intro tail v v' hin
  have hin := hin.mono hle hle'
  -- Both rows are the same, so the reducer does the same.
  split
  · exact .pure ⟨rfl, hin⟩
  · exact .throw _ hin

omit hbars ht in
/-- At the end there are no terms joined by operators. -/
theorem joined_end (hterm : FailsAt term s) :
    (joined term scope).run s = .error (.unexpected (s.peek true)) (s.advance true) := by
  rw [joined, EStateM.run_bind, hterm scope]

/-! ### Documents, arrays and arguments -/

/-- The value of an entry may be followed by readers that keep step, if they fail where the end
is read behind it. -/
theorem entryValue_keepsStep {β : Type} {Q : β → β → TokenStream → TokenStream → Prop}
    {f f' : Node × Token → Parser β} (written : String) (h : InStep x y top j j' s s')
    (hj : j ≤ k) (hj' : j' ≤ k')
    (hstop : ∀ value t, t.kind = .finish →
      ∃ e, ∀ u, (f (value, t)).run u = .error e u ∧ (f' (value, t)).run u = .error e u)
    (hnext : ∀ entry i i' u u', i < j → i' < j' → InStep x y top i i' u u' →
      KeepsStep x y Q (f entry) (f' entry) u u') :
    KeepsStep x y Q (entryValue term written scope >>= f) (entryValue term' written scope >>= f')
      s s' := by
  unfold entryValue
  rw [bind_assoc, bind_assoc]
  refine .next hbars h ?_ ?_
  · intro t htok
    have htok : t.kind = .finish := htok
    have hno := Token.isSymbol_of_finish htok .colon
    obtain ⟨e, he⟩ := hstop (Node.shorthand written) t htok
    refine ⟨e, fun u => ?_⟩
    rw [hno]
    exact he u
  · intro t i i' u u' _ hi hi' hin
    -- With a colon the value is written and the token behind it is read; without one this is that
    -- token already.
    by_cases hcolon : t.isSymbol .colon = true
    · simp only [hcolon, if_true, bind_assoc]
      refine (joined_keepsStep hbars ht hin (by omega) (by omega)).bind_same ?_
      intro value v v' hin
      refine .next hbars hin (fun t htok => hstop value t htok) ?_
      intro t l l' w w' _ hl hl' hin
      exact hnext (value, t) l l' w w' (by omega) (by omega) hin
    · simp only [hcolon]
      exact hnext _ i i' u u' hi hi' hin

/-- A turn of the loop over the entries of a document keeps step if what it goes on with does. -/
theorem entriesTurn_keepsStep {G : TokenStream → TokenStream → Prop}
    {again again' : List String → Nat → Parser (List (String × Node))} {others : List String}
    {counter : Nat} (h : InStep x y top j j' s s') (hj : j ≤ k) (hj' : j' ≤ k')
    (hend : ∀ {t u}, InStep x y top j j' t u → G t u)
    (hagain : ∀ {others counter i i' t u}, i < j → i' < j' → InStep x y top i i' t u →
      KeepsStep x y (SameIn G) (again others counter) (again' others counter) t u) :
    KeepsStep x y (SameIn G) (entriesTurn term scope again others counter)
      (entriesTurn term' scope again' others counter) s s' := by
  unfold entriesTurn
  refine (key_keepsStep hbars h).bind ?_
  intro written _ t u ⟨heq, i, i', hi, hi', hin⟩
  subst heq
  refine entryValue_keepsStep hbars ht written hin (by omega) (by omega) ?_ ?_
  · intro value t htok
    have hno := Token.isSymbol_of_finish htok
    refine ⟨.expected t "`,` or `\x7d`", fun u => ?_⟩
    simp [hno]
  · intro ⟨value, terminator⟩ l l' v v' hl hl' hin
    dsimp only
    split
    · exact (hagain (by omega) (by omega) hin).bind_same fun rest w w' hG => .pure ⟨rfl, hG⟩
    · split
      · exact .pure ⟨rfl, hend (hin.mono (by omega) (by omega))⟩
      · exact .throw _ hin

omit hbars ht in
/-- At the end there is no entry. -/
theorem entriesTurn_end {again : List String → Nat → Parser (List (String × Node))}
    (hs : (s.peek true).kind = .finish) (others : List String) (counter : Nat) :
    (entriesTurn term scope again others counter).run s =
      .error (.expected (s.peek true) "key") (s.advance true) := by
  simp [entriesTurn, key, EStateM.run_bind, hs]

omit hbars ht in
theorem entries_end (hs : (s.peek true).kind = .finish) (n : Nat) (others : List String)
    (counter : Nat) :
    (entries term scope n others counter).run s =
      .error (.expected (s.peek true) "key") (s.advance true) := by
  cases n with
  | zero => rfl
  | succ n => exact entriesTurn_end hs others counter

/-- Entries keep step, with the names that are in use and the counter as what the loop carries. -/
theorem entries_keepsStep {others : List String} {counter : Nat} (h : InStep x y top j j' s s')
    (hj : j ≤ k) (hj' : j' ≤ k') :
    KeepsStep x y (SameIn (InStep x y top j j')) (entries term scope j others counter)
      (entries term' scope j' others counter) s s' := by
  refine .loop hbars (fun n (names : List String × Nat) => entries term scope n names.1 names.2)
    (fun n names => entries term' scope n names.1 names.2) true ?_ ?_ (others, counter) hj hj' h
  · intro names m m' s s' _ _ h hends
    exact .of_fails h (entries_end hends.1 m names.1 names.2)
      (entries_end hends.1 m' names.1 names.2)
  · intro names j j' m m' s s' hj hj' h hagain
    rw [entries_succ, entries_succ]
    refine entriesTurn_keepsStep hbars ht h hj hj' id ?_
    intro others counter i i' t u hi hi' hin
    exact hagain (others, counter) hi hi' hin

omit hbars ht in
theorem document_end (hs : (s.peek true).kind = .finish) :
    (document term scope).run s = .error (.expected (s.peek true) "key") (s.advance true) := by
  rw [document, EStateM.run_bind, run_peek]
  dsimp only
  rw [Token.isSymbol_of_finish hs, if_neg Bool.false_ne_true, EStateM.run_bind, run_remaining]
  dsimp only
  rw [EStateM.run_bind, entries_end hs]

theorem document_keepsStep (h : InStep x y top j j' s s') (hj : j ≤ k) (hj' : j' ≤ k') :
    KeepsStep x y (SameIn (InStep x y top j j')) (document term scope) (document term' scope)
      s s' := by
  -- At the end neither reader finds a name.
  have stops (hs : (s.peek true).kind = .finish) :
      KeepsStep x y (SameIn (InStep x y top j j')) (document term scope) (document term' scope)
        s s' :=
    .of_fails h (document_end hs) (document_end hs)
  unfold document
  refine .peek hbars h ?_ ?_
  · rintro _ _ rfl rfl ⟨hs, -⟩
    exact stops hs
  · intro t i i' _ hi hi' hin
    split
    · exact .pass (.pure ⟨rfl, hin.mono (Nat.le_of_lt hi) (Nat.le_of_lt hi')⟩)
    · refine .remaining ?_
      have hle := h.left_le
      have hle' := h.right_le
      refine (entries_keepsStep hbars ht h.tight (by omega) (by omega)).bind_same ?_
      intro entries t u hin
      exact .pure ⟨rfl, hin.mono hle hle'⟩

/-- A turn of the loop over a list keeps step if what it goes on with does. -/
theorem listTurn_keepsStep {G : TokenStream → TokenStream → Prop} {close : Symbol}
    {again again' : Parser (List Node)} (h : InStep x y top j j' s s') (hj : j ≤ k) (hj' : j' ≤ k')
    (hend : ∀ {t u}, InStep x y top j j' t u → G t u)
    (hagain : ∀ {i i' t u}, i < j → i' < j' → InStep x y top i i' t u →
      KeepsStep x y (SameIn G) again again' t u) :
    KeepsStep x y (SameIn G) (listTurn term scope close again)
      (listTurn term' scope close again') s s' := by
  unfold listTurn
  refine (joined_keepsStep hbars ht h hj hj').bind_same fun item t u hin => ?_
  refine .next hbars hin ?_ ?_
  · intro t htok
    have htok : t.kind = .finish := htok
    have hno := Token.isSymbol_of_finish htok
    refine ⟨.expected t ("`,` or " ++ (TokenKind.symbol close).name), fun u => ?_⟩
    simp [hno]
  · intro t i i' v v' _ hi hi' hin
    split
    · exact (hagain hi hi' hin).bind_same fun rest w w' hG => .pure ⟨rfl, hG⟩
    · split
      · exact .pure ⟨rfl, hend (hin.mono (Nat.le_of_lt hi) (Nat.le_of_lt hi'))⟩
      · exact .throw _ hin

omit hbars ht in
/-- At the end there is no list. -/
theorem listTurn_end {close : Symbol} {again : Parser (List Node)} (hterm : FailsAt term s) :
    (listTurn term scope close again).run s =
      .error (.unexpected (s.peek true)) (s.advance true) := by
  rw [listTurn, EStateM.run_bind, joined_end hterm]

omit hbars ht in
theorem listed_end {close : Symbol} (hterm : FailsAt term s) (n : Nat) :
    (listed term scope close n).run s = .error (.unexpected (s.peek true)) (s.advance true) := by
  cases n with
  | zero => rfl
  | succ n => exact listTurn_end hterm

/-- Items between commas keep step; at the end neither reader finds one. -/
theorem listed_keepsStep {close : Symbol} (h : InStep x y top j j' s s') (hj : j ≤ k)
    (hj' : j' ≤ k') :
    KeepsStep x y (SameIn (InStep x y top j j')) (listed term scope close j)
      (listed term' scope close j') s s' := by
  refine .loop hbars (fun n (_ : Unit) => listed term scope close n)
    (fun n _ => listed term' scope close n) true ?_ ?_ () hj hj' h
  · intro _ m m' s s' hm hm' h hends
    obtain ⟨hterm, hterm'⟩ := ht.ends hm hm' h hends.1
    exact .of_fails h (listed_end hterm m) (listed_end hterm' m')
  · intro _ j j' m m' s s' hj hj' h hagain
    rw [listed_succ, listed_succ]
    exact listTurn_keepsStep hbars ht h hj hj' id (hagain ())

omit hbars ht in
theorem list_end {close : Symbol} (hterm : FailsAt term s) (hs : (s.peek true).kind = .finish) :
    (list term scope close).run s = .error (.unexpected (s.peek true)) (s.advance true) := by
  rw [list, EStateM.run_bind, run_peek]
  dsimp only
  rw [Token.isSymbol_of_finish hs, if_neg Bool.false_ne_true, EStateM.run_bind, run_remaining]
  exact listed_end hterm _

theorem list_keepsStep {close : Symbol} (h : InStep x y top j j' s s') (hj : j ≤ k)
    (hj' : j' ≤ k') :
    KeepsStep x y (SameIn (InStep x y top j j')) (list term scope close) (list term' scope close)
      s s' := by
  -- At the end neither reader finds an item or the closing symbol.
  have stops (hs : (s.peek true).kind = .finish) :
      KeepsStep x y (SameIn (InStep x y top j j')) (list term scope close)
        (list term' scope close) s s' := by
    obtain ⟨hterm, hterm'⟩ := ht.ends hj hj' h hs
    exact .of_fails h (list_end hterm hs) (list_end hterm' hs)
  unfold list
  refine .peek hbars h ?_ ?_
  · rintro _ _ rfl rfl ⟨hs, -⟩
    exact stops hs
  · intro t i i' _ hi hi' hin
    split
    · exact .pass (.pure ⟨rfl, hin.mono (Nat.le_of_lt hi) (Nat.le_of_lt hi')⟩)
    · refine .remaining ?_
      have hle := h.left_le
      have hle' := h.right_le
      exact (listed_keepsStep hbars ht h.tight (by omega) (by omega)).weaken hle hle'

theorem array_keepsStep (h : InStep x y top j j' s s') (hj : j ≤ k) (hj' : j' ≤ k') :
    KeepsStep x y (SameIn (InStep x y top j j')) (array term scope) (array term' scope) s s' := by
  unfold array
  exact (list_keepsStep hbars ht h hj hj').bind_same fun items t u hin => .pure ⟨rfl, hin⟩

end

end Parser

end DocQuery
