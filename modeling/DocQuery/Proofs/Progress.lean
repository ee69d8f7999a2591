import DocQuery.Proofs.InStep
import DocQuery.Proofs.Names
/-!
# DocQuery.Proofs.Progress

Reading comes to an end on any tokens, whether they make an expression or not. The loops of the
readers are bounded by the number of tokens that are left; here it is shown that the bounds are
never what ends them. Every loop is the repetition of one turn, and a turn asks for the turns
behind it only where fewer tokens are left (`Parser.Advances`). The same holds of terms inside
one another, which is the loop in which a turn is a term.

A reader cannot go on behind an error. So what a turn asks for somewhere shows in its outcome,
and a turn that comes out the same whatever is read in some place does not ask there.
-/

namespace DocQuery

namespace TokenStream

/-- The end has not been read, and it stands nowhere but behind the tokens. -/
structure IsOpen (s : TokenStream) : Prop where
  ended : s.finish.isFinish = true
  inner : ∀ t ∈ s.ahead, t.isFinish = false
  unread : s.isFinished = false

/-- The stream is what is left of the other one behind at least one of its tokens. -/
structure IsBehind (t s : TokenStream) : Prop where
  finish : t.finish = s.finish
  suffix : t.ahead <:+ s.ahead
  lt : t.remaining < s.remaining

/-- The stream with no tokens left. -/
def atEnd (s : TokenStream) : TokenStream := { ahead := [], finish := s.finish }

variable {s t u : TokenStream}

theorem IsOpen.bars (h : s.IsOpen) : Bars s.atEnd s.atEnd := by
  have hkind : s.finish.kind = .finish := Token.isFinish_iff.mp h.ended
  exact ⟨h.ended, .inl hkind, .inl hkind⟩

/-- An open stream is in step with itself. -/
theorem IsOpen.inStep (h : s.IsOpen) :
    InStep s.atEnd s.atEnd s.ahead s.remaining s.remaining s s where
  common := ⟨s.ahead, h.inner, (List.append_nil _).symm, (List.append_nil _).symm⟩
  left_finish := rfl
  right_finish := rfl
  consumed := rfl
  unread := h.unread
  within := List.suffix_refl _
  left_le := Nat.le_refl _
  right_le := Nat.le_refl _

variable {i i' : Nat}

/-- What is in step with itself within an open stream is open. -/
theorem InStep.isOpen (h : InStep s.atEnd s.atEnd s.ahead i i' t u) (hs : s.IsOpen) :
    t.IsOpen where
  ended := h.left_finish ▸ hs.ended
  inner := by
    obtain ⟨body, hbody, ht, -⟩ := h.common
    rw [ht, atEnd, List.append_nil]
    exact hbody
  unread := h.unread

theorem InStep.isBehind (h : InStep s.atEnd s.atEnd s.ahead i i' t u) (hi : i < s.remaining) :
    t.IsBehind s where
  finish := h.left_finish
  suffix := h.within
  lt := Nat.lt_of_le_of_lt h.left_le hi

end TokenStream

namespace Parser

open TokenStream

/-! ### Loops that end

A loop advances if one pass through it is one turn, with the loop in the place of the turns behind,
and if these are asked for only where fewer tokens are left. Then it ends, by induction on the
tokens that are left. -/

section

variable {ι α : Type}

/-- The loop ends from this place: a turn asks for the turns behind it only in places from which
the loop ends. -/
inductive Ends (turn : (ι → Parser α) → ι → Parser α) (loop : ι → Parser α) :
    ι → TokenStream → Prop where
  | intro {i : ι} {s : TokenStream} (P : ι → TokenStream → Prop)
    (asks : ∀ again : ι → Parser α, (∀ j t, P j t → (again j).run t = (loop j).run t) →
      (loop i).run s = (turn again i).run s)
    (ends : ∀ j t, P j t → Ends turn loop j t) : Ends turn loop i s

/-- The loop is the repetition of a turn, a turn asks for the turns behind it only behind the
place where it begins, and so the loop ends. -/
structure Advances (turn : (ι → Parser α) → ι → Parser α) (loop : ι → Parser α) : Prop where
  asks : ∀ i s, s.IsOpen → ∀ again : ι → Parser α,
    (∀ j t, t.IsOpen → t.IsBehind s → (again j).run t = (loop j).run t) →
      (loop i).run s = (turn again i).run s
  ends : ∀ i s, s.IsOpen → Ends turn loop i s

variable {turn : (ι → Parser α) → ι → Parser α} {loop : ι → Parser α}

/-- What asks only behind the place where it begins ends, since the tokens grow fewer. -/
theorem Advances.of_asks (h : ∀ i s, s.IsOpen → ∀ again : ι → Parser α,
    (∀ j t, t.IsOpen → t.IsBehind s → (again j).run t = (loop j).run t) →
      (loop i).run s = (turn again i).run s) : Advances turn loop := by
  refine ⟨h, ?_⟩
  intro i s hs
  induction hn : s.remaining using Nat.strongRecOn generalizing i s with
  | ind n ih =>
      refine .intro (fun _ t => t.IsOpen ∧ t.IsBehind s) ?_ ?_
      · intro again hagain
        exact h i s hs again fun j t ht hbehind => hagain j t ⟨ht, hbehind⟩
      · intro j t ⟨ht, hbehind⟩
        exact ih t.remaining (hn ▸ hbehind.lt) j t ht rfl

end

section

variable {α : Type} {x y : TokenStream} {s s' : TokenStream}

/-- Readers that keep step on streams which nothing sets apart do the same. -/
theorem KeepsStep.run_eq {r r' : Parser α} (h : KeepsStep x x (SameIn Eq) r r' s s') :
    r.run s = r'.run s' := by
  unfold KeepsStep at h
  cases hr : r.run s with
  | ok a t =>
      cases hr' : r'.run s' with
      | ok b u =>
          rw [hr, hr'] at h
          rw [h.1, h.2]
      | error e u =>
          rw [hr, hr'] at h
          exact h.elim
  | error e t =>
      rw [hr] at h
      exact (h rfl).symm

/-- So do readers that keep step and leave streams that are in step. -/
theorem KeepsStep.run_eq_of_inStep {top : List Token} {k k' : Nat} {r r' : Parser α}
    (h : KeepsStep x x (SameIn (InStep x x top k k')) r r' s s') : r.run s = r'.run s' :=
  (h.imp fun _ _ _ _ hab => ⟨hab.1, hab.2.eq rfl⟩).run_eq

theorem KeepsStep.of_run_eq {r r' : Parser α} (h : r.run s = r'.run s') :
    KeepsStep x y (SameIn Eq) r r' s s' := by
  unfold KeepsStep
  rw [← h]
  cases r.run s with
  | ok a t => exact ⟨rfl, rfl⟩
  | error e t => exact fun _ => rfl

/-- Readers that do the same behind a place keep step there. -/
theorem KeepsStep.of_behind {r r' : Parser α} {t u : TokenStream} {i i' : Nat} (hs : s.IsOpen)
    (h : ∀ t, t.IsOpen → t.IsBehind s → r.run t = r'.run t) (hi : i < s.remaining)
    (hin : InStep s.atEnd s.atEnd s.ahead i i' t u) :
    KeepsStep s.atEnd s.atEnd (SameIn Eq) r r' t u := by
  refine .of_run_eq ?_
  rw [← hin.eq rfl]
  exact h t (hin.isOpen hs) (hin.isBehind hi)

theorem KeepsStep.congr {Q : α → α → TokenStream → TokenStream → Prop} {r r' q q' : Parser α}
    (h : KeepsStep x y Q r r' s s') (hq : q.run s = r.run s) (hq' : q'.run s' = r'.run s') :
    KeepsStep x y Q q q' s s' := by
  unfold KeepsStep at h ⊢
  rw [hq, hq']
  exact h

end

/-! ### Terms inside one another

The bound on terms inside one another is the number of tokens. Two bounds that are large enough read
the same, and this is shown by running both in step. -/

section

variable {x y : TokenStream} {top : List Token} (hbars : Bars x y) {k k' : Nat}

include hbars

/-- A reader of terms within as many others as there are tokens is the reader of terms. -/
theorem termUpTo_keepsStep_single (bound bound' : Nat) :
    TermsKeepStep x y top bound bound' (termUpTo bound) single := by
  refine ⟨fun _ _ _ hs => ⟨termUpTo_end hs _, fun scope => termUpTo_end hs _ scope⟩, ?_⟩
  intro scope j j' s s' hj hj' h
  have hle := h.left_le
  refine KeepsStep.weaken ?_ h.left_le h.right_le
  exact ((termUpTo_keepsStep hbars bound s'.remaining).keeps (by omega) (Nat.le_refl _)
    h.tight).congr rfl rfl

theorem single_keepsStep : TermsKeepStep x y top k k' single single := by
  refine ⟨fun _ _ _ hs => ⟨fun scope => termUpTo_end hs _ scope,
    fun scope => termUpTo_end hs _ scope⟩, ?_⟩
  intro scope j j' s s' hj hj' h
  refine KeepsStep.weaken ?_ h.left_le h.right_le
  exact ((termUpTo_keepsStep hbars s.remaining s'.remaining).keeps (Nat.le_refl _)
    (Nat.le_refl _) h.tight).congr rfl rfl

end

variable {s : TokenStream}

/-- A term asks for the terms inside it only behind its first token. -/
theorem single_advances : Advances termWith single := by
  refine .of_asks ?_
  intro scope s hs again hagain
  obtain ⟨m, m', hm, -⟩ | hstop := hs.inStep.exists_turn hs.bars true
  · -- A token is left. The terms inside begin behind it, where `again` reads as `single` does.
    have behind {j j' : Nat} {t u : TokenStream} (hj : j ≤ m)
        (h : InStep s.atEnd s.atEnd s.ahead j j' t u) (scope : Scope) :
        t = u ∧ (again scope).run t = (single scope).run t :=
      ⟨h.eq rfl, hagain scope t (h.isOpen hs) (h.isBehind (by omega))⟩
    have ht : TermsKeepStep s.atEnd s.atEnd s.ahead m m (termUpTo m) again := by
      refine ⟨?_, ?_⟩
      · intro j j' t u hj _ h hend
        refine ⟨termUpTo_end hend m, fun scope => ?_⟩
        rw [(behind hj h scope).2]
        exact termUpTo_end hend _ scope
      · intro scope j j' t u hj hj' h
        obtain ⟨rfl, heq⟩ := behind hj h scope
        exact ((termUpTo_keepsStep_single hs.bars m m).keeps hj hj' h).congr rfl heq
    have hrun : (single scope).run s = (termWith (termUpTo m) scope).run s := by
      show (termUpTo s.remaining scope).run s = _
      rw [hm]
      rfl
    rw [hrun]
    refine ((termWith_keepsStep hs.bars ht hs.inStep (by omega) (by omega)).imp ?_).run_eq
    intro a b t u ⟨heq, i, i', _, _, hin⟩
    exact ⟨heq, hin.eq rfl⟩
  · -- No token is left, and nothing is asked for.
    show (termUpTo s.remaining scope).run s = _
    rw [termUpTo_end hstop.1 _ scope, termWith_end hstop.1 scope]

variable {s : TokenStream}

/-- A term takes at least one token, and not the end. -/
theorem single_isBehind (hs : s.IsOpen) {scope : Scope} {n : Node} {t : TokenStream}
    (h : (single scope).run s = .ok n t) : t.IsOpen ∧ t.IsBehind s := by
  have hkeeps : KeepsStep s.atEnd s.atEnd (fun a b t u => a = b ∧ ∃ i i', i < s.remaining ∧
      i' < s.remaining ∧ InStep s.atEnd s.atEnd s.ahead i i' t u) (termWith single scope)
      (termWith single scope) s s :=
    termWith_keepsStep hs.bars (single_keepsStep hs.bars) hs.inStep (Nat.le_succ _)
      (Nat.le_succ _)
  rw [single_advances.asks scope s hs single fun _ _ _ _ => rfl] at h
  unfold KeepsStep at hkeeps
  rw [h] at hkeeps
  obtain ⟨-, i, i', hi, -, hin⟩ := hkeeps
  exact ⟨hin.isOpen hs, hin.isBehind hi⟩

/-- Terms joined by operators are read with the reader of terms. -/
theorem full_run (hs : s.IsOpen) (scope : Scope) :
    (full scope).run s = (joined single scope).run s :=
  (joined_keepsStep hs.bars (termUpTo_keepsStep_single hs.bars _ _) hs.inStep
    (Nat.le_refl _) (Nat.le_refl _)).run_eq_of_inStep

/-- Terms joined by operators take at least one token, and not the end. -/
theorem full_isBehind (hs : s.IsOpen) {scope : Scope} {n : Node} {t : TokenStream}
    (h : (full scope).run s = .ok n t) : t.IsOpen ∧ t.IsBehind s := by
  rw [full_run hs, joined, bind_ok] at h
  obtain ⟨first, u, hfirst, h⟩ := h
  obtain ⟨hu, hbehind⟩ := single_isBehind hs hfirst
  have hkeeps := (operations_keepsStep hu.bars (single_keepsStep hu.bars) hu.inStep
    (Nat.le_refl _) (Nat.le_refl _) : KeepsStep u.atEnd u.atEnd
      (SameIn (InStep u.atEnd u.atEnd u.ahead u.remaining u.remaining))
      (operations single scope u.remaining) (operations single scope u.remaining) u u)
  simp only [bind_ok, remaining_ok] at h
  obtain ⟨_, _, ⟨rfl, rfl⟩, tail, v, htail, h⟩ := h
  obtain rfl : v = t := by
    split at h
    · exact (pure_ok.mp h).2
    · exact (throw_ok.mp h).elim
  -- The row behind the first term only goes further on.
  unfold KeepsStep at hkeeps
  rw [htail] at hkeeps
  have hin := hkeeps.2
  refine ⟨hin.isOpen hu, ?_, ?_, ?_⟩
  · exact hin.left_finish.trans hbehind.finish
  · exact hin.within.trans hbehind.suffix
  · exact Nat.lt_of_le_of_lt hin.left_le hbehind.lt

/-! ### Loops over tokens -/

section

variable {ι α : Type} {turn : (ι → Parser α) → ι → Parser α} {loop : ι → Parser α}

/-- A loop with as many turns as there are tokens is a loop whose turns ask only behind the place
where they begin, if more turns do not matter and a turn without tokens comes out as none. -/
theorem Advances.of_bounded (bounded : Nat → ι → Parser α) (skip : Bool)
    (hloop : ∀ i s, (loop i).run s = (bounded s.remaining i).run s)
    (hsucc : ∀ n i, bounded (n + 1) i = turn (bounded n) i)
    (hend : ∀ i s n again, s.IsOpen → Stops skip (s.peek skip) (s.peek skip) →
      (bounded n i).run s = (turn again i).run s)
    (hbound : ∀ i n m s, s.IsOpen → s.remaining ≤ n → s.remaining ≤ m →
      (bounded n i).run s = (bounded m i).run s)
    (hturn : ∀ i s again again', s.IsOpen →
      (∀ j t, t.IsOpen → t.IsBehind s → (again j).run t = (again' j).run t) →
      (turn again i).run s = (turn again' i).run s) : Advances turn loop := by
  refine .of_asks ?_
  intro i s hs again hagain
  rw [hloop]
  obtain ⟨m, m', hm, -⟩ | hstop := hs.inStep.exists_turn hs.bars skip
  · rw [hm, hsucc]
    refine hturn i s _ _ hs ?_
    intro j t ht hbehind
    have hlt := hbehind.lt
    rw [hagain j t ht hbehind, hloop]
    exact hbound j _ _ t ht (by omega) (Nat.le_refl _)
  · exact hend i s _ again hs hstop

end

section

variable (scope : Scope)

/-- The loop over operators. -/
def rowLoop : Parser Precedence.Tail := do operations single scope (← remaining)

/-- The loop over the entries of a document. -/
def entriesLoop (others : List String) (counter : Nat) : Parser (List (String × Node)) := do
  entries single scope (← remaining) others counter

/-- The loop over the items of an array or the arguments of a call. -/
def listLoop (close : Symbol) : Parser (List Node) := do
  listed single scope close (← remaining)

/-- The loop over the steps of a path. -/
def stepsLoop : Parser (List (PathStep Node)) := do steps single (← remaining)

theorem rowLoop_advances :
    Advances (fun again (_ : Unit) => rowTurn single scope (again ()))
      (fun _ => rowLoop scope) := by
  refine .of_bounded (fun n _ => operations single scope n) true (fun _ _ => rfl)
    (fun _ _ => rfl) ?_ ?_ ?_
  · intro _ s n again _ hstop
    rw [operations_end hstop.2, rowTurn_end hstop.2]
  · intro _ n m s hs hn hm
    exact (operations_keepsStep hs.bars (single_keepsStep hs.bars) (hs.inStep.mono hn hm)
      (Nat.le_refl _) (Nat.le_refl _)).run_eq_of_inStep
  · intro _ s again again' hs hagain
    refine (rowTurn_keepsStep hs.bars (single_keepsStep hs.bars) hs.inStep (Nat.le_refl _)
      (Nat.le_refl _) (fun hin => hin.eq rfl) ?_).run_eq
    intro i i' t u hi _ hin
    exact .of_behind hs (hagain ()) hi hin

theorem entriesLoop_advances :
    Advances (fun again (others, counter) =>
        entriesTurn single scope (fun others counter => again (others, counter)) others counter)
      (fun (others, counter) => entriesLoop scope others counter) := by
  refine .of_bounded (fun n (others, counter) => entries single scope n others counter) true
    (fun _ _ => rfl) (fun _ _ => rfl) ?_ ?_ ?_
  · intro (others, counter) s n again _ hstop
    rw [entries_end hstop.1, entriesTurn_end hstop.1]
  · intro (others, counter) n m s hs hn hm
    exact (entries_keepsStep hs.bars (single_keepsStep hs.bars) (hs.inStep.mono hn hm)
      (Nat.le_refl _) (Nat.le_refl _)).run_eq_of_inStep
  · intro (others, counter) s again again' hs hagain
    refine (entriesTurn_keepsStep hs.bars (single_keepsStep hs.bars) hs.inStep (Nat.le_refl _)
      (Nat.le_refl _) (fun hin => hin.eq rfl) ?_).run_eq
    intro others counter i i' t u hi _ hin
    exact .of_behind hs (hagain (others, counter)) hi hin

theorem listLoop_advances (close : Symbol) :
    Advances (fun again (_ : Unit) => listTurn single scope close (again ()))
      (fun _ => listLoop scope close) := by
  refine .of_bounded (fun n _ => listed single scope close n) true (fun _ _ => rfl)
    (fun _ _ => rfl) ?_ ?_ ?_
  · intro _ s n again _ hstop
    have hterm : FailsAt single s := fun scope => termUpTo_end hstop.1 _ scope
    rw [listed_end hterm, listTurn_end hterm]
  · intro _ n m s hs hn hm
    exact (listed_keepsStep hs.bars (single_keepsStep hs.bars) (hs.inStep.mono hn hm)
      (Nat.le_refl _) (Nat.le_refl _)).run_eq_of_inStep
  · intro _ s again again' hs hagain
    refine (listTurn_keepsStep hs.bars (single_keepsStep hs.bars) hs.inStep (Nat.le_refl _)
      (Nat.le_refl _) (fun hin => hin.eq rfl) ?_).run_eq
    intro i i' t u hi _ hin
    exact .of_behind hs (hagain ()) hi hin

theorem stepsLoop_advances :
    Advances (fun again (_ : Unit) => stepsTurn single (again ())) (fun _ => stepsLoop) := by
  refine .of_bounded (fun n _ => steps single n) false (fun _ _ => rfl) (fun _ _ => rfl) ?_ ?_ ?_
  · intro _ s n again _ hstop
    rw [steps_gap hstop.1, stepsTurn_gap hstop.1]
  · intro _ n m s hs hn hm
    exact (steps_keepsStep hs.bars (single_keepsStep hs.bars) (hs.inStep.mono hn hm)
      (Nat.le_refl _) (Nat.le_refl _)).run_eq_of_inStep
  · intro _ s again again' hs hagain
    refine (stepsTurn_keepsStep hs.bars (single_keepsStep hs.bars) hs.inStep (Nat.le_refl _)
      (Nat.le_refl _) (fun hin => hin.eq rfl) ?_).run_eq
    intro i i' t u hi _ hin
    exact .of_behind hs (hagain ()) hi hin

end

/-! ### Fresh names

A counter makes names no two of which agree. Each name that is tried and refused is one of the
others, so there cannot be more refusals than others. -/

/-- The names that are tried for an entry, one after the other. -/
def attempt (key : String) (counter : Nat) : Nat → String
  | 0 => key
  | i + 1 => key ++ Number.intText (counter + i)

/-- No two of the names that are tried agree. -/
theorem attempt_distinct (key : String) (counter : Nat) {i j : Nat} (h : i ≠ j) :
    Text.sameName (attempt key counter i) (attempt key counter j) = false := by
  cases i with
  | zero =>
      cases j with
      | zero => exact absurd rfl h
      | succ j => exact Text.sameName_counter key _
  | succ i =>
      cases j with
      | zero =>
          rw [Text.sameName_comm]
          exact Text.sameName_counter key _
      | succ j => exact Text.sameName_counted (by omega)

/-- The loop over the names goes on with the next one where a name is taken, and ends where it
is not. Every name that is taken agrees with one more of the others, so the tries are at most as
many as those. -/
theorem freshName_tries (key : String) (others : List String) (start i : Nat) :
    ∃ tries, tries ≤ others.length ∧
      freshName key others (attempt key start i) (start + i) =
        (attempt key start (i + tries), start + (i + tries)) ∧
      (∀ j < tries, others.any (Text.sameName · (attempt key start (i + j))) = true) ∧
      others.any (Text.sameName · (attempt key start (i + tries))) = false := by
  induction hn : others.length using Nat.strongRecOn generalizing others i with
  | ind n ih =>
      rw [freshName]
      by_cases htaken : others.any (Text.sameName · (attempt key start i)) = true
      · obtain ⟨other, hother, hsame⟩ := List.any_eq_true.mp htaken
        have hshorter : (without others (attempt key start i)).length < others.length :=
          List.length_filter_lt_length_iff_exists.mpr ⟨other, hother, by simp [hsame]⟩
        obtain ⟨tries, hle, hname, hbefore, hfree⟩ :=
          ih _ (hn ▸ hshorter) (without others (attempt key start i)) (i + 1) rfl
        have hshift (m : Nat) : i + 1 + m = i + (m + 1) := by omega
        refine ⟨tries + 1, by omega, ?_, ?_, ?_⟩
        · rw [if_pos htaken, ← hshift]
          exact hname
        · intro j hj
          cases j with
          | zero => exact htaken
          | succ j =>
              obtain ⟨other, hother, hsame⟩ := List.any_eq_true.mp (hbefore j (by omega))
              rw [hshift] at hsame
              exact List.any_eq_true.mpr ⟨other, (List.mem_filter.mp hother).1, hsame⟩
        · rw [List.any_eq_false]
          intro other hother hsame
          rw [← hshift] at hsame
          -- What agrees with the name that is free does not agree with the one that was tried.
          have hno : Text.sameName other (attempt key start i) = false := by
            rw [Bool.eq_false_iff]
            intro hagain
            rw [Text.sameName_comm] at hagain
            have hboth := Text.sameName_trans hagain hsame
            rw [attempt_distinct key start (by omega)] at hboth
            cases hboth
          refine List.any_eq_false.mp hfree other ?_ hsame
          exact List.mem_filter.mpr ⟨hother, by simp [hno]⟩
      · rw [if_neg htaken]
        exact ⟨0, Nat.zero_le _, rfl, by omega, by simpa using htaken⟩

end Parser

/-! ### Tokens with one end -/

namespace TokenStream

/-- The stream of tokens of which the last one is the end and no other is. -/
theorem isOpen_ofTokens {body : List Token} {finish : Token} (hfinish : finish.isFinish = true)
    (hbody : ∀ t ∈ body, t.isFinish = false) :
    (ofTokens (body ++ [finish])).IsOpen ∧ (ofTokens (body ++ [finish])).ahead = body ∧
      (ofTokens (body ++ [finish])).finish = finish := by
  rw [ofTokens_concat hfinish]
  exact ⟨⟨hfinish, hbody, rfl⟩, rfl, rfl⟩

end TokenStream

namespace Parser

open TokenStream

/-- Reading comes to an end on any tokens of which the last one is the end and no other is. Their
stream is open, and wherever a stream is open:

* a term asks for the terms inside it only behind its first token, so there are only so many of
  them inside one another;
* a term, or terms joined by operators, take at least one token and never the end;
* the loops over operators, over the entries of a document, over the items of an array or the
  arguments of a call, and over the steps of a path ask for the turns behind a turn only where
  fewer tokens are left, and end;
* the loop over the names for an entry tries a fresh name in every turn, at most as many as there
  are others and one more. -/
theorem reading_advances {body : List Token} {finish : Token} (hfinish : finish.isFinish = true)
    (hbody : ∀ t ∈ body, t.isFinish = false) (scope : Scope) :
    ((ofTokens (body ++ [finish])).IsOpen ∧ (ofTokens (body ++ [finish])).ahead = body ∧
      (ofTokens (body ++ [finish])).finish = finish) ∧
    Advances termWith single ∧
    (∀ s, s.IsOpen → (full scope).run s = (joined single scope).run s) ∧
    (∀ s n t, s.IsOpen → (single scope).run s = .ok n t ∨ (full scope).run s = .ok n t →
      t.IsOpen ∧ t.IsBehind s) ∧
    Advances (fun again (_ : Unit) => rowTurn single scope (again ())) (fun _ => rowLoop scope) ∧
    Advances (fun again (others, counter) =>
        entriesTurn single scope (fun others counter => again (others, counter)) others counter)
      (fun (others, counter) => entriesLoop scope others counter) ∧
    (∀ close, Advances (fun again (_ : Unit) => listTurn single scope close (again ()))
      (fun _ => listLoop scope close)) ∧
    Advances (fun again (_ : Unit) => stepsTurn single (again ())) (fun _ => stepsLoop) ∧
    (∀ key others counter, ∃ tries, tries ≤ others.length ∧
      freshName key others key counter = (attempt key counter tries, counter + tries) ∧
      (∀ j < tries, others.any (Text.sameName · (attempt key counter j)) = true) ∧
      others.any (Text.sameName · (attempt key counter tries)) = false ∧
      ∀ i j, i ≠ j → Text.sameName (attempt key counter i) (attempt key counter j) = false) := by
  refine ⟨isOpen_ofTokens hfinish hbody, single_advances, fun s hs => full_run hs scope, ?_,
    rowLoop_advances scope, entriesLoop_advances scope, listLoop_advances scope,
    stepsLoop_advances, ?_⟩
  · intro s n t hs h
    rcases h with h | h
    · exact single_isBehind hs h
    · exact full_isBehind hs h
  · intro key others counter
    obtain ⟨tries, hle, hname, hbefore, hfree⟩ := freshName_tries key others counter 0
    simp only [Nat.zero_add] at hname hbefore hfree
    exact ⟨tries, hle, hname, hbefore, hfree, fun i j => attempt_distinct key counter⟩

/-- A call that breaks off behind its parenthesis: reading it ends. -/
theorem reading_advances_truncated :
    Token.isFinish ⟨default, .finish⟩ = true ∧
    (∀ t ∈ [(⟨default, .word "MAP"⟩ : Token), ⟨default, .symbol .leftParen⟩], t.isFinish = false) ∧
    Ends termWith single .root (ofTokens ([⟨default, .word "MAP"⟩,
      ⟨default, .symbol .leftParen⟩] ++ [⟨default, .finish⟩])) := by
  have hfinish : Token.isFinish ⟨default, .finish⟩ = true := rfl
  have hbody : ∀ t ∈ [(⟨default, .word "MAP"⟩ : Token), ⟨default, .symbol .leftParen⟩],
      t.isFinish = false := by decide
  have h := reading_advances hfinish hbody .root
  exact ⟨hfinish, hbody, h.2.1.ends .root _ h.1.1⟩

end Parser

end DocQuery
