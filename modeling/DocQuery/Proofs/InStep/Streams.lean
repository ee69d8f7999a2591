import DocQuery.Parser
import DocQuery.Proofs.Readers
/-!
# DocQuery.Proofs.InStep.Streams

Readers on two streams at once. Two streams are in step where they go on with the same tokens,
up to a place where no expression goes on in either of them (`TokenStream.InStep`). A reader
on the one stream keeps step with a reader on the other one if both take the same tokens and
yield the same; where the first one fails the second one is free, unless nothing sets the
streams apart (`Parser.KeepsStep`). There is one lemma for each way to put readers together.

The streams say how many tokens may be left in them, and every token that is taken makes the
two numbers smaller. So one lemma for each reader serves two ends: what stands behind an
expression does not matter to it, and every term inside another one begins behind it.
-/

namespace DocQuery

namespace Symbol

/-- The symbols at which an expression ends that stands inside something else. -/
def delimiters : List Symbol :=
  [.comma, .rightParen, .rightBracket, .rightBrace, .colon, .semicolon, .arrow]

end Symbol

namespace Token

/-- An expression ends in front of the token. -/
def Delimits (t : Token) : Prop :=
  t.kind = .finish ∨ ∃ d ∈ Symbol.delimiters, t.kind = .symbol d

/-- The token is the end, or consists of blanks. -/
def IsGap (t : Token) : Prop := t.kind = .finish ∨ ∃ count, t.kind = .space count

variable {t : Token}

theorem isFinish_iff : t.isFinish = true ↔ t.kind = .finish := by
  unfold isFinish
  cases t.kind <;> simp

theorem isSymbol_of_finish (h : t.kind = .finish) (symbol : Symbol) :
    t.isSymbol symbol = false := by
  simp [isSymbol, h]

theorem isSpace_iff : t.isSpace = true ↔ ∃ count, t.kind = .space count := by
  unfold isSpace
  cases t.kind <;> simp

theorem Delimits.operator?_eq (h : t.Delimits) : t.operator? = none := by
  rcases h with h | ⟨d, hd, h⟩
  · simp [operator?, h]
  · simp only [Symbol.delimiters, List.mem_cons, List.not_mem_nil, or_false] at hd
    rcases hd with rfl | rfl | rfl | rfl | rfl | rfl | rfl <;> simp [operator?, h]

theorem Delimits.quantifier?_eq (h : t.Delimits) : t.quantifier? = none := by
  rcases h with h | ⟨d, -, h⟩ <;> simp [quantifier?, isKeyword, h]

theorem Delimits.not_leftParen (h : t.Delimits) : t.isSymbol .leftParen = false := by
  rcases h with h | ⟨d, hd, h⟩
  · simp [isSymbol, h]
  · simp only [Symbol.delimiters, List.mem_cons, List.not_mem_nil, or_false] at hd
    rcases hd with rfl | rfl | rfl | rfl | rfl | rfl | rfl <;> simp [isSymbol, h]

theorem IsGap.isSymbol_eq (h : t.IsGap) (symbol : Symbol) : t.isSymbol symbol = false := by
  rcases h with h | ⟨count, h⟩ <;> simp [isSymbol, h]

end Token

/-! ### Streams in step -/

namespace TokenStream

/-- Nothing goes on with an expression in either stream: in the first one only blanks are
left, and in the second one there is a gap and then a token that delimits expressions. -/
structure Bars (x y : TokenStream) : Prop where
  left : (x.peek true).isFinish = true
  right : (y.peek true).Delimits
  touching : (y.peek false).IsGap

/-- The streams go on with the same tokens up to `x` and `y`. The first one lies within the
tokens of `top`, and at most `k` and `k'` tokens are left. -/
structure InStep (x y : TokenStream) (top : List Token) (k k' : Nat) (s s' : TokenStream) :
    Prop where
  common : ∃ body : List Token, (∀ t ∈ body, t.isFinish = false) ∧
    s.ahead = body ++ x.ahead ∧ s'.ahead = body ++ y.ahead
  left_finish : s.finish = x.finish
  right_finish : s'.finish = y.finish
  consumed : s.consumed = s'.consumed
  unread : s.isFinished = false
  within : s.ahead <:+ top
  left_le : s.remaining ≤ k
  right_le : s'.remaining ≤ k'

/-- What two streams show where no expression goes on. -/
def Stops : (skip : Bool) → Token → Token → Prop
  | true, t, t' => t.kind = .finish ∧ t'.Delimits
  | false, t, t' => t.IsGap ∧ t'.IsGap

/-- Where the end is next past blanks, the end is next at once or blanks are. -/
theorem isGap_of_peek {s : TokenStream} (h : (s.peek true).kind = .finish) :
    (s.peek false).IsGap := by
  cases hahead : s.ahead with
  | nil => simp_all [peek, rest, Token.IsGap]
  | cons t others =>
      by_cases hspace : t.isSpace = true
      · right
        simpa [peek, rest, hahead] using Token.isSpace_iff.mp hspace
      · left
        simp_all [peek, rest]

theorem Bars.stops {x y : TokenStream} (h : Bars x y) (skip : Bool) :
    Stops skip (x.peek skip) (y.peek skip) := by
  have hleft := Token.isFinish_iff.mp h.left
  cases skip with
  | true => exact ⟨hleft, h.right⟩
  | false => exact ⟨isGap_of_peek hleft, h.touching⟩

namespace InStep

variable {x y : TokenStream} {top : List Token} {k k' : Nat} {s s' : TokenStream}

theorem mono {m m' : Nat} (h : InStep x y top k k' s s') (hk : k ≤ m) (hk' : k' ≤ m') :
    InStep x y top m m' s s' :=
  { h with left_le := Nat.le_trans h.left_le hk, right_le := Nat.le_trans h.right_le hk' }

/-- Streams in step are in step for as many tokens as they have. -/
theorem tight (h : InStep x y top k k' s s') :
    InStep x y top s.remaining s'.remaining s s' :=
  { h with left_le := Nat.le_refl _, right_le := Nat.le_refl _ }

/-- Where nothing sets them apart, streams in step are equal. -/
theorem eq (h : InStep x y top k k' s s') (hxy : x = y) : s = s' := by
  obtain ⟨body, -, hs, hs'⟩ := h.common
  subst hxy
  cases s
  cases s'
  simp only [TokenStream.mk.injEq]
  exact ⟨h.consumed, hs.trans hs'.symm, h.left_finish.trans h.right_finish.symm⟩

/-- Both streams take the token that they show, if they show the same one. -/
theorem taken (h : InStep x y top k k' s s') {skip : Bool} {t : Token} {others : List Token}
    (hs : s.rest skip = t :: (others ++ x.ahead)) (hs' : s'.rest skip = t :: (others ++ y.ahead))
    (hall : ∀ u ∈ t :: others, u.isFinish = false) :
    ∃ i i', i < k ∧ i' < k' ∧ s.peek skip = t ∧ s'.peek skip = t ∧ t.isFinish = false ∧
      InStep x y top i i' (s.advance skip) (s'.advance skip) := by
  have hlt {r : TokenStream} {l : List Token} (hr : r.rest skip = t :: l) :
      (r.advance skip).remaining < r.remaining ∧ (r.advance skip).ahead = l ∧
        r.peek skip = t := by
    have hle := r.length_rest_le skip
    refine ⟨?_, ?_, ?_⟩
    · simp only [advance, hr, List.tail_cons, List.length_cons, remaining] at hle ⊢
      omega
    · simp [advance, hr]
    · simp [peek, hr]
  obtain ⟨hlts, hahead, hpeek⟩ := hlt hs
  obtain ⟨hlts', hahead', hpeek'⟩ := hlt hs'
  have hk := h.left_le
  have hk' := h.right_le
  have hfinish := hall t (List.mem_cons_self ..)
  have hrest : s.rest skip <:+ s.ahead := by
    unfold rest
    split
    · exact List.dropWhile_suffix _
    · exact List.suffix_refl _
  refine ⟨(s.advance skip).remaining, (s'.advance skip).remaining, by omega, by omega, hpeek,
    hpeek', hfinish, ?_⟩
  constructor
  · exact ⟨others, fun u hu => hall u (List.mem_cons_of_mem _ hu), hahead, hahead'⟩
  · exact h.left_finish
  · exact h.right_finish
  · simp [advance, hpeek, hpeek']
  · simp [isFinished, advance, hpeek, hfinish]
  · exact ((List.tail_suffix _).trans hrest).trans h.within
  · exact Nat.le_refl _
  · exact Nat.le_refl _

/-- Streams in step show and take the same token, or they show what sets them apart. -/
theorem peek_cases (h : InStep x y top k k' s s') (skip : Bool) :
    (∃ t i i', i < k ∧ i' < k' ∧ s.peek skip = t ∧ s'.peek skip = t ∧ t.isFinish = false ∧
      InStep x y top i i' (s.advance skip) (s'.advance skip)) ∨
    (s.peek skip = x.peek skip ∧ s'.peek skip = y.peek skip) := by
  obtain ⟨body, hbody, hs, hs'⟩ := h.common
  cases skip with
  | true =>
      have hrest {r : TokenStream} {l : List Token} (hr : r.ahead = body ++ l) :
          r.rest true = if (body.dropWhile Token.isSpace).isEmpty then l.dropWhile Token.isSpace
            else body.dropWhile Token.isSpace ++ l := by
        rw [rest, if_pos rfl, hr, List.dropWhile_append]
      cases hdrop : body.dropWhile Token.isSpace with
      | nil =>
          right
          have hpeek {r z : TokenStream} (hr : r.ahead = body ++ z.ahead)
              (hfinish : r.finish = z.finish) : r.peek true = z.peek true := by
            rw [peek, hrest hr, hdrop, hfinish]
            rfl
          exact ⟨hpeek hs h.left_finish, hpeek hs' h.right_finish⟩
      | cons t others =>
          left
          rw [hdrop] at hrest
          obtain ⟨i, i', hi⟩ := h.taken (hrest hs) (hrest hs') fun u hu =>
            hbody u ((List.dropWhile_suffix _).subset (hdrop ▸ hu))
          exact ⟨t, i, i', hi⟩
  | false =>
      cases body with
      | nil =>
          right
          have hpeek {r z : TokenStream} (hr : r.ahead = z.ahead)
              (hfinish : r.finish = z.finish) : r.peek false = z.peek false := by
            simp [peek, rest, hr, hfinish]
          exact ⟨hpeek hs h.left_finish, hpeek hs' h.right_finish⟩
      | cons t others =>
          left
          have hrest : s.rest false = t :: (others ++ x.ahead) := hs
          obtain ⟨i, i', hi⟩ := h.taken hrest hs' hbody
          exact ⟨t, i, i', hi⟩

/-- Streams in step show and take the same token, or no expression goes on in either of them. -/
theorem next_cases (hbars : Bars x y) (h : InStep x y top k k' s s') (skip : Bool) :
    (∃ t i i', i < k ∧ i' < k' ∧ s.peek skip = t ∧ s'.peek skip = t ∧ t.isFinish = false ∧
      InStep x y top i i' (s.advance skip) (s'.advance skip)) ∨
    Stops skip (s.peek skip) (s'.peek skip) := by
  refine (h.peek_cases skip).imp_right ?_
  intro ⟨hs, hs'⟩
  rw [hs, hs']
  exact hbars.stops skip

/-- Where a loop over tokens is given as many turns as there may be tokens, it has a turn left
unless no expression goes on. -/
theorem exists_turn (hbars : Bars x y) (h : InStep x y top k k' s s') (skip : Bool) :
    (∃ m m', k = m + 1 ∧ k' = m' + 1) ∨ Stops skip (s.peek skip) (s'.peek skip) := by
  obtain ⟨t, i, i', hi, hi', -⟩ | hstop := h.next_cases hbars skip
  · exact .inl ⟨k - 1, k' - 1, by omega, by omega⟩
  · exact .inr hstop

end InStep

end TokenStream

namespace Parser

open TokenStream

/-- Where the first reader has a result, both have, and the results and the streams behind them
are as `Q` says. Where the first one fails and nothing sets the streams apart, the second one
does the same. -/
def KeepsStep (x y : TokenStream) {α : Type} (Q : α → α → TokenStream → TokenStream → Prop)
    (r r' : Parser α) (s s' : TokenStream) : Prop :=
  match r.run s, r'.run s' with
  | .ok a t, .ok b u => Q a b t u
  | .ok _ _, .error _ _ => False
  | .error e t, result => x = y → result = .error e t

/-- Both results are the same, and the streams are as `G` says. -/
def SameIn {α : Type} (G : TokenStream → TokenStream → Prop) (a b : α) (t u : TokenStream) :
    Prop :=
  a = b ∧ G t u

section

variable {x y : TokenStream} {top : List Token} {k k' : Nat} {s s' : TokenStream}
variable {α β : Type} {Q : β → β → TokenStream → TokenStream → Prop}

theorem KeepsStep.of_ok {r r' : Parser β} {a b : β} {t u : TokenStream} (hr : r.run s = .ok a t)
    (hr' : r'.run s' = .ok b u) (h : Q a b t u) : KeepsStep x y Q r r' s s' := by
  unfold KeepsStep
  rw [hr, hr']
  exact h

theorem KeepsStep.of_error {r r' : Parser β} {e : ParseError} {t : TokenStream}
    (hr : r.run s = .error e t) (hr' : x = y → r'.run s' = .error e t) :
    KeepsStep x y Q r r' s s' := by
  unfold KeepsStep
  rw [hr]
  exact hr'

theorem KeepsStep.pure {a b : β} (h : Q a b s s') :
    KeepsStep x y Q (Pure.pure a) (Pure.pure b) s s' := h

theorem KeepsStep.throw (e : ParseError) (h : InStep x y top k k' s s') :
    KeepsStep x y Q (MonadExcept.throw e) (MonadExcept.throw e) s s' :=
  .of_error rfl fun hxy => by rw [h.eq hxy]; rfl

/-- Readers keep step where both fail in the same way on the first stream. -/
theorem KeepsStep.of_fails {r r' : Parser β} {e : ParseError} {t : TokenStream}
    (h : InStep x y top k k' s s') (hr : r.run s = .error e t) (hr' : r'.run s = .error e t) :
    KeepsStep x y Q r r' s s' :=
  .of_error hr fun hxy => h.eq hxy ▸ hr'

theorem KeepsStep.imp {Q' : β → β → TokenStream → TokenStream → Prop} {r r' : Parser β}
    (h : KeepsStep x y Q r r' s s') (hQ : ∀ a b t u, Q a b t u → Q' a b t u) :
    KeepsStep x y Q' r r' s s' := by
  unfold KeepsStep at h ⊢
  split
  · rename_i hr hr'
    rw [hr, hr'] at h
    exact hQ _ _ _ _ h
  · rename_i hr hr'
    rw [hr, hr'] at h
    exact h
  · rename_i hr
    rw [hr] at h
    exact h

theorem KeepsStep.weaken {r r' : Parser β} {m m' : Nat}
    (h : KeepsStep x y (SameIn (InStep x y top k k')) r r' s s') (hk : k ≤ m) (hk' : k' ≤ m') :
    KeepsStep x y (SameIn (InStep x y top m m')) r r' s s' :=
  h.imp fun _ _ _ _ hab => ⟨hab.1, hab.2.mono hk hk'⟩

/-- Readers that keep step may be followed by readers that do. -/
theorem KeepsStep.bind {P : α → α → TokenStream → TokenStream → Prop} {r r' : Parser α}
    {f f' : α → Parser β} (h : KeepsStep x y P r r' s s')
    (hf : ∀ a b t u, P a b t u → KeepsStep x y Q (f a) (f' b) t u) :
    KeepsStep x y Q (r >>= f) (r' >>= f') s s' := by
  unfold KeepsStep at h
  cases hr : r.run s with
  | ok a t =>
      cases hr' : r'.run s' with
      | ok b u =>
          rw [hr, hr'] at h
          have hboth := hf a b t u h
          unfold KeepsStep at hboth ⊢
          rw [EStateM.run_bind, EStateM.run_bind, hr, hr']
          exact hboth
      | error e u =>
          rw [hr, hr'] at h
          exact h.elim
  | error e t =>
      rw [hr] at h
      refine .of_error (e := e) (t := t) ?_ fun hxy => ?_
      · rw [EStateM.run_bind, hr]
      · rw [EStateM.run_bind, h hxy]

/-- Readers that keep step and yield the same may be followed by readers that keep step behind
them. -/
theorem KeepsStep.bind_same {G : TokenStream → TokenStream → Prop} {r r' : Parser α}
    {f f' : α → Parser β} (h : KeepsStep x y (SameIn G) r r' s s')
    (hf : ∀ a t u, G t u → KeepsStep x y Q (f a) (f' a) t u) :
    KeepsStep x y Q (r >>= f) (r' >>= f') s s' :=
  h.bind fun a _ t u hab => hab.1 ▸ hf a t u hab.2

variable (hbars : Bars x y)

include hbars

/-- What is done with the next token keeps step if it does so with any token, and fails where no
expression goes on. -/
theorem KeepsStep.next {f f' : Token → Parser β} {skip : Bool} (h : InStep x y top k k' s s')
    (hstop : ∀ t, (if skip then t.kind = .finish else t.IsGap) →
      ∃ e, ∀ u, (f t).run u = .error e u ∧ (f' t).run u = .error e u)
    (hnext : ∀ t i i' u u', t.isFinish = false → i < k → i' < k' → InStep x y top i i' u u' →
      KeepsStep x y Q (f t) (f' t) u u') :
    KeepsStep x y Q (Parser.next skip >>= f) (Parser.next skip >>= f') s s' := by
  obtain ⟨t, i, i', hi, hi', ht, ht', hfinish, hin⟩ | hends := h.next_cases hbars skip
  · have hboth := hnext t i i' _ _ hfinish hi hi' hin
    unfold KeepsStep at hboth ⊢
    rw [EStateM.run_bind, EStateM.run_bind, run_next, run_next, ht, ht']
    exact hboth
  · have hleft : if skip then (s.peek skip).kind = .finish else (s.peek skip).IsGap := by
      cases skip <;> exact hends.1
    obtain ⟨e, he⟩ := hstop _ hleft
    refine .of_error (e := e) (t := s.advance skip) ?_ fun hxy => ?_
    · rw [EStateM.run_bind, run_next]
      exact (he _).1
    · rw [← h.eq hxy, EStateM.run_bind, run_next]
      exact (he _).2

/-- What is done in view of the next token keeps step if it does so in view of any token, and
where no expression goes on. -/
theorem KeepsStep.peek {f f' : Token → Parser β} {skip : Bool} (h : InStep x y top k k' s s')
    (hstop : ∀ t t', s.peek skip = t → s'.peek skip = t' → Stops skip t t' →
      KeepsStep x y Q (f t) (f' t') s s')
    (hnext : ∀ t i i', t.isFinish = false → i < k → i' < k' →
      InStep x y top i i' (s.advance skip) (s'.advance skip) →
      KeepsStep x y Q (f t) (f' t) s s') :
    KeepsStep x y Q (Parser.peek skip >>= f) (Parser.peek skip >>= f') s s' := by
  have hpeek (hboth : KeepsStep x y Q (f (s.peek skip)) (f' (s'.peek skip)) s s') :
      KeepsStep x y Q (Parser.peek skip >>= f) (Parser.peek skip >>= f') s s' := hboth
  refine hpeek ?_
  obtain ⟨t, i, i', hi, hi', ht, ht', hfinish, hin⟩ | hends := h.next_cases hbars skip
  · rw [ht, ht']
    exact hnext t i i' hfinish hi hi' hin
  · exact hstop _ _ rfl rfl hends

omit hbars in
theorem KeepsStep.pass {f f' : Unit → Parser β} {skip : Bool}
    (h : KeepsStep x y Q (f ()) (f' ()) (s.advance skip) (s'.advance skip)) :
    KeepsStep x y Q (Parser.pass skip >>= f) (Parser.pass skip >>= f') s s' := h

omit hbars in
theorem KeepsStep.remaining {f f' : Nat → Parser β}
    (h : KeepsStep x y Q (f s.remaining) (f' s'.remaining) s s') :
    KeepsStep x y Q (Parser.remaining >>= f) (Parser.remaining >>= f') s s' := h

theorem KeepsStep.expect {symbol : Symbol} {f f' : Unit → Parser β}
    (h : InStep x y top k k' s s')
    (hnext : ∀ i i' u u', i < k → i' < k' → InStep x y top i i' u u' →
      KeepsStep x y Q (f ()) (f' ()) u u') :
    KeepsStep x y Q (Parser.expect symbol >>= f) (Parser.expect symbol >>= f') s s' := by
  unfold Parser.expect
  rw [bind_assoc, bind_assoc]
  refine .next hbars h ?_ ?_
  · intro t ht
    have hno : t.isSymbol symbol = false := by simp_all [Token.isSymbol]
    refine ⟨.expected t (TokenKind.symbol symbol).name, fun u => ?_⟩
    simp [hno]
  · intro t i i' u u' _ hi hi' hin
    by_cases hsymbol : t.isSymbol symbol = true
    · simpa [hsymbol] using hnext i i' u u' hi hi' hin
    · simp only [hsymbol]
      exact .throw _ hin

/-- A loop with as many turns as there are tokens keeps step if its turns do, whatever readers that
keep step they go on with, and if it comes out alike where no expression goes on. -/
theorem KeepsStep.loop {ι : Type} (loop loop' : Nat → ι → Parser β) (skip : Bool)
    (hstop : ∀ {index : ι} {m m' : Nat} {s s' : TokenStream}, m ≤ k → m' ≤ k' →
      InStep x y top m m' s s' → Stops skip (s.peek skip) (s'.peek skip) →
      KeepsStep x y (SameIn (InStep x y top m m')) (loop m index) (loop' m' index) s s')
    (hturn : ∀ {index : ι} {j j' m m' : Nat} {s s' : TokenStream}, j ≤ k → j' ≤ k' →
      InStep x y top j j' s s' →
      (∀ (index : ι) {i i' : Nat} {t u : TokenStream}, i < j → i' < j' → InStep x y top i i' t u →
        KeepsStep x y (SameIn (InStep x y top j j')) (loop m index) (loop' m' index) t u) →
      KeepsStep x y (SameIn (InStep x y top j j')) (loop (m + 1) index) (loop' (m' + 1) index) s s')
    (index : ι) {j j' : Nat} (hj : j ≤ k) (hj' : j' ≤ k') (h : InStep x y top j j' s s') :
    KeepsStep x y (SameIn (InStep x y top j j')) (loop j index) (loop' j' index) s s' := by
  -- Every turn takes a token, so there are turns enough for what is left behind it.
  induction j generalizing j' s s' index with
  | zero =>
      obtain ⟨m, m', hm, -⟩ | hends := h.exists_turn hbars skip
      · cases hm
      · exact hstop hj hj' h hends
  | succ j ih =>
      obtain ⟨m, m', -, rfl⟩ | hends := h.exists_turn hbars skip
      · refine hturn hj hj' h ?_
        intro index i i' t u hi hi' hin
        have hin := hin.mono (Nat.le_of_lt_succ hi) (Nat.le_of_lt_succ hi')
        exact (ih index (by omega) (by omega) hin).weaken (Nat.le_succ j) (Nat.le_succ m')
      · exact hstop hj hj' h hends

end

end Parser

end DocQuery
