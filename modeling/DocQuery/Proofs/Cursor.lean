import DocQuery.Proofs.InStep.Streams
import Mathlib.Data.List.Basic
/-!
# DocQuery.Proofs.Cursor

A stream of tokens is a cursor over them. The cursor keeps all tokens, the place of the one
read last and the place to go on from, and looks tokens up by their places; a place where
no token is makes a call fail. `Shows` ties a cursor to the stream that it is at a time: what
is still to be read are the tokens behind the place to go on from.

One call keeps the two together and gives the same answer on both (`Shows.call`), so any
sequence of calls does (`Shows.run`), and none of them fails. What is known of the places is
read off `Shows`: they never fall, only blanks are passed over, and behind the end is the end.
-/

namespace DocQuery

/-! ### Calls and answers -/

namespace TokenStream

/-- What a stream can be asked for. -/
inductive Call where
  /-- To read a token, past the blanks if they are to be skipped. -/
  | next (skip : Bool)
  /-- To show the token that would be read. -/
  | peek (skip : Bool)
  | current
  | isFinished
  | isExhausted
deriving DecidableEq, Repr

/-- What a stream answers. -/
inductive Answer where
  | token (token : Token)
  | truth (holds : Bool)
deriving DecidableEq, Repr

/-- The answer to a call, and the stream behind it. -/
def call (s : TokenStream) : Call → Answer × TokenStream
  | .next skip => (.token (s.peek skip), s.advance skip)
  | .peek skip => (.token (s.peek skip), s)
  | .current => (.token s.current, s)
  | .isFinished => (.truth s.isFinished, s)
  | .isExhausted => (.truth s.isExhausted, s)

/-- The answers to calls one after the other, and the stream behind them. -/
def run : TokenStream → List Call → List Answer × TokenStream
  | s, [] => ([], s)
  | s, call :: rest =>
    let (answer, s) := s.call call
    let (answers, s) := s.run rest
    (answer :: answers, s)

theorem run_cons (s : TokenStream) (call : Call) (rest : List Call) :
    s.run (call :: rest) =
      ((s.call call).1 :: ((s.call call).2.run rest).1, ((s.call call).2.run rest).2) :=
  rfl

theorem Ended.call {s : TokenStream} (h : s.Ended) (call : Call) : (s.call call).2.Ended := by
  cases call <;> exact h

theorem Ended.run {s : TokenStream} (h : s.Ended) (calls : List Call) : (s.run calls).2.Ended := by
  induction calls generalizing s with
  | nil => exact h
  | cons call rest ih => exact ih (h.call call)

/-- Nothing but blanks is left if blanks are all that is ahead. -/
theorem isExhausted_iff_blank {s : TokenStream} (hs : s.Ended)
    (hahead : ∀ token ∈ s.ahead, token.isFinish = false) :
    s.isExhausted = true ↔ ∀ token ∈ s.ahead, token.isSpace = true := by
  rw [← List.dropWhile_eq_nil_iff]
  unfold isExhausted peek rest
  cases hrest : s.ahead.dropWhile Token.isSpace with
  | nil =>
      have hfinish : s.finish.isFinish = true := Token.isFinish_iff.mpr hs
      simp [hfinish]
  | cons token left =>
      have hmem : token ∈ s.ahead :=
        (List.dropWhile_sublist _).subset (hrest ▸ List.mem_cons_self ..)
      simp [hahead token hmem]

/-- The end has been read, so nothing is left. -/
structure AtEnd (s : TokenStream) : Prop where
  isFinished : s.isFinished = true
  ahead : s.ahead = []

/-- A stream is at its end once a token that is the end has been read. -/
theorem atEnd_of_next {s : TokenStream} (hahead : ∀ token ∈ s.ahead, token.isFinish = false)
    {skip : Bool} (h : (s.peek skip).isFinish = true) : (s.advance skip).AtEnd := by
  refine ⟨h, ?_⟩
  change (s.rest skip).tail = []
  unfold peek at h
  cases hrest : s.rest skip with
  | nil => rfl
  | cons token left =>
      obtain ⟨gap, -, hgap⟩ := s.exists_ahead_rest skip
      have hmem : token ∈ s.ahead := by simp [hgap, hrest]
      simp [hrest, hahead token hmem] at h

/-- Behind the end is the end. -/
theorem AtEnd.peek {s : TokenStream} (h : s.AtEnd) (skip : Bool) : s.peek skip = s.finish := by
  cases skip <;> simp [TokenStream.peek, rest, h.ahead]

theorem AtEnd.call {s : TokenStream} (h : s.AtEnd) (hs : s.Ended) (call : Call) :
    (s.call call).2.AtEnd := by
  cases call with
  | next skip =>
      refine atEnd_of_next (by simp [h.ahead]) ?_
      rw [h.peek]
      exact Token.isFinish_iff.mpr hs
  | _ => exact h

theorem AtEnd.run {s : TokenStream} (h : s.AtEnd) (hs : s.Ended) (calls : List Call) :
    (s.run calls).2.AtEnd := by
  induction calls generalizing s with
  | nil => exact h
  | cons call rest ih => exact ih (h.call hs call) (hs.call call)

/-- Calls put no end among the tokens. -/
theorem mem_ahead_call {s : TokenStream} {call : Call} {token : Token}
    (h : token ∈ (s.call call).2.ahead) : token ∈ s.ahead := by
  cases call with
  | next skip =>
      obtain ⟨gap, -, hgap⟩ := s.exists_ahead_rest skip
      rw [hgap]
      exact List.mem_append_right _ (List.mem_of_mem_tail h)
  | _ => exact h

/-- A reading that has answered with the end leaves the stream at its end for good. -/
theorem run_atEnd {s : TokenStream} (hs : s.Ended)
    (hahead : ∀ token ∈ s.ahead, token.isFinish = false) {calls : List Call} {i : Nat}
    {skip : Bool} {token : Token} (hcall : calls[i]? = some (.next skip))
    (hanswer : (s.run calls).1[i]? = some (.token token)) (hfinish : token.isFinish = true) :
    (s.run calls).2.AtEnd := by
  induction calls generalizing s i with
  | nil => simp at hcall
  | cons call rest ih =>
      cases i with
      | zero =>
          obtain rfl : call = .next skip := by simpa using hcall
          obtain rfl : s.peek skip = token := by simpa [run_cons, TokenStream.call] using hanswer
          exact (atEnd_of_next hahead hfinish).run (hs.advance skip) rest
      | succ i =>
          rw [run_cons] at hanswer
          exact ih (hs.call call) (fun t ht => hahead t (mem_ahead_call ht)) hcall hanswer

end TokenStream

open TokenStream (Call Answer)

/-! ### Cursors -/

/-- All tokens and where among them a reader is. -/
structure Cursor where
  tokens : List Token
  /-- The place of the token read last; before any is read, the first place. -/
  current : Nat := 0
  /-- The place to go on from. -/
  next : Nat := 0
  /-- A token has been read. -/
  started : Bool := false
deriving DecidableEq, Repr

namespace Cursor

/-- A cursor over these tokens. The end is added where it is missing. -/
def ofTokens (tokens : List Token) : Cursor :=
  if tokens.getLast?.any Token.isFinish then { tokens }
  else { tokens := tokens ++ [TokenStream.finishAfter tokens.getLast?] }

/-- The last place, if there is any. -/
def last? (c : Cursor) : Option Nat :=
  if c.tokens.isEmpty then none else some (c.tokens.length - 1)

/-- The first place from this one on that holds no blank, or the last place. -/
def pastBlanks? (tokens : List Token) (last index : Nat) : Option Nat :=
  if index < last then do
    let token ← tokens[index]?
    if token.isSpace then pastBlanks? tokens last (index + 1) else return index
  else return index
termination_by last - index

/-- The place of the token to be read next. -/
def place? (c : Cursor) (skip : Bool) : Option Nat := do
  let last ← c.last?
  if skip then pastBlanks? c.tokens last (min c.next last) else return min c.next last

/-- The token to be read next. -/
def peek? (c : Cursor) (skip : Bool) : Option Token := do
  c.tokens[← c.place? skip]?

/-- The token to be read next, and the cursor behind it. Behind the last token the cursor
stays on it. -/
def read? (c : Cursor) (skip : Bool) : Option (Token × Cursor) := do
  let index ← c.place? skip
  let last ← c.last?
  let token ← c.tokens[index]?
  return (token, { c with current := index, next := min (index + 1) last, started := true })

/-- The token read last; before any is read, the first. -/
def current? (c : Cursor) : Option Token := c.tokens[c.current]?

/-- The end has been read. -/
def isFinished? (c : Cursor) : Option Bool :=
  if c.started then c.current?.map Token.isFinish else some false

/-- Nothing but blanks is left. -/
def isExhausted? (c : Cursor) : Option Bool := (c.peek? true).map Token.isFinish

/-- The answer to a call and the cursor behind it, unless a place without a token is looked
at. -/
def call? (c : Cursor) : Call → Option (Answer × Cursor)
  | .next skip => (c.read? skip).map fun (token, c') => (.token token, c')
  | .peek skip => (c.peek? skip).map fun token => (.token token, c)
  | .current => c.current?.map fun token => (.token token, c)
  | .isFinished => c.isFinished?.map fun holds => (.truth holds, c)
  | .isExhausted => c.isExhausted?.map fun holds => (.truth holds, c)

/-- The answers to calls one after the other and the cursor behind them. -/
def run? : Cursor → List Call → Option (List Answer × Cursor)
  | c, [] => some ([], c)
  | c, call :: rest => do
    let (answer, c) ← c.call? call
    let (answers, c) ← c.run? rest
    return (answer :: answers, c)

/-! ### The stream of a cursor -/

variable {body : List Token} {finish : Token}

/-- The cursor goes over these tokens and the end behind them, and is where the stream is. -/
structure Shows (body : List Token) (finish : Token) (c : Cursor) (s : TokenStream) : Prop where
  tokens : c.tokens = body ++ [finish]
  finish : s.finish = finish
  ahead : s.ahead = body.drop c.next
  next_le : c.next ≤ body.length
  unread : c.started = false → s.consumed = none ∧ c.current = 0 ∧ c.next = 0
  read : c.started = true → s.consumed = c.tokens[c.current]? ∧ c.current ≤ body.length ∧
    c.next = min (c.current + 1) body.length

/-- What stands in a place is what is left from there on, or the end. -/
theorem getElem?_of_drop {index : Nat} (h : index ≤ body.length) :
    (body ++ [finish])[index]? = some ((body.drop index).head?.getD finish) := by
  rw [List.head?_drop]
  rcases Nat.lt_or_eq_of_le h with hlt | rfl
  · rw [List.getElem?_append_left hlt, List.getElem?_eq_getElem hlt]
    rfl
  · simp

/-- Blanks are passed over up to the first token that is none, or up to the end. -/
theorem pastBlanks?_spec (finish : Token) {index : Nat} (h : index ≤ body.length) :
    ∃ index', pastBlanks? (body ++ [finish]) body.length index = some index' ∧
      index ≤ index' ∧ index' ≤ body.length ∧
      (body.drop index).dropWhile Token.isSpace = body.drop index' ∧
      ∀ i token, index ≤ i → i < index' → body[i]? = some token → token.isSpace = true := by
  rw [pastBlanks?]
  split
  · rename_i hlt
    have hget : (body ++ [finish])[index]? = some body[index] := by
      rw [List.getElem?_append_left hlt, List.getElem?_eq_getElem hlt]
    have hdrop : body.drop index = body[index] :: body.drop (index + 1) :=
      List.drop_eq_getElem_cons hlt
    simp only [hget, Option.bind_eq_bind, Option.bind_some]
    split
    · rename_i hspace
      obtain ⟨index', hpast, hle, hle', hrest, hblank⟩ :=
        pastBlanks?_spec finish (Nat.succ_le_of_lt hlt)
      refine ⟨index', hpast, by omega, hle', ?_, ?_⟩
      · rw [hdrop, List.dropWhile_cons_of_pos hspace, hrest]
      · intro i token hi hi' htoken
        rcases Nat.lt_or_eq_of_le hi with hlater | rfl
        · exact hblank i token hlater hi' htoken
        · rw [List.getElem?_eq_getElem hlt] at htoken
          rwa [← Option.some.inj htoken]
    · rename_i hspace
      refine ⟨index, rfl, Nat.le_refl _, h, ?_, fun i token hi hi' => absurd hi' (by omega)⟩
      rw [hdrop, List.dropWhile_cons_of_neg hspace]
  · rename_i hlt
    obtain rfl : index = body.length := by omega
    exact ⟨body.length, rfl, Nat.le_refl _, h, by simp, fun i token hi hi' => absurd hi' (by omega)⟩
termination_by body.length - index

namespace Shows

variable {c : Cursor} {s : TokenStream}

theorem last?_eq (h : Shows body finish c s) : c.last? = some body.length := by
  simp [last?, h.tokens]

/-- The place to be read next is one of the tokens, and what is to be read begins there. -/
theorem place?_spec (h : Shows body finish c s) (skip : Bool) :
    ∃ index, c.place? skip = some index ∧ c.next ≤ index ∧ index ≤ body.length ∧
      s.rest skip = body.drop index ∧ (skip = false → index = c.next) ∧
      ∀ i token, c.next ≤ i → i < index → body[i]? = some token → token.isSpace = true := by
  have hmin : min c.next body.length = c.next := Nat.min_eq_left h.next_le
  cases skip with
  | false =>
      refine ⟨c.next, ?_, Nat.le_refl _, h.next_le, h.ahead, fun _ => rfl, ?_⟩
      · simp [place?, h.last?_eq, hmin]
      · intro i token hi hi'
        omega
  | true =>
      obtain ⟨index, hpast, hle, hle', hrest, hblank⟩ := pastBlanks?_spec finish h.next_le
      refine ⟨index, ?_, hle, hle', ?_, by simp, hblank⟩
      · simp [place?, h.last?_eq, hmin, h.tokens, hpast]
      · simp [TokenStream.rest, h.ahead, hrest]

/-- The place to go on from is not in front of the token read last. -/
theorem current_le_next (h : Shows body finish c s) : c.current ≤ c.next := by
  cases hstarted : c.started with
  | false =>
      obtain ⟨-, hcurrent, hnext⟩ := h.unread hstarted
      omega
  | true =>
      obtain ⟨-, hcurrent, hnext⟩ := h.read hstarted
      omega

/-! ### Calls -/

theorem peek?_eq (h : Shows body finish c s) (skip : Bool) : c.peek? skip = some (s.peek skip) := by
  obtain ⟨index, hplace, -, hle, hrest, -⟩ := h.place?_spec skip
  simp [peek?, hplace, h.tokens, getElem?_of_drop hle, TokenStream.peek, hrest, h.finish]

theorem current?_eq (h : Shows body finish c s) : c.current? = some s.current := by
  cases hstarted : c.started with
  | false =>
      obtain ⟨hconsumed, hcurrent, hnext⟩ := h.unread hstarted
      have hfirst : c.current = c.next := hcurrent.trans hnext.symm
      simp [current?, hfirst, h.tokens, getElem?_of_drop h.next_le, TokenStream.current,
        hconsumed, TokenStream.peek, TokenStream.rest, h.ahead, h.finish]
  | true =>
      obtain ⟨hconsumed, hcurrent, -⟩ := h.read hstarted
      rw [h.tokens, getElem?_of_drop hcurrent] at hconsumed
      simp [current?, h.tokens, getElem?_of_drop hcurrent, TokenStream.current, hconsumed]

theorem isFinished?_eq (h : Shows body finish c s) : c.isFinished? = some s.isFinished := by
  cases hstarted : c.started with
  | false =>
      obtain ⟨hconsumed, -⟩ := h.unread hstarted
      simp [isFinished?, hstarted, TokenStream.isFinished, hconsumed]
  | true =>
      obtain ⟨hconsumed, hcurrent, -⟩ := h.read hstarted
      rw [h.tokens, getElem?_of_drop hcurrent] at hconsumed
      simp [isFinished?, hstarted, h.current?_eq, TokenStream.current, TokenStream.isFinished,
        hconsumed]

theorem isExhausted?_eq (h : Shows body finish c s) : c.isExhausted? = some s.isExhausted := by
  simp [isExhausted?, h.peek?_eq, TokenStream.isExhausted]

end Shows

/-- What reading a token does to a cursor: it goes on, over blanks only, to the token that is
read, and stands right behind it, or on it if it is the last one. -/
structure Moves (c : Cursor) (skip : Bool) (token : Token) (c' : Cursor) : Prop where
  same : c'.tokens = c.tokens
  found : c.tokens[c'.current]? = some token
  current_le : c.current ≤ c'.current
  next_le : c.next ≤ c'.next
  behind : c'.next = min (c'.current + 1) (c.tokens.length - 1)
  from_next : c.next ≤ c'.current
  blank : ∀ i passed, c.next ≤ i → i < c'.current → c.tokens[i]? = some passed →
    passed.isSpace = true
  touching : skip = false → c'.current = c.next
  not_blank : skip = true → token.isSpace = false

namespace Shows

variable {c : Cursor} {s : TokenStream}

/-- What is shown past the blanks is no blank. -/
theorem isSpace_peek (hs : s.Ended) : (s.peek true).isSpace = false := by
  have hhead := List.head?_dropWhile_not Token.isSpace s.ahead
  simp only [TokenStream.peek, TokenStream.rest, if_true]
  cases hrest : (s.ahead.dropWhile Token.isSpace).head? with
  | none =>
      have hfinish : s.finish.kind = .finish := hs
      simp [Token.isSpace, hfinish]
  | some token =>
      rw [hrest] at hhead
      exact hhead

/-- Reading a token never fails, yields what the stream yields, and moves the cursor to where
the stream is then. -/
theorem read?_spec (h : Shows body finish c s) (hs : s.Ended) (skip : Bool) :
    ∃ c', c.read? skip = some (s.peek skip, c') ∧ Shows body finish c' (s.advance skip) ∧
      c.Moves skip (s.peek skip) c' := by
  obtain ⟨index, hplace, hle, hle', hrest, htouching, hblank⟩ := h.place?_spec skip
  have hcurrent := h.current_le_next
  have htoken : c.tokens[index]? = some (s.peek skip) := by
    have hpeek := h.peek?_eq skip
    simpa [peek?, hplace] using hpeek
  have hlength : c.tokens.length = body.length + 1 := by
    rw [h.tokens, List.length_append, List.length_singleton]
  -- The cursor stands on the token that it has read and goes on behind it, but not behind the end.
  refine ⟨{ c with current := index, next := min (index + 1) body.length, started := true },
    ?_, ?_, ?_⟩
  · simp [read?, hplace, h.last?_eq, htoken]
  · refine ⟨h.tokens, h.finish, ?_, Nat.min_le_right _ _, by simp, ?_⟩
    · change (s.rest skip).tail = body.drop (min (index + 1) body.length)
      rw [hrest, List.tail_drop]
      rcases Nat.lt_or_eq_of_le hle' with hlt | rfl
      · rw [Nat.min_eq_left hlt]
      · simp
    · exact fun _ => ⟨htoken.symm, hle', rfl⟩
  · refine ⟨rfl, htoken, Nat.le_trans hcurrent hle, ?_, ?_, hle, ?_, htouching, ?_⟩
    · have := h.next_le
      change c.next ≤ min (index + 1) body.length
      omega
    · rw [hlength]
      rfl
    · intro i passed hi hi' hpassed
      have hbody : i < body.length := Nat.lt_of_lt_of_le hi' hle'
      rw [h.tokens, List.getElem?_append_left hbody] at hpassed
      exact hblank i passed hi hi' hpassed
    · intro hskip
      rw [hskip]
      exact isSpace_peek hs

/-- A call has the same answer on the cursor as on the stream, and keeps the two together. -/
theorem call (h : Shows body finish c s) (hs : s.Ended) (call : Call) :
    ∃ c', c.call? call = some ((s.call call).1, c') ∧ Shows body finish c' (s.call call).2 := by
  cases call with
  | next skip =>
      obtain ⟨c', hread, hshows, -⟩ := h.read?_spec hs skip
      exact ⟨c', by simp [call?, hread, TokenStream.call], hshows⟩
  | peek skip => exact ⟨c, by simp [call?, h.peek?_eq, TokenStream.call], h⟩
  | current => exact ⟨c, by simp [call?, h.current?_eq, TokenStream.call], h⟩
  | isFinished => exact ⟨c, by simp [call?, h.isFinished?_eq, TokenStream.call], h⟩
  | isExhausted => exact ⟨c, by simp [call?, h.isExhausted?_eq, TokenStream.call], h⟩

/-- Calls one after the other never fail, have the same answers on the cursor as on the stream,
and keep the two together. -/
theorem run (h : Shows body finish c s) (hs : s.Ended) (calls : List Call) :
    ∃ c', c.run? calls = some ((s.run calls).1, c') ∧ Shows body finish c' (s.run calls).2 := by
  induction calls generalizing c s with
  | nil => exact ⟨c, rfl, h⟩
  | cons call rest ih =>
      obtain ⟨c₁, hcall, h₁⟩ := h.call hs call
      obtain ⟨c₂, hrest, h₂⟩ := ih h₁ (hs.call call)
      exact ⟨c₂, by simp [run?, hcall, hrest, TokenStream.run_cons], h₂⟩

/-- Whether anything but blanks and the end is left is told by the places from the next one
on. -/
theorem isExhausted_iff (h : Shows body finish c s) (hs : s.Ended)
    (hbody : ∀ token ∈ body, token.isFinish = false) :
    s.isExhausted = true ↔ ∀ i token, c.next ≤ i → c.tokens[i]? = some token →
      token.isSpace = true ∨ token.isFinish = true := by
  have hfinish : finish.isFinish = true := Token.isFinish_iff.mpr (h.finish ▸ hs)
  have hahead : ∀ token ∈ s.ahead, token.isFinish = false := by
    rw [h.ahead]
    exact fun token htoken => hbody token (List.mem_of_mem_drop htoken)
  rw [TokenStream.isExhausted_iff_blank hs hahead, h.ahead]
  -- In terms of places: those of the body are in front of the end, which is the last one.
  constructor
  · intro hblank i token hi htoken
    rcases Nat.lt_or_ge i body.length with hlt | hge
    · rw [h.tokens, List.getElem?_append_left hlt] at htoken
      refine .inl (hblank token (List.mem_of_getElem? (i := i - c.next) ?_))
      rwa [List.getElem?_drop, Nat.add_sub_cancel' hi]
    · rw [h.tokens, List.getElem?_append_right hge] at htoken
      exact .inr (by rw [List.mem_singleton.mp (List.mem_of_getElem? htoken), hfinish])
  · intro hleft token htoken
    obtain ⟨i, hi⟩ := List.mem_iff_getElem?.mp htoken
    rw [List.getElem?_drop] at hi
    have hlt : c.next + i < body.length := (List.getElem?_eq_some_iff.mp hi).1
    have hmem : token ∈ body := List.mem_of_mem_drop htoken
    refine (hleft (c.next + i) token (Nat.le_add_right _ _) ?_).resolve_right ?_
    · rw [h.tokens, List.getElem?_append_left hlt, hi]
    · simp [hbody token hmem]

/-- Behind the end a cursor says so, and reads the end again and again. -/
theorem atEnd (h : Shows body finish c s) (hs : s.Ended) (hend : s.AtEnd) :
    c.call? .isFinished = some (.truth true, c) ∧ c.call? .isExhausted = some (.truth true, c) ∧
      ∀ skip, ∃ token c', c.call? (.next skip) = some (.token token, c') ∧
        token.isFinish = true := by
  have hlast : s.finish.isFinish = true := Token.isFinish_iff.mpr hs
  refine ⟨?_, ?_, ?_⟩
  · simp [call?, h.isFinished?_eq, hend.isFinished]
  · simp [call?, h.isExhausted?_eq, TokenStream.isExhausted, hend.peek, hlast]
  · intro skip
    obtain ⟨c', hread, -, -⟩ := h.read?_spec hs skip
    refine ⟨s.peek skip, c', ?_, ?_⟩
    · simp [call?, hread]
    · rw [hend.peek, hlast]

end Shows

/-- A cursor begins where the stream of the same tokens does. -/
theorem shows_ofTokens {tokens : List Token}
    (h : ∀ token ∈ tokens.dropLast, token.isFinish = false) :
    ∃ body finish, Shows body finish (ofTokens tokens) (TokenStream.ofTokens tokens) ∧
      ∀ token ∈ body, token.isFinish = false := by
  have hstart (body : List Token) (finish : Token) :
      Shows body finish { tokens := body ++ [finish] } { ahead := body, finish } :=
    ⟨rfl, rfl, rfl, Nat.zero_le _, fun _ => ⟨rfl, rfl, rfl⟩, by simp⟩
  unfold ofTokens TokenStream.ofTokens
  cases hlast : tokens.getLast? with
  | none =>
      obtain rfl := List.getLast?_eq_none_iff.mp hlast
      exact ⟨[], _, hstart [] _, by simp⟩
  | some last =>
      have hsplit : tokens = tokens.dropLast ++ [last] :=
        (List.dropLast_append_getLast? last hlast).symm
      cases hfinish : last.isFinish with
      | true =>
          refine ⟨tokens.dropLast, last, ?_, h⟩
          have hshows := hstart tokens.dropLast last
          rw [← hsplit] at hshows
          simpa [hfinish] using hshows
      | false =>
          refine ⟨tokens, TokenStream.finishAfter (some last), ?_, ?_⟩
          · simpa [hfinish] using hstart tokens _
          · rw [hsplit]
            simpa [hfinish, or_imp, forall_and] using h

end Cursor

/-! ### Tokens in order -/

/-- A cursor over tokens that hold the end at most as the last of them never looks at a place
without a token, whatever it is asked for; it answers as the stream of the tokens does, which has
ahead what stands behind the cursor. At any time, what the cursor shows is what it reads next, and
only reading changes it. Reading goes on over blanks alone. Nothing is left if no token but
blanks and the end is left, and behind the end is the end. -/
theorem tokens_in_order {tokens : List Token}
    (h : ∀ token ∈ tokens.dropLast, token.isFinish = false) (calls : List Call) :
    ∃ answers c s, (Cursor.ofTokens tokens).run? calls = some (answers, c) ∧
      (TokenStream.ofTokens tokens).run calls = (answers, s) ∧
      c.tokens = (Cursor.ofTokens tokens).tokens ∧ c.tokens.drop c.next = s.ahead ++ [s.finish] ∧
      (∀ call, (∀ skip, call ≠ .next skip) → ∃ answer, c.call? call = some (answer, c)) ∧
      (∀ skip, ∃ token c', c.call? (.peek skip) = some (.token token, c) ∧
        c.call? (.next skip) = some (.token token, c') ∧ c.Moves skip token c') ∧
      (∃ holds, c.call? .isExhausted = some (.truth holds, c) ∧
        (holds = true ↔ ∀ i token, c.next ≤ i → c.tokens[i]? = some token →
          token.isSpace = true ∨ token.isFinish = true)) ∧
      ((∃ (i : Nat) (skip : Bool) (token : Token), calls[i]? = some (.next skip) ∧
          answers[i]? = some (.token token) ∧ token.isFinish = true) →
        c.call? .isFinished = some (.truth true, c) ∧
        c.call? .isExhausted = some (.truth true, c) ∧
        ∀ skip, ∃ token c', c.call? (.next skip) = some (.token token, c') ∧
          token.isFinish = true) := by
  obtain ⟨body, finish, hstart, hbody⟩ := Cursor.shows_ofTokens h
  have hended := TokenStream.ofTokens_ended tokens
  -- The cursor and the stream stay together, so each part is read off what the cursor shows.
  obtain ⟨c, hrun, hshows⟩ := hstart.run hended calls
  have hs : ((TokenStream.ofTokens tokens).run calls).2.Ended := hended.run calls
  refine ⟨_, c, _, hrun, rfl, ?_, ?_, ?_, ?_, ?_, ?_⟩
  · rw [hshows.tokens, hstart.tokens]
  · rw [hshows.tokens, List.drop_append_of_le_length hshows.next_le, hshows.ahead, hshows.finish]
  · intro call hcall
    obtain ⟨c', hanswer, -⟩ := hshows.call hs call
    cases call with
    | next skip => exact absurd rfl (hcall skip)
    | _ =>
        simp only [Cursor.call?, Option.map_eq_some_iff] at hanswer ⊢
        obtain ⟨answer, hanswer, -⟩ := hanswer
        exact ⟨_, answer, hanswer, rfl⟩
  · intro skip
    obtain ⟨c', hread, -, hmoves⟩ := hshows.read?_spec hs skip
    refine ⟨_, c', ?_, ?_, hmoves⟩
    · simp [Cursor.call?, hshows.peek?_eq]
    · simp [Cursor.call?, hread]
  · refine ⟨_, ?_, hshows.isExhausted_iff hs hbody⟩
    simp [Cursor.call?, hshows.isExhausted?_eq]
  · intro hread
    obtain ⟨i, skip, token, hcall, hanswer, hfinish⟩ := hread
    -- No token ahead is the end, so the end can only have been read behind all of them.
    have hahead : ∀ token ∈ (TokenStream.ofTokens tokens).ahead, token.isFinish = false := by
      rw [hstart.ahead]
      exact fun token htoken => hbody token (List.mem_of_mem_drop htoken)
    have hend := TokenStream.run_atEnd hended hahead hcall hanswer hfinish
    exact hshows.atEnd hs hend

/-- A sign is shown to stand apart from its number, which is the last token, and the end is
read twice. -/
theorem tokens_in_order_sign :
    let tokens := [.symbol .minus, .space 1, .int "5"].map (Token.mk (.point .start))
    let calls : List Call := [.next true, .peek false, .next true, .isExhausted, .next true,
      .next false]
    (∀ token ∈ tokens.dropLast, token.isFinish = false) ∧
      ∃ c, (Cursor.ofTokens tokens).run? calls = some ([.token ⟨.point .start, .symbol .minus⟩,
          .token ⟨.point .start, .space 1⟩, .token ⟨.point .start, .int "5"⟩, .truth true,
          .token ⟨.point .start, .finish⟩, .token ⟨.point .start, .finish⟩], c) ∧
        c.call? .isFinished = some (.truth true, c) := by
  intro tokens calls
  have h : ∀ token ∈ tokens.dropLast, token.isFinish = false := by decide
  obtain ⟨answers, c, s, hrun, hanswers, -, -, -, -, -, hend⟩ := tokens_in_order h calls
  obtain rfl := congrArg Prod.fst hanswers
  exact ⟨h, c, hrun, (hend ⟨4, true, ⟨.point .start, .finish⟩, rfl, rfl, rfl⟩).1⟩

end DocQuery
