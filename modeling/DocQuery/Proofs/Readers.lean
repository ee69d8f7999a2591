import DocQuery.Parser
import Mathlib.Data.List.TakeWhile
import Mathlib.Tactic.ByContra
/-!
# DocQuery.Proofs.Readers

What readers do to a stream. The equations say how a reader runs; the lemmas whose names
end in `_ok` say of one way to put readers together what follows from a result: which
results the parts had, and where they left the stream.
-/

namespace DocQuery

namespace TokenStream

/-- Behind the last token stands the end. -/
def Ended (s : TokenStream) : Prop := s.finish.kind = .finish

theorem Ended.advance {s : TokenStream} (h : s.Ended) (skip : Bool) : (s.advance skip).Ended := h

/-- Tokens are passed over only if they are blank. -/
theorem exists_ahead_rest (s : TokenStream) (skip : Bool) :
    ∃ gap, (∀ t ∈ gap, t.isSpace = true) ∧ s.ahead = gap ++ s.rest skip := by
  cases skip with
  | false => exact ⟨[], List.forall_mem_nil _, rfl⟩
  | true =>
      exact ⟨s.ahead.takeWhile Token.isSpace, fun t ht => List.mem_takeWhile_imp ht,
        List.takeWhile_append_dropWhile.symm⟩

/-- A token that is not the end is one of those that were left. -/
theorem Ended.remaining_advance_lt {s : TokenStream} (h : s.Ended) {skip : Bool}
    (hk : (s.peek skip).kind ≠ .finish) : (s.advance skip).remaining < s.remaining := by
  have hle := s.length_rest_le skip
  have hne : s.rest skip ≠ [] := by
    intro hnil
    rw [peek, hnil] at hk
    exact hk h
  have hpos := List.length_pos_iff.mpr hne
  have htail : (s.advance skip).remaining = (s.rest skip).length - 1 := List.length_tail
  omega

/-- Where no tokens are left the end is read. -/
theorem Ended.peek_kind {s : TokenStream} (h : s.Ended) (hs : s.remaining = 0) (skip : Bool) :
    (s.peek skip).kind = .finish := by
  by_contra hk
  have := h.remaining_advance_lt hk
  omega

theorem ofTokens_ended (tokens : List Token) : (ofTokens tokens).Ended := by
  unfold ofTokens
  -- Either the last token is the end already, or one is put there.
  split
  · rfl
  · rename_i last _
    split
    · rename_i hlast
      change last.kind = .finish
      unfold Token.isFinish at hlast
      split at hlast
      · assumption
      · cases hlast
    · rfl

/-- A stream of tokens that end with the end. -/
theorem ofTokens_concat {body : List Token} {finish : Token} (h : finish.isFinish = true) :
    ofTokens (body ++ [finish]) = { ahead := body, finish := finish } := by
  unfold ofTokens
  rw [List.getLast?_concat]
  dsimp only
  rw [if_pos h, List.dropLast_concat]

theorem ofText_ok {code : String} {s : TokenStream} :
    ofText code = .ok s ↔ ∃ tokens, tokenizeAll code = .ok tokens ∧ ofTokens tokens = s := by
  unfold ofText
  cases tokenizeAll code with
  | error e => simp [Except.map]
  | ok tokens => simp [Except.map]

/-- The stream of a text has an end. -/
theorem ended_of_text {code : String} {s : TokenStream} (h : ofText code = .ok s) : s.Ended := by
  obtain ⟨tokens, -, rfl⟩ := ofText_ok.mp h
  exact ofTokens_ended tokens

end TokenStream

namespace Parser

variable {α β : Type} {s s' : TokenStream}

@[simp] theorem run_next (skip : Bool) : (next skip).run s = .ok (s.peek skip) (s.advance skip) :=
  rfl

@[simp] theorem run_peek (skip : Bool) : (peek skip).run s = .ok (s.peek skip) s := rfl

@[simp] theorem run_pass (skip : Bool) : (pass skip).run s = .ok () (s.advance skip) := rfl

@[simp] theorem run_remaining : remaining.run s = .ok s.remaining s := rfl

@[simp] theorem run_raise (e : ParseError) : (throw e : Parser α).run s = .error e s := rfl

/-- The token is taken before it is looked at, so an error is behind it. -/
theorem run_expect (symbol : Symbol) :
    (expect symbol).run s =
      if (s.peek true).isSymbol symbol then .ok () (s.advance true)
      else .error (.expected (s.peek true) (TokenKind.symbol symbol).name) (s.advance true) := by
  rw [expect, EStateM.run_bind, run_next]
  dsimp only
  split <;> rfl

theorem isSymbol_iff {t : Token} {symbol : Symbol} :
    t.isSymbol symbol = true ↔ t.kind = .symbol symbol := by
  unfold Token.isSymbol
  cases t.kind <;> simp

/-! ### Results

Each lemma says when a reader has this result. A reader put together from others is taken apart by
these, one after the other, until nothing but the stream is left. -/

/-- The second reader goes on where the first one has stopped. -/
theorem bind_ok {r : Parser α} {f : α → Parser β} {b : β} :
    (r >>= f).run s = .ok b s' ↔ ∃ a t, r.run s = .ok a t ∧ (f a).run t = .ok b s' := by
  rw [EStateM.run_bind]
  constructor
  · intro h
    cases hr : r.run s with
    | ok a t =>
        rw [hr] at h
        exact ⟨a, t, rfl, h⟩
    | error e t =>
        rw [hr] at h
        cases h
  · rintro ⟨a, t, hr, hf⟩
    rw [hr]
    exact hf

theorem pure_ok {a b : α} : (pure a : Parser α).run s = .ok b s' ↔ a = b ∧ s = s' := by
  rw [EStateM.run_pure, EStateM.Result.ok.injEq]

theorem throw_ok {e : ParseError} {b : α} : (throw e : Parser α).run s = .ok b s' ↔ False := by
  simp

theorem next_ok {skip : Bool} {t : Token} :
    (next skip).run s = .ok t s' ↔ s.peek skip = t ∧ s.advance skip = s' := by
  rw [run_next, EStateM.Result.ok.injEq]

theorem peek_ok {skip : Bool} {t : Token} :
    (peek skip).run s = .ok t s' ↔ s.peek skip = t ∧ s = s' := by
  rw [run_peek, EStateM.Result.ok.injEq]

theorem pass_ok {skip : Bool} {u : Unit} :
    (pass skip).run s = .ok u s' ↔ s.advance skip = s' := by
  rw [run_pass, EStateM.Result.ok.injEq, and_iff_right (Subsingleton.elim _ _)]

theorem remaining_ok {n : Nat} : remaining.run s = .ok n s' ↔ s.remaining = n ∧ s = s' := by
  rw [run_remaining, EStateM.Result.ok.injEq]

theorem get_ok {t : TokenStream} :
    (get : Parser TokenStream).run s = .ok t s' ↔ s = t ∧ s = s' := by
  rw [EStateM.run_get, EStateM.Result.ok.injEq]

theorem failAtNext_ok {a : α} : (failAtNext : Parser α).run s = .ok a s' ↔ False := by
  simp [failAtNext]

/-- Blanks in front of a symbol are passed over. -/
theorem expect_ok {symbol : Symbol} {u : Unit} :
    (expect symbol).run s = .ok u s' ↔
      (s.peek true).kind = .symbol symbol ∧ s.advance true = s' := by
  rw [run_expect, ← isSymbol_iff]
  split <;> simp_all

/-- A check that holds, where there would be an error otherwise. -/
theorem ite_throw_ok {c : Prop} [Decidable c] {e : ParseError} {r : Parser α}
    {k : PUnit → Parser α} {a : α} :
    (if c then throw e >>= k else r).run s = .ok a s' ↔ ¬c ∧ r.run s = .ok a s' := by
  split <;> simp_all

theorem ite_else_throw_ok {c : Prop} [Decidable c] {e : ParseError} {r : Parser α}
    {k : PUnit → Parser α} {a : α} :
    (if c then r else throw e >>= k).run s = .ok a s' ↔ c ∧ r.run s = .ok a s' := by
  split <;> simp_all

/-- An expression that is the whole text leaves nothing but blanks. -/
theorem inMode_full_ok {scope : Scope} {n : Node} :
    (inMode .full scope).run s = .ok n s' ↔
      (full scope).run s = .ok n s' ∧ s'.isExhausted = true := by
  simp only [inMode, bind_ok, get_ok]
  constructor
  · intro ⟨m, t, hfull, _, _, ⟨rfl, rfl⟩, h⟩
    split at h
    · rename_i hend
      obtain ⟨rfl, rfl⟩ := pure_ok.mp h
      exact ⟨hfull, hend⟩
    · simp only [bind_ok, peek_ok, throw_ok] at h
      obtain ⟨_, _, _, _, _, h, _⟩ := h
      exact h.elim
  · intro ⟨hfull, hend⟩
    refine ⟨n, s', hfull, s', s', ⟨rfl, rfl⟩, ?_⟩
    rw [if_pos hend]
    rfl

end Parser

/-- A text is parsed as its stream is read. -/
theorem parse_ok {code : String} {scope : Scope} {mode : ParseMode} {n : Node} :
    parse code scope mode = .ok n ↔
      ∃ s s', TokenStream.ofText code = .ok s ∧ (Parser.inMode mode scope).run s = .ok n s' := by
  unfold parse
  cases TokenStream.ofText code with
  | error e => simp
  | ok s =>
      cases hrun : (Parser.inMode mode scope).run s with
      | error e t => simp [hrun]
      | ok m t => simp [hrun]

end DocQuery
