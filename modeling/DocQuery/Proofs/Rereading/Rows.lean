import DocQuery.Parser
import DocQuery.Proofs.Sites
import DocQuery.Proofs.Spelling
/-!
# DocQuery.Proofs.Rereading.Rows

What it means that a reader takes what is written (`Parser.Meets`), with one lemma for each way to
put readers together, so that a reader is never run step by step; and terms joined by operators.

As in the other direction every reader is given the reader of a term, and its lemma is about
any such reader that is right (`Parser.RereadsTerms`), on streams with at most so many
tokens left.
-/

namespace DocQuery

/-- The path that steps make of a beginning depends on them up to the offsets in them. -/
theorem PathStart.unsited_node (start : PathStart) (scope : Scope) {a b : List (PathStep Node)}
    (h : a.map (PathStep.map Node.unsited) = b.map (PathStep.map Node.unsited)) :
    (start.node scope a).unsited = (start.node scope b).unsited := by
  have hsteps (named : Bool) :
      (if named then .member start.field :: a else a).map (PathStep.map Node.unsited) =
        (if named then .member start.field :: b else b).map (PathStep.map Node.unsited) := by
    cases named with
    | true => rw [if_pos rfl, if_pos rfl, List.map_cons, List.map_cons, h]
    | false => exact h
  unfold node
  rw [Node.unsited_path, Node.unsited_path, hsteps]

namespace Parser

open Phrase
open Node (unsited)

variable {α β γ δ : Type}

/-- The reader yields a result like the expected one and leaves the stream at the second
place, or fails if no result is expected. -/
def Meets (f : α → β) (r : Parser α) (s : TokenStream) (x : Option α) (s' : TokenStream) : Prop :=
  match x with
  | some a => ∃ b, r.run s = .ok b s' ∧ f b = f a
  | none => ∃ e t, r.run s = .error e t

namespace Meets

variable {f : α → β} {g : γ → δ} {s t s' : TokenStream}

theorem pure {a b : α} (h : f b = f a) : Meets f (Pure.pure b) s (some a) s := ⟨b, rfl, h⟩

theorem throw (e : ParseError) : Meets f (MonadExcept.throw e) s none s' := ⟨e, s, rfl⟩

/-- Readers in a row meet expectations in a row. -/
theorem bind {r : Parser α} {x : Option α} {k : α → Parser γ} {y : α → Option γ}
    (h : Meets f r s x t) (hk : ∀ a b, x = some a → f b = f a → Meets g (k b) t (y a) s') :
    Meets g (r >>= k) s (x >>= y) s' := by
  cases x with
  | none =>
      obtain ⟨e, u, hr⟩ := h
      refine ⟨e, u, ?_⟩
      rw [EStateM.run_bind, hr]
  | some a =>
      obtain ⟨b, hr, hb⟩ := h
      have hmeets := hk a b rfl hb
      have hrun : (r >>= k).run s = (k b).run t := by rw [EStateM.run_bind, hr]
      unfold Meets at hmeets ⊢
      rwa [hrun]

theorem of_run {r : Parser α} {a : α} {k : α → Parser γ} {x : Option γ}
    (hr : r.run s = .ok a t) (h : Meets g (k a) t x s') : Meets g (r >>= k) s x s' := by
  have hrun : (r >>= k).run s = (k a).run t := by rw [EStateM.run_bind, hr]
  unfold Meets at h ⊢
  rwa [hrun]

theorem fails_of_run {r : Parser α} {e : ParseError} {k : α → Parser γ}
    (hr : r.run s = .error e t) : Meets g (r >>= k) s none s' := by
  refine ⟨e, t, ?_⟩
  rw [EStateM.run_bind, hr]

variable {skip : Bool} {x : Option γ}

theorem next {k : Token → Parser γ} (h : Meets g (k (s.peek skip)) (s.advance skip) x s') :
    Meets g (Parser.next skip >>= k) s x s' := of_run rfl h

theorem peek {k : Token → Parser γ} (h : Meets g (k (s.peek skip)) s x s') :
    Meets g (Parser.peek skip >>= k) s x s' := of_run rfl h

theorem pass {k : Unit → Parser γ} (h : Meets g (k ()) (s.advance skip) x s') :
    Meets g (Parser.pass skip >>= k) s x s' := of_run rfl h

theorem remaining {k : Nat → Parser γ} (h : Meets g (k s.remaining) s x s') :
    Meets g (Parser.remaining >>= k) s x s' := of_run rfl h

theorem expect {symbol : Symbol} {k : Unit → Parser γ}
    (hkind : (s.peek true).kind = .symbol symbol) (h : Meets g (k ()) (s.advance true) x s') :
    Meets g (Parser.expect symbol >>= k) s x s' := by
  refine of_run (a := ()) ?_ h
  rw [run_expect, if_pos (isSymbol_iff.mpr hkind)]

end Meets

/-! ### Operators -/

variable {s s' : TokenStream}

/-- A word that agrees with another one in all but case agrees with the same words. -/
theorem sameName_congr {a b : String} (h : Text.sameName a b = true) (c : String) :
    Text.sameName a c = Text.sameName b c := by
  unfold Text.sameName at h ⊢
  rw [beq_iff_eq] at h
  rw [h]

/-- A keyword is the operator of that name, in whatever case it is written. -/
theorem operator?_of_keyword {t : Token} {keyword : String}
    (h : t.kind.isKeyword keyword = true) :
    t.operator? = Token.joiningWords.find? fun op => Text.sameName keyword op.text := by
  obtain ⟨w, hw⟩ := isWord_of_keyword h
  rw [hw] at h
  unfold Token.operator?
  rw [hw]
  refine congrArg (Token.joiningWords.find? ·) ?_
  funext op
  exact sameName_congr h op.text

theorem isKeyword_of_keyword {t : Token} {keyword : String}
    (h : t.kind.isKeyword keyword = true) (other : String) :
    t.isKeyword other = Text.sameName keyword other := by
  obtain ⟨w, hw⟩ := isWord_of_keyword h
  rw [hw] at h
  unfold Token.isKeyword
  rw [hw]
  exact sameName_congr h other

/-- A comparison is one token, the sign of it or its name. -/
theorem operator?_of_marks {op : ComparisonOp} (h : Spells op.marks s s') :
    (s.peek true).operator? = some (.binary (.comparison op)) ∧ s.advance true = s' := by
  cases op with
  | like | between | isIn =>
      refine ⟨?_, h.2⟩
      rw [operator?_of_keyword h.1]
      decide
  | greater | greaterEqual | less | lessEqual | notEqual | equal =>
      refine ⟨?_, h.2⟩
      have hkind : (s.peek true).kind = .symbol _ := h.1
      unfold Token.operator?
      rw [hkind]

/-- An operator that is written is read. -/
theorem operator?_run {op : Operator} (h : Spells op.marks s s') :
    operator?.run s = .ok (some op) s' := by
  -- All operators but the quantified ones are single tokens.
  have single {op : Operator} (hop : (s.peek true).operator? = some op)
      (ht : s.advance true = s') : operator?.run s = .ok (some op) s' := by
    rw [operator?, EStateM.run_bind, run_peek]
    dsimp only
    rw [hop, ← ht]
    rfl
  cases op with
  | binary op =>
      cases op with
      | arithmetic op =>
          have hkind : (s.peek true).kind = .symbol op.symbol := h.1
          refine single ?_ h.2
          unfold Token.operator?
          rw [hkind]
          cases op <;> rfl
      | comparison op =>
          obtain ⟨hop, ht⟩ := operator?_of_marks h
          exact single hop ht
  | logic op =>
      refine single ?_ h.2
      rw [operator?_of_keyword h.1]
      cases op <;> decide
  | quantified quantifier op =>
      obtain ⟨hkeyword, hop⟩ := h
      obtain ⟨hop, ht⟩ := operator?_of_marks hop
      -- A quantifier is no operator by itself, so the reader goes on to the comparison behind it.
      have hnone : (s.peek true).operator? = none := by
        rw [operator?_of_keyword hkeyword]
        cases quantifier <;> decide
      have hquantifier : (s.peek true).quantifier? = some quantifier := by
        unfold Token.quantifier?
        rw [isKeyword_of_keyword hkeyword, isKeyword_of_keyword hkeyword]
        cases quantifier <;> decide
      rw [operator?, EStateM.run_bind, run_peek]
      dsimp only
      rw [hnone, hquantifier]
      dsimp only
      rw [EStateM.run_bind, run_pass]
      dsimp only
      rw [EStateM.run_bind, run_next]
      dsimp only
      rw [hop, ← ht]
      rfl

/-- No operator comes next. -/
structure EndsRow (s : TokenStream) : Prop where
  operator : (s.peek true).operator? = none
  quantifier : (s.peek true).quantifier? = none

theorem EndsRow.operator?_run (h : EndsRow s) : operator?.run s = .ok none s := by
  rw [Parser.operator?, EStateM.run_bind, run_peek]
  dsimp only
  rw [h.operator, h.quantifier]
  rfl

/-- A row ends where a symbol that is no operator comes next. -/
theorem EndsRow.of_symbol {symbol : Symbol} (hkind : (s.peek true).kind = .symbol symbol)
    (h : (⟨default, .symbol symbol⟩ : Token).operator? = none) : EndsRow s := by
  constructor
  · unfold Token.operator? at h ⊢
    rwa [hkind]
  · simp [Token.quantifier?, Token.isKeyword, hkind]

/-! ### Terms joined by operators -/

/-- There are at most so many tokens left in front of the end. -/
structure Room (k : Nat) (s : TokenStream) : Prop where
  ended : s.Ended
  remaining_le : s.remaining ≤ k

theorem Room.spells {k : Nat} {marks : List Mark} (h : Room k s) (hs : Spells marks s s') :
    Room k s' where
  ended := hs.ended h.ended
  remaining_le := Nat.le_trans hs.remaining_le h.remaining_le

theorem Room.advance {k : Nat} (h : Room k s) (skip : Bool) : Room k (s.advance skip) where
  ended := h.ended
  remaining_le := Nat.le_trans (s.remaining_advance_le skip) h.remaining_le

/-- The reader yields what a term stands for wherever it is spelt in front of so few
tokens. -/
def RereadsTerms (k : Nat) (term : Scope → Parser Node) : Prop :=
  ∀ (scope : Scope) {e : Phrase} {s s' : TokenStream}, e.WellFormed → e.isTerm = true →
    Room k s → Spells e.marks s s' → Meets unsited (term scope) s (e.node scope) s'

section

variable (scope : Scope) {k : Nat} {term : Scope → Parser Node} (ht : RereadsTerms k term)

include ht

/-- Bounds are read behind an operator that asks for them. -/
theorem rightTerm_bounds {op : Operator} {lower upper : Phrase} (hbetween : op.isBetween = true)
    (hwf : (Phrase.mk (.bounds lower upper)).WellFormed) (hs : Room k s)
    (h : Spells (Phrase.mk (.bounds lower upper)).marks s s') :
    Meets unsited (rightTerm term op scope) s
      ((Phrase.mk (.bounds lower upper)).node scope) s' := by
  have hlayer := hwf.layer
  have hl : lower.WellFormed := hwf.part (List.mem_cons_self ..)
  have hu : upper.WellFormed := hwf.part (List.mem_cons_of_mem _ (List.mem_singleton_self _))
  rw [marks_eq] at h
  obtain ⟨u, hfront, hupper⟩ := Spells.append_iff.mp h
  obtain ⟨t, hlower, hjoint, rfl⟩ := Spells.append_iff.mp hfront
  unfold rightTerm
  simp only [hbetween, if_true]
  rw [node_eq]
  refine (ht scope hl hlayer.1 hs hlower).bind fun a b _ hb => .next ?_
  rw [Token.isKeyword_eq, hjoint]
  have htRoom := (hs.spells hlower).advance true
  refine (ht scope hu hlayer.2 htRoom hupper).bind fun a' b' _ hb' => ?_
  rw [Node.isScalar_eq_of_unsited hb, Node.isScalar_eq_of_unsited hb']
  -- Both bounds have to be scalar, here and in the node that the phrase stands for.
  cases a.isScalar with
  | false => exact .fails_of_run rfl
  | true =>
      cases a'.isScalar with
      | false => exact .fails_of_run rfl
      | true =>
          refine .pure ?_
          rw [Node.unsited_bounds, Node.unsited_bounds, hb, hb']

/-- What stands behind an operator is read; where bounds are missing, the reader fails. -/
theorem rightTerm_meets {op : Operator} {e : Phrase} (hwf : e.WellFormed)
    (hclass : e.isTerm = true ∨ op.isBetween = true ∧ e.isBounds = true)
    (hand : op.isBetween = true → e.isBounds = true ∨ (s'.peek true).isKeyword "AND" = false)
    (hs : Room k s) (h : Spells e.marks s s') :
    Meets unsited (rightTerm term op scope) s
      (if op.isBetween && !e.isBounds then none else e.node scope) s' := by
  cases hbetween : op.isBetween with
  | false =>
      have hterm : e.isTerm = true := by simpa [hbetween] using hclass
      unfold rightTerm
      simp only [hbetween, Bool.false_and, Bool.false_eq_true, if_false]
      have hsame : e.node scope = e.node scope >>= some := by cases e.node scope <;> rfl
      rw [hsame]
      exact (ht scope hwf hterm hs h).bind fun a b _ hb => .pure hb
  | true =>
      cases hbounds : e.isBounds with
      | false =>
          have hterm : e.isTerm = true := by simpa [hbetween, hbounds] using hclass
          have hno : (s'.peek true).isKeyword "AND" = false := by
            simpa [hbetween, hbounds] using hand
          -- A term without `AND` behind it is no pair of bounds. It is read, and then the reader
          -- fails, whatever it stands for.
          have hnone : (none : Option Node) = e.node scope >>= fun _ => none := by
            cases e.node scope <;> rfl
          unfold rightTerm
          simp only [hbetween, Bool.true_and, Bool.not_false, if_true]
          rw [hnone]
          refine (ht scope hwf hterm hs h).bind fun a b _ _ => .next ?_
          rw [hno]
          exact .fails_of_run rfl
      | true =>
          simp only [Bool.true_and, Bool.not_true, Bool.false_eq_true, if_false]
          obtain ⟨layer⟩ := e
          cases layer with
          | bounds lower upper => exact rightTerm_bounds scope ht hbetween hwf hs h
          | _ => cases hbounds

omit ht in
/-- Between two places that spell an operator there is a token. -/
theorem remaining_lt_of_operator {op : Operator} (hs : s.Ended) (h : Spells op.marks s s') :
    s'.remaining < s.remaining := by
  have first {s t : TokenStream} {kind : TokenKind} (hs : s.Ended) (hk : (s.peek true).kind = kind)
      (hne : kind ≠ .finish) (ht : t.remaining ≤ (s.advance true).remaining) :
      t.remaining < s.remaining :=
    Nat.lt_of_le_of_lt ht (hs.remaining_advance_lt (hk ▸ hne))
  have word {s t : TokenStream} {keyword : String} (hs : s.Ended)
      (hk : (s.peek true).kind.isKeyword keyword = true)
      (ht : t.remaining ≤ (s.advance true).remaining) : t.remaining < s.remaining := by
    obtain ⟨w, hw⟩ := isWord_of_keyword hk
    exact first hs hw (by rintro ⟨⟩) ht
  cases op with
  | binary op =>
      cases op with
      | arithmetic op => exact first hs h.1 (by rintro ⟨⟩) (Spells.remaining_le h.2)
      | comparison op =>
          cases op with
          | like | between | isIn => exact word hs h.1 (Spells.remaining_le h.2)
          | greater | greaterEqual | less | lessEqual | notEqual | equal =>
              exact first hs h.1 (by rintro ⟨⟩) (Spells.remaining_le h.2)
  | quantified quantifier op => exact word hs h.1 (Spells.remaining_le h.2)
  | logic op => exact word hs h.1 (Spells.remaining_le h.2)

omit ht in
/-- A quantified operator begins with a word that is not `AND`. -/
theorem isKeyword_and_of_quantified {op : Operator} (hop : Precedence.isQuantified op = true)
    (h : Spells op.marks s s') : (s.peek true).isKeyword "AND" = false := by
  cases op with
  | quantified quantifier op =>
      rw [isKeyword_of_keyword h.1]
      cases quantifier <;> decide
  | binary op | logic op => cases hop

/-- The operators of a row and what stands behind them are read up to where no operator comes. The
induction is on the row; each operator takes a token of the bound. -/
theorem operations_meets {row : List (Operator × Phrase)} {bound : Nat}
    (hclasses : ∀ entry ∈ row,
      entry.2.isTerm = true ∨ entry.1.isBetween = true ∧ entry.2.isBounds = true)
    (hbounded : Bounded row) (hwf : ∀ entry ∈ row, entry.2.WellFormed) (hs : Room k s)
    (hbound : s.remaining ≤ bound) (hend : EndsRow s')
    (h : Spells (row.flatMap (tailMarks Phrase.marks)) s s') :
    Meets Precedence.unsitedTail (operations term scope bound) s
      (tailNodes isBounds Phrase.node scope row) s' := by
  induction row generalizing s bound with
  | nil =>
      obtain rfl : s = s' := h
      cases bound with
      | zero => exact .pure rfl
      | succ bound => exact .of_run hend.operator?_run (.pure rfl)
  | cons entry row ih =>
      obtain ⟨op, e⟩ := entry
      rw [List.flatMap_cons] at h
      obtain ⟨u, hentry, hrow⟩ := Spells.append_iff.mp h
      obtain ⟨t, hop, he⟩ := Spells.append_iff.mp hentry
      have hlt := remaining_lt_of_operator hs.ended hop
      have hle := he.remaining_le
      obtain ⟨bound, rfl⟩ : ∃ b, bound = b + 1 := Nat.exists_eq_succ_of_ne_zero (by omega)
      -- A single term behind an operator that asks for bounds fails to be read, unless `AND`
      -- happens to follow; in a bounded row a quantified operator follows instead.
      have hand : op.isBetween = true →
          e.isBounds = true ∨ (u.peek true).isKeyword "AND" = false := by
        intro hbetween
        rcases hbounded.1 hbetween with hbounds | hnext
        · exact .inl hbounds
        · cases row with
          | nil => cases hnext
          | cons next rest =>
              rw [List.flatMap_cons] at hrow
              obtain ⟨v, hnextEntry, -⟩ := Spells.append_iff.mp hrow
              obtain ⟨w, hnextOp, -⟩ := Spells.append_iff.mp hnextEntry
              exact .inr (isKeyword_and_of_quantified hnext hnextOp)
      have hmeets := rightTerm_meets scope ht (hwf _ (List.mem_cons_self ..))
        (hclasses _ (List.mem_cons_self ..)) hand (hs.spells hop) he
      have hrest : Meets Precedence.unsitedTail (operations term scope bound) u
          (tailNodes isBounds Phrase.node scope row) s' :=
        ih (fun entry h => hclasses entry (List.mem_cons_of_mem _ h)) hbounded.2
          (fun entry h => hwf entry (List.mem_cons_of_mem _ h)) (hs.spells hentry) (by omega) hrow
      have hnodes : tailNodes isBounds Phrase.node scope ((op, e) :: row) =
          (if op.isBetween && !e.isBounds then none else e.node scope) >>= fun n =>
            tailNodes isBounds Phrase.node scope row >>= fun rest => some ((op, n) :: rest) := by
        rw [tailNodes]
        split <;> rfl
      rw [operations, hnodes]
      refine .of_run (operator?_run hop) ?_
      refine hmeets.bind fun a b _ hb => hrest.bind fun as bs _ hbs => .pure ?_
      exact congrArg₂ (fun n rest => (op, n) :: rest) hb hbs

/-- Terms joined by operators are read where no operator follows. -/
theorem joined_meets {e : Phrase} (hwf : e.WellFormed) (hclass : e.isBounds = false)
    (hs : Room k s) (hend : EndsRow s') (h : Spells e.marks s s') :
    Meets unsited (joined term scope) s (e.node scope) s' := by
  by_cases hterm : e.isTerm = true
  · have hsame : e.node scope = e.node scope >>= some := by cases e.node scope <;> rfl
    rw [hsame]
    refine (ht scope hwf hterm hs h).bind fun a b _ hb => .remaining ?_
    -- A term is a row of one, with no operator behind it.
    have hnone : (operations term scope s'.remaining).run s' = .ok [] s' := by
      cases s'.remaining with
      | zero => rfl
      | succ bound =>
          rw [operations, EStateM.run_bind, hend.operator?_run]
          rfl
    exact .of_run hnone (.pure hb)
  · obtain ⟨layer⟩ := e
    cases layer with
    | joined first tail =>
        have hlayer := hwf.layer
        have hfirst : first.WellFormed := hwf.part (List.mem_cons_self ..)
        have htail : ∀ entry ∈ tail, entry.2.WellFormed := fun entry hentry =>
          hwf.part (List.mem_cons_of_mem _ (List.mem_map_of_mem hentry))
        rw [marks_eq] at h
        obtain ⟨t, hf, hrow⟩ := Spells.append_iff.mp h
        rw [node_eq]
        refine (ht scope hfirst hlayer.1 hs hf).bind fun a b _ hb => .remaining ?_
        have hoperations := operations_meets scope ht hlayer.2.2.1 hlayer.2.2.2 htail
          (hs.spells hf) (Nat.le_refl _) hend hrow
        refine hoperations.bind fun as bs _ hbs => ?_
        -- The reducer does not look at offsets: it fails on both rows or on neither.
        have hreduce := Precedence.reduce_unsited b bs
        rw [hb, hbs, Precedence.reduce_unsited] at hreduce
        cases ha : Precedence.reduce a as with
        | error error =>
            cases hr : Precedence.reduce b bs with
            | error error => exact .throw error
            | ok n =>
                rw [ha, hr] at hreduce
                cases hreduce
        | ok n =>
            cases hr : Precedence.reduce b bs with
            | error error =>
                rw [ha, hr] at hreduce
                cases hreduce
            | ok n' =>
                rw [ha, hr] at hreduce
                exact .pure (Except.ok.inj hreduce).symm
    | bounds lower upper => cases hclass
    | _ => exact absurd rfl hterm

end

end Parser

end DocQuery
