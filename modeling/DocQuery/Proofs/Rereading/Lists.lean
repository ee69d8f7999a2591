import DocQuery.Proofs.Rereading.Rows
/-!
# DocQuery.Proofs.Rereading.Lists

Documents, arrays and arguments are read as they are written. Readers of lists count the tokens
down that are left, and every entry takes one of them, so the inductions are on the list, with any
bound that is large enough.
-/

namespace DocQuery

namespace Parser

open Phrase
open Node (unsited)

variable {s s' : TokenStream}

section

variable (scope : Scope) {k : Nat} {term : Scope → Parser Node} (ht : RereadsTerms k term)

include ht

omit ht in
/-- In front of the end there is a token left where another one is asked for. -/
theorem exists_bound {kind : TokenKind} {bound : Nat} (hs : s.Ended)
    (hkind : (s.peek true).kind = kind) (hne : kind ≠ .finish) (hbound : s.remaining ≤ bound) :
    ∃ b, bound = b + 1 ∧ (s.advance true).remaining ≤ b := by
  have hlt : (s.advance true).remaining < s.remaining :=
    hs.remaining_advance_lt (by rwa [hkind])
  obtain ⟨b, rfl⟩ : ∃ b, bound = b + 1 := Nat.exists_eq_succ_of_ne_zero (by omega)
  exact ⟨b, rfl, by omega⟩

omit ht in
/-- A number is read with the sign in front of it, and fails to be read exactly if its text is no
number in range. -/
theorem number_meets {token : Token} {negative isDouble : Bool} {text : String}
    (h : token.kind = if isDouble then .double text else .int text) :
    Meets unsited (number token negative) s (numberNode? negative isDouble text) s := by
  have hkind : token.kind = .double text ∧ isDouble = true ∨
      token.kind = .int text ∧ isDouble = false := by
    cases isDouble with
    | true => exact .inl ⟨h, rfl⟩
    | false => exact .inr ⟨h, rfl⟩
  unfold number numberNode?
  rcases hkind with ⟨hkind, rfl⟩ | ⟨hkind, rfl⟩
  · simp only [hkind, if_true]
    cases doubleNode? (if negative then '-' :: text.toList else text.toList) with
    | none => exact .throw _
    | some n => exact .pure rfl
  · simp only [hkind, Bool.false_eq_true, if_false]
    cases intNode? (if negative then '-' :: text.toList else text.toList) with
    | none => exact .throw _
    | some n => exact .pure rfl

omit ht in
/-- The name of an entry is read, whether it is a word, an integer or a string. -/
theorem key_run {written : EntryName} (h : Spells [written.mark] s s') :
    key.run s = .ok written.name s' := by
  cases written with
  | word name | int name | string name =>
      have hkind : (s.peek true).kind = _ := h.1
      rw [key, EStateM.run_bind, run_next]
      dsimp only
      rw [hkind, ← h.2]
      rfl

/-- The symbol may stand behind an entry or an item: it is no operator and no colon. -/
structure Divides (symbol : Symbol) : Prop where
  operator : (⟨default, .symbol symbol⟩ : Token).operator? = none
  colon : symbol ≠ .colon

/-- The value of an entry is read together with the token behind it. -/
theorem entryValue_meets (written : EntryName) {part : Option Phrase} {symbol : Symbol}
    (hparts : ∀ e ∈ part, e.isBounds = false ∧ e.WellFormed) (hsymbol : Divides symbol)
    (hs : Room k s) (hkind : (s'.peek true).kind = .symbol symbol)
    (h : Spells (part.elim [] fun e => .symbol .colon :: e.marks) s s') :
    Meets (fun value => (value.1.unsited, value.2)) (entryValue term written.name scope) s
      ((valueNode Phrase.node scope written part).map fun n => (n, s'.peek true))
      (s'.advance true) := by
  unfold entryValue
  refine .next ?_
  cases part with
  | none =>
      obtain rfl : s = s' := h
      -- Without a value the symbol that divides entries comes next, and it is not taken for a
      -- colon.
      have hno : (s.peek true).isSymbol .colon = false := by
        rw [Bool.eq_false_iff]
        intro hcolon
        rw [isSymbol_iff, hkind] at hcolon
        exact hsymbol.colon (TokenKind.symbol.inj hcolon)
      rw [hno]
      exact .pure rfl
  | some e =>
      obtain ⟨hcolon, hvalue⟩ := Spells.symbol_cons.mp h
      obtain ⟨hclass, hwf⟩ := hparts e rfl
      rw [isSymbol_iff.mpr hcolon, if_pos rfl, valueNode, Option.map_eq_bind]
      refine (joined_meets scope ht hwf hclass (hs.advance true) (.of_symbol hkind hsymbol.operator)
        hvalue).bind fun a b _ hb => .next (.pure ?_)
      exact congrArg (·, s'.peek true) hb

omit ht in
/-- The first of some parts, and what stands behind it: the closing symbol, or a comma and
the other parts. -/
theorem spells_separated {marks : List Mark} {rest : List (List Mark)} {close : Symbol}
    (h : Spells (separated (marks :: rest) ++ [.symbol close]) s s') :
    ∃ u, Spells marks s u ∧
      ((rest = [] ∧ (u.peek true).kind = .symbol close ∧ u.advance true = s') ∨
        (rest ≠ [] ∧ (u.peek true).kind = .symbol .comma ∧
          Spells (separated rest ++ [.symbol close]) (u.advance true) s')) := by
  by_cases hrest : rest = []
  · subst hrest
    obtain ⟨u, hfirst, hclose⟩ := Spells.append_iff.mp h
    exact ⟨u, hfirst, .inl ⟨rfl, hclose⟩⟩
  · rw [separated_cons marks hrest, List.append_assoc] at h
    obtain ⟨u, hfirst, hothers⟩ := Spells.append_iff.mp h
    exact ⟨u, hfirst, .inr ⟨hrest, hothers⟩⟩

omit ht in
/-- An entry begins with its name. -/
theorem spells_entry {written : EntryName} {part : Option Phrase}
    (h : Spells (entryMarks Phrase.marks (written, part)) s s') :
    Spells [written.mark] s (s.advance true) ∧
      Spells (part.elim [] fun e => .symbol .colon :: e.marks) (s.advance true) s' := by
  cases written <;> cases part <;> exact ⟨⟨h.1, rfl⟩, h.2⟩

/-- The entries of a document are read up to its end. Names already in use and the counter for new
ones go through the reader and through the phrase in step, so the induction is over any of them. -/
theorem entries_meets {es : List (EntryName × Option Phrase)} {bound : Nat}
    {others : List String} {counter : Nat} (hne : es ≠ [])
    (hparts : ∀ entry ∈ es, ∀ e ∈ entry.2, e.isBounds = false ∧ e.WellFormed) (hs : Room k s)
    (hbound : s.remaining ≤ bound)
    (h : Spells (separated (es.map (entryMarks Phrase.marks)) ++ [.symbol .rightBrace]) s s') :
    Meets (List.map fun entry => (entry.1, entry.2.unsited))
      (entries term scope bound others counter)
      s (entryNodes Phrase.node scope es others counter) s' := by
  induction es generalizing s bound others counter with
  | nil => exact absurd rfl hne
  | cons entry rest ih =>
      obtain ⟨written, part⟩ := entry
      obtain ⟨u, hentry, hnext⟩ := spells_separated h
      obtain ⟨hkey, hvalue⟩ := spells_entry hentry
      -- The name of the entry is a token, so the bound is not used up.
      have hfirst : ∃ kind, (s.peek true).kind = kind ∧ kind ≠ .finish := by
        cases written <;> exact ⟨_, hkey.1, by rintro ⟨⟩⟩
      obtain ⟨kind, hpeek, hfinish⟩ := hfirst
      obtain ⟨bound, rfl, hbound⟩ := exists_bound hs.ended hpeek hfinish hbound
      have hle := hvalue.remaining_le
      have hle' := u.remaining_advance_le true
      -- Behind the entry stands the closing brace or a comma, and both divide entries.
      have hsymbol : ∃ symbol, (u.peek true).kind = .symbol symbol ∧ Divides symbol := by
        rcases hnext with ⟨-, hclose, -⟩ | ⟨-, hcomma, -⟩
        · exact ⟨_, hclose, rfl, by rintro ⟨⟩⟩
        · exact ⟨_, hcomma, rfl, by rintro ⟨⟩⟩
      obtain ⟨symbol, hkind, hsymbol⟩ := hsymbol
      have hmeets := entryValue_meets scope ht written (hparts _ (List.mem_cons_self ..))
        hsymbol (hs.advance true) hkind hvalue
      obtain ⟨⟨name, next⟩, hname⟩ :
          ∃ fresh, freshName written.name others written.name counter = fresh := ⟨_, rfl⟩
      -- The reader passes to the token behind a value before it looks for the next name, so what
      -- is expected of it is the value with this token.
      have hnodes : entryNodes Phrase.node scope ((written, part) :: rest) others counter =
          ((valueNode Phrase.node scope written part).map fun n => (n, u.peek true)) >>=
            fun value =>
            entryNodes Phrase.node scope rest (others ++ [name]) next >>= fun list =>
              some ((name, value.1.asScalar) :: list) := by
        rw [entryNodes, hname]
        cases valueNode Phrase.node scope written part <;> rfl
      rw [entries, hnodes]
      refine .of_run (key_run hkey) (hmeets.bind fun a b ha hb => ?_)
      obtain ⟨n, hn, rfl⟩ := Option.map_eq_some_iff.mp ha
      obtain ⟨b, token⟩ := b
      obtain ⟨hb, rfl⟩ := Prod.mk.inj hb
      have hscalar : b.asScalar.unsited = n.asScalar.unsited := by
        rw [Node.unsited_asScalar, hb, Node.unsited_asScalar]
      rw [hname]
      dsimp only
      rcases hnext with ⟨hrest, hclose, rfl⟩ | ⟨hrest, hcomma, hend⟩
      · obtain rfl := List.map_eq_nil_iff.mp hrest
        have hcomma : (u.peek true).isSymbol .comma = false := by
          simp [Token.isSymbol, hclose]
        rw [hcomma, isSymbol_iff.mpr hclose]
        exact .pure (congrArg (fun m => [(name, m)]) hscalar)
      · rw [isSymbol_iff.mpr hcomma, if_pos rfl]
        refine (ih (by simpa using hrest) (fun entry h => hparts entry (List.mem_cons_of_mem _ h))
          (((hs.advance true).spells hvalue).advance true) (by omega) hend).bind
          fun as bs _ hbs => .pure ?_
        exact congrArg₂ (fun m list => (name, m) :: list) hscalar hbs

/-- A document is read behind its opening brace. -/
theorem document_meets {es : List (EntryName × Option Phrase)}
    (hparts : ∀ entry ∈ es, ∀ e ∈ entry.2, e.isBounds = false ∧ e.WellFormed) (hs : Room k s)
    (h : Spells (separated (es.map (entryMarks Phrase.marks)) ++ [.symbol .rightBrace]) s s') :
    Meets unsited (document term scope) s
      ((entryNodes Phrase.node scope es [] 1).map Node.document) s' := by
  rw [document]
  refine .peek ?_
  cases es with
  | nil =>
      obtain ⟨hclose, rfl⟩ : (s.peek true).kind = .symbol .rightBrace ∧ s.advance true = s' := h
      rw [isSymbol_iff.mpr hclose, if_pos rfl]
      exact .pass (.pure rfl)
  | cons entry rest =>
      obtain ⟨u, hentry, -⟩ := spells_separated h
      -- An entry begins with its name, and no name is a closing brace.
      have hopen : (s.peek true).isSymbol .rightBrace = false := by
        obtain ⟨hkey, -⟩ := spells_entry hentry
        cases hwritten : entry.1 with
        | word name | int name | string name =>
            rw [hwritten] at hkey
            have hkind : (s.peek true).kind = _ := hkey.1
            simp [Token.isSymbol, hkind]
      rw [hopen, Option.map_eq_bind]
      refine .remaining ((entries_meets scope ht (List.cons_ne_nil _ _) hparts hs
        (Nat.le_refl _) h).bind
        fun a b _ hb => .pure ?_)
      rw [Node.unsited_document, Node.unsited_document]
      exact congrArg Node.document hb

omit ht in
/-- Between two places that spell a phrase there is a token. -/
theorem remaining_lt_of_phrase {e : Phrase} (hs : s.Ended) (h : Spells e.marks s s') :
    s'.remaining < s.remaining := by
  have hfinish : (s.peek true).kind ≠ .finish := by
    intro hkind
    have hbegins := (begins_of_spells h).1
    rw [hkind] at hbegins
    cases hbegins
  -- The first mark of a phrase is a token or a keyword, and the others do not give tokens back.
  have hbegins := e.begins_marks
  refine Nat.lt_of_le_of_lt ?_ (hs.remaining_advance_lt hfinish)
  cases hmarks : e.marks with
  | nil =>
      rw [hmarks] at hbegins
      cases hbegins
  | cons mark rest =>
      rw [hmarks] at hbegins h
      cases mark with
      | token touching kind =>
          obtain ⟨rfl, -⟩ := hbegins
          exact Spells.remaining_le h.2
      | keyword text => exact Spells.remaining_le h.2
      | blank | stop touching bars => cases hbegins

/-- Expressions between commas are read up to the closing symbol. -/
theorem listed_meets {es : List Phrase} {close : Symbol} {bound : Nat} (hne : es ≠ [])
    (hparts : ∀ e ∈ es, e.isBounds = false ∧ e.WellFormed) (hclose : Divides close)
    (hcomma : close ≠ .comma) (hs : Room k s) (hbound : s.remaining ≤ bound)
    (h : Spells (separated (es.map Phrase.marks) ++ [.symbol close]) s s') :
    Meets (List.map unsited) (listed term scope close bound) s (nodes Phrase.node scope es) s' := by
  induction es generalizing s bound with
  | nil => exact absurd rfl hne
  | cons e rest ih =>
      obtain ⟨u, hitem, hnext⟩ := spells_separated h
      -- Every item takes a token, so the bound is not used up.
      have hlt := remaining_lt_of_phrase hs.ended hitem
      have hle := u.remaining_advance_le true
      obtain ⟨bound, rfl⟩ : ∃ b, bound = b + 1 := Nat.exists_eq_succ_of_ne_zero (by omega)
      have hsymbol : ∃ symbol, (u.peek true).kind = .symbol symbol ∧ Divides symbol := by
        rcases hnext with ⟨-, hkind, -⟩ | ⟨-, hkind, -⟩
        · exact ⟨_, hkind, hclose⟩
        · exact ⟨_, hkind, rfl, by rintro ⟨⟩⟩
      obtain ⟨symbol, hkind, hsymbol⟩ := hsymbol
      obtain ⟨hclass, hwf⟩ := hparts e (List.mem_cons_self ..)
      have hmeets := joined_meets scope ht hwf hclass hs
        (.of_symbol hkind hsymbol.operator) hitem
      rw [listed, nodes]
      refine hmeets.bind fun a b _ hb => .next ?_
      rcases hnext with ⟨hrest, hkind, rfl⟩ | ⟨hrest, hkind, hend⟩
      · obtain rfl := List.map_eq_nil_iff.mp hrest
        have hno : (u.peek true).isSymbol .comma = false := by
          simp [Token.isSymbol, hkind, hcomma]
        rw [hno, isSymbol_iff.mpr hkind]
        exact .pure (congrArg (fun m => [m]) hb)
      · rw [isSymbol_iff.mpr hkind, if_pos rfl]
        refine (ih (by simpa using hrest) (fun e h => hparts e (List.mem_cons_of_mem _ h))
          ((hs.spells hitem).advance true) (by omega) hend).bind fun as bs _ hbs => .pure ?_
        exact congrArg₂ List.cons hb hbs

/-- A list is read up to its closing symbol; an empty one is told by the closing symbol, with which
no expression begins. -/
theorem list_meets {es : List Phrase} {close : Symbol}
    (hparts : ∀ e ∈ es, e.isBounds = false ∧ e.WellFormed) (hclose : Divides close)
    (hcomma : close ≠ .comma) (hbegins : (TokenKind.symbol close).beginsExpression = false)
    (hs : Room k s) (h : Spells (separated (es.map Phrase.marks) ++ [.symbol close]) s s') :
    Meets (List.map unsited) (list term scope close) s (nodes Phrase.node scope es) s' := by
  rw [list]
  refine .peek ?_
  cases es with
  | nil =>
      obtain ⟨hkind, rfl⟩ : (s.peek true).kind = .symbol close ∧ s.advance true = s' := h
      rw [isSymbol_iff.mpr hkind, if_pos rfl]
      exact .pass (.pure rfl)
  | cons e rest =>
      obtain ⟨u, hitem, -⟩ := spells_separated h
      have hno : (s.peek true).isSymbol close = false := by
        rw [Bool.eq_false_iff]
        intro hsymbol
        have hitem := (begins_of_spells hitem).1
        rw [isSymbol_iff.mp hsymbol, hbegins] at hitem
        cases hitem
      rw [hno]
      exact .remaining (listed_meets scope ht (List.cons_ne_nil _ _) hparts hclose hcomma hs
        (Nat.le_refl _) h)

/-- An array is read behind its opening bracket. -/
theorem array_meets {es : List Phrase} (hparts : ∀ e ∈ es, e.isBounds = false ∧ e.WellFormed)
    (hs : Room k s) (h : Spells (separated (es.map Phrase.marks) ++ [.symbol .rightBracket]) s s') :
    Meets unsited (array term scope) s
      ((nodes Phrase.node scope es).map fun items => Node.array (items.map Node.asScalar)) s' := by
  rw [array, Option.map_eq_bind]
  refine (list_meets scope ht hparts (⟨rfl, by rintro ⟨⟩⟩ : Divides .rightBracket)
    (by rintro ⟨⟩) rfl hs h).bind
    fun as bs _ hbs => .pure ?_
  -- Items become scalars once they are read, which changes no offset.
  have hscalars (ns : List Node) :
      (ns.map Node.asScalar).map unsited = (ns.map unsited).map Node.asScalar := by
    simp only [List.map_map, Function.comp_def, Node.unsited_asScalar]
  rw [Node.unsited_array, hscalars, hbs, ← hscalars, Node.unsited_array]

end

end Parser

end DocQuery
