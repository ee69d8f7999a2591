import DocQuery.Proofs.InStep.Streams
import DocQuery.Proofs.Numerals
import DocQuery.Proofs.Readers
import DocQuery.Proofs.Reduction
import DocQuery.Proofs.Tiling
/-!
# DocQuery.Proofs.Blame

What a reader says is wrong. The token of an error is one of those that are read: whatever holds
of all tokens of a stream holds of the token of an error on that stream (`Parser.Blames`). There is
one lemma for each way to put readers together, and with them one for each reader.

The same walk over the readers shows that every term is written out: the text of what a reader
yields is not empty.
-/

namespace DocQuery

/-! ### Texts that are not empty

An error about a part of an expression is located by searching the text of the part, so this text
must not be empty. Every way to write an expression writes something beside its parts: a sign, a
name or an operator. -/

namespace Node

/-- The expression has a text. -/
def HasText (n : Node) : Prop := n.source.toList ≠ []

theorem hasText_of_append {n : Node} {front back : String} (h : n.source = front ++ back)
    (hne : front.toList ≠ [] ∨ back.toList ≠ []) : n.HasText := by
  rw [HasText, h, String.toList_append]
  rcases hne with hne | hne
  · exact List.append_ne_nil_of_left_ne_nil hne _
  · exact List.append_ne_nil_of_right_ne_nil _ hne

theorem hasText_of_eq {n : Node} {text : String} (h : n.source = text) (hne : text.toList ≠ []) :
    n.HasText := by
  rwa [HasText, h]

/-- Quotes are written even around nothing. -/
theorem hasText_string (s : String) : (string s).HasText := by
  have hsource : (string s).source.toList = Text.quoted s.toList := String.toList_ofList
  rw [HasText, hsource]
  exact List.cons_ne_nil _ _

theorem hasText_parenthesized (n : Node) : n.parenthesized.HasText := by
  obtain ⟨info, form⟩ := n
  exact hasText_of_append rfl (.inr (by decide))

/-- The empty text is read as no integer, and the text of an integer is read back. -/
theorem hasText_int {n : Node} {i : Int} (h : n.source = Number.intText i) : n.HasText := by
  intro hnil
  have hread := Number.readInt_intText i
  rw [← h, hnil] at hread
  cases hread

/-- Digits and places are written in any case, with or without an exponent. -/
theorem hasText_double (x : Double) : (double x).HasText := by
  obtain ⟨whole, places, hplaces, -⟩ := Number.writePlaces_eq x
  have hsource : (double x).source.toList = Number.writePlaces x := String.toList_ofList
  rw [HasText, hsource, hplaces]
  split <;> simp

/-- The operator between the two sides is not empty. -/
theorem hasText_operation (op : Operator) (left right : Node) :
    (operation op left right).HasText := by
  have hsource : (operation op left right).source =
      (left.source ++ op.separator) ++ right.source := by cases op <;> rfl
  have hseparator : op.separator.toList ≠ [] := by
    rcases op with (op | op) | ⟨quantifier, op⟩ | op
    · cases op <;> decide
    · cases op <;> decide
    · cases quantifier <;> cases op <;> decide
    · cases op <;> decide
  refine hasText_of_append hsource (.inl ?_)
  rw [String.toList_append]
  exact List.append_ne_nil_of_right_ne_nil _ hseparator

end Node

/-! ### Tokens of a stream -/

/-- All tokens of the stream have the property, its end included. -/
structure TokenStream.All (V : Token → Prop) (s : TokenStream) : Prop where
  finish : V s.finish
  ahead : ∀ t ∈ s.ahead, V t

namespace TokenStream.All

variable {V : Token → Prop} {s : TokenStream}

theorem peek (h : s.All V) (skip : Bool) : V (s.peek skip) := by
  rcases s.peek_eq_or_mem skip with heq | hmem
  · rw [heq]
    exact h.finish
  · exact h.ahead _ hmem

theorem advance (h : s.All V) (skip : Bool) : (s.advance skip).All V where
  finish := h.finish
  ahead t ht := h.ahead t (TokenStream.mem_of_mem_advance ht)

end TokenStream.All

/-- The token of the error has the property, and what ends too soon ends at the end. -/
structure ParseError.Blames (V : Token → Prop) (e : ParseError) : Prop where
  token : ∀ t ∈ e.token?, V t
  atEnd : ∀ t, e = .unexpectedEnd t → t.isFinish = true

namespace Parser

variable {V : Token → Prop} {α β : Type} {P : α → Prop} {Q : β → Prop}

/-- On tokens that have the property, the reader yields something as `P` says and leaves such
tokens, or it fails at such a token, if at a token at all. -/
structure Blames (V : Token → Prop) (P : α → Prop) (r : Parser α) : Prop where
  ok : ∀ {s s' a}, s.All V → r.run s = .ok a s' → P a ∧ s'.All V
  error : ∀ {s s' e}, s.All V → r.run s = .error e s' → e.Blames V

theorem Blames.pure {a : α} (h : P a) : Blames V P (pure a) where
  ok hs hrun := by
    cases hrun
    exact ⟨h, hs⟩
  error _ hrun := by cases hrun

theorem Blames.raise {e : ParseError} (h : e.Blames V) : Blames V P (throw e : Parser α) where
  ok _ hrun := by cases hrun
  error _ hrun := by
    cases hrun
    exact h

/-- Readers one after the other: the first one fails, or the second one does on the tokens that it
has left. -/
theorem Blames.bind {r : Parser α} {f : α → Parser β} (hr : Blames V P r)
    (hf : ∀ a, P a → Blames V Q (f a)) : Blames V Q (r >>= f) where
  ok hs hrun := by
    obtain ⟨a, t, hrun, hrest⟩ := bind_ok.mp hrun
    obtain ⟨ha, ht⟩ := hr.ok hs hrun
    exact (hf a ha).ok ht hrest
  error {s s' e} hs hrun := by
    rw [EStateM.run_bind] at hrun
    cases hfirst : r.run s with
    | error e t =>
        rw [hfirst] at hrun
        cases hrun
        exact hr.error hs hfirst
    | ok a t =>
        rw [hfirst] at hrun
        obtain ⟨ha, ht⟩ := hr.ok hs hfirst
        exact (hf a ha).error ht hrun

/-! ### Single tokens -/

theorem blames_next (skip : Bool) : Blames V V (next skip) where
  ok hs hrun := by
    cases hrun
    exact ⟨hs.peek skip, hs.advance skip⟩
  error _ hrun := by cases hrun

theorem blames_peek (skip : Bool) : Blames V V (peek skip) where
  ok hs hrun := by
    cases hrun
    exact ⟨hs.peek skip, hs⟩
  error _ hrun := by cases hrun

theorem blames_pass (skip : Bool) : Blames V (fun _ => True) (pass skip) where
  ok hs hrun := by
    cases hrun
    exact ⟨trivial, hs.advance skip⟩
  error _ hrun := by cases hrun

theorem blames_get : Blames V (fun s : TokenStream => s.All V) get where
  ok hs hrun := by
    cases hrun
    exact ⟨hs, hs⟩
  error _ hrun := by cases hrun

theorem blames_remaining : Blames V (fun _ => True) remaining where
  ok hs hrun := by
    cases hrun
    exact ⟨trivial, hs⟩
  error _ hrun := by cases hrun

/-- An error at a token. -/
theorem Blames.at {t : Token} {e : ParseError} (ht : V t) (h : e.token? = some t)
    (hend : ∀ u, e ≠ .unexpectedEnd u) : Blames V P (throw e : Parser α) := by
  refine .raise ⟨fun u hu => ?_, fun u hu => absurd hu (hend u)⟩
  rw [h] at hu
  cases hu
  exact ht

/-- An error at a token that nothing begins with. -/
theorem Blames.unexpected {t : Token} (ht : V t) :
    Blames V P (throw (.unexpected t) : Parser α) := by
  unfold ParseError.unexpected
  split
  · rename_i hfinish
    refine .raise ⟨fun u hu => ?_, fun u hu => ?_⟩
    · cases hu
      exact ht
    · cases hu
      exact hfinish
  · exact .at ht rfl nofun

/-- An error because of a part of the expression. -/
theorem Blames.about {e : ParseError} (h : e.token? = none) : Blames V P (throw e : Parser α) := by
  refine .raise ⟨fun u hu => ?_, fun u hu => ?_⟩
  · rw [h] at hu
    cases hu
  · rw [hu] at h
    cases h

/-- What fails does not go on. -/
theorem Blames.halts {r : Parser α} (h : Blames V (fun _ => False) r) {k : α → Parser β} :
    Blames V Q (r >>= k) :=
  .bind h nofun

theorem blames_expect (symbol : Symbol) : Blames V (fun _ => True) (expect symbol) := by
  refine .bind (blames_next true) fun t ht => ?_
  split
  · exact .pure trivial
  · exact .at ht rfl nofun

theorem blames_failAtNext : Blames V P (failAtNext : Parser α) :=
  .bind (blames_next true) fun _ ht => .unexpected ht

theorem blames_operator? : Blames V (fun _ => True) operator? := by
  refine .bind (blames_peek true) fun ahead _ => ?_
  split
  · exact .bind (blames_pass true) fun _ _ => .pure trivial
  · split
    · exact .pure trivial
    · refine .bind (blames_pass true) fun _ _ => .bind (blames_next true) fun t ht => ?_
      split
      · exact .pure trivial
      · exact .at ht rfl nofun
      · exact .at ht rfl nofun

/-! ### Terms joined by operators -/

/-- An operator that cannot be applied complains of its side, by its text. -/
theorem token?_of_combine {op : Operator} {left right : Node} {e : ParseError}
    (h : Precedence.combine op left right = .error e) : e.token? = none := by
  -- A quantified operator asks only its right side to be one value, every other one both.
  cases op with
  | quantified quantifier op =>
      simp only [Precedence.combine, pure_bind] at h
      split at h <;> cases h
      rfl
  | binary op | logic op =>
      simp only [Precedence.combine] at h
      split at h
      · simp only [pure_bind] at h
        split at h <;> cases h
        rfl
      · cases h
        rfl

/-- Terms that an operator cannot join are at fault by themselves. -/
theorem token?_of_failsWith {t : OpTree Node} {e : ParseError} (h : t.FailsWith e) :
    e.token? = none := by
  induction t with
  | leaf n => exact h.elim
  | node op left right ihl ihr =>
      rcases h with h | h | ⟨l, r, -, -, h⟩
      · exact ihl h
      · exact ihr h
      · exact token?_of_combine h

/-- A row is its only term, or an operation of two others. -/
theorem hasText_of_reduce {first n : Node} {tail : Precedence.Tail} (hfirst : first.HasText)
    (h : Precedence.reduce first tail = .ok n) : n.HasText := by
  have hbuild := Precedence.reduce_eq_build (OpTree.ordered_ofRow first tail)
  have hleaf := OpTree.first_ofRow first tail
  rw [OpTree.first_ofRow, OpTree.tail_ofRow, h] at hbuild
  cases htree : OpTree.ofRow first tail with
  | leaf m =>
      rw [htree] at hbuild hleaf
      cases hbuild
      cases hleaf
      exact hfirst
  | node op left right =>
      rw [htree] at hbuild
      obtain ⟨l, -, r, -, hcombine⟩ := OpTree.build_node_eq_some.mp hbuild.symm
      obtain ⟨-, -, rfl⟩ := Precedence.combine_eq_ok.mp hcombine
      exact Node.hasText_operation op _ r

/-! ### Readers without terms inside -/

theorem hasText_intNode {text : List Char} {node : Node} (h : intNode? text = some node) :
    node.HasText := by
  unfold intNode? at h
  split at h
  · cases h
    exact Node.hasText_int rfl
  · obtain ⟨n, -, rfl⟩ := Option.map_eq_some_iff.mp h
    exact Node.hasText_int rfl

theorem hasText_doubleNode {text : List Char} {node : Node} (h : doubleNode? text = some node) :
    node.HasText := by
  simp only [doubleNode?, Option.bind_eq_bind, Option.bind_eq_some_iff] at h
  obtain ⟨x, -, _, -, h⟩ := h
  cases h
  exact Node.hasText_double x

/-- A number that does not fit is refused at its token. -/
theorem blames_number {token : Token} (htoken : V token) (negative : Bool) :
    Blames V Node.HasText (number token negative) := by
  unfold number
  extract_lets signed node?
  have htext : ∀ node ∈ node?, node.HasText := by
    intro node hnode
    unfold node? at hnode
    split at hnode
    · exact hasText_intNode hnode
    · exact hasText_doubleNode hnode
    · cases hnode
  cases hnode : node? with
  | none => exact .at htoken rfl nofun
  | some node => exact .pure (htext node hnode)

theorem blames_key : Blames V (fun _ => True) key := by
  refine .bind (blames_next true) fun token htoken => ?_
  split
  · exact .pure trivial
  · exact .pure trivial
  · exact .pure trivial
  · exact .at htoken rfl nofun

theorem blames_fieldName {token : Token} (htoken : V token) :
    Blames V (fun _ => True) (fieldName token) := by
  unfold fieldName
  split
  · exact .pure trivial
  · refine .bind (blames_next true) fun inner hinner => ?_
    split
    · exact .bind (blames_expect _) fun _ _ => .pure trivial
    · exact .at hinner rfl nofun
  · exact .at htoken rfl nofun

theorem blames_placeStep {token : Token} (htoken : V token) (text : List Char) :
    Blames V (fun _ => True) (placeStep token text) := by
  unfold placeStep
  split
  · exact .pure trivial
  · exact .at htoken rfl nofun

theorem blames_minusTerm {token : Token} (htoken : V token) :
    Blames V Node.HasText (minusTerm token) := by
  refine .bind (blames_peek false) fun ahead hahead => ?_
  split
  · exact .bind (blames_pass false) fun _ _ => blames_number hahead true
  · exact .bind (blames_pass false) fun _ _ => blames_number hahead true
  · exact .unexpected htoken

theorem blames_callOf {token : Token} (htoken : V token) (name : String) (args : List Node) :
    Blames V Node.HasText (callOf token name args) := by
  unfold callOf
  split
  · exact .pure (Node.hasText_of_append rfl (.inr (by decide)))
  · exact .pure (Node.hasText_of_append rfl (.inr (by decide)))
  · exact .at htoken rfl nofun

/-! ### Readers of terms

The proofs follow the texts of the readers. An error is either thrown at a token that has just been
read or looked at (`Blames.at`), or it is about a part (`Blames.about`), or it comes from a reader
inside. The text of what is read has a literal piece that is not empty, so it is enough to point at
it. -/

section

variable {term : Scope → Parser Node} (hterm : ∀ scope, Blames V Node.HasText (term scope))

include hterm

/-- Behind an operator that asks for bounds the token in place of `AND` may be refused, or one of
the bounds. -/
theorem blames_rightTerm (op : Operator) (scope : Scope) :
    Blames V Node.HasText (rightTerm term op scope) := by
  refine .bind (hterm scope) fun right hright => ?_
  dsimp only
  split
  · refine .bind (blames_next true) fun joint hjoint => ?_
    split
    · refine .bind (hterm scope) fun upper hupper => ?_
      split
      · exact .halts (.about rfl)
      split
      · exact .halts (.about rfl)
      · exact .pure (Node.hasText_of_append rfl (.inr hupper))
    · exact .halts (.at hjoint rfl (by nofun))
  · exact .pure hright

theorem blames_operations (scope : Scope) (bound : Nat) :
    Blames V (fun _ => True) (operations term scope bound) := by
  induction bound with
  | zero => exact .pure trivial
  | succ bound ih =>
      refine .bind blames_operator? fun op? _ => ?_
      split
      · exact .pure trivial
      · exact .bind (blames_rightTerm hterm _ scope) fun _ _ => .bind ih fun _ _ => .pure trivial

/-- Where reducing fails the error is that of an operator of the tree, and has no token. -/
theorem blames_joined (scope : Scope) : Blames V Node.HasText (joined term scope) := by
  refine .bind (hterm scope) fun first hfirst => .bind blames_remaining fun n _ =>
    .bind (blames_operations hterm scope n) fun tail _ => ?_
  split
  · rename_i node hreduce
    exact .pure (hasText_of_reduce hfirst hreduce)
  · rename_i error hreduce
    refine .about (token?_of_failsWith (t := OpTree.ofRow first tail) ?_)
    refine Precedence.failsWith_of_reduce (OpTree.ordered_ofRow first tail) ?_
    rwa [OpTree.first_ofRow, OpTree.tail_ofRow]

/-- The token behind a value is handed on, to be refused by the entries. -/
theorem blames_entryValue (name : String) (scope : Scope) :
    Blames V (fun entry => V entry.2) (entryValue term name scope) := by
  refine .bind (blames_next true) fun separator hseparator => ?_
  split
  · exact .bind (blames_joined hterm scope) fun value _ =>
      .bind (blames_next true) fun t ht => .pure ht
  · exact .pure hseparator

/-- The token behind a value has to be a comma or a brace. -/
theorem blames_entries (scope : Scope) (bound : Nat) (others : List String) (counter : Nat) :
    Blames V (fun _ => True) (entries term scope bound others counter) := by
  induction bound generalizing others counter with
  | zero => exact .bind (blames_next true) fun t ht => .at ht rfl nofun
  | succ bound ih =>
      refine .bind blames_key fun written _ => .bind (blames_entryValue hterm written scope) ?_
      rintro ⟨value, terminator⟩ hterminator
      dsimp only
      split
      · exact .bind (ih _ _) fun _ _ => .pure trivial
      · split
        · exact .pure trivial
        · exact .at hterminator rfl nofun

theorem blames_document (scope : Scope) : Blames V Node.HasText (document term scope) := by
  refine .bind (blames_peek true) fun ahead _ => ?_
  split
  · exact .bind (blames_pass true) fun _ _ =>
      .pure (Node.hasText_of_append rfl (.inr (by decide)))
  · exact .bind blames_remaining fun n _ => .bind (blames_entries hterm scope n _ _) fun _ _ =>
      .pure (Node.hasText_of_append rfl (.inr (by decide)))

theorem blames_listed (scope : Scope) (close : Symbol) (bound : Nat) :
    Blames V (fun _ => True) (listed term scope close bound) := by
  induction bound with
  | zero => exact blames_failAtNext
  | succ bound ih =>
      refine .bind (blames_joined hterm scope) fun item _ => .bind (blames_next true) fun t ht => ?_
      split
      · exact .bind ih fun _ _ => .pure trivial
      · split
        · exact .pure trivial
        · exact .at ht rfl nofun

theorem blames_list (scope : Scope) (close : Symbol) :
    Blames V (fun _ => True) (list term scope close) := by
  refine .bind (blames_peek true) fun ahead _ => ?_
  split
  · exact .bind (blames_pass true) fun _ _ => .pure trivial
  · exact .bind blames_remaining fun n _ => blames_listed hterm scope close n

theorem blames_array (scope : Scope) : Blames V Node.HasText (array term scope) :=
  .bind (blames_list hterm scope .rightBracket) fun items _ =>
    .pure (Node.hasText_of_append rfl (.inr (by decide)))

theorem blames_bracketed : Blames V (fun _ => True) (bracketed term) := by
  refine .bind (blames_peek true) fun ahead hahead => ?_
  split
  · exact .bind (blames_pass true) fun _ _ => blames_placeStep hahead _
  · refine .bind (blames_pass true) fun _ _ => .bind (blames_next true) fun token htoken => ?_
    split
    · exact blames_placeStep htoken _
    · exact .at htoken rfl nofun
  · exact .bind (blames_pass true) fun _ _ => .pure trivial
  · exact .bind (blames_joined hterm .current) fun part _ => .pure trivial

/-- The steps of a path: fields, steps in brackets and what closes these. -/
theorem blames_steps (bound : Nat) : Blames V (fun _ => True) (steps term bound) := by
  induction bound with
  | zero => exact .pure trivial
  | succ bound ih =>
      refine .bind (blames_peek false) fun ahead _ => ?_
      split
      · exact .bind (blames_pass false) fun _ _ => .bind (blames_next false) fun t ht =>
          .bind (blames_fieldName ht) fun _ _ => .bind ih fun _ _ => .pure trivial
      · refine .bind (blames_pass false) fun _ _ => .bind
          (.bind (blames_bracketed hterm) fun _ _ => .bind (blames_expect _) fun _ _ =>
            .pure trivial) fun step _ => ?_
        split
        · exact .pure trivial
        · exact .bind ih fun _ _ => .pure trivial
      · exact .pure trivial

theorem blames_pathBehind (root : PathRoot) (field : String) (scope : Scope) :
    Blames V Node.HasText (pathBehind term root field scope) := by
  refine .bind blames_remaining fun n _ => .bind (blames_steps hterm n) fun more _ => ?_
  extract_lets named fields path
  have hpath : path.HasText := Node.hasText_of_append rfl (.inl (by cases root <;> decide))
  refine .bind (blames_peek false) fun ahead _ => ?_
  split
  · exact .bind (blames_pass false) fun _ _ => .bind (hterm .current) fun _ _ =>
      .pure (Node.hasText_of_append rfl (.inr (by decide)))
  · exact .pure hpath

theorem blames_sigilPath (root : PathRoot) (scope : Scope) :
    Blames V Node.HasText (sigilPath term root scope) := by
  refine .bind (blames_peek false) fun ahead _ => ?_
  split
  · exact .bind (blames_pass false) fun _ _ => .bind (blames_next true) fun t ht =>
      .bind (blames_fieldName ht) fun field _ => blames_pathBehind hterm root field scope
  · exact blames_pathBehind hterm root "" scope

theorem blames_sequenceArgs (scope : Scope) :
    Blames V (fun _ => True) (sequenceArgs term scope) :=
  .bind (blames_expect _) fun _ _ => .bind (hterm scope) fun _ _ =>
    .bind (blames_expect _) fun _ _ => .bind (blames_joined hterm _) fun _ _ => .pure trivial

theorem blames_sortOrder? (scope : Scope) : Blames V (fun _ => True) (sortOrder? term scope) := by
  refine .bind (blames_peek true) fun ahead _ => ?_
  split
  · refine .bind (blames_pass true) fun _ _ => .bind (blames_joined hterm scope) fun order _ => ?_
    split
    · exact .halts (.about rfl)
    · exact .pure trivial
  · exact .pure trivial

theorem blames_sequenceCall (scope : Scope) :
    Blames V Node.HasText (mapCall term scope) ∧ Blames V Node.HasText (filterCall term scope) ∧
      Blames V Node.HasText (sortCall term scope) := by
  refine ⟨.bind (blames_sequenceArgs hterm scope) fun _ _ => ?_,
    .bind (blames_sequenceArgs hterm scope) fun _ _ => ?_,
    .bind (blames_sequenceArgs hterm scope) fun _ _ => ?_⟩
  · exact .bind (blames_expect _) fun _ _ => .pure (Node.hasText_of_append rfl (.inr (by decide)))
  · exact .bind (blames_expect _) fun _ _ => .pure (Node.hasText_of_append rfl (.inr (by decide)))
  · exact .bind (blames_sortOrder? hterm scope) fun _ _ => .bind (blames_expect _) fun _ _ =>
      .pure (Node.hasText_of_append rfl (.inr (by decide)))

theorem blames_call {token : Token} (htoken : V token) (name : String) (scope : Scope) :
    Blames V Node.HasText (call term token name scope) := by
  refine .bind (blames_expect _) fun _ _ => .bind (blames_list hterm scope _) fun args _ => ?_
  split
  · rename_i test ifTrue ifFalse
    split
    · split
      · exact .halts (.about rfl)
      · refine .pure ?_
        unfold Node.conditional
        extract_lets source
        split <;> exact Node.hasText_of_append rfl (.inr (by decide))
    · exact blames_callOf htoken name _
  · exact blames_callOf htoken name _

/-- What a word begins; the word itself is refused where it is no function. -/
theorem blames_wordTerm {token : Token} (htoken : V token) (word : String) (scope : Scope) :
    Blames V Node.HasText (wordTerm term token word scope) := by
  obtain ⟨hmap, hfilter, hsort⟩ := blames_sequenceCall hterm scope
  unfold wordTerm
  split
  · exact .pure (Node.hasText_of_eq rfl (by decide))
  split
  · exact .pure (Node.hasText_of_eq rfl (by decide))
  split
  · exact .pure (Node.hasText_of_eq rfl (by decide))
  refine .bind (blames_peek true) fun ahead _ => ?_
  split
  · split
    · exact hmap
    split
    · exact hfilter
    split
    · exact hsort
    · exact blames_call hterm htoken word scope
  · exact blames_pathBehind hterm _ word scope

theorem blames_documentsTerm : Blames V Node.HasText (documentsTerm term) := by
  refine .bind (blames_peek false) fun ahead _ => ?_
  split
  · exact .bind (blames_pass false) fun _ _ => .bind (hterm .source) fun _ _ =>
      .pure (Node.hasText_of_append rfl (.inr (by decide)))
  · exact .pure (Node.hasText_of_eq rfl (by decide))

theorem blames_atTerm (scope : Scope) : Blames V Node.HasText (atTerm term scope) := by
  refine .bind (blames_peek false) fun ahead _ => ?_
  split
  · exact .bind (blames_pass false) fun _ _ =>
      .pure (Node.hasText_of_append rfl (.inl (by decide)))
  · exact .bind (blames_pass false) fun _ _ =>
      .pure (Node.hasText_of_append rfl (.inl (by decide)))
  · exact blames_sigilPath hterm _ scope

theorem blames_termWith (scope : Scope) : Blames V Node.HasText (termWith term scope) := by
  refine .bind (blames_next true) fun token htoken => ?_
  split
  · exact blames_minusTerm htoken
  · exact blames_number htoken false
  · exact blames_number htoken false
  · exact blames_wordTerm hterm htoken _ scope
  · exact .pure (Node.hasText_string _)
  · exact blames_documentsTerm hterm
  · exact blames_document hterm scope
  · exact blames_array hterm scope
  · exact blames_atTerm hterm scope
  · exact blames_sigilPath hterm _ scope
  · exact .bind (blames_joined hterm scope) fun inner _ => .bind (blames_expect _) fun _ _ =>
      .pure inner.hasText_parenthesized
  · exact .unexpected htoken

end

/-- Terms inside one another, to any depth. -/
theorem blames_termUpTo (bound : Nat) (scope : Scope) :
    Blames V Node.HasText (termUpTo bound scope) := by
  induction bound generalizing scope with
  | zero => exact blames_failAtNext
  | succ bound ih => exact blames_termWith ih scope

theorem blames_inMode (mode : ParseMode) (scope : Scope) :
    Blames V Node.HasText (inMode mode scope) := by
  cases mode with
  | single => exact .bind blames_remaining fun n _ => blames_termUpTo n scope
  | full =>
      refine .bind (.bind blames_remaining fun n _ => blames_joined (blames_termUpTo n) scope)
        fun node hnode => .bind blames_get fun _ _ => ?_
      split
      · exact .pure hnode
      · exact .bind (blames_peek true) fun _ ht => .halts (.at ht rfl (by nofun))

end Parser

/-! ### Texts -/

/-- What a text is parsed into has a text. -/
theorem hasText_of_parse {code : String} {scope : Scope} {mode : ParseMode} {n : Node}
    (h : parse code scope mode = .ok n) : n.HasText := by
  obtain ⟨s, s', -, hrun⟩ := parse_ok.mp h
  have hall : s.All fun _ => True := ⟨trivial, fun _ _ => trivial⟩
  exact ((Parser.blames_inMode mode scope).ok hall hrun).1

theorem TokenStream.all_ofTokens {tokens : List Token} {last : Token}
    (hlast : tokens.getLast? = some last) (hfinish : last.isFinish = true) :
    (TokenStream.ofTokens tokens).All (· ∈ tokens) := by
  simp only [ofTokens, hlast, hfinish, if_true]
  exact ⟨List.mem_of_getLast? hlast, fun t ht => (List.dropLast_sublist _).mem ht⟩

/-- The token of an error of a text is one of the tokens of the text. -/
theorem blames_of_parse {code : String} {scope : Scope} {mode : ParseMode} {e : ParseError}
    (h : parse code scope mode = .error (.parse e)) :
    ∃ tokens, tokenize code true = .ok tokens ∧ e.Blames (· ∈ tokens) := by
  unfold parse at h
  cases htext : TokenStream.ofText code with
  | error error =>
      rw [htext] at h
      cases h
  | ok s =>
      obtain ⟨tokens, htokens, rfl⟩ := TokenStream.ofText_ok.mp htext
      have htokenize : tokenize code true = .ok tokens := by
        rw [tokenize, htokens]
        rfl
      obtain ⟨last, hlast, hfinish, -⟩ := (tokenize_tiles htokenize).1.last
      have hall := TokenStream.all_ofTokens hlast (Token.isFinish_iff.mpr hfinish)
      rw [htext] at h
      cases hrun : (Parser.inMode mode scope).run (TokenStream.ofTokens tokens) with
      | ok n s' =>
          simp only [hrun] at h
          cases h
      | error error s' =>
          simp only [hrun] at h
          cases h
          exact ⟨tokens, htokenize, (Parser.blames_inMode mode scope).error hall hrun⟩

end DocQuery
