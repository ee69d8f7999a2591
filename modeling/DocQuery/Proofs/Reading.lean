import DocQuery.Parser
import DocQuery.Proofs.Spelling
/-!
# DocQuery.Proofs.Reading

What is read was written. Where a reader yields a node, the tokens that it has taken spell
a well-formed phrase, and the node is what the phrase stands for.

Every reader is given the reader of a term, so its lemma is about any such reader that is
right (`Parser.ReadsTerms`). The reader for terms within so many others is right by
induction on their number (`termUpTo_reads`).
-/

namespace DocQuery

/-- The phrase stands for a node, and the tokens between two places spell it. -/
structure Phrase.Reads (e : Phrase) (scope : Scope) (n : Node) (s s' : TokenStream) : Prop where
  wellFormed : e.WellFormed
  node : e.node scope = some n
  spells : Spells e.marks s s'

/-- The phrase is what a text has been read as. -/
def Phrase.IsReadFrom (code : String) (scope : Scope) (n : Node) (e : Phrase) : Prop :=
  ∃ s s', TokenStream.ofText code = .ok s ∧ e.Reads scope n s s'

theorem Phrase.Reads.of_layer {layer : Phrase.Layer Phrase} {scope : Scope} {n : Node}
    {s s' : TokenStream} (hlayer : layer.WellFormed)
    (hparts : ∀ part ∈ layer.children, part.WellFormed)
    (hn : Layer.node isBounds Phrase.node scope layer = some n)
    (hs : Spells (Layer.marks isParameter Phrase.marks layer) s s') :
    (Phrase.mk layer).Reads scope n s s' where
  wellFormed := .mk hlayer hparts
  node := (node_eq _ _).trans hn
  spells := by rwa [marks_eq]

theorem Phrase.Reads.ended {e : Phrase} {scope : Scope} {n : Node} {s s' : TokenStream}
    (h : e.Reads scope n s s') (hs : s.Ended) : s'.Ended :=
  h.spells.ended hs

namespace Parser

open Phrase

/-- The reader yields what a term stands for that is spelt by the tokens it takes. -/
def ReadsTerms (term : Scope → Parser Node) : Prop :=
  ∀ {scope : Scope} {s : TokenStream} {n : Node} {s' : TokenStream}, s.Ended →
    (term scope).run s = .ok n s' → ∃ e : Phrase, e.isTerm = true ∧ e.Reads scope n s s'

variable {s s' : TokenStream} {scope : Scope}

/-! ### Operators

An operator is one token, and a quantified one has a word in front of it. Where no operator is read
no token is taken. -/

/-- A token that is an operator by itself spells it. -/
theorem spells_of_operator {op : Operator} (h : (s.peek true).operator? = some op) :
    Spells op.marks s (s.advance true) := by
  unfold Token.operator? at h
  split at h
  -- One of the words: the lookup has compared its name, and the mark compares no more.
  case h_12 w hkind =>
    have hname := List.find?_some h
    have hmem := List.mem_of_find?_eq_some h
    have hkey : (s.peek true).kind.isKeyword op.text = true := by
      rw [hkind]
      exact hname
    simp only [Token.joiningWords, List.mem_cons, List.not_mem_nil, or_false] at hmem
    rcases hmem with rfl | rfl | rfl | rfl | rfl <;> exact ⟨hkey, rfl⟩
  case h_13 => cases h
  -- The others are symbols. Their marks ask for just the kind that the match has found.
  all_goals
    rename_i hkind
    cases h
    exact ⟨hkind, rfl⟩

/-- A token that is a quantifier spells its word. -/
theorem spells_of_quantifier {quantifier : Quantifier}
    (h : (s.peek true).quantifier? = some quantifier) :
    (s.peek true).kind.isKeyword quantifier.text = true := by
  unfold Token.quantifier? at h
  split at h
  · cases h
    assumption
  · split at h
    · cases h
      assumption
    · cases h

/-- Where an operator is read its marks are spelt, and where none is read no token is taken. -/
theorem operator?_reads {op : Option Operator} (h : operator?.run s = .ok op s') :
    match op with
    | some op => Spells op.marks s s'
    | none => s = s' := by
  simp only [operator?, bind_ok, peek_ok] at h
  obtain ⟨_, _, ⟨rfl, rfl⟩, h⟩ := h
  split at h
  · -- An operator by itself, then none, then a quantifier with an operator behind it.
    rename_i op hop
    simp only [bind_ok, pass_ok, pure_ok] at h
    obtain ⟨_, _, rfl, rfl, rfl⟩ := h
    exact spells_of_operator hop
  · split at h
    · rw [pure_ok] at h
      obtain ⟨rfl, rfl⟩ := h
      rfl
    · rename_i quantifier hquantifier
      simp only [bind_ok, pass_ok, next_ok] at h
      obtain ⟨_, _, rfl, _, _, ⟨rfl, rfl⟩, h⟩ := h
      split at h
      · rename_i op hop
        rw [pure_ok] at h
        obtain ⟨rfl, rfl⟩ := h
        exact ⟨spells_of_quantifier hquantifier, spells_of_operator hop⟩
      · exact (throw_ok.mp h).elim
      · exact (throw_ok.mp h).elim

/-! ### Terms joined by operators -/

/-- Operators and the terms behind them. -/
structure ReadsTail (row : List (Operator × Phrase)) (scope : Scope) (tail : Precedence.Tail)
    (s s' : TokenStream) : Prop where
  classes : ∀ entry ∈ row,
    entry.2.isTerm = true ∨ entry.1.isBetween = true ∧ entry.2.isBounds = true
  bounded : Bounded row
  wellFormed : ∀ entry ∈ row, entry.2.WellFormed
  nodes : tailNodes isBounds Phrase.node scope row = some tail
  spells : Spells (row.flatMap (tailMarks Phrase.marks)) s s'

section

variable {term : Scope → Parser Node} (ht : ReadsTerms term)

include ht

/-- What stands behind an operator is a term, and a pair of bounds behind one that asks for them. -/
theorem rightTerm_reads {op : Operator} {n : Node} (hs : s.Ended)
    (h : (rightTerm term op scope).run s = .ok n s') :
    ∃ e : Phrase, e.Reads scope n s s' ∧ e.isBounds = op.isBetween ∧
      (e.isTerm = true ∨ op.isBetween = true ∧ e.isBounds = true) := by
  simp only [rightTerm, bind_ok] at h
  obtain ⟨lower, t, hlower, h⟩ := h
  obtain ⟨e, he, hread⟩ := ht hs hlower
  split at h
  · -- The operator asks for bounds: two terms with `AND` between them are one phrase.
    rename_i hbetween
    simp only [bind_ok, next_ok, ite_else_throw_ok, ite_throw_ok, pure_ok] at h
    obtain ⟨_, _, ⟨rfl, rfl⟩, hand, upper, u, hupper, hl, hu, rfl, rfl⟩ := h
    obtain ⟨e', he', hread'⟩ := ht ((hread.ended hs).advance true) hupper
    refine ⟨.mk (.bounds e e'), .of_layer ⟨he, he'⟩ ?_ ?_ ?_, hbetween.symm, .inr ⟨hbetween, rfl⟩⟩
    · simpa [Layer.children] using ⟨hread.wellFormed, hread'.wellFormed⟩
    · have hl : lower.isScalar = true := by simpa using hl
      have hu : upper.isScalar = true := by simpa using hu
      simp [Layer.node, hread.node, hread'.node, hl, hu]
    · have hjoint : Spells [.blank, .keyword "AND", .blank] t (t.advance true) := ⟨hand, rfl⟩
      exact (hread.spells.append hjoint).append hread'.spells
  · rename_i hbetween
    rw [pure_ok] at h
    obtain ⟨rfl, rfl⟩ := h
    refine ⟨e, hread, ?_, .inl he⟩
    rw [isBounds_of_isTerm he]
    simpa using hbetween

/-- Operators are read with what is behind them, as a row. -/
theorem operations_reads {bound : Nat} {tail : Precedence.Tail} (hs : s.Ended)
    (h : (operations term scope bound).run s = .ok tail s') :
    ∃ row, ReadsTail row scope tail s s' := by
  -- The bound only ends the recursion. Where it does, nothing has been taken, as where there is no
  -- operator.
  induction bound generalizing s tail with
  | zero =>
      rw [operations, pure_ok] at h
      obtain ⟨rfl, rfl⟩ := h
      exact ⟨[], by simp, trivial, by simp, rfl, rfl⟩
  | succ bound ih =>
      simp only [operations, bind_ok] at h
      obtain ⟨op, t, hop, h⟩ := h
      have hread := operator?_reads hop
      cases op with
      | none =>
          rw [pure_ok] at h
          obtain ⟨rfl, rfl⟩ := h
          exact ⟨[], by simp, trivial, by simp, rfl, hread⟩
      | some op =>
          simp only [bind_ok, pure_ok] at h
          obtain ⟨right, u, hright, others, _, hothers, rfl, rfl⟩ := h
          have htEnded := Spells.ended hread hs
          obtain ⟨e, he, hbounds, hclass⟩ := rightTerm_reads ht htEnded hright
          obtain ⟨row, hrow⟩ := ih (he.ended htEnded) hothers
          refine ⟨(op, e) :: row, ?_, ?_, ?_, ?_, ?_⟩
          · exact List.forall_mem_cons.mpr ⟨hclass, hrow.classes⟩
          · exact ⟨fun hbetween => .inl (hbounds.trans hbetween), hrow.bounded⟩
          · exact List.forall_mem_cons.mpr ⟨he.wellFormed, hrow.wellFormed⟩
          · simp [tailNodes, hbounds, he.node, hrow.nodes]
          · rw [List.flatMap_cons]
            refine Spells.append ?_ hrow.spells
            exact Spells.append hread he.spells

/-- Terms joined by operators are a phrase that is no pair of bounds. -/
theorem joined_reads {n : Node} (hs : s.Ended) (h : (joined term scope).run s = .ok n s') :
    ∃ e : Phrase, e.isBounds = false ∧ e.Reads scope n s s' := by
  simp only [joined, bind_ok, remaining_ok] at h
  obtain ⟨first, t, hfirst, _, _, ⟨rfl, rfl⟩, tail, u, htail, h⟩ := h
  obtain ⟨e, he, hread⟩ := ht hs hfirst
  obtain ⟨row, hrow⟩ := operations_reads ht (hread.ended hs) htail
  split at h
  · rename_i node hnode
    rw [pure_ok] at h
    obtain ⟨rfl, rfl⟩ := h
    -- A term with no operator behind it is not a row of one: it is the phrase itself.
    cases hempty : row with
    | nil =>
        subst hempty
        have htail : some tail = some [] := hrow.nodes.symm
        cases htail
        cases hnode
        have hstream : t = u := hrow.spells
        exact ⟨e, isBounds_of_isTerm he, hstream ▸ hread⟩
    | cons entry rest =>
        have hne : row ≠ [] := by simp [hempty]
        refine ⟨.mk (.joined e row), rfl, .of_layer ⟨he, hne, hrow.classes, hrow.bounded⟩ ?_ ?_ ?_⟩
        · refine List.forall_mem_cons.mpr ⟨hread.wellFormed, fun part hpart => ?_⟩
          obtain ⟨entry, hentry, rfl⟩ := List.mem_map.mp hpart
          exact hrow.wellFormed entry hentry
        · simp [Layer.node, hread.node, hrow.nodes, hnode]
        · exact hread.spells.append hrow.spells
  · exact (throw_ok.mp h).elim

/-! ### Documents, arrays and arguments

Lists between brackets have one shape: items with commas between them, and a token that ends them. A
document has a name in front of each item, which may be all that is written. -/

omit ht in
/-- A number is told by its token and its sign; no further token is taken. -/
theorem number_reads {token : Token} {negative : Bool} {n : Node}
    (h : (number token negative).run s = .ok n s') :
    s = s' ∧ ∃ isDouble text, token.kind = (if isDouble then .double text else .int text) ∧
      numberNode? negative isDouble text = some n := by
  unfold number at h
  extract_lets signed node? at h
  cases hnode : node? with
  | none =>
      rw [hnode] at h
      exact (throw_ok.mp h).elim
  | some node =>
      rw [hnode] at h
      obtain ⟨rfl, rfl⟩ := pure_ok.mp h
      refine ⟨rfl, ?_⟩
      unfold node? at hnode
      split at hnode
      · rename_i text hkind
        exact ⟨false, text, hkind, hnode⟩
      · rename_i text hkind
        exact ⟨true, text, hkind, hnode⟩
      · cases hnode

omit ht in
/-- The name of an entry is a string, a word or an integer. -/
theorem key_reads {name : String} (h : key.run s = .ok name s') :
    ∃ written : EntryName, written.name = name ∧ Spells [written.mark] s s' := by
  simp only [key, bind_ok, next_ok] at h
  obtain ⟨_, _, ⟨rfl, rfl⟩, h⟩ := h
  split at h
  case h_4 => exact (throw_ok.mp h).elim
  all_goals
    rename_i text hkind
    rw [pure_ok] at h
    obtain ⟨rfl, rfl⟩ := h
  · exact ⟨.string _, rfl, hkind, rfl⟩
  · exact ⟨.word _, rfl, hkind, rfl⟩
  · exact ⟨.int _, rfl, hkind, rfl⟩

/-- The value of an entry and the token behind it. -/
theorem entryValue_reads {written : EntryName} {value : Node × Token} {t : TokenStream}
    (hs : t.Ended) (hkey : Spells [written.mark] s t)
    (h : (entryValue term written.name scope).run t = .ok value s') :
    ∃ part : Option Phrase, (∀ e ∈ part, e.isBounds = false ∧ e.WellFormed) ∧
      valueNode Phrase.node scope written part = some value.1 ∧
      ∃ u, Spells (entryMarks Phrase.marks (written, part)) s u ∧
        u.peek true = value.2 ∧ u.advance true = s' := by
  simp only [entryValue, bind_ok, next_ok] at h
  obtain ⟨_, _, ⟨rfl, rfl⟩, h⟩ := h
  split at h
  · -- Behind a colon the value is written; otherwise the entry is a shorthand, and the token that
    -- was looked at is the one behind it.
    rename_i hcolon
    simp only [bind_ok, next_ok, pure_ok] at h
    obtain ⟨node, u, hvalue, _, _, ⟨rfl, rfl⟩, rfl, rfl⟩ := h
    obtain ⟨e, hclass, hread⟩ := joined_reads ht (hs.advance true) hvalue
    refine ⟨some e, by simpa using ⟨hclass, hread.wellFormed⟩, hread.node, u, ?_, rfl, rfl⟩
    exact hkey.append ⟨isSymbol_iff.mp hcolon, hread.spells⟩
  · rw [pure_ok] at h
    obtain ⟨rfl, rfl⟩ := h
    exact ⟨none, by simp, rfl, t, hkey, rfl, rfl⟩

/-- The entries of a document up to its brace. The names and the counter of those in front decide
under which names these are kept. -/
theorem entries_reads {bound : Nat} {others : List String} {counter : Nat}
    {list : List (String × Node)} (hs : s.Ended)
    (h : (entries term scope bound others counter).run s = .ok list s') :
    ∃ es : List (EntryName × Option Phrase), es ≠ [] ∧
      (∀ entry ∈ es, ∀ e ∈ entry.2, e.isBounds = false ∧ e.WellFormed) ∧
      entryNodes Phrase.node scope es others counter = some list ∧
      Spells (separated (es.map (entryMarks Phrase.marks)) ++ [.symbol .rightBrace]) s s' := by
  induction bound generalizing s others counter list with
  | zero =>
      simp only [entries, bind_ok, throw_ok] at h
      obtain ⟨_, _, _, h⟩ := h
      exact h.elim
  | succ bound ih =>
      simp only [entries, bind_ok] at h
      obtain ⟨_, t, hkey, ⟨value, token⟩, u', hvalue, h⟩ := h
      obtain ⟨written, rfl, hwritten⟩ := key_reads hkey
      have htEnded := hwritten.ended hs
      obtain ⟨part, hpart, hnode, u, hspells, hpeek, hadvance⟩ :=
        entryValue_reads ht htEnded hwritten hvalue
      dsimp only at hpeek hnode h
      subst hpeek hadvance
      have huEnded := hspells.ended hs
      -- A comma asks for more entries, a brace ends them, and nothing else may follow a value.
      split at h
      · rename_i hcomma
        simp only [bind_ok, pure_ok] at h
        obtain ⟨rest, _, hrest, rfl, rfl⟩ := h
        obtain ⟨es, hne, hes, hnodes, hmarks⟩ := ih (huEnded.advance true) hrest
        refine ⟨(written, part) :: es, by simp, List.forall_mem_cons.mpr ⟨hpart, hes⟩, ?_, ?_⟩
        · simp [entryNodes, hnode, hnodes]
        · rw [List.map_cons, separated_cons _ (by simpa using hne), List.append_assoc]
          exact hspells.append ⟨isSymbol_iff.mp hcomma, hmarks⟩
      · split at h
        · rename_i hclose
          rw [pure_ok] at h
          obtain ⟨rfl, rfl⟩ := h
          refine ⟨[(written, part)], by simp, by simpa using hpart, ?_, ?_⟩
          · simp [entryNodes, hnode]
          · exact hspells.append ⟨isSymbol_iff.mp hclose, rfl⟩
        · exact (throw_ok.mp h).elim

/-- What a brace begins is a document. -/
theorem document_reads {n : Node} {t : TokenStream} (hs : s.Ended)
    (hopen : Spells [.symbol .leftBrace] s t) (h : (document term scope).run t = .ok n s') :
    ∃ e : Phrase, e.isTerm = true ∧ e.Reads scope n s s' := by
  simp only [document, bind_ok, peek_ok] at h
  obtain ⟨_, _, ⟨rfl, rfl⟩, h⟩ := h
  -- Only behind the opening brace may the closing one follow at once.
  split at h
  · rename_i hclose
    simp only [bind_ok, pass_ok, pure_ok] at h
    obtain ⟨_, _, rfl, rfl, rfl⟩ := h
    refine ⟨.mk (.document []), rfl,
      .of_layer (by simp [Layer.WellFormed]) (by simp [Layer.children])
      rfl ?_⟩
    exact hopen.append ⟨isSymbol_iff.mp hclose, rfl⟩
  · simp only [bind_ok, remaining_ok, pure_ok] at h
    obtain ⟨_, _, ⟨rfl, rfl⟩, list, _, hentries, rfl, rfl⟩ := h
    obtain ⟨es, -, hes, hnodes, hspells⟩ := entries_reads ht (hopen.ended hs) hentries
    refine ⟨.mk (.document es), rfl, .of_layer (fun entry hentry e he => (hes entry hentry e he).1)
      ?_ ?_ (hopen.append hspells)⟩
    · intro part hpart
      obtain ⟨entry, hentry, he⟩ := List.mem_flatMap.mp hpart
      exact (hes entry hentry part (Option.mem_toList.mp he)).2
    · simp [Layer.node, hnodes]

/-- Expressions with commas between them and a closing symbol behind. -/
structure ReadsList (es : List Phrase) (scope : Scope) (close : Symbol) (ns : List Node)
    (s s' : TokenStream) : Prop where
  classes : ∀ e ∈ es, e.isBounds = false
  wellFormed : ∀ e ∈ es, e.WellFormed
  nodes : Phrase.nodes Phrase.node scope es = some ns
  spells : Spells (separated (es.map Phrase.marks) ++ [.symbol close]) s s'

/-- Expressions with commas between them, at least one. -/
theorem listed_reads {close : Symbol} {bound : Nat} {ns : List Node} (hs : s.Ended)
    (h : (listed term scope close bound).run s = .ok ns s') :
    ∃ es, es ≠ [] ∧ ReadsList es scope close ns s s' := by
  induction bound generalizing s ns with
  | zero => exact (failAtNext_ok.mp h).elim
  | succ bound ih =>
      simp only [listed, bind_ok, next_ok] at h
      obtain ⟨n, t, hitem, _, _, ⟨rfl, rfl⟩, h⟩ := h
      obtain ⟨e, hclass, hread⟩ := joined_reads ht hs hitem
      -- As with entries, a comma asks for more and the closing symbol ends the list.
      split at h
      · rename_i hcomma
        simp only [bind_ok, pure_ok] at h
        obtain ⟨rest, _, hrest, rfl, rfl⟩ := h
        obtain ⟨es, hne, hes⟩ := ih ((hread.ended hs).advance true) hrest
        refine ⟨e :: es, by simp, List.forall_mem_cons.mpr ⟨hclass, hes.classes⟩,
          List.forall_mem_cons.mpr ⟨hread.wellFormed, hes.wellFormed⟩, ?_, ?_⟩
        · simp [nodes, hread.node, hes.nodes]
        · rw [List.map_cons, separated_cons _ (by simpa using hne), List.append_assoc]
          exact hread.spells.append ⟨isSymbol_iff.mp hcomma, hes.spells⟩
      · split at h
        · rename_i hclose
          rw [pure_ok] at h
          obtain ⟨rfl, rfl⟩ := h
          refine ⟨[e], by simp, by simpa using hclass, by simpa using hread.wellFormed, ?_, ?_⟩
          · simp [nodes, hread.node]
          · exact hread.spells.append ⟨isSymbol_iff.mp hclose, rfl⟩
        · exact (throw_ok.mp h).elim

/-- Expressions with commas between them, or none. -/
theorem list_reads {close : Symbol} {ns : List Node} (hs : s.Ended)
    (h : (list term scope close).run s = .ok ns s') :
    ∃ es, ReadsList es scope close ns s s' := by
  simp only [list, bind_ok, peek_ok] at h
  obtain ⟨_, _, ⟨rfl, rfl⟩, h⟩ := h
  split at h
  · rename_i hclose
    simp only [bind_ok, pass_ok, pure_ok] at h
    obtain ⟨_, _, rfl, rfl, rfl⟩ := h
    exact ⟨[], by simp, by simp, rfl, isSymbol_iff.mp hclose, rfl⟩
  · simp only [bind_ok, remaining_ok] at h
    obtain ⟨_, _, ⟨rfl, rfl⟩, h⟩ := h
    obtain ⟨es, -, hes⟩ := listed_reads ht hs h
    exact ⟨es, hes⟩

/-- What a bracket begins is an array. -/
theorem array_reads {n : Node} {t : TokenStream} (hs : s.Ended)
    (hopen : Spells [.symbol .leftBracket] s t) (h : (array term scope).run t = .ok n s') :
    ∃ e : Phrase, e.isTerm = true ∧ e.Reads scope n s s' := by
  simp only [array, bind_ok, pure_ok] at h
  obtain ⟨ns, _, hlist, rfl, rfl⟩ := h
  obtain ⟨es, hes⟩ := list_reads ht (hopen.ended hs) hlist
  refine ⟨.mk (.array es), rfl, .of_layer hes.classes hes.wellFormed ?_ (hopen.append hes.spells)⟩
  simp [Layer.node, hes.nodes]

/-! ### Paths -/

omit ht in
/-- A field is named by a word or by a string in brackets. -/
theorem fieldName_reads {touching : Bool} {name : String}
    (h : (fieldName (s.peek (!touching))).run (s.advance (!touching)) = .ok name s') :
    ∃ field : FieldName, field.name = name ∧ Spells (field.marks touching) s s' := by
  unfold fieldName at h
  split at h
  · rename_i word hkind
    rw [pure_ok] at h
    obtain ⟨rfl, rfl⟩ := h
    exact ⟨.word word, rfl, hkind, rfl⟩
  · rename_i hopen
    simp only [bind_ok, next_ok] at h
    obtain ⟨_, _, ⟨rfl, rfl⟩, h⟩ := h
    split at h
    · rename_i text hkind
      simp only [bind_ok, expect_ok, pure_ok] at h
      obtain ⟨_, _, ⟨hclose, rfl⟩, rfl, rfl⟩ := h
      exact ⟨.quoted text, rfl, hopen, hkind, hclose, rfl⟩
    · exact (throw_ok.mp h).elim
  · exact (throw_ok.mp h).elim

omit ht in
/-- A place is an integer of 32 bits; its token has been taken already. -/
theorem placeStep_reads {token : Token} {text : List Char} {step : PathStep Node}
    (h : (placeStep token text).run s = .ok step s') :
    s = s' ∧ (Number.readInt32? text).map (fun n => PathStep.index n.toInt) = some step := by
  unfold placeStep at h
  split at h
  · rename_i n hn
    rw [pure_ok] at h
    obtain ⟨rfl, rfl⟩ := h
    exact ⟨rfl, by rw [hn, Option.map_some]⟩
  · exact (throw_ok.mp h).elim

/-- The phrase may stand between the brackets of a step. -/
structure StandsInStep (e : Phrase) : Prop where
  isBounds : e.isBounds = false
  isPlain : e.isPlain = true
  wellFormed : e.WellFormed

/-- A step in brackets. -/
structure ReadsStep (w : WrittenStep Phrase) (step : PathStep Node) (inside : List Mark)
    (s s' : TokenStream) : Prop where
  parts : ∀ e, w = .part e → StandsInStep e
  isMember : WrittenStep.isMember w = false
  isMany : step.isEnumerable = WrittenStep.isMany isParameter w
  node : stepNode Phrase.node w = some step
  marks : stepMarks Phrase.marks w = .touch .leftBracket :: inside ++ [.symbol .rightBracket]
  spells : Spells inside s s'

/-- What is between the brackets of a step is a place, an asterisk or an expression. -/
theorem bracketed_reads {step : PathStep Node} (hs : s.Ended)
    (h : (bracketed term).run s = .ok step s') : ∃ w inside, ReadsStep w step inside s s' := by
  have place (negative : Bool) (text : String) {s s' : TokenStream}
      (hnode : stepNode Phrase.node (.place negative text) = some step)
      (hspells : Spells (placeMarks negative text) s s') :
      ∃ w inside, ReadsStep w step inside s s' := by
    refine ⟨.place negative text, placeMarks negative text, by rintro _ ⟨⟩, rfl, ?_, hnode, rfl,
      hspells⟩
    obtain ⟨n, -, rfl⟩ := Option.map_eq_some_iff.mp hnode
    rfl
  simp only [bracketed, bind_ok, peek_ok] at h
  obtain ⟨_, _, ⟨rfl, rfl⟩, h⟩ := h
  -- The token behind the bracket decides: a digit or a sign begins a place, an asterisk stands for
  -- all, and anything else begins an expression.
  split at h
  · rename_i text hkind
    simp only [bind_ok, pass_ok] at h
    obtain ⟨_, _, rfl, h⟩ := h
    obtain ⟨rfl, hstep⟩ := placeStep_reads h
    exact place false text hstep ⟨hkind, rfl⟩
  · rename_i hminus
    simp only [bind_ok, pass_ok, next_ok] at h
    obtain ⟨_, _, rfl, _, _, ⟨rfl, rfl⟩, h⟩ := h
    split at h
    · rename_i text hkind
      obtain ⟨rfl, hstep⟩ := placeStep_reads h
      exact place true text hstep ⟨hminus, hkind, rfl⟩
    · exact (throw_ok.mp h).elim
  · rename_i hall
    simp only [bind_ok, pass_ok, pure_ok] at h
    obtain ⟨_, _, rfl, rfl, rfl⟩ := h
    exact ⟨.all, [.symbol .asterisk], by rintro _ ⟨⟩, rfl, rfl, rfl, rfl, hall, rfl⟩
  · rename_i hint hminus hall
    simp only [bind_ok, pure_ok] at h
    obtain ⟨n, _, hpart, rfl, rfl⟩ := h
    obtain ⟨e, hclass, hread⟩ := joined_reads ht hs hpart
    -- The expression begins with none of the tokens above, so written as it is it is no place.
    have hplain : e.isPlain = true := by
      have hbegins := (begins_of_spells hread.spells).2
      have hno : (s.peek true).kind.beginsPlace = false := by
        unfold TokenKind.beginsPlace
        split <;> simp_all
      simpa [hno] using hbegins
    refine ⟨.part e, e.marks, ?_, rfl, ?_, ?_, rfl, hread.spells⟩
    · rintro _ ⟨⟩
      exact ⟨hclass, hplain, hread.wellFormed⟩
    · -- A parameter is taken as a place and gives one value; every other expression is a condition.
      have htype := type_eq_parameter hread.wellFormed hread.node
      by_cases hparameter : n.info.type = .parameter
      · simp [hparameter, WrittenStep.isMany, htype.mp hparameter, PathStep.isEnumerable]
      · have hno : e.isParameter = false := by simpa [hparameter] using htype
        simp [hparameter, WrittenStep.isMany, hno, PathStep.isEnumerable]
    · simp [stepNode, hread.node]

/-- The steps of a path. -/
structure ReadsSteps (ws : List (WrittenStep Phrase)) (steps : List (PathStep Node))
    (s s' : TokenStream) : Prop where
  parts : ∀ e, .part e ∈ ws → StandsInStep e
  nodes : stepNodes Phrase.node ws = some steps
  single : ws.dropLast.any (WrittenStep.isMany isParameter) = false
  isMany : steps.any PathStep.isEnumerable = ws.getLast?.any (WrittenStep.isMany isParameter)
  spells : Spells (ws.flatMap (stepMarks Phrase.marks)) s s'
  ends : ws.getLast?.any (WrittenStep.isMany isParameter) = false →
    (s'.peek false).kind.goesOnPath = false

omit ht in
theorem ReadsSteps.nil (h : (s.peek false).kind.goesOnPath = false) : ReadsSteps [] [] s s where
  parts := by simp
  nodes := rfl
  single := rfl
  isMany := rfl
  spells := rfl
  ends := fun _ => h

omit ht in
/-- A step that yields one value, in front of others. -/
theorem ReadsSteps.cons {w : WrittenStep Phrase} {step : PathStep Node}
    {ws : List (WrittenStep Phrase)} {steps : List (PathStep Node)} {t : TokenStream}
    (hpart : ∀ e, w = .part e → StandsInStep e) (hnode : stepNode Phrase.node w = some step)
    (hw : WrittenStep.isMany isParameter w = false) (hstep : step.isEnumerable = false)
    (hspells : Spells (stepMarks Phrase.marks w) s t) (h : ReadsSteps ws steps t s') :
    ReadsSteps (w :: ws) (step :: steps) s s' where
  parts e he := by
    rcases List.mem_cons.mp he with heq | he
    · exact hpart e heq.symm
    · exact h.parts e he
  nodes := by simp [stepNodes, hnode, h.nodes]
  single := by
    rw [any_dropLast_cons hw]
    exact h.single
  isMany := by
    rw [List.any_cons, hstep, Bool.false_or, any_getLast?_cons hw]
    exact h.isMany
  spells := hspells.append h.spells
  ends := by
    rw [any_getLast?_cons hw]
    exact h.ends

omit ht in
/-- A step that yields any number of values: it is the last one. -/
theorem ReadsSteps.single_many {w : WrittenStep Phrase} {step : PathStep Node}
    (hpart : ∀ e, w = .part e → StandsInStep e) (hnode : stepNode Phrase.node w = some step)
    (hw : step.isEnumerable = WrittenStep.isMany isParameter w) (hmany : step.isEnumerable = true)
    (hspells : Spells (stepMarks Phrase.marks w) s s') : ReadsSteps [w] [step] s s' where
  parts e he := hpart e (List.mem_singleton.mp he).symm
  nodes := by simp [stepNodes, hnode]
  single := rfl
  isMany := by simp [hw]
  spells := by simpa using hspells
  ends := by simp [← hw, hmany]

omit ht in
/-- The parts of the steps are well-formed. -/
theorem ReadsSteps.wellFormed {ws : List (WrittenStep Phrase)} {steps : List (PathStep Node)}
    (h : ReadsSteps ws steps s s') :
    ∀ part ∈ ws.flatMap WrittenStep.children, part.WellFormed := by
  intro part hpart
  obtain ⟨w, hw, hpart⟩ := List.mem_flatMap.mp hpart
  cases w with
  | part e =>
      obtain rfl := List.mem_singleton.mp hpart
      exact (h.parts _ hw).wellFormed
  | member field | place negative digits | all => cases hpart

omit ht in
/-- The steps that are read behind the beginning of a path may follow it. -/
theorem ReadsSteps.allows {start : PathStart} {ws : List (WrittenStep Phrase)}
    {steps : List (PathStep Node)} (hends : start.Ends s) (h : ReadsSteps ws steps s s') :
    start.Allows ws := by
  rcases start with ⟨root, _ | field⟩ | name
  · -- Only a field may not come first, and behind a bare root sign no period has been left.
    cases ws with
    | nil => rfl
    | cons w rest =>
        cases w with
        | member field => exact absurd h.spells.1 hends
        | place negative digits | all | part e => rfl
  · trivial
  · exact hends

/-- The steps behind the beginning of a path, as far as they go. -/
theorem steps_reads {bound : Nat} {list : List (PathStep Node)} (hs : s.Ended)
    (hbound : s.remaining ≤ bound) (h : (steps term bound).run s = .ok list s') :
    ∃ ws, ReadsSteps ws list s s' := by
  -- Every step takes a token at least, so the bound suffices for the steps behind it.
  induction bound generalizing s list with
  | zero =>
      obtain ⟨rfl, rfl⟩ := pure_ok.mp h
      refine ⟨[], .nil ?_⟩
      rw [hs.peek_kind (Nat.le_zero.mp hbound)]
      rfl
  | succ bound ih =>
      simp only [steps, bind_ok, peek_ok] at h
      obtain ⟨_, _, ⟨rfl, rfl⟩, h⟩ := h
      -- A period goes on with a field, a bracket with a step in brackets; anything else ends the
      -- path.
      split at h
      · rename_i hperiod
        simp only [bind_ok, pass_ok, next_ok, pure_ok] at h
        obtain ⟨_, _, rfl, _, _, ⟨rfl, rfl⟩, name, t, hname, rest, _, hrest, rfl, rfl⟩ := h
        obtain ⟨field, rfl, hfield⟩ := @fieldName_reads _ _ true _ hname
        have hspells : Spells (stepMarks Phrase.marks (.member field)) s t := ⟨hperiod, hfield⟩
        have hmore : (s.peek false).kind ≠ .finish := by
          rw [hperiod]
          rintro ⟨⟩
        have hlt := hs.remaining_advance_lt hmore
        have hle := hfield.remaining_le
        obtain ⟨ws, hws⟩ := ih (hspells.ended hs) (by omega) hrest
        exact ⟨.member field :: ws, .cons (by rintro _ ⟨⟩) rfl rfl rfl hspells hws⟩
      · rename_i hopen
        simp only [bind_ok, pass_ok, bracketStep, expect_ok, pure_ok] at h
        obtain ⟨_, _, rfl, step, t, ⟨_, u, hbracketed, _, _, ⟨hclose, rfl⟩, rfl, rfl⟩, h⟩ := h
        obtain ⟨w, inside, hw⟩ := bracketed_reads ht (hs.advance false) hbracketed
        have hspells : Spells (stepMarks Phrase.marks w) s (u.advance true) := by
          rw [hw.marks]
          exact ⟨hopen, hw.spells.append ⟨hclose, rfl⟩⟩
        split at h
        · -- The reader stops behind a step that yields many values, whatever follows.
          rename_i hmany
          obtain ⟨rfl, rfl⟩ := pure_ok.mp h
          exact ⟨[w], .single_many hw.parts hw.node hw.isMany hmany hspells⟩
        · rename_i hone
          simp only [bind_ok, pure_ok] at h
          obtain ⟨rest, _, hrest, rfl, rfl⟩ := h
          have hmore : (s.peek false).kind ≠ .finish := by
            rw [hopen]
            rintro ⟨⟩
          have hlt := hs.remaining_advance_lt hmore
          have hle := hw.spells.remaining_le
          have hle' := u.remaining_advance_le true
          obtain ⟨ws, hws⟩ := ih (hspells.ended hs) (by omega) hrest
          have hone' : WrittenStep.isMany isParameter w = false := by simpa [hw.isMany] using hone
          exact ⟨w :: ws, .cons hw.parts hw.node hone' (by simpa using hone) hspells hws⟩
      · rename_i hperiod hopen
        obtain ⟨rfl, rfl⟩ := pure_ok.mp h
        refine ⟨[], .nil ?_⟩
        simpa [TokenKind.goesOnPath, TokenKind.isSymbol] using ⟨hperiod, hopen⟩

/-- A path from behind its beginning on: its steps and, if they yield many values, what is evaluated
for each of these. -/
theorem pathBehind_reads (start : PathStart) {n : Node} {t : TokenStream} (hs : s.Ended)
    (hstart : Spells start.marks s t) (hends : start.Ends t)
    (h : (pathBehind term (start.root scope) start.field scope).run t = .ok n s') :
    ∃ e : Phrase, e.isTerm = true ∧ e.Reads scope n s s' := by
  simp only [pathBehind, bind_ok, remaining_ok, peek_ok] at h
  obtain ⟨_, _, ⟨rfl, rfl⟩, more, u, hmore, _, _, ⟨rfl, rfl⟩, h⟩ := h
  have htEnded := hstart.ended hs
  obtain ⟨ws, hws⟩ := steps_reads ht htEnded (Nat.le_refl _) hmore
  have hscalar : (start.node scope more).isScalar =
      !ws.getLast?.any (WrittenStep.isMany isParameter) := by
    rw [← hws.isMany, PathStart.isScalar_node]
  have hfirst := hws.allows hends
  have hparts := hws.wellFormed
  have hsteps := fun e he => And.intro (hws.parts e he).isBounds (hws.parts e he).isPlain
  change (if (!(start.node scope more).isScalar && _) = true then _ else _ : Parser Node).run u = _
    at h
  -- Only behind many values does a period begin what is evaluated for each of them.
  split at h
  · rename_i hperiod
    simp only [Bool.and_eq_true, isSymbol_iff] at hperiod
    simp only [bind_ok, pass_ok, pure_ok] at h
    obtain ⟨_, _, rfl, selector, _, hselector, hn, rfl⟩ := h
    change Node.map (start.node scope more) selector = n at hn
    subst hn
    obtain ⟨e, he, hread⟩ := ht ((hws.spells.ended htEnded).advance false) hselector
    have hmany : ws.getLast?.any (WrittenStep.isMany isParameter) = true := by
      simpa [hscalar] using hperiod.1
    refine ⟨.mk (.path start ws (some e)), rfl, .of_layer ⟨hfirst, hsteps, hws.single, ?_⟩ ?_ ?_ ?_⟩
    · rintro _ ⟨⟩
      exact ⟨he, hmany⟩
    · intro part hpart
      rcases List.mem_append.mp hpart with hpart | hpart
      · exact hparts part hpart
      · obtain rfl := List.mem_singleton.mp hpart
        exact hread.wellFormed
    · simp [Layer.node, hws.nodes, hread.node]
    · exact (hstart.append hws.spells).append ⟨hperiod.2, hread.spells⟩
  · rename_i hperiod
    obtain ⟨hn, rfl⟩ := pure_ok.mp h
    change start.node scope more = n at hn
    subst hn
    refine ⟨.mk (.path start ws none), rfl,
      .of_layer ⟨hfirst, hsteps, hws.single, by rintro _ ⟨⟩⟩ ?_ ?_ ?_⟩
    · simpa [Layer.children] using hparts
    · simp [Layer.node, hws.nodes]
    · -- The phrase also says why it ends here: no period behind many values, no step behind one.
      refine (hstart.append hws.spells).append ?_
      rw [behindMarks]
      split
      · rename_i hmany
        refine ⟨decide_eq_false fun (hkind : (u.peek false).kind = _) => hperiod ?_, rfl⟩
        rw [hscalar, hmany, isSymbol_iff.mpr hkind]
        rfl
      · rename_i hmany
        exact ⟨hws.ends (by simpa using hmany), rfl⟩

/-- What a root sign begins is a path. An at sign has been told from a parameter before. -/
theorem sigilPath_reads (root : PathRoot) {n : Node} {t : TokenStream} (hs : s.Ended)
    (hsigil : Spells [.symbol root.symbol] s t)
    (hparameter : root = .current → (t.peek false).kind.namesParameter = false)
    (h : (sigilPath term root scope).run t = .ok n s') :
    ∃ e : Phrase, e.isTerm = true ∧ e.Reads scope n s s' := by
  simp only [sigilPath, bind_ok, peek_ok] at h
  obtain ⟨_, _, ⟨rfl, rfl⟩, h⟩ := h
  split at h
  · -- A period behind the sign names the first field; without one the path is its root and what
    -- steps follow.
    rename_i hperiod
    simp only [bind_ok, pass_ok, next_ok] at h
    obtain ⟨_, _, rfl, _, _, ⟨rfl, rfl⟩, _, u, hname, h⟩ := h
    obtain ⟨field, rfl, hfield⟩ := @fieldName_reads _ _ false _ hname
    have hstart : Spells (PathStart.sigil root (some field)).marks s u :=
      PathStart.marks_sigil root field ▸ hsigil.append ⟨isSymbol_iff.mp hperiod, hfield⟩
    exact pathBehind_reads ht _ hs hstart trivial h
  · rename_i hperiod
    have hends : PathStart.Ends t (.sigil root none) := fun hkind =>
      hperiod (isSymbol_iff.mpr hkind)
    cases root with
    | document => exact pathBehind_reads ht (.sigil .document none) hs hsigil hends h
    | current =>
        have hstart : Spells (PathStart.sigil .current none).marks s t :=
          hsigil.append ⟨hparameter rfl, rfl⟩
        exact pathBehind_reads ht (.sigil .current none) hs hstart hends h

/-! ### Calls

A name in front of a parenthesis is one of three functions on sequences, which have a shape of their
own, or a call with a list of arguments. -/

/-- The arguments of a function on sequences up to the part for each element. -/
theorem sequenceArgs_reads {source part : Node} (hs : s.Ended)
    (h : (sequenceArgs term scope).run s = .ok (source, part) s') :
    ∃ e e' : Phrase, (e.isTerm = true ∧ e.WellFormed) ∧ (e'.isBounds = false ∧ e'.WellFormed) ∧
      sequenceNodes Phrase.node scope e e' = some (source, part) ∧
      Spells (.symbol .leftParen :: e.marks ++ [.symbol .arrow] ++ e'.marks) s s' := by
  simp only [sequenceArgs, bind_ok, expect_ok, pure_ok, Prod.mk.injEq] at h
  obtain ⟨_, _, ⟨hopen, rfl⟩, n, t, hsource, _, _, ⟨harrow, rfl⟩, _, _, hpart, ⟨rfl, rfl⟩, rfl⟩ := h
  obtain ⟨e, he, hread⟩ := ht (hs.advance true) hsource
  obtain ⟨e', he', hread'⟩ := joined_reads ht ((hread.ended (hs.advance true)).advance true) hpart
  refine ⟨e, e', ⟨he, hread.wellFormed⟩, ⟨he', hread'.wellFormed⟩, ?_, ?_⟩
  · simp [sequenceNodes, hread.node, hread'.node]
  · rw [List.append_assoc]
    exact ⟨hopen, hread.spells.append ⟨harrow, hread'.spells⟩⟩

/-- The direction of a sort is one value behind a comma, or is left out. -/
theorem sortOrder_reads {order : Option Node} (hs : s.Ended)
    (h : (sortOrder? term scope).run s = .ok order s') :
    ∃ part : Option Phrase, (∀ e ∈ part, e.isBounds = false ∧ e.WellFormed) ∧
      orderNode Phrase.node scope part = some order ∧
      Spells (part.elim [] fun e => .symbol .comma :: e.marks) s s' := by
  simp only [sortOrder?, bind_ok, peek_ok] at h
  obtain ⟨_, _, ⟨rfl, rfl⟩, h⟩ := h
  split at h
  · rename_i hcomma
    simp only [bind_ok, pass_ok, ite_throw_ok, pure_ok] at h
    obtain ⟨_, _, rfl, n, _, horder, hscalar, rfl, rfl⟩ := h
    obtain ⟨e, he, hread⟩ := joined_reads ht (hs.advance true) horder
    refine ⟨some e, by simpa using ⟨he, hread.wellFormed⟩, ?_, isSymbol_iff.mp hcomma, hread.spells⟩
    have hscalar : n.isScalar = true := by simpa using hscalar
    simp [orderNode, hread.node, hscalar]
  · obtain ⟨rfl, rfl⟩ := pure_ok.mp h
    exact ⟨none, by simp, rfl, rfl⟩

/-- `MAP` with its source and its selector. -/
theorem mapCall_reads {n : Node} {t : TokenStream} (hs : s.Ended)
    (hname : Spells [.keyword "MAP"] s t) (h : (mapCall term scope).run t = .ok n s') :
    ∃ e : Phrase, e.isTerm = true ∧ e.Reads scope n s s' := by
  simp only [mapCall, bind_ok, expect_ok, pure_ok] at h
  obtain ⟨⟨source, part⟩, u, hargs, _, _, ⟨hclose, rfl⟩, rfl, rfl⟩ := h
  obtain ⟨e, e', he, he', hnodes, hspells⟩ := sequenceArgs_reads ht (hname.ended hs) hargs
  refine ⟨.mk (.map e e'), rfl, .of_layer ⟨he.1, he'.1⟩ ?_ ?_ ?_⟩
  · simpa [Layer.children] using ⟨he.2, he'.2⟩
  · simp [Layer.node, hnodes]
  · simpa [Layer.marks, sequenceMarks] using (hname.append hspells).append (.symbol hclose)

/-- `FILTER` with its source and its predicate. -/
theorem filterCall_reads {n : Node} {t : TokenStream} (hs : s.Ended)
    (hname : Spells [.keyword "FILTER"] s t) (h : (filterCall term scope).run t = .ok n s') :
    ∃ e : Phrase, e.isTerm = true ∧ e.Reads scope n s s' := by
  simp only [filterCall, bind_ok, expect_ok, pure_ok] at h
  obtain ⟨⟨source, part⟩, u, hargs, _, _, ⟨hclose, rfl⟩, rfl, rfl⟩ := h
  obtain ⟨e, e', he, he', hnodes, hspells⟩ := sequenceArgs_reads ht (hname.ended hs) hargs
  refine ⟨.mk (.filter e e'), rfl, .of_layer ⟨he.1, he'.1⟩ ?_ ?_ ?_⟩
  · simpa [Layer.children] using ⟨he.2, he'.2⟩
  · simp [Layer.node, hnodes]
  · simpa [Layer.marks, sequenceMarks] using (hname.append hspells).append (.symbol hclose)

/-- `SORT` with its source, its key and its direction. -/
theorem sortCall_reads {n : Node} {t : TokenStream} (hs : s.Ended)
    (hname : Spells [.keyword "SORT"] s t) (h : (sortCall term scope).run t = .ok n s') :
    ∃ e : Phrase, e.isTerm = true ∧ e.Reads scope n s s' := by
  simp only [sortCall, bind_ok, expect_ok, pure_ok] at h
  obtain ⟨⟨source, part⟩, u, hargs, order, v, horder, _, _, ⟨hclose, rfl⟩, rfl, rfl⟩ := h
  obtain ⟨e, e', he, he', hnodes, hspells⟩ := sequenceArgs_reads ht (hname.ended hs) hargs
  have huEnded := hspells.ended (hname.ended hs)
  obtain ⟨o, ho, hnode, hspells'⟩ := sortOrder_reads ht huEnded horder
  refine ⟨.mk (.sort e e' o), rfl, .of_layer ⟨he.1, he'.1, fun e h => (ho e h).1⟩ ?_ ?_ ?_⟩
  · intro p hp
    simp only [Layer.children, List.mem_cons, Option.mem_toList] at hp
    rcases hp with rfl | rfl | hp
    · exact he.2
    · exact he'.2
    · exact (ho p hp).2
  · simp [Layer.node, hnodes, hnode]
  · have hall := ((hname.append hspells).append hspells').append (.symbol hclose)
    cases o <;> simpa [Layer.marks, sequenceMarks] using hall

omit ht in
/-- A function or a generator is found by its name and the number of its arguments. -/
theorem callOf_reads {token : Token} {name : String} {args : List Node} {n : Node}
    (h : (callOf token name args).run s = .ok n s') :
    s = s' ∧ callNode? name token.range.start.offset args = some n := by
  unfold callOf at h
  unfold callNode?
  split at h
  · obtain ⟨rfl, rfl⟩ := pure_ok.mp h
    simp [*]
  · obtain ⟨rfl, rfl⟩ := pure_ok.mp h
    simp [*]
  · exact (throw_ok.mp h).elim

/-- A name with a list in parentheses behind it is a call, or a choice. -/
theorem call_reads {token : Token} {name : String} {n : Node} {t : TokenStream} (hs : s.Ended)
    (hword : isConstantWord name = false ∧ isSequenceWord name = false)
    (hname : Spells [.token false (.word name)] s t)
    (h : (call term token name scope).run t = .ok n s') :
    ∃ e : Phrase, e.isTerm = true ∧ e.Reads scope n s s' := by
  simp only [call, bind_ok, expect_ok] at h
  obtain ⟨_, _, ⟨hopen, rfl⟩, args, u, hargs, h⟩ := h
  obtain ⟨es, hes⟩ := list_reads ht ((hname.ended hs).advance true) hargs
  suffices hnode : u = s' ∧ applyNode? name token.range.start.offset args = some n by
    obtain ⟨rfl, hnode⟩ := hnode
    refine ⟨.mk (.call name token.range.start.offset es), rfl,
      .of_layer ⟨hword.1, hword.2, hes.classes⟩ hes.wellFormed ?_ ?_⟩
    · simp [Layer.node, hes.nodes, hnode]
    · simpa [Layer.marks] using (hname.append (.symbol hopen)).append hes.spells
  -- Only three arguments may be those of a choice.
  rcases args with _ | ⟨test, _ | ⟨ifTrue, _ | ⟨ifFalse, _ | ⟨fourth, rest⟩⟩⟩⟩
  case cons.cons.cons.nil =>
    by_cases hiif : Text.sameName name "IIF" = true
    · simp only [hiif, if_true, ite_throw_ok, pure_ok] at h
      obtain ⟨hscalar, rfl, rfl⟩ := h
      simpa [applyNode?, hiif] using hscalar
    · simp only [hiif] at h
      simpa [applyNode?, hiif] using callOf_reads h
  all_goals exact callOf_reads h

/-- What a word begins: a constant, a function on sequences, a call or a path. -/
theorem wordTerm_reads {word : String} {n : Node} (hs : s.Ended)
    (hkind : (s.peek true).kind = .word word)
    (h : (wordTerm term (s.peek true) word scope).run (s.advance true) = .ok n s') :
    ∃ e : Phrase, e.isTerm = true ∧ e.Reads scope n s s' := by
  have hname : Spells [.token false (.word word)] s (s.advance true) := ⟨hkind, rfl⟩
  have keyword {text : String} (htext : Text.sameName word text = true) :
      Spells [.keyword text] s (s.advance true) := by
    refine ⟨?_, rfl⟩
    rw [hkind]
    exact htext
  have constant {layer : Layer Phrase} (hwf : layer.WellFormed) (hleaf : layer.children = [])
      (hnode : layer.node isBounds Phrase.node scope = some n) {text : String}
      (htext : Text.sameName word text = true)
      (hmarks : layer.marks isParameter Phrase.marks = [.keyword text])
      (ht : s.advance true = s') : (Phrase.mk layer).Reads scope n s s' := by
    refine .of_layer hwf (by simp [hleaf]) hnode ?_
    rw [hmarks, ← ht]
    exact keyword htext
  -- Constants and functions on sequences are tried first, so whatever is left has another name.
  unfold wordTerm at h
  split at h
  · rename_i hword
    obtain ⟨rfl, hend⟩ := pure_ok.mp h
    exact ⟨.mk (.truth true), rfl, constant trivial rfl rfl hword rfl hend⟩
  · rename_i htrue
    split at h
    · rename_i hword
      obtain ⟨rfl, hend⟩ := pure_ok.mp h
      exact ⟨.mk (.truth false), rfl, constant trivial rfl rfl hword rfl hend⟩
    · rename_i hfalse
      split at h
      · rename_i hword
        obtain ⟨rfl, hend⟩ := pure_ok.mp h
        exact ⟨.mk .null, rfl, constant trivial rfl rfl hword rfl hend⟩
      · rename_i hnull
        have hconstant : isConstantWord word = false := by
          simp [isConstantWord, htrue, hfalse, hnull]
        simp only [bind_ok, peek_ok] at h
        obtain ⟨_, _, ⟨rfl, rfl⟩, h⟩ := h
        -- Behind a constant nothing is asked. A parenthesis tells a call from a path, and the name
        -- tells which call.
        split at h
        · split at h
          · rename_i hmap
            exact mapCall_reads ht hs (keyword hmap) h
          · rename_i hmap
            split at h
            · rename_i hfilter
              exact filterCall_reads ht hs (keyword hfilter) h
            · rename_i hfilter
              split at h
              · rename_i hsort
                exact sortCall_reads ht hs (keyword hsort) h
              · rename_i hsort
                have hsequence : isSequenceWord word = false := by
                  simp [isSequenceWord, hmap, hfilter, hsort]
                exact call_reads ht hs ⟨hconstant, hsequence⟩ hname h
        · rename_i hopen
          -- No parenthesis follows, which the mark of a bare name asks for.
          have hstart : Spells (PathStart.bare word).marks s (s.advance true) := by
            refine ⟨hkind, ?_, rfl⟩
            exact decide_eq_false fun hparen => hopen (isSymbol_iff.mpr hparen)
          exact pathBehind_reads ht (.bare word) hs hstart hconstant h

/-! ### Terms

The first token decides which reader goes on, and has been taken when it does. So each of these
lemmas begins with what that token has already spelt. -/

omit ht in
/-- A number with its sign, if it has one, is a term. -/
theorem number_reads_phrase (negative : Bool) {n : Node} {t : TokenStream}
    (hsign : Spells (if negative then [.symbol .minus] else []) s t)
    (h : (number (t.peek (!negative)) negative).run (t.advance (!negative)) = .ok n s') :
    ∃ e : Phrase, e.isTerm = true ∧ e.Reads scope n s s' := by
  obtain ⟨rfl, isDouble, text, hkind, hnode⟩ := number_reads h
  refine ⟨.mk (.number negative isDouble text), rfl,
    .of_layer trivial (List.forall_mem_nil _) hnode ?_⟩
  have hnumber : Spells [.token negative (if isDouble then .double text else .int text)] t
      (t.advance (!negative)) := ⟨hkind, rfl⟩
  cases negative with
  | false => exact hsign.append hnumber
  | true => exact hsign.append hnumber

omit ht in
/-- What a minus sign begins is a number. -/
theorem minusTerm_reads {token : Token} {n : Node} {t : TokenStream}
    (hminus : Spells [.symbol .minus] s t) (h : (minusTerm token).run t = .ok n s') :
    ∃ e : Phrase, e.isTerm = true ∧ e.Reads scope n s s' := by
  simp only [minusTerm, bind_ok, peek_ok] at h
  obtain ⟨_, _, ⟨rfl, rfl⟩, h⟩ := h
  split at h
  case h_3 => exact (throw_ok.mp h).elim
  all_goals
    simp only [bind_ok, pass_ok] at h
    obtain ⟨_, _, rfl, h⟩ := h
    exact number_reads_phrase true hminus h

/-- What an asterisk begins is the documents, or what is taken from each. -/
theorem documentsTerm_reads {n : Node} {t : TokenStream} (hs : s.Ended)
    (hall : Spells [.symbol .asterisk] s t) (h : (documentsTerm term).run t = .ok n s') :
    ∃ e : Phrase, e.isTerm = true ∧ e.Reads scope n s s' := by
  simp only [documentsTerm, bind_ok, peek_ok] at h
  obtain ⟨_, _, ⟨rfl, rfl⟩, h⟩ := h
  split at h
  · rename_i hperiod
    simp only [bind_ok, pass_ok, pure_ok] at h
    obtain ⟨_, _, rfl, selector, _, hselector, rfl, rfl⟩ := h
    obtain ⟨e, he, hread⟩ := ht ((hall.ended hs).advance false) hselector
    refine ⟨.mk (.documents (some e)), rfl, .of_layer ?_ ?_ ?_ ?_⟩
    · simpa [Layer.WellFormed] using he
    · simpa [Layer.children] using hread.wellFormed
    · simp [Layer.node, hread.node]
    · exact hall.append ⟨isSymbol_iff.mp hperiod, hread.spells⟩
  · rename_i hperiod
    obtain ⟨rfl, rfl⟩ := pure_ok.mp h
    have hend : (t.peek false).kind.isSymbol .period = false :=
      decide_eq_false fun hsymbol => hperiod (isSymbol_iff.mpr hsymbol)
    exact ⟨.mk (.documents none), rfl,
      .of_layer (by rintro _ ⟨⟩) (List.forall_mem_nil _) rfl (hall.append ⟨hend, rfl⟩)⟩

/-- What an at sign begins is a parameter if it can be one, and a path otherwise. -/
theorem atTerm_reads {n : Node} {t : TokenStream} (hs : s.Ended)
    (hat : Spells [.symbol .atSign] s t) (h : (atTerm term scope).run t = .ok n s') :
    ∃ e : Phrase, e.isTerm = true ∧ e.Reads scope n s s' := by
  simp only [atTerm, bind_ok, peek_ok] at h
  obtain ⟨_, _, ⟨rfl, rfl⟩, h⟩ := h
  split at h
  · rename_i name hname
    simp only [bind_ok, pass_ok, pure_ok] at h
    obtain ⟨_, _, rfl, rfl, rfl⟩ := h
    exact ⟨.mk (.parameter false name), rfl,
      .of_layer trivial (List.forall_mem_nil _) rfl (hat.append ⟨hname, rfl⟩)⟩
  · rename_i name hname
    simp only [bind_ok, pass_ok, pure_ok] at h
    obtain ⟨_, _, rfl, rfl, rfl⟩ := h
    exact ⟨.mk (.parameter true name), rfl,
      .of_layer trivial (List.forall_mem_nil _) rfl (hat.append ⟨hname, rfl⟩)⟩
  · rename_i hword hint
    refine sigilPath_reads ht .current hs hat (fun _ => ?_) h
    unfold TokenKind.namesParameter
    split
    · rename_i name hname
      exact absurd hname (hword name)
    · rename_i name hname
      exact absurd hname (hint name)
    · rfl

/-- A reader of terms is right if the one for the terms inside is: the first token of a term
tells which reader goes on. -/
theorem termWith_reads : ReadsTerms (termWith term) := by
  intro scope s n s' hs h
  simp only [termWith, bind_ok, next_ok] at h
  obtain ⟨_, _, ⟨rfl, rfl⟩, h⟩ := h
  split at h
  case h_1 hkind => exact minusTerm_reads (.symbol hkind) h
  case h_2 text hkind => exact number_reads_phrase false rfl h
  case h_3 text hkind => exact number_reads_phrase false rfl h
  case h_4 word hkind => exact wordTerm_reads ht hs hkind h
  case h_5 text hkind =>
    obtain ⟨rfl, rfl⟩ := pure_ok.mp h
    exact ⟨.mk (.string text), rfl, .of_layer trivial (List.forall_mem_nil _) rfl ⟨hkind, rfl⟩⟩
  case h_6 hkind => exact documentsTerm_reads ht hs (.symbol hkind) h
  case h_7 hkind => exact document_reads ht hs (.symbol hkind) h
  case h_8 hkind => exact array_reads ht hs (.symbol hkind) h
  case h_9 hkind => exact atTerm_reads ht hs (.symbol hkind) h
  case h_10 hkind => exact sigilPath_reads ht .document hs (.symbol hkind) (by rintro ⟨⟩) h
  case h_11 hkind =>
    simp only [bind_ok, expect_ok, pure_ok] at h
    obtain ⟨inner, t, hinner, _, _, ⟨hclose, rfl⟩, rfl, rfl⟩ := h
    obtain ⟨e, he, hread⟩ := joined_reads ht (hs.advance true) hinner
    refine ⟨.mk (.parens e), rfl, .of_layer he ?_ ?_ ?_⟩
    · simpa [Layer.children] using hread.wellFormed
    · simp [Layer.node, hread.node]
    · exact ⟨hkind, hread.spells.append (.symbol hclose)⟩
  case h_12 => exact (throw_ok.mp h).elim

end

/-- What is read as a term was written as one. -/
theorem termUpTo_reads (bound : Nat) : ReadsTerms (termUpTo bound) := by
  induction bound with
  | zero =>
      intro scope s n s' _ h
      exact (failAtNext_ok.mp h).elim
  | succ bound ih =>
      intro scope s n s' hs h
      exact termWith_reads ih hs h

/-- What is read in a mode was written: as a term by itself, or as terms joined by
operators with nothing behind them. -/
theorem inMode_reads {mode : ParseMode} {n : Node} (hs : s.Ended)
    (h : (inMode mode scope).run s = .ok n s') :
    ∃ e : Phrase, e.isBounds = false ∧ e.Reads scope n s s' ∧
      (mode = .full → s'.isExhausted = true) := by
  cases mode with
  | full =>
      obtain ⟨hfull, hend⟩ := inMode_full_ok.mp h
      simp only [full, bind_ok, remaining_ok] at hfull
      obtain ⟨_, _, ⟨rfl, rfl⟩, hjoined⟩ := hfull
      obtain ⟨e, hclass, hread⟩ := joined_reads (termUpTo_reads _) hs hjoined
      exact ⟨e, hclass, hread, fun _ => hend⟩
  | single =>
      simp only [inMode, single, bind_ok, remaining_ok] at h
      obtain ⟨_, _, ⟨rfl, rfl⟩, hterm⟩ := h
      obtain ⟨e, he, hread⟩ := termUpTo_reads _ hs hterm
      exact ⟨e, isBounds_of_isTerm he, hread, by rintro ⟨⟩⟩

end Parser

/-- A text that is parsed spells a phrase, and the expression is what the phrase stands
for. -/
theorem parse_reads {code : String} {scope : Scope} {mode : ParseMode} {n : Node}
    (h : parse code scope mode = .ok n) :
    ∃ s s' : TokenStream, ∃ e : Phrase, TokenStream.ofText code = .ok s ∧ e.isBounds = false ∧
      e.Reads scope n s s' ∧ (mode = .full → s'.isExhausted = true) := by
  obtain ⟨s, s', hs, hrun⟩ := parse_ok.mp h
  obtain ⟨e, hclass, hread, hend⟩ := Parser.inMode_reads (TokenStream.ended_of_text hs) hrun
  exact ⟨s, s', e, hs, hclass, hread, hend⟩

end DocQuery
