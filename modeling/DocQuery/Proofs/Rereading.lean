import DocQuery.Proofs.Rereading.Paths
/-!
# DocQuery.Proofs.Rereading

What is written is read. Where tokens spell a well-formed phrase, a reader takes them and
yields the node that the phrase stands for, up to the offsets of generators; if the phrase
stands for nothing, the reader fails.

Every term begins with a token of its own, so a reader that is right about terms in front of `k`
tokens makes one that is right in front of `k + 1` (`Parser.termWith_meets`). The induction on the
number of tokens needs nothing else (`Parser.termUpTo_meets`).
-/

namespace DocQuery

namespace Parser

open Phrase
open Node (unsited)

variable {s s' : TokenStream}

section

variable (scope : Scope) {k : Nat} {term : Scope → Parser Node} (ht : RereadsTerms k term)

include ht

/-! ### Calls

A call is told by its name, and `MAP`, `FILTER` and `SORT` share the reader of a sequence and of the
part for each element. What every lemma needs of the parts is that they are well formed and that the
reader of terms has room for them. -/

/-- The arguments of a function on sequences are read up to the part for each element. -/
theorem sequenceArgs_meets {source part : Phrase} (hsource : source.WellFormed)
    (hterm : source.isTerm = true) (hpart : part.WellFormed) (hclass : part.isBounds = false)
    (hs : Room k s) (hend : EndsRow s')
    (h : Spells (.symbol .leftParen :: source.marks ++ [.symbol .arrow] ++ part.marks) s s') :
    Meets (Prod.map unsited unsited) (sequenceArgs term scope) s
      (sequenceNodes Phrase.node scope source part) s' := by
  obtain ⟨u, hfront, hp⟩ := Spells.append_iff.mp h
  obtain ⟨t, hopen, harrow⟩ := Spells.append_iff.mp hfront
  obtain ⟨hopen, hsrc⟩ := Spells.symbol_cons.mp hopen
  obtain ⟨harrow, rfl⟩ : (t.peek true).kind = .symbol .arrow ∧ t.advance true = u := harrow
  have hsRoom := hs.advance true
  unfold sequenceArgs sequenceNodes
  refine .expect hopen ((ht scope hsource hterm hsRoom hsrc).bind fun a b _ hb => .expect harrow ?_)
  have hsequence : b.asSequence.unsited = a.asSequence.unsited := by
    rw [Node.unsited_asSequence, hb, Node.unsited_asSequence]
  rw [Node.type_eq_of_unsited hsequence]
  refine (joined_meets _ ht hpart hclass ((hsRoom.spells hsrc).advance true) hend hp).bind
    fun a' b' _ hb' => .pure ?_
  exact congrArg₂ Prod.mk hsequence hb'

/-- The order behind the key of `SORT` is read if a comma stands in front of it; if it may yield
more than one value, the reader fails where the phrase stands for nothing. -/
theorem sortOrder_meets {order : Option Phrase}
    (horder : ∀ e ∈ order, e.isBounds = false ∧ e.WellFormed) (hs : Room k s)
    (hkind : (s'.peek true).kind = .symbol .rightParen)
    (h : Spells (order.elim [] fun e => .symbol .comma :: e.marks) s s') :
    Meets (Option.map unsited) (sortOrder? term scope) s
      (orderNode Phrase.node scope order) s' := by
  unfold sortOrder?
  refine .peek ?_
  cases order with
  | none =>
      obtain rfl : s = s' := h
      have hcomma : (s.peek true).isSymbol .comma = false := by
        simp [Token.isSymbol, hkind]
      rw [hcomma]
      exact .pure rfl
  | some e =>
      obtain ⟨hcomma, he⟩ := Spells.symbol_cons.mp h
      obtain ⟨hclass, hwf⟩ := horder e rfl
      rw [isSymbol_iff.mpr hcomma, orderNode]
      refine .pass ((joined_meets scope ht hwf hclass (hs.advance true)
        (.of_symbol hkind rfl) he).bind
        fun a b _ hb => ?_)
      -- The reader checks the node it has read, the phrase the node it stands for; both are scalar
      -- or neither is.
      rw [Node.isScalar_eq_of_unsited hb]
      cases a.isScalar with
      | false => exact .fails_of_run rfl
      | true => exact .pure (congrArg some hb)

omit ht in
/-- Once the arguments are read, the name and their number decide what is called, and both agree on
these. -/
theorem callOf_meets {token : Token} {name : String} {site : Nat} {as bs : List Node}
    (h : bs.map unsited = as.map unsited) :
    Meets unsited (callOf token name bs) s (callNode? name site as) s := by
  have hlength : bs.length = as.length := by simpa using congrArg List.length h
  unfold callOf callNode?
  rw [hlength]
  cases hfind : Callable.find? name as.length with
  | none => exact .throw _
  | some callable =>
      cases callable with
      | builtin function =>
          refine .pure ?_
          rw [Node.unsited_call, h, Node.unsited_call]
      | generator generator =>
          refine .pure ?_
          rw [Node.unsited_generate, Node.unsited_generate]

/-- A call is read wherever it is written. -/
theorem call_meets {token : Token} {name : String} {site : Nat} {args : List Phrase}
    (hparts : ∀ e ∈ args, e.isBounds = false ∧ e.WellFormed) (hs : Room k s)
    (h : Spells (.symbol .leftParen :: (separated (args.map Phrase.marks) ++
      [.symbol .rightParen])) s s') :
    Meets unsited (call term token name scope) s
      (nodes Phrase.node scope args >>= applyNode? name site) s' := by
  obtain ⟨hopen, hargs⟩ := Spells.symbol_cons.mp h
  unfold call
  refine .expect hopen ((list_meets scope ht hparts (⟨rfl, by rintro ⟨⟩⟩ : Divides .rightParen)
    (by rintro ⟨⟩) rfl
    (hs.advance true) hargs).bind fun as bs _ hbs => ?_)
  have hlength : bs.length = as.length := by simpa using congrArg List.length hbs
  unfold applyNode?
  -- Only three arguments may be those of a choice.
  match as, bs, hlength with
  | [], [], _ | [_], [_], _ | [_, _], [_, _], _ => exact callOf_meets hbs
  | _ :: _ :: _ :: _ :: _, _ :: _ :: _ :: _ :: _, _ => exact callOf_meets hbs
  | [test, ifTrue, ifFalse], [test', ifTrue', ifFalse'], _ =>
      dsimp only
      by_cases hname : Text.sameName name "IIF" = true
      · rw [if_pos hname, if_pos hname]
        obtain ⟨htest, hrest⟩ := List.cons.inj hbs
        obtain ⟨htrue, hrest⟩ := List.cons.inj hrest
        obtain ⟨hfalse, -⟩ := List.cons.inj hrest
        rw [Node.isScalar_eq_of_unsited htest]
        cases test.isScalar with
        | false => exact .fails_of_run rfl
        | true =>
            refine .pure ?_
            rw [Node.unsited_conditional, htest, htrue, hfalse, Node.unsited_conditional]
      · rw [if_neg hname, if_neg hname]
        exact callOf_meets hbs

omit ht in
/-- The parts of a function on sequences. -/
theorem spells_sequence {name : String} {source part : Phrase} {behind : List Mark}
    (h : Spells (sequenceMarks Phrase.marks name source part behind) s s') :
    (s.peek true).kind.isKeyword name = true ∧
      ((s.advance true).peek true).kind = .symbol .leftParen ∧
      ∃ u v, Spells (.symbol .leftParen :: source.marks ++ [.symbol .arrow] ++ part.marks)
          (s.advance true) u ∧
        Spells behind u v ∧ (v.peek true).kind = .symbol .rightParen ∧ v.advance true = s' := by
  obtain ⟨v, hfront, hclose, hend⟩ := Spells.append_iff.mp h
  obtain ⟨u, hfront, hbehind⟩ := Spells.append_iff.mp hfront
  obtain ⟨hkeyword, hargs⟩ : (s.peek true).kind.isKeyword name = true ∧
    Spells (.symbol .leftParen :: source.marks ++ [Mark.symbol .arrow] ++ part.marks)
      (s.advance true) u := hfront
  exact ⟨hkeyword, hargs.1, u, v, hargs, hbehind, hclose, hend⟩

/-- A call of `MAP` is read behind the name. -/
theorem mapCall_meets {source part : Phrase} (hwf : Layer.WellFormed (.map source part))
    (hparts : ∀ e ∈ (Layer.map source part).children, e.WellFormed) (hs : Room k (s.advance true))
    (h : Spells (sequenceMarks Phrase.marks "MAP" source part []) s s') :
    Meets unsited (mapCall term scope) (s.advance true)
      (Layer.node isBounds Phrase.node scope (.map source part)) s' := by
  obtain ⟨-, -, u, v, hargs, hbehind, hclose, rfl⟩ := spells_sequence h
  obtain rfl : u = v := hbehind
  unfold mapCall
  -- Nothing stands between the part for each element and the closing parenthesis.
  have hmeets := sequenceArgs_meets scope ht (hparts source (List.mem_cons_self ..))
    hwf.1 (hparts part (List.mem_cons_of_mem _ (List.mem_singleton_self _))) hwf.2 hs
    (.of_symbol hclose rfl) hargs
  refine hmeets.bind fun a b _ hb => .expect hclose (.pure ?_)
  obtain ⟨hsequence, hpart⟩ := Prod.mk.inj hb
  rw [Node.unsited_map, hsequence, hpart, Node.unsited_map]

/-- A call of `FILTER` is read behind the name. -/
theorem filterCall_meets {source part : Phrase} (hwf : Layer.WellFormed (.filter source part))
    (hparts : ∀ e ∈ (Layer.filter source part).children, e.WellFormed)
    (hs : Room k (s.advance true))
    (h : Spells (sequenceMarks Phrase.marks "FILTER" source part []) s s') :
    Meets unsited (filterCall term scope) (s.advance true)
      (Layer.node isBounds Phrase.node scope (.filter source part)) s' := by
  obtain ⟨-, -, u, v, hargs, hbehind, hclose, rfl⟩ := spells_sequence h
  obtain rfl : u = v := hbehind
  unfold filterCall
  have hmeets := sequenceArgs_meets scope ht (hparts source (List.mem_cons_self ..))
    hwf.1 (hparts part (List.mem_cons_of_mem _ (List.mem_singleton_self _))) hwf.2 hs
    (.of_symbol hclose rfl) hargs
  refine hmeets.bind fun a b _ hb => .expect hclose (.pure ?_)
  obtain ⟨hsequence, hpart⟩ := Prod.mk.inj hb
  rw [Node.unsited_filter, hsequence, hpart, Node.unsited_filter]

omit ht in
/-- The marks of `SORT` are those of any function on sequences, with the order behind them. -/
theorem marks_sort (source key : Phrase) (order : Option Phrase) :
    Layer.marks isParameter Phrase.marks (.sort source key order) =
      sequenceMarks Phrase.marks "SORT" source key
        (order.elim [] fun e => .symbol .comma :: e.marks) := by
  cases order <;> rfl

/-- A call of `SORT` is read behind the name. -/
theorem sortCall_meets {source key : Phrase} {order : Option Phrase}
    (hwf : Layer.WellFormed (.sort source key order))
    (hparts : ∀ e ∈ (Layer.sort source key order).children, e.WellFormed)
    (hs : Room k (s.advance true))
    (h : Spells (sequenceMarks Phrase.marks "SORT" source key
      (order.elim [] fun e => .symbol .comma :: e.marks)) s s') :
    Meets unsited (sortCall term scope) (s.advance true)
      (Layer.node isBounds Phrase.node scope (.sort source key order)) s' := by
  obtain ⟨-, -, u, v, hargs, hbehind, hclose, rfl⟩ := spells_sequence h
  obtain ⟨hterm, hclass, horder⟩ := hwf
  have horder : ∀ e ∈ order, e.isBounds = false ∧ e.WellFormed := by
    intro e he
    refine ⟨horder e he, hparts e ?_⟩
    exact List.mem_cons_of_mem _ (List.mem_cons_of_mem _ (Option.mem_toList.mpr he))
  -- Behind the key stands the closing parenthesis or the comma in front of the order, and neither
  -- is an operator.
  have hend : EndsRow u := by
    cases order with
    | none =>
        obtain rfl : u = v := hbehind
        exact .of_symbol hclose rfl
    | some e => exact .of_symbol (Spells.symbol_cons.mp hbehind).1 rfl
  have hmeets := sequenceArgs_meets scope ht (hparts source (List.mem_cons_self ..))
    hterm (hparts key (List.mem_cons_of_mem _ (List.mem_cons_self ..))) hclass hs hend hargs
  unfold sortCall
  refine hmeets.bind fun a b _ hb => ?_
  refine (sortOrder_meets scope ht horder (hs.spells hargs) hclose hbehind).bind
    fun o o' _ ho => .expect hclose (.pure ?_)
  obtain ⟨hsequence, hkey⟩ := Prod.mk.inj hb
  rw [Node.unsited_sort, hsequence, hkey, ho, Node.unsited_sort]

omit ht in
/-- A word that may begin a call or a path is the name of no constant. -/
theorem sameName_of_isConstantWord {name : String} (h : isConstantWord name = false) :
    Text.sameName name "true" = false ∧ Text.sameName name "false" = false ∧
      Text.sameName name "null" = false := by
  simpa [isConstantWord, and_assoc] using h

/-- A word with a parenthesis behind it begins a call. -/
theorem wordTerm_call {token : Token} {word : String} {site : Nat} {args : List Phrase}
    (hconstant : isConstantWord word = false) (hsequence : isSequenceWord word = false)
    (hparts : ∀ e ∈ args, e.isBounds = false ∧ e.WellFormed) (hs : Room k s)
    (h : Spells (.symbol .leftParen :: (separated (args.map Phrase.marks) ++
      [.symbol .rightParen])) s s') :
    Meets unsited (wordTerm term token word scope) s
      (nodes Phrase.node scope args >>= applyNode? word site) s' := by
  obtain ⟨htrue, hfalse, hnull⟩ := sameName_of_isConstantWord hconstant
  obtain ⟨⟨hmap, hfilter⟩, hsort⟩ : (Text.sameName word "MAP" = false ∧
      Text.sameName word "FILTER" = false) ∧ Text.sameName word "SORT" = false := by
    simpa [isSequenceWord] using hsequence
  -- A call of this name is none of those with readers of their own, and the parenthesis tells it
  -- from a path.
  unfold wordTerm
  rw [htrue, hfalse, hnull]
  refine .peek ?_
  rw [isSymbol_iff.mpr (Spells.symbol_cons.mp h).1, hmap, hfilter, hsort]
  exact call_meets scope ht hparts hs h

/-- A word with no parenthesis behind it begins a path. -/
theorem wordTerm_bare {token : Token} {word : String} {ws : List (WrittenStep Phrase)}
    {behind : Option Phrase} (hwf : Layer.WellFormed (.path (.bare word) ws behind))
    (hparts : ∀ part ∈ (Layer.path (.bare word) ws behind).children, part.WellFormed)
    (hopen : (s.peek true).kind.isSymbol .leftParen = false) (hs : Room k s)
    (h : Spells (ws.flatMap (stepMarks Phrase.marks) ++
      behindMarks isParameter Phrase.marks ws behind) s s') :
    Meets unsited (wordTerm term token word scope) s
      (Layer.node isBounds Phrase.node scope (.path (.bare word) ws behind)) s' := by
  obtain ⟨htrue, hfalse, hnull⟩ := sameName_of_isConstantWord hwf.1
  unfold wordTerm
  rw [htrue, hfalse, hnull]
  refine .peek ?_
  rw [Token.isSymbol_eq, hopen]
  exact pathBehind_meets scope ht (.bare word) hwf hparts hs h

/-- What a word begins is read. The reader tries the constants, then the functions on sequences,
then calls, and takes any other word for the beginning of a path; in each case of the proof the
words that are tried before are shown to be different ones. -/
theorem wordTerm_meets {token : Token} {word : String} {layer : Layer Phrase}
    (hwf : layer.WellFormed) (hparts : ∀ part ∈ layer.children, part.WellFormed)
    (hterm : (Phrase.mk layer).isTerm = true) (hkind : (s.peek true).kind = .word word)
    (hs : Room k (s.advance true)) (h : Spells (layer.marks isParameter Phrase.marks) s s') :
    Meets unsited (wordTerm term token word scope) (s.advance true)
      (layer.node isBounds Phrase.node scope) s' := by
  -- Keywords are told apart by their names, ignoring case; a call or a path has none of these.
  have keyword {text : String} {rest : List Mark} (h : Spells (.keyword text :: rest) s s')
      (other : String) : Text.sameName word other = Text.sameName text other := by
    have hword := h.1
    rw [hkind] at hword
    exact sameName_congr hword other
  cases layer with
  | truth b =>
      unfold wordTerm
      rw [keyword h "true", keyword h "false"]
      obtain rfl : s.advance true = s' := h.2
      cases b with
      | true => exact .pure rfl
      | false => exact .pure rfl
  | null =>
      unfold wordTerm
      rw [keyword h "true", keyword h "false", keyword h "null"]
      obtain rfl : s.advance true = s' := h.2
      exact .pure rfl
  | map source part =>
      unfold wordTerm
      rw [keyword h "true", keyword h "false", keyword h "null", keyword h "MAP"]
      refine .peek ?_
      rw [isSymbol_iff.mpr (spells_sequence h).2.1]
      exact mapCall_meets scope ht hwf hparts hs h
  | filter source part =>
      unfold wordTerm
      rw [keyword h "true", keyword h "false", keyword h "null", keyword h "MAP",
        keyword h "FILTER"]
      refine .peek ?_
      rw [isSymbol_iff.mpr (spells_sequence h).2.1]
      exact filterCall_meets scope ht hwf hparts hs h
  | sort source key order =>
      rw [marks_sort] at h
      unfold wordTerm
      rw [keyword h "true", keyword h "false", keyword h "null", keyword h "MAP",
        keyword h "FILTER", keyword h "SORT"]
      refine .peek ?_
      rw [isSymbol_iff.mpr (spells_sequence h).2.1]
      exact sortCall_meets scope ht hwf hparts hs h
  | call name site args =>
      obtain ⟨hconstant, hsequence, hclasses⟩ := hwf
      obtain ⟨hname, hargs⟩ : (s.peek true).kind = .word name ∧
        Spells (.symbol .leftParen :: (separated (args.map Phrase.marks) ++
          [Mark.symbol .rightParen])) (s.advance true) s' := h
      obtain rfl : word = name := TokenKind.word.inj (hkind.symm.trans hname)
      have hargs' : ∀ e ∈ args, e.isBounds = false ∧ e.WellFormed := fun e he =>
        ⟨hclasses e he, hparts e he⟩
      exact wordTerm_call scope ht hconstant hsequence hargs' hs hargs
  | path start ws behind =>
      cases start with
      | sigil root field =>
          rcases root with _ | _ <;> rcases field with _ | field
          all_goals
            have hsigil : (s.peek true).kind = .symbol _ := h.1
            -- A path from a sigil does not begin with a word.
            rw [hkind] at hsigil
            cases hsigil
      | bare name =>
          obtain ⟨hname, hopen, hpath⟩ : (s.peek true).kind = .word name ∧
            ((s.advance true).peek true).kind.isSymbol .leftParen = false ∧
            Spells (ws.flatMap (stepMarks Phrase.marks) ++
              behindMarks isParameter Phrase.marks ws behind) (s.advance true) s' := by
            rw [Layer.marks, List.append_assoc] at h
            exact h
          obtain rfl : word = name := TokenKind.word.inj (hkind.symm.trans hname)
          exact wordTerm_bare scope ht hwf hparts hopen hs hpath
  -- No other layer begins with a word, and a row or a range is no term.
  | number negative isDouble text =>
      cases negative <;> cases isDouble <;>
      · have hno : (s.peek true).kind = _ := h.1
        rw [hkind] at hno
        cases hno
  | documents selector =>
      cases selector <;>
      · have hno : (s.peek true).kind = _ := h.1
        rw [hkind] at hno
        cases hno
  | string text | document entries | array items | parameter isInt name | parens inner =>
      have hno : (s.peek true).kind = _ := h.1
      rw [hkind] at hno
      cases hno
  | joined first tail | bounds lower upper => cases hterm

/-! ### Terms -/

omit ht in
/-- A number is read, whether a minus sign stands in front of it or not. -/
theorem termWith_number {negative isDouble : Bool} {text : String}
    (h : Spells (Layer.marks isParameter Phrase.marks (.number negative isDouble text)) s s') :
    Meets unsited (termWith term scope) s (numberNode? negative isDouble text) s' := by
  unfold termWith
  refine .next ?_
  cases negative with
  | false =>
      obtain ⟨hkind, rfl⟩ : (s.peek true).kind = (if isDouble then .double text else .int text) ∧
        s.advance true = s' := h
      have hmeets : Meets unsited (number (s.peek true) false) (s.advance true)
          (numberNode? false isDouble text) (s.advance true) := number_meets hkind
      cases isDouble with
      | true =>
          rw [if_pos rfl] at hkind
          rw [hkind]
          exact hmeets
      | false =>
          rw [if_neg Bool.false_ne_true] at hkind
          rw [hkind]
          exact hmeets
  | true =>
      obtain ⟨hminus, hkind, rfl⟩ : (s.peek true).kind = .symbol .minus ∧
        ((s.advance true).peek false).kind = (if isDouble then .double text else .int text) ∧
          (s.advance true).advance false = s' := h
      have hmeets : Meets unsited (number ((s.advance true).peek false) true)
          ((s.advance true).advance false) (numberNode? true isDouble text)
          ((s.advance true).advance false) := number_meets hkind
      -- Behind the minus sign the reader looks for a digit before it takes the sign for part of a
      -- number.
      rw [hminus]
      dsimp only
      unfold minusTerm
      refine .peek ?_
      cases isDouble with
      | true =>
          rw [if_pos rfl] at hkind
          rw [hkind]
          exact .pass hmeets
      | false =>
          rw [if_neg Bool.false_ne_true] at hkind
          rw [hkind]
          exact .pass hmeets

/-- What an asterisk begins is read. -/
theorem termWith_documents {selector : Option Phrase}
    (hselector : ∀ e ∈ selector, e.isTerm = true ∧ e.WellFormed) (hs : Room k (s.advance true))
    (h : Spells (Layer.marks isParameter Phrase.marks (.documents selector)) s s') :
    Meets unsited (termWith term scope) s
      (Layer.node isBounds Phrase.node scope (.documents selector)) s' := by
  have hkind : (s.peek true).kind = .symbol .asterisk := by
    cases selector <;> exact h.1
  unfold termWith
  refine .next ?_
  rw [hkind]
  dsimp only
  unfold documentsTerm
  refine .peek ?_
  cases selector with
  | none =>
      obtain ⟨-, hend, rfl⟩ : (s.peek true).kind = .symbol .asterisk ∧
        ((s.advance true).peek false).kind.isSymbol .period = false ∧ s.advance true = s' := h
      -- The marks ask for no period behind the asterisk, so none is taken for a selector.
      rw [Token.isSymbol_eq, hend]
      exact .pure rfl
  | some selector =>
      obtain ⟨-, hperiod, hselects⟩ : (s.peek true).kind = .symbol .asterisk ∧
        ((s.advance true).peek false).kind = .symbol .period ∧
          Spells selector.marks ((s.advance true).advance false) s' := h
      obtain ⟨hterm, hwf⟩ := hselector selector rfl
      rw [isSymbol_iff.mpr hperiod]
      refine .pass ?_
      -- What is selected is read in the scope of the source, and not in that of the asterisk.
      rw [Layer.node, Option.map_eq_bind]
      refine (ht .source hwf hterm (hs.advance false) hselects).bind fun a b _ hb => .pure ?_
      rw [Node.unsited_map, hb, Node.unsited_map]

omit ht in
/-- A parameter is read. -/
theorem termWith_parameter {isInt : Bool} {name : String}
    (h : Spells (Layer.marks isParameter Phrase.marks (.parameter isInt name)) s s') :
    Meets unsited (termWith term scope) s (some (Node.parameter name)) s' := by
  obtain ⟨hat, hname, rfl⟩ : (s.peek true).kind = .symbol .atSign ∧
    ((s.advance true).peek false).kind = (if isInt then .int name else .word name) ∧
      (s.advance true).advance false = s' := h
  unfold termWith
  refine .next ?_
  rw [hat]
  dsimp only
  unfold atTerm
  refine .peek ?_
  cases isInt with
  | true =>
      rw [if_pos rfl] at hname
      rw [hname]
      exact .pass (.pure rfl)
  | false =>
      rw [if_neg Bool.false_ne_true] at hname
      rw [hname]
      exact .pass (.pure rfl)

/-- A path from a sigil is read: no parameter is taken for one. -/
theorem termWith_sigil {root : PathRoot} {field : Option FieldName}
    {ws : List (WrittenStep Phrase)} {behind : Option Phrase}
    (hwf : Layer.WellFormed (.path (.sigil root field) ws behind))
    (hparts : ∀ part ∈ (Layer.path (.sigil root field) ws behind).children, part.WellFormed)
    (hs : Room k (s.advance true))
    (h : Spells (Layer.marks isParameter Phrase.marks (.path (.sigil root field) ws behind)) s s') :
    Meets unsited (termWith term scope) s
      (Layer.node isBounds Phrase.node scope (.path (.sigil root field) ws behind)) s' := by
  rw [Layer.marks, List.append_assoc] at h
  obtain ⟨hkind, hparameter, hpath⟩ : (s.peek true).kind = .symbol root.symbol ∧
      (root = .current → field = none →
        ((s.advance true).peek false).kind.namesParameter = false) ∧
      Spells ((field.elim [] fun field => .touch .period :: field.marks false) ++
        (ws.flatMap (stepMarks Phrase.marks) ++
          behindMarks isParameter Phrase.marks ws behind)) (s.advance true) s' := by
    cases field with
    | some field =>
        rw [PathStart.marks_sigil] at h
        exact ⟨h.1, by rintro _ ⟨⟩, h.2⟩
    | none =>
        cases root with
        | document => exact ⟨h.1, by rintro ⟨⟩, h.2⟩
        | current => exact ⟨h.1, fun _ _ => h.2.1, h.2.2⟩
  -- Both sigils go on with the same reader; only `@` is tried as a parameter before.
  have hmeets := sigilPath_meets scope ht hwf hparts hs hpath
  unfold termWith
  refine .next ?_
  rw [hkind]
  cases root with
  | document => exact hmeets
  | current =>
      dsimp only [PathRoot.symbol]
      unfold atTerm
      refine .peek ?_
      -- A first field begins with a period; without one, the marks ask that no name of a parameter
      -- follows.
      have hno : ((s.advance true).peek false).kind.namesParameter = false := by
        cases field with
        | none => exact hparameter rfl rfl
        | some field => rw [(Spells.touch_cons.mp hpath).1]; rfl
      split
      · rename_i hkind
        rw [hkind] at hno
        cases hno
      · rename_i hkind
        rw [hkind] at hno
        cases hno
      · exact hmeets

/-- A reader of terms is right if the one for the terms inside is, on a token more. The layer of the
phrase gives its first token, and with it the branch that the reader takes; what is inside begins
behind this token, so there is room for it. -/
theorem termWith_meets : RereadsTerms (k + 1) (termWith term) := by
  intro scope e s s' hwf hterm hs h
  -- A phrase begins with a token, so what is inside has fewer tokens left than the phrase.
  have hfinish : (s.peek true).kind ≠ .finish := by
    intro hkind
    have hbegins := (begins_of_spells h).1
    rw [hkind] at hbegins
    cases hbegins
  have hlt := hs.ended.remaining_advance_lt hfinish
  have hle := hs.remaining_le
  have hinside : Room k (s.advance true) := ⟨hs.ended.advance true, by omega⟩
  have hlayer := hwf.layer
  have hparts : ∀ part ∈ e.layer.children, part.WellFormed := fun part => hwf.part
  obtain ⟨layer⟩ := e
  rw [marks_eq] at h
  rw [node_eq]
  -- Constants, functions and bare paths begin with a word, and `wordTerm_meets` knows them all.
  have hword {word : String} (hkind : (s.peek true).kind = .word word) :
      Meets unsited (termWith term scope) s (layer.node isBounds Phrase.node scope) s' := by
    unfold termWith
    refine .next ?_
    rw [hkind]
    exact wordTerm_meets scope ht hlayer hparts hterm hkind hinside h
  have hkeyword {keyword : String} (hkind : (s.peek true).kind.isKeyword keyword = true) :
      Meets unsited (termWith term scope) s (layer.node isBounds Phrase.node scope) s' := by
    obtain ⟨w, hw⟩ := isWord_of_keyword hkind
    exact hword hw
  cases layer with
  | truth b => exact hkeyword h.1
  | null => exact hkeyword h.1
  | map source part | filter source part => exact hkeyword h.1
  | sort source key order =>
      have hsort : (s.peek true).kind.isKeyword "SORT" = true := by
        cases order <;> exact h.1
      exact hkeyword hsort
  | call name site args => exact hword h.1
  | joined first tail | bounds lower upper => cases hterm
  | number negative isDouble text => exact termWith_number scope h
  | string text =>
      obtain ⟨hkind, rfl⟩ : (s.peek true).kind = .string text ∧ s.advance true = s' := h
      unfold termWith
      refine .next ?_
      rw [hkind]
      exact .pure rfl
  | documents selector =>
      refine termWith_documents scope ht (fun e he => ⟨hlayer e he, hparts e ?_⟩) hinside h
      exact Option.mem_toList.mpr he
  | document entries =>
      obtain ⟨hopen, hentries⟩ := Spells.symbol_cons.mp h
      unfold termWith
      refine .next ?_
      rw [hopen]
      refine document_meets scope ht (fun entry hentry e he => ?_) hinside hentries
      refine ⟨hlayer entry hentry e he, hparts e ?_⟩
      exact List.mem_flatMap.mpr ⟨entry, hentry, Option.mem_toList.mpr he⟩
  | array items =>
      obtain ⟨hopen, hitems⟩ := Spells.symbol_cons.mp h
      unfold termWith
      refine .next ?_
      rw [hopen]
      exact array_meets scope ht (fun e he => ⟨hlayer e he, hparts e he⟩) hinside hitems
  | parameter isInt name => exact termWith_parameter scope h
  | path start ws behind =>
      cases start with
      | bare name => exact hword h.1
      | sigil root field => exact termWith_sigil scope ht hlayer hparts hinside h
  | parens inner =>
      obtain ⟨hopen, h⟩ := Spells.symbol_cons.mp h
      obtain ⟨u, hinner, hclose, hend⟩ := Spells.append_iff.mp h
      unfold termWith
      refine .next ?_
      rw [hopen, layer, Layer.node, Option.map_eq_bind]
      have hinnerWf := hparts inner (List.mem_singleton_self inner)
      refine (joined_meets scope ht hinnerWf hlayer hinside (.of_symbol hclose rfl) hinner).bind
        fun a b _ hb => .expect hclose ?_
      rw [← hend]
      refine .pure ?_
      rw [Node.unsited_parenthesized, hb, Node.unsited_parenthesized]

end

/-- A term that is written is read. -/
theorem termUpTo_meets (bound : Nat) : RereadsTerms bound (termUpTo bound) := by
  induction bound with
  | zero =>
      intro scope e s s' hwf hterm hs h
      -- With no token left there is no phrase to read.
      have hlt := remaining_lt_of_phrase hs.ended h
      have hle := hs.remaining_le
      omega
  | succ bound ih =>
      intro scope e s s' hwf hterm hs h
      exact termWith_meets ih scope hwf hterm hs h

/-- What is written is read in a mode that allows for it: terms joined by operators only
where all of the text is read. -/
theorem inMode_meets (scope : Scope) {mode : ParseMode} {e : Phrase} (hwf : e.WellFormed)
    (hclass : e.isBounds = false) (hmode : mode = .single → e.isTerm = true) (hs : s.Ended)
    (h : Spells e.marks s s') (hend : mode = .full → s'.isExhausted = true) :
    Meets unsited (inMode mode scope) s (e.node scope) s' := by
  -- The number of tokens left is what the reader counts down from.
  have hroom : Room s.remaining s := ⟨hs, Nat.le_refl _⟩
  cases mode with
  | single => exact .remaining (termUpTo_meets _ scope hwf (hmode rfl) hroom h)
  | full =>
      have hend := hend rfl
      have hkind : (s'.peek true).kind = .finish := by
        unfold TokenStream.isExhausted Token.isFinish at hend
        split at hend
        · assumption
        · cases hend
      -- Where the text ends no operator follows, so the row of terms is read up to there.
      have hrow : EndsRow s' := by
        constructor
        · simp [Token.operator?, hkind]
        · simp [Token.quantifier?, Token.isKeyword, hkind]
      have hmeets := joined_meets scope (termUpTo_meets _) hwf hclass hroom hrow h
      have hsame : e.node scope = e.node scope >>= some := by cases e.node scope <;> rfl
      unfold inMode full
      dsimp only
      rw [hsame, bind_assoc]
      refine .remaining (hmeets.bind fun a b _ hb => .of_run rfl ?_)
      rw [if_pos hend]
      exact .pure hb

end Parser

/-- A text that begins with what spells a phrase is parsed, into what the phrase stands for, if
nothing else has to be read. -/
theorem parse_of_spells {code : String} {scope : Scope} {mode : ParseMode} {e : Phrase} {n : Node}
    {s s' : TokenStream} (hcode : TokenStream.ofText code = .ok s) (hwf : e.WellFormed)
    (hclass : e.isBounds = false) (hmode : mode = .single → e.isTerm = true)
    (h : Spells e.marks s s') (hend : mode = .full → s'.isExhausted = true)
    (hn : e.node scope = some n) :
    ∃ n', parse code scope mode = .ok n' ∧ n'.unsited = n.unsited := by
  have hmeets := Parser.inMode_meets scope hwf hclass hmode
    (TokenStream.ended_of_text hcode) h hend
  rw [hn] at hmeets
  obtain ⟨n', hrun, hn'⟩ := hmeets
  exact ⟨n', parse_ok.mpr ⟨s, s', hcode, hrun⟩, hn'⟩

/-- A text that spells a phrase is parsed, into what the phrase stands for. -/
theorem parse_meets {code : String} {scope : Scope} {mode : ParseMode} {e : Phrase} {n : Node}
    {s s' : TokenStream} (hcode : TokenStream.ofText code = .ok s) (hwf : e.WellFormed)
    (hclass : e.isBounds = false) (hmode : mode = .single → e.isTerm = true)
    (h : Spells e.marks s s') (hend : s'.isExhausted = true) (hn : e.node scope = some n) :
    ∃ n', parse code scope mode = .ok n' ∧ n'.unsited = n.unsited :=
  parse_of_spells hcode hwf hclass hmode h (fun _ => hend) hn

/-- A text that spells a phrase that stands for nothing is not parsed. -/
theorem parse_fails {code : String} {scope : Scope} {mode : ParseMode} {e : Phrase}
    {s s' : TokenStream} (hcode : TokenStream.ofText code = .ok s) (hwf : e.WellFormed)
    (hclass : e.isBounds = false) (hmode : mode = .single → e.isTerm = true)
    (h : Spells e.marks s s') (hend : s'.isExhausted = true) (hn : e.node scope = none) :
    ∃ error, parse code scope mode = .error error := by
  have hmeets := Parser.inMode_meets scope hwf hclass hmode
    (TokenStream.ended_of_text hcode) h fun _ => hend
  rw [hn] at hmeets
  obtain ⟨error, t, hrun⟩ := hmeets
  refine ⟨.parse error, ?_⟩
  unfold parse
  rw [hcode]
  dsimp only
  rw [hrun]

end DocQuery
