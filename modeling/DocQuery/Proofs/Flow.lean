import DocQuery.Proofs.Lexing
/-!
# DocQuery.Proofs.Flow

The marks of a phrase flow. Whatever the phrase is, each of its tokens ends where the next
one begins, and so does its last one, if what stands behind the phrase may stand there
(`Phrase.Follows`): the end, a blank, an operator, a comma, or what closes a bracket.
-/

namespace DocQuery

namespace TokenKind

/-- What may stand directly behind an expression. -/
def closes : TokenKind → Bool
  | .finish | .space _ => true
  | .symbol .leftBrace | .symbol .leftParen | .symbol .leftBracket | .symbol .atSign
  | .symbol .dollar | .symbol .period | .symbol .colon | .symbol .semicolon => false
  | .symbol _ => true
  | _ => false

theorem isAlphanumeric_of_closes {kind : TokenKind} (h : kind.closes = true) :
    kind.isAlphanumeric = false := by
  cases kind with
  | word text | int text | double text => cases h
  | _ => rfl

theorem isSymbol_of_closes {kind : TokenKind} (symbol : Symbol) (h : kind.closes = true)
    (hsymbol : (TokenKind.symbol symbol).closes = false) : kind.isSymbol symbol = false := by
  refine decide_eq_false ?_
  rintro rfl
  rw [hsymbol] at h
  cases h

/-- A token that may be the last of an expression ends in front of what closes it. -/
theorem allows_of_closes {kind next : TokenKind} (h : next.closes = true)
    (hkind : kind.isAlphanumeric = true ∨ kind.isSymbol .dollar = true) :
    kind.allows next = true := by
  have halphanumeric := isAlphanumeric_of_closes h
  have hperiod := isSymbol_of_closes .period h rfl
  cases kind with
  | word text => simp [allows, halphanumeric]
  | int text | double text => simp [allows, halphanumeric, hperiod]
  | symbol s =>
      rcases hkind with hkind | hkind
      · cases hkind
      · cases of_decide_eq_true hkind
        simp [allows, halphanumeric]
  | string value | space count | finish => rcases hkind with hkind | hkind <;> cases hkind

/-- A symbol other than the dollar sign ends in front of any expression. -/
theorem allows_of_begins {next : TokenKind} {symbol : Symbol} (h : next.beginsExpression = true)
    (hsymbol : symbol ≠ .dollar) : (TokenKind.symbol symbol).allows next = true := by
  -- None of the symbols that go on with another one begins an expression.
  have hnot (other : Symbol) (hother : (TokenKind.symbol other).beginsExpression = false) :
      next.isSymbol other = false := by
    refine decide_eq_false ?_
    rintro rfl
    rw [hother] at h
    cases h
  cases symbol with
  | equal =>
      have hgreater := hnot .greater rfl
      have hgreaterEqual := hnot .greaterEqual rfl
      simp [allows, hgreater, hgreaterEqual]
  | greater | less =>
      have hequal := hnot .equal rfl
      have harrow := hnot .arrow rfl
      simp [allows, hequal, harrow]
  | dollar => exact absurd rfl hsymbol
  | _ => rfl

end TokenKind

namespace Phrase

/-- The marks may stand behind a phrase. -/
structure Follows (rest : List Mark) : Prop where
  closes : (ahead rest).closes = true
  past : (aheadPast rest).isSymbol .leftParen = false
  flows : Flows rest

theorem Follows.nil : Follows [] := ⟨rfl, rfl, trivial⟩

/-- Any marks that flow may stand behind a phrase if a symbol like this comes first. -/
theorem Follows.symbol {touching : Bool} {symbol : Symbol} {rest : List Mark}
    (hcloses : (TokenKind.symbol symbol).closes = true)
    (hflows : Flows (.token touching (.symbol symbol) :: rest)) :
    Follows (.token touching (.symbol symbol) :: rest) where
  closes := hcloses
  past := TokenKind.isSymbol_of_closes _ hcloses rfl
  flows := hflows

/-- What stands first in a phrase begins an expression, and may stand behind a blank or none. -/
theorem ahead_marks (e : Phrase) (rest : List Mark) :
    (ahead (e.marks ++ rest)).beginsExpression = true ∧ IsLoose (e.marks ++ rest) := by
  have hbegins := e.begins_marks
  cases hmarks : e.marks with
  | nil =>
      rw [hmarks] at hbegins
      cases hbegins
  | cons mark others =>
      rw [hmarks] at hbegins
      -- A phrase begins with a token or a keyword.
      cases mark with
      | token touching kind => exact ⟨hbegins.2.1, hbegins.1⟩
      | keyword text => exact ⟨rfl, trivial⟩
      | blank | stop touching bars => cases hbegins

/-- The marks of the phrase flow into whatever may stand behind it. -/
def FlowsOn (e : Phrase) : Prop := ∀ {rest : List Mark}, Follows rest → Flows (e.marks ++ rest)

/-! ### Parts in a row -/

variable {rest : List Mark}

/-- Parts with commas between them: each is followed by a comma or, the last one, by what closes
them. -/
theorem flows_separated {parts : List (List Mark)} {close : Symbol}
    (hparts : ∀ marks ∈ parts, ∀ {rest : List Mark}, Follows rest → Flows (marks ++ rest))
    (hclose : Follows (.symbol close :: rest)) :
    Flows (separated parts ++ .symbol close :: rest) := by
  induction parts with
  | nil => exact hclose.flows
  | cons marks others ih =>
      have hothers := ih fun marks hmarks => hparts marks (List.mem_cons_of_mem _ hmarks)
      by_cases hnil : others = []
      · subst hnil
        exact hparts marks (List.mem_cons_self ..) hclose
      · rw [separated_cons marks hnil, List.append_assoc, List.cons_append]
        exact hparts marks (List.mem_cons_self ..) (.symbol rfl ⟨rfl, hothers⟩)

/-- An entry flows, with a value behind a colon or with its name alone. -/
theorem flows_entry {entry : EntryName × Option Phrase} (hvalue : ∀ e ∈ entry.2, e.FlowsOn)
    (hrest : Follows rest) : Flows (entryMarks Phrase.marks entry ++ rest) := by
  obtain ⟨key, value⟩ := entry
  cases value with
  | none =>
      -- Without a value the name is the last token.
      refine ⟨?_, hrest.flows⟩
      cases key with
      | word name | int name => exact TokenKind.allows_of_closes hrest.closes (.inl rfl)
      | string name => rfl
  | some e =>
      have hcolon : Flows (.symbol .colon :: (e.marks ++ rest)) := ⟨rfl, hvalue e rfl hrest⟩
      refine ⟨?_, hcolon⟩
      cases key <;> rfl

/-- Phrases with commas between them flow into what closes them. -/
theorem flows_items {items : List Phrase} {close : Symbol} (hitems : ∀ e ∈ items, e.FlowsOn)
    (hclose : Follows (.symbol close :: rest)) :
    Flows (separated (items.map Phrase.marks) ++ .symbol close :: rest) := by
  refine flows_separated ?_ hclose
  intro marks hmarks others hothers
  obtain ⟨e, he, rfl⟩ := List.mem_map.mp hmarks
  exact hitems e he hothers

/-- Entries with commas between them flow into what closes them. -/
theorem flows_entries {entries : List (EntryName × Option Phrase)} {close : Symbol}
    (hvalues : ∀ entry ∈ entries, ∀ e ∈ entry.2, e.FlowsOn)
    (hclose : Follows (.symbol close :: rest)) :
    Flows (separated (entries.map (entryMarks Phrase.marks)) ++ .symbol close :: rest) := by
  refine flows_separated ?_ hclose
  intro marks hmarks others hothers
  obtain ⟨entry, hentry, rfl⟩ := List.mem_map.mp hmarks
  exact flows_entry (hvalues entry hentry) hothers

/-! ### Paths

Behind its beginning a path may go on with steps, with a phrase behind a period, or not at all. In
each case what comes next goes on neither a word nor a number, and is no parenthesis that would make
a name a call. -/

/-- The marks may go on a path. -/
structure GoesOn (rest : List Mark) : Prop where
  touches : (ahead rest).isAlphanumeric = false
  past : (aheadPast rest).isSymbol .leftParen = false
  flows : Flows rest

theorem allows_word {text : String} (h : GoesOn rest) :
    (TokenKind.word text).allows (ahead rest) = true := by
  simp [TokenKind.allows, h.touches]

/-- The name of a field flows into what may go on a path. -/
theorem GoesOn.field {touching : Bool} {field : FieldName} (h : GoesOn rest) :
    Flows (field.marks touching ++ rest) := by
  cases field with
  | word name => exact ⟨allows_word h, h.flows⟩
  | quoted name => exact ⟨rfl, rfl, rfl, h.flows⟩

/-- Steps go on a path. A part between brackets is followed by the closing one, which closes any
phrase. -/
theorem GoesOn.steps {ws : List (WrittenStep Phrase)} (hparts : ∀ e, .part e ∈ ws → e.FlowsOn)
    (h : GoesOn rest) : GoesOn (ws.flatMap (stepMarks Phrase.marks) ++ rest) := by
  induction ws with
  | nil => exact h
  | cons w others ih =>
      have hothers := ih fun e he => hparts e (List.mem_cons_of_mem _ he)
      rw [List.flatMap_cons, List.append_assoc]
      cases w with
      | member field => exact ⟨rfl, rfl, rfl, hothers.field⟩
      | place negative digits =>
          have hclose : Flows (.symbol .rightBracket :: (others.flatMap (stepMarks Phrase.marks) ++
            rest)) := ⟨rfl, hothers.flows⟩
          cases negative with
          | false => exact ⟨rfl, rfl, rfl, rfl, hclose⟩
          | true => exact ⟨rfl, rfl, rfl, rfl, rfl, hclose⟩
      | all => exact ⟨rfl, rfl, rfl, rfl, rfl, hothers.flows⟩
      | part e =>
          have hclose : Follows
              (.symbol .rightBracket :: (others.flatMap (stepMarks Phrase.marks) ++
            rest)) := .symbol rfl ⟨rfl, hothers.flows⟩
          have he := hparts e (List.mem_cons_self ..) hclose
          rw [stepMarks, List.cons_append, List.cons_append, List.append_assoc]
          exact ⟨rfl, rfl, rfl, he⟩

/-- The beginning of a path flows: a sigil, a sigil and a field, or a name. -/
theorem GoesOn.start {start : PathStart} (h : GoesOn rest) : Flows (start.marks ++ rest) := by
  rcases start with ⟨root, _ | field⟩ | name
  · cases root with
    | document =>
        refine ⟨?_, h.flows⟩
        change (!(ahead rest).isAlphanumeric) = true
        rw [h.touches]
        rfl
    | current =>
        refine ⟨rfl, ?_, h.flows⟩
        have htouches := h.touches
        change TokenKind.namesParameter (ahead rest) = false
        -- A name directly behind `@` would make it a parameter, but what goes on a path is none.
        cases hkind : ahead rest with
        | word text | int text =>
            rw [hkind] at htouches
            cases htouches
        | _ => rfl
  · rw [PathStart.marks_sigil]
    cases root with
    | document => exact ⟨rfl, rfl, h.field⟩
    | current => exact ⟨rfl, rfl, h.field⟩
  · have hword : (TokenKind.word name).allows (ahead rest) = true := allows_word h
    exact ⟨hword, h.past, h.flows⟩

/-- What stands behind the steps of a path goes on it: a period and a phrase, or the mark that the
path stops here, which nothing that may stand behind a phrase crosses. -/
theorem Follows.behind (ws : List (WrittenStep Phrase)) {behind : Option Phrase}
    (hbehind : ∀ e ∈ behind, e.FlowsOn) (hrest : Follows rest) :
    GoesOn (behindMarks isParameter Phrase.marks ws behind ++ rest) := by
  cases behind with
  | some e => exact ⟨rfl, rfl, rfl, hbehind e rfl hrest⟩
  | none =>
      have hstop {bars : TokenKind → Bool} (hbars : bars (ahead rest) = false) :
          GoesOn ([Mark.stop true bars] ++ rest) :=
        ⟨TokenKind.isAlphanumeric_of_closes hrest.closes, hrest.past, hbars, hrest.flows⟩
      have hperiod := TokenKind.isSymbol_of_closes .period hrest.closes rfl
      have hbracket := TokenKind.isSymbol_of_closes .leftBracket hrest.closes rfl
      rw [behindMarks]
      split
      · exact hstop hperiod
      · refine hstop ?_
        rw [TokenKind.goesOnPath, hperiod, hbracket]
        rfl

/-! ### Rows -/

/-- A comparison may stand behind a phrase, and behind a word, as it does with a quantifier. -/
theorem follows_comparison (op : ComparisonOp) {e : Phrase} (he : Flows (e.marks ++ rest)) :
    Follows (op.marks ++ (e.marks ++ rest)) ∧
      ∀ text, (TokenKind.word text).allows (ahead (op.marks ++ (e.marks ++ rest))) = true := by
  obtain ⟨hbegins, hloose⟩ := e.ahead_marks rest
  cases op with
  | like | between | isIn =>
      exact ⟨⟨rfl, rfl, trivial, rfl, hloose, he⟩, fun text => rfl⟩
  | greater | greaterEqual | less | lessEqual | notEqual | equal =>
      exact ⟨.symbol rfl ⟨TokenKind.allows_of_begins hbegins (by rintro ⟨⟩), he⟩, fun text => rfl⟩

/-- An operator and what stands behind it may stand behind a phrase. -/
theorem follows_operator {op : Operator} {e : Phrase} (he : Flows (e.marks ++ rest)) :
    Follows (op.marks ++ (e.marks ++ rest)) := by
  obtain ⟨hbegins, hloose⟩ := e.ahead_marks rest
  cases op with
  | binary op =>
      cases op with
      | arithmetic op =>
          cases op with
          | modulo | divide | multiply | add | subtract =>
              exact .symbol rfl ⟨TokenKind.allows_of_begins hbegins (by rintro ⟨⟩), he⟩
      | comparison op => exact (follows_comparison op he).1
  | quantified quantifier op =>
      obtain ⟨hop, hword⟩ := follows_comparison op he
      exact ⟨rfl, rfl, trivial, hword _, hop.flows⟩
  | logic op => exact ⟨rfl, rfl, trivial, rfl, hloose, he⟩

/-- A row of operators may stand behind a phrase, as what follows the row may. -/
theorem follows_row {row : List (Operator × Phrase)} (hparts : ∀ entry ∈ row, entry.2.FlowsOn)
    (hrest : Follows rest) : Follows (row.flatMap (tailMarks Phrase.marks) ++ rest) := by
  induction row with
  | nil => exact hrest
  | cons entry others ih =>
      have hothers := ih fun entry hentry => hparts entry (List.mem_cons_of_mem _ hentry)
      rw [List.flatMap_cons, tailMarks, List.append_assoc, List.append_assoc]
      exact follows_operator (hparts entry (List.mem_cons_self ..) hothers)

/-! ### Phrases -/

/-- A function on sequences: its source is followed by the arrow, the part for each element by what
is behind it. -/
theorem flows_sequence {name : String} {source part : Phrase} {behind : List Mark}
    (hname : ∀ symbol, (TokenKind.word name).allows (.symbol symbol) = true)
    (hsource : source.FlowsOn) (hpart : part.FlowsOn)
    (hbehind : Follows (behind ++ .symbol .rightParen :: rest)) :
    Flows (sequenceMarks Phrase.marks name source part behind ++ rest) := by
  have harrow : Follows (.symbol .arrow ::
      (part.marks ++ (behind ++ .symbol .rightParen :: rest))) :=
    .symbol rfl ⟨rfl, hpart hbehind⟩
  simp only [sequenceMarks, List.append_assoc, List.cons_append, List.nil_append]
  exact ⟨hname _, rfl, hsource harrow⟩

/-- The marks of a well-formed phrase flow. -/
theorem flowsOn (e : Phrase) : e.FlowsOn := by
  induction e using Phrase.induction with
  | step e ih =>
      -- What may follow a phrase is passed down to its last part; every other part is followed
      -- by a mark of the phrase itself.
      intro rest hrest
      have hclose : Flows (.symbol .rightParen :: rest) := ⟨rfl, hrest.flows⟩
      rw [marks_eq]
      obtain ⟨layer⟩ := e
      cases layer with
      | number negative isDouble text =>
          have hnumber : (if isDouble then TokenKind.double text else .int text).allows
              (ahead rest) = true := by
            cases isDouble <;> exact TokenKind.allows_of_closes hrest.closes (.inl rfl)
          cases negative with
          | false => exact ⟨hnumber, hrest.flows⟩
          | true => exact ⟨rfl, hnumber, hrest.flows⟩
      | truth b => exact ⟨TokenKind.allows_of_closes hrest.closes (.inl rfl), hrest.flows⟩
      | null => exact ⟨TokenKind.allows_of_closes hrest.closes (.inl rfl), hrest.flows⟩
      | string text => exact ⟨rfl, hrest.flows⟩
      | documents selector =>
          cases selector with
          | none =>
              refine ⟨rfl, ?_, hrest.flows⟩
              exact TokenKind.isSymbol_of_closes .period hrest.closes rfl
          | some selector => exact ⟨rfl, rfl, ih selector (List.mem_singleton_self _) hrest⟩
      | document entries =>
          have hvalues : ∀ entry ∈ entries, ∀ e ∈ entry.2, e.FlowsOn := fun entry hentry e he =>
            ih e (List.mem_flatMap.mpr ⟨entry, hentry, Option.mem_toList.mpr he⟩)
          have hbrace : Follows (.symbol .rightBrace :: rest) := .symbol rfl ⟨rfl, hrest.flows⟩
          have hentries := flows_entries hvalues hbrace
          rw [layer, Layer.marks, List.cons_append, List.cons_append, List.append_assoc]
          exact ⟨rfl, hentries⟩
      | array items =>
          have hbracket : Follows (.symbol .rightBracket :: rest) := .symbol rfl ⟨rfl, hrest.flows⟩
          have hitems := flows_items ih hbracket
          rw [layer, Layer.marks, List.cons_append, List.cons_append, List.append_assoc]
          exact ⟨rfl, hitems⟩
      | parameter isInt name =>
          refine ⟨rfl, ?_, hrest.flows⟩
          cases isInt <;> exact TokenKind.allows_of_closes hrest.closes (.inl rfl)
      | path start ws behind =>
          have hparts : ∀ e, .part e ∈ ws → e.FlowsOn := by
            intro e he
            refine ih e (List.mem_append_left _ ?_)
            exact List.mem_flatMap.mpr ⟨_, he, List.mem_singleton_self e⟩
          have hbehind : ∀ e ∈ behind, e.FlowsOn := fun e he =>
            ih e (List.mem_append_right _ (Option.mem_toList.mpr he))
          rw [layer, Layer.marks, List.append_assoc, List.append_assoc]
          exact ((Follows.behind ws hbehind hrest).steps hparts).start
      | map source part =>
          exact flows_sequence (fun _ => rfl) (ih source (List.mem_cons_self ..))
            (ih part (List.mem_cons_of_mem _ (List.mem_singleton_self _))) (.symbol rfl hclose)
      | filter source part =>
          exact flows_sequence (fun _ => rfl) (ih source (List.mem_cons_self ..))
            (ih part (List.mem_cons_of_mem _ (List.mem_singleton_self _))) (.symbol rfl hclose)
      | sort source key order =>
          have hsource : source.FlowsOn := ih source (List.mem_cons_self ..)
          have hkey : key.FlowsOn := ih key (List.mem_cons_of_mem _ (List.mem_cons_self ..))
          cases order with
          | none => exact flows_sequence (fun _ => rfl) hsource hkey (.symbol rfl hclose)
          | some order =>
              have horder : order.FlowsOn := ih order
                (List.mem_cons_of_mem _ (List.mem_cons_of_mem _ (List.mem_singleton_self _)))
              refine flows_sequence (fun _ => rfl) hsource hkey ?_
              exact .symbol rfl ⟨rfl, horder (.symbol rfl hclose)⟩
      | call name site args =>
          have hargs := flows_items ih (.symbol rfl hclose)
          rw [layer, Layer.marks, List.append_assoc, List.append_assoc]
          exact ⟨rfl, rfl, hargs⟩
      | parens inner =>
          have hinner := ih inner (List.mem_singleton_self _) (.symbol rfl hclose)
          rw [layer, Layer.marks, List.cons_append, List.cons_append, List.append_assoc]
          exact ⟨rfl, hinner⟩
      | joined first tail =>
          have htail : ∀ entry ∈ tail, entry.2.FlowsOn := fun entry hentry =>
            ih entry.2 (List.mem_cons_of_mem _ (List.mem_map_of_mem hentry))
          rw [layer, Layer.marks, List.append_assoc]
          exact ih first (List.mem_cons_self ..) (follows_row htail hrest)
      | bounds lower upper =>
          have hupper := ih upper (List.mem_cons_of_mem _ (List.mem_singleton_self _)) hrest
          obtain ⟨-, hloose⟩ := upper.ahead_marks rest
          have hjoint : Follows ([.blank, .keyword "AND", .blank] ++ (upper.marks ++ rest)) :=
            ⟨rfl, rfl, trivial, rfl, hloose, hupper⟩
          rw [layer, Layer.marks, List.append_assoc, List.append_assoc]
          exact ih lower (List.mem_cons_self ..) hjoint

end Phrase

end DocQuery
