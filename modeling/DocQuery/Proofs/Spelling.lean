import DocQuery.Proofs.Elaboration
import DocQuery.Proofs.Readers
/-!
# DocQuery.Proofs.Spelling

How phrases are written as tokens. The marks of a phrase (`Phrase.marks`) say which tokens
stand in a row, which of them have to touch the one in front, and where the next token
must not be of some kind, so that what has been read could not go on. `Spells` holds of
some marks and two places in a stream if the tokens between the places are as marked.

The blanks among the marks are those of canonical text; in a stream there may be more
or none, except where tokens have to touch.
-/

namespace DocQuery

/-- What is asked of the tokens in a row. -/
inductive Mark where
  /-- A token of this kind, with no blanks in front if it has to touch. -/
  | token (touching : Bool) (kind : TokenKind)
  /-- A word in letters of any case. -/
  | keyword (text : String)
  /-- A blank in canonical text. -/
  | blank
  /-- The next token is none of these. -/
  | stop (touching : Bool) (bars : TokenKind → Bool)

namespace Mark

/-- A symbol, perhaps with blanks in front. -/
abbrev symbol (s : Symbol) : Mark := .token false (.symbol s)

/-- A symbol that touches what stands in front. -/
abbrev touch (s : Symbol) : Mark := .token true (.symbol s)

end Mark

namespace TokenKind

/-- The symbol of this kind. -/
def isSymbol (s : Symbol) (kind : TokenKind) : Bool := decide (kind = .symbol s)

/-- What goes on a path of single values. -/
def goesOnPath (kind : TokenKind) : Bool := kind.isSymbol .period || kind.isSymbol .leftBracket

/-- What makes a parameter of an at sign. -/
def namesParameter : TokenKind → Bool
  | .word _ | .int _ => true
  | _ => false

/-- What an expression may begin with. -/
def beginsExpression : TokenKind → Bool
  | .int _ | .double _ | .string _ | .word _ => true
  | .symbol .minus | .symbol .asterisk | .symbol .leftBrace | .symbol .leftBracket
  | .symbol .leftParen | .symbol .atSign | .symbol .dollar => true
  | _ => false

/-- What begins a place between brackets, or the sign for all of them. -/
def beginsPlace : TokenKind → Bool
  | .int _ | .symbol .minus | .symbol .asterisk => true
  | _ => false

/-- The word in letters of any case. -/
def isKeyword (keyword : String) : TokenKind → Bool
  | .word w => Text.sameName w keyword
  | _ => false

end TokenKind

theorem Token.isKeyword_eq (t : Token) (keyword : String) :
    t.isKeyword keyword = t.kind.isKeyword keyword := rfl

theorem Token.isSymbol_eq (t : Token) (symbol : Symbol) :
    t.isSymbol symbol = t.kind.isSymbol symbol := by
  unfold Token.isSymbol TokenKind.isSymbol
  split
  · rename_i h
    simp [h]
  · rename_i h
    exact (decide_eq_false fun heq => h symbol heq).symm

/-- The tokens between two places of a stream are as marked. -/
def Spells : List Mark → TokenStream → TokenStream → Prop
  | [], s, s' => s = s'
  | .token touching kind :: rest, s, s' =>
    (s.peek (!touching)).kind = kind ∧ Spells rest (s.advance (!touching)) s'
  | .keyword text :: rest, s, s' =>
    (s.peek true).kind.isKeyword text = true ∧ Spells rest (s.advance true) s'
  | .blank :: rest, s, s' => Spells rest s s'
  | .stop touching bars :: rest, s, s' =>
    bars (s.peek (!touching)).kind = false ∧ Spells rest s s'

namespace Spells

theorem append_iff {a b : List Mark} {s s' : TokenStream} :
    Spells (a ++ b) s s' ↔ ∃ t, Spells a s t ∧ Spells b t s' := by
  induction a generalizing s with
  | nil =>
      constructor
      · exact fun h => ⟨s, rfl, h⟩
      · rintro ⟨_, rfl, h⟩
        exact h
  | cons mark rest ih =>
      cases mark with
      | blank => exact ih
      | token touching kind | keyword text | stop touching bars =>
          simp only [List.cons_append, Spells, ih, and_assoc, exists_and_left]

theorem append {a b : List Mark} {s t s' : TokenStream} (ha : Spells a s t) (hb : Spells b t s') :
    Spells (a ++ b) s s' :=
  append_iff.mpr ⟨t, ha, hb⟩

theorem symbol {symbol : Symbol} {s : TokenStream} (h : (s.peek true).kind = .symbol symbol) :
    Spells [.symbol symbol] s (s.advance true) :=
  ⟨h, rfl⟩

theorem symbol_cons {symbol : Symbol} {marks : List Mark} {s s' : TokenStream} :
    Spells (.symbol symbol :: marks) s s' ↔
      (s.peek true).kind = .symbol symbol ∧ Spells marks (s.advance true) s' :=
  Iff.rfl

theorem touch_cons {symbol : Symbol} {marks : List Mark} {s s' : TokenStream} :
    Spells (.touch symbol :: marks) s s' ↔
      (s.peek false).kind = .symbol symbol ∧ Spells marks (s.advance false) s' :=
  Iff.rfl

/-- Between two places of a stream its end stays the same and its tokens grow no more. -/
theorem finish_eq {marks : List Mark} {s s' : TokenStream} (h : Spells marks s s') :
    s'.finish = s.finish := by
  induction marks generalizing s with
  | nil => exact congrArg TokenStream.finish (Eq.symm h)
  | cons mark rest ih =>
      cases mark with
      | blank => exact ih h
      | token touching kind | keyword text => exact (ih h.2).trans rfl
      | stop touching bars => exact ih h.2

theorem ended {marks : List Mark} {s s' : TokenStream} (h : Spells marks s s')
    (hs : s.Ended) : s'.Ended := by
  rw [TokenStream.Ended, h.finish_eq]
  exact hs

theorem remaining_le {marks : List Mark} {s s' : TokenStream} (h : Spells marks s s') :
    s'.remaining ≤ s.remaining := by
  induction marks generalizing s with
  | nil => exact Nat.le_of_eq (congrArg TokenStream.remaining (Eq.symm h))
  | cons mark rest ih =>
      cases mark with
      | blank => exact ih h
      | token touching kind | keyword text => exact Nat.le_trans (ih h.2) (s.remaining_advance_le _)
      | stop touching bars => exact ih h.2

end Spells

/-! ### Operators -/

/-- The symbol of the operator. -/
def ArithmeticOp.symbol : ArithmeticOp → Symbol
  | .modulo => .percent
  | .divide => .slash
  | .multiply => .asterisk
  | .add => .plus
  | .subtract => .minus

/-- How the operator is written. -/
def ComparisonOp.marks : ComparisonOp → List Mark
  | .like => [.blank, .keyword "LIKE", .blank]
  | .between => [.blank, .keyword "BETWEEN", .blank]
  | .isIn => [.blank, .keyword "IN", .blank]
  | .greater => [.symbol .greater]
  | .greaterEqual => [.symbol .greaterEqual]
  | .less => [.symbol .less]
  | .lessEqual => [.symbol .lessEqual]
  | .notEqual => [.symbol .notEqual]
  | .equal => [.symbol .equal]

/-- How the operator is written. -/
def Operator.marks : Operator → List Mark
  | .binary (.arithmetic op) => [.symbol op.symbol]
  | .binary (.comparison op) => op.marks
  | .quantified quantifier op => [.blank, .keyword quantifier.text] ++ op.marks
  | .logic op => [.blank, .keyword op.text, .blank]

/-! ### Parts of paths and documents -/

/-- How the root is written. -/
def PathRoot.symbol : PathRoot → Symbol
  | .document => .dollar
  | .current => .atSign

/-- How a field name is written. -/
def FieldName.marks (touching : Bool) : FieldName → List Mark
  | .word name => [.token touching (.word name)]
  | .quoted name =>
    [.token touching (.symbol .leftBracket), .token false (.string name), .symbol .rightBracket]

/-- How the name of an entry is written. -/
def EntryName.mark : EntryName → Mark
  | .word name => .token false (.word name)
  | .int name => .token false (.int name)
  | .string name => .token false (.string name)

/-- How the beginning of a path is written. -/
def PathStart.marks : PathStart → List Mark
  | .sigil .document none => [.symbol .dollar]
  | .sigil .current none => [.symbol .atSign, .stop true TokenKind.namesParameter]
  | .sigil root (some field) => [.symbol root.symbol, .touch .period] ++ field.marks false
  | .bare name => [.token false (.word name), .stop false (TokenKind.isSymbol .leftParen)]

theorem PathStart.marks_sigil (root : PathRoot) (field : FieldName) :
    (sigil root (some field)).marks = [.symbol root.symbol] ++
      .touch .period :: field.marks false := by
  cases root <;> rfl

/-- The beginning of a path does not go on in the stream. -/
def PathStart.Ends (s : TokenStream) : PathStart → Prop
  | .sigil _ none => (s.peek false).kind ≠ .symbol .period
  | .sigil _ (some _) => True
  | .bare name => isConstantWord name = false

namespace Phrase

variable {ν μ : Type}

/-- Marks with commas between them. -/
def separated : List (List Mark) → List Mark
  | [] => []
  | [marks] => marks
  | marks :: rest => marks ++ .symbol .comma :: separated rest

theorem separated_cons (marks : List Mark) {rest : List (List Mark)} (h : rest ≠ []) :
    separated (marks :: rest) = marks ++ .symbol .comma :: separated rest := by
  cases rest with
  | nil => exact absurd rfl h
  | cons next rest => rfl

/-- How a place between brackets is written. -/
def placeMarks (negative : Bool) (digits : String) : List Mark :=
  (if negative then [.symbol .minus] else []) ++ [.token false (.int digits)]

section

variable (isParameter : ν → Bool) (m : ν → List Mark)

/-- How a step is written. -/
def stepMarks : WrittenStep ν → List Mark
  | .member field => .touch .period :: field.marks true
  | .place negative digits =>
    .touch .leftBracket :: placeMarks negative digits ++ [.symbol .rightBracket]
  | .all => [.touch .leftBracket, .symbol .asterisk, .symbol .rightBracket]
  | .part part => .touch .leftBracket :: m part ++ [.symbol .rightBracket]

/-- What stands behind the steps of a path. -/
def behindMarks (steps : List (WrittenStep ν)) : Option ν → List Mark
  | some behind => .touch .period :: m behind
  | none =>
    if steps.getLast?.any (WrittenStep.isMany isParameter) then
      [.stop true (TokenKind.isSymbol .period)]
    else [.stop true TokenKind.goesOnPath]

/-- How an entry is written. -/
def entryMarks : EntryName × Option ν → List Mark
  | (key, none) => [key.mark]
  | (key, some value) => [key.mark, .symbol .colon] ++ m value

/-- How an operator and what stands behind it are written. -/
def tailMarks (entry : Operator × ν) : List Mark := entry.1.marks ++ m entry.2

/-- How a function on sequences is written. -/
def sequenceMarks (name : String) (source part : ν) (behind : List Mark) : List Mark :=
  [.keyword name, .symbol .leftParen] ++ m source ++ [.symbol .arrow] ++ m part ++ behind ++
    [.symbol .rightParen]

/-- How a layer is written. -/
def Layer.marks : Layer ν → List Mark
  | .number negative isDouble text =>
    let kind := if isDouble then TokenKind.double text else .int text
    if negative then [.symbol .minus, .token true kind] else [.token false kind]
  | .truth b => [.keyword (if b then "true" else "false")]
  | .null => [.keyword "null"]
  | .string s => [.token false (.string s)]
  | .documents none => [.symbol .asterisk, .stop true (TokenKind.isSymbol .period)]
  | .documents (some selector) => [.symbol .asterisk, .touch .period] ++ m selector
  | .document entries =>
    .symbol .leftBrace :: separated (entries.map (entryMarks m)) ++ [.symbol .rightBrace]
  | .array items => .symbol .leftBracket :: separated (items.map m) ++ [.symbol .rightBracket]
  | .parameter isInt name =>
    [.symbol .atSign, .token true (if isInt then .int name else .word name)]
  | .path start steps behind =>
    start.marks ++ steps.flatMap (stepMarks m) ++ behindMarks isParameter m steps behind
  | .map source selector => sequenceMarks m "MAP" source selector []
  | .filter source predicate => sequenceMarks m "FILTER" source predicate []
  | .sort source key none => sequenceMarks m "SORT" source key []
  | .sort source key (some order) =>
    sequenceMarks m "SORT" source key (.symbol .comma :: m order)
  | .call name _ args =>
    [.token false (.word name), .symbol .leftParen] ++ separated (args.map m) ++
      [.symbol .rightParen]
  | .parens inner => .symbol .leftParen :: m inner ++ [.symbol .rightParen]
  | .joined first tail => m first ++ tail.flatMap (tailMarks m)
  | .bounds lower upper => m lower ++ [.blank, .keyword "AND", .blank] ++ m upper

end

/-- How the phrase is written. -/
def marks : Phrase → List Mark :=
  fold fun layer => Layer.marks (fun part => part.1.isParameter) Prod.snd layer

theorem stepMarks_map (m : μ → List Mark) (g : ν → μ) (step : WrittenStep ν) :
    stepMarks m (step.map g) = stepMarks (fun e => m (g e)) step := by
  cases step <;> rfl

theorem behindMarks_map (isParameter : μ → Bool) (m : μ → List Mark) (g : ν → μ)
    (steps : List (WrittenStep ν)) (behind : Option ν) :
    behindMarks isParameter m (steps.map (WrittenStep.map g)) (behind.map g) =
      behindMarks (fun e => isParameter (g e)) (fun e => m (g e)) steps behind := by
  cases behind with
  | some behind => rfl
  | none =>
      simp only [behindMarks, List.getLast?_map, Option.map_none]
      cases steps.getLast? with
      | none => rfl
      | some step => cases step <;> rfl

theorem Layer.marks_mapParts (isParameter : μ → Bool) (m : μ → List Mark) (g : ν → μ)
    (layer : Layer ν) :
    Layer.marks isParameter m (layer.mapParts g) =
      Layer.marks (fun e => isParameter (g e)) (fun e => m (g e)) layer := by
  cases layer with
  | documents selector => cases selector <;> rfl
  | document entries =>
      have h (entry : EntryName × Option ν) : entryMarks m (entry.1, entry.2.map g) =
          entryMarks (fun e => m (g e)) entry := by
        obtain ⟨key, value⟩ := entry
        cases value <;> rfl
      simp [mapParts, marks, Function.comp_def, h]
  | array items => simp [mapParts, marks, Function.comp_def]
  | path start steps behind =>
      simp only [mapParts, marks, behindMarks_map, List.flatMap_map, stepMarks_map]
  | sort source key order => cases order <;> rfl
  | call name site args => simp [mapParts, marks, Function.comp_def]
  | joined first tail =>
      simp only [mapParts, marks, List.flatMap_map]
      rfl
  | _ => rfl

/-- A phrase is written as its layer is, with its parts as they are written. -/
theorem marks_eq (e : Phrase) : e.marks = Layer.marks isParameter marks e.layer := by
  obtain ⟨layer⟩ := e
  rw [marks, fold_mk, Layer.marks_mapParts]
  rfl

/-! ### Beginnings -/

/-- The marks begin with a word in letters of any case, or with a token that is the first of
some expression, and that of a place only if the expression is not plain. -/
def Begins (plain : Bool) : List Mark → Prop
  | .token touching kind :: _ =>
    touching = false ∧ kind.beginsExpression = true ∧ kind.beginsPlace = !plain
  | .keyword _ :: _ => plain = true
  | _ => False

theorem Begins.append {plain : Bool} {marks : List Mark} (h : Begins plain marks)
    (rest : List Mark) : Begins plain (marks ++ rest) := by
  cases marks with
  | nil => cases h
  | cons mark marks => cases mark <;> exact h

/-- A phrase begins like a place between brackets unless it is plain. -/
theorem begins_marks (e : Phrase) : Begins e.isPlain e.marks := by
  induction e using Phrase.induction with
  | step e ih =>
      rw [marks_eq, isPlain_eq]
      obtain ⟨layer⟩ := e
      cases layer with
      | number negative isDouble text =>
          cases negative <;> cases isDouble <;> exact ⟨rfl, rfl, rfl⟩
      | truth b | null => exact rfl
      | string s | document entries | array items | parameter isInt name | parens inner =>
          exact ⟨rfl, rfl, rfl⟩
      | documents selector => cases selector <;> exact ⟨rfl, rfl, rfl⟩
      | path start steps behind =>
          rcases start with ⟨_ | _, _ | field⟩ | name <;> exact ⟨rfl, rfl, rfl⟩
      | map source part | filter source part => exact rfl
      | sort source key order => cases order <;> exact rfl
      | call name site args => exact ⟨rfl, rfl, rfl⟩
      | joined first tail => exact (ih first (List.mem_cons_self ..)).append _
      | bounds lower upper => exact ((ih lower (List.mem_cons_self ..)).append _).append _

theorem isWord_of_keyword {kind : TokenKind} {keyword : String}
    (h : kind.isKeyword keyword = true) : ∃ w, kind = .word w := by
  cases kind with
  | word w => exact ⟨w, rfl⟩
  | _ => cases h

theorem begins_of_spells {e : Phrase} {s s' : TokenStream} (h : Spells e.marks s s') :
    (s.peek true).kind.beginsExpression = true ∧
      (s.peek true).kind.beginsPlace = !e.isPlain := by
  have hbegins := e.begins_marks
  cases hmarks : e.marks with
  | nil =>
      rw [hmarks] at hbegins
      cases hbegins
  | cons mark rest =>
      rw [hmarks] at hbegins h
      cases mark with
      | token touching kind =>
          obtain ⟨rfl, hexpression, hplace⟩ := hbegins
          have hkind : (s.peek true).kind = kind := h.1
          rw [hkind]
          exact ⟨hexpression, hplace⟩
      | keyword text =>
          obtain ⟨w, hw⟩ := isWord_of_keyword h.1
          have hplain : e.isPlain = true := hbegins
          rw [hw, hplain]
          exact ⟨rfl, rfl⟩
      | blank | stop touching bars => cases hbegins

end Phrase

end DocQuery
