import DocQuery.Number.Decimal
import DocQuery.Parser.Basic
import DocQuery.Parser.Precedence
/-!
# DocQuery.Parser.Term

The terms of expressions: numbers and other values, documents, arrays, parameters,
paths and calls. The readers here are given the reader of a term, with which they
read the terms inside; every one of them has read a token before it uses that reader.

A reader that reads many parts is bounded by the number of tokens that are left.
Where the bound is used up no tokens are left, and it ends as it would at the end.
-/

namespace DocQuery

namespace Parser

section

variable (term : Scope → Parser Node)

/-! ## Terms joined by operators -/

/-- Reads what stands on the right of an operator. -/
def rightTerm (op : Operator) (scope : Scope) : Parser Node := do
  let right ← term scope
  if op.isBetween then
    let joint ← next true
    unless joint.isKeyword "AND" do throw (.expected joint "AND")
    let upper ← term scope
    if !right.isScalar then throw (.notScalar right.source)
    if !upper.isScalar then throw (.notScalar upper.source)
    return Node.bounds right upper
  else return right

/-- Reads operators and the terms on their right. -/
def operations (scope : Scope) : (bound : Nat) → Parser Precedence.Tail
  | 0 => return []
  | bound + 1 => do
    match ← operator? with
    | none => return []
    | some op =>
      let right ← rightTerm term op scope
      return (op, right) :: (← operations scope bound)

/-- Reads terms joined by operators. -/
def joined (scope : Scope) : Parser Node := do
  let first ← term scope
  let tail ← operations term scope (← remaining)
  match Precedence.reduce first tail with
  | .ok node => return node
  | .error error => throw error

/-! ## Numbers -/

/-- The node of an integer as it is written. -/
def intNode? (text : List Char) : Option Node :=
  match Number.readInt32? text with
  | some n => some (Node.int32 n)
  | none => (Number.readInt64? text).map Node.int64

/-- The node of a floating-point number as it is written. -/
def doubleNode? (text : List Char) : Option Node := do
  let x ← Double.read? text
  guard x.isFinite
  return Node.double x

/-- The node of the number that a token is, perhaps with a minus sign in front. -/
def number (token : Token) (negative : Bool) : Parser Node :=
  let signed (text : String) := if negative then '-' :: text.toList else text.toList
  let node? := match token.kind with
    | .int text => intNode? (signed text)
    | .double text => doubleNode? (signed text)
    | _ => none
  match node? with
  | some node => return node
  | none => throw (.invalidNumber token)

/-! ## Documents, arrays and arguments -/

/-- The names that do not agree with this one. -/
def without (others : List String) (name : String) : List String :=
  others.filter fun other => !Text.sameName other name

/-- The first of the names `name`, `key1`, `key2`, … from `counter` on that none of
the others agrees with, and the counter behind it. A name that has been tried is no
longer looked at, so the others grow fewer. -/
def freshName (key : String) (others : List String) (name : String) (counter : Nat) :
    String × Nat :=
  if others.any (Text.sameName · name) then
    freshName key (without others name) (key ++ Number.intText counter) (counter + 1)
  else (name, counter)
termination_by others.length
decreasing_by
  rename_i h
  obtain ⟨other, mem, same⟩ := List.any_eq_true.mp h
  refine List.length_filter_lt_length_iff_exists.mpr ⟨other, mem, ?_⟩
  rw [same]
  decide

/-- Reads the name of an entry. -/
def key : Parser String := do
  let token ← next true
  match token.kind with
  | .string text | .word text | .int text => return text
  | _ => throw (.expected token "key")

/-- Reads the value of an entry and the token behind it. Without a colon the entry
stands for the field of its name. -/
def entryValue (name : String) (scope : Scope) : Parser (Node × Token) := do
  let separator ← next true
  if separator.isSymbol .colon then
    let value ← joined term scope
    return (value, ← next true)
  else return (Node.shorthand name, separator)

/-- Reads the entries of a document up to its end. An entry whose name is taken is
given a fresh one. -/
def entries (scope : Scope) :
    (bound : Nat) → (others : List String) → (counter : Nat) → Parser (List (String × Node))
  | 0, _, _ => do throw (.expected (← next true) "key")
  | bound + 1, others, counter => do
    let written ← key
    let (value, terminator) ← entryValue term written scope
    let (name, counter) := freshName written others written counter
    if terminator.isSymbol .comma then
      return (name, value.asScalar) :: (← entries scope bound (others ++ [name]) counter)
    else if terminator.isSymbol .rightBrace then return [(name, value.asScalar)]
    else throw (.expected terminator "`,` or `\x7d`")

/-- Reads a document behind its opening brace. -/
def document (scope : Scope) : Parser Node := do
  if (← peek true).isSymbol .rightBrace then
    pass true
    return Node.document []
  else return Node.document (← entries term scope (← remaining) [] 1)

/-- Reads expressions separated by commas up to a closing symbol. -/
def listed (scope : Scope) (close : Symbol) : (bound : Nat) → Parser (List Node)
  | 0 => failAtNext
  | bound + 1 => do
    let item ← joined term scope
    let terminator ← next true
    if terminator.isSymbol .comma then return item :: (← listed scope close bound)
    else if terminator.isSymbol close then return [item]
    else throw (.expected terminator ("`,` or " ++ (TokenKind.symbol close).name))

/-- Reads any number of expressions separated by commas up to a closing symbol. -/
def list (scope : Scope) (close : Symbol) : Parser (List Node) := do
  if (← peek true).isSymbol close then
    pass true
    return []
  else listed term scope close (← remaining)

/-- Reads an array behind its opening bracket. -/
def array (scope : Scope) : Parser Node := do
  return Node.array ((← list term scope .rightBracket).map Node.asScalar)

/-! ## Paths -/

/-- Reads the name of a field that begins with this token: a word, or a string in
brackets. -/
def fieldName (token : Token) : Parser String := do
  match token.kind with
  | .word name => return name
  | .symbol .leftBracket =>
    let inner ← next true
    match inner.kind with
    | .string name =>
      expect .rightBracket
      return name
    | _ => throw (.expected inner "string")
  | _ => throw (.expected token "field name")

/-- The step to a place that is written out. -/
def placeStep (token : Token) (text : List Char) : Parser (PathStep Node) :=
  match Number.readInt32? text with
  | some n => return .index n.toInt
  | none => throw (.invalidNumber token)

/-- Reads what stands between brackets behind a path. -/
def bracketed : Parser (PathStep Node) := do
  let ahead ← peek true
  match ahead.kind with
  | .int text =>
    pass true
    placeStep ahead text.toList
  | .symbol .minus =>
    pass true
    let token ← next true
    match token.kind with
    | .int text => placeStep token ('-' :: text.toList)
    | _ => throw (.expected token "int")
  | .symbol .asterisk =>
    pass true
    return .all
  | _ =>
    let part ← joined term .current
    return if part.info.type = .parameter then .indexOf part else .filter part

/-- Reads what stands between brackets behind a path, and the closing bracket. -/
def bracketStep : Parser (PathStep Node) := do
  let step ← bracketed term
  expect .rightBracket
  return step

/-- Reads the steps of a path. A step that yields any number of values is the last. -/
def steps : (bound : Nat) → Parser (List (PathStep Node))
  | 0 => return []
  | bound + 1 => do
    match (← peek false).kind with
    | .symbol .period =>
      pass false
      let name ← fieldName (← next false)
      return .member name :: (← steps bound)
    | .symbol .leftBracket =>
      pass false
      let step ← bracketStep term
      if step.isEnumerable then return [step]
      else return step :: (← steps bound)
    | _ => return []

/-- Reads the rest of a path behind its root and its first field. Behind a path that
yields any number of values, a period leads to what is taken from each of them. -/
def pathBehind (root : PathRoot) (field : String) (scope : Scope) : Parser Node := do
  let more ← steps term (← remaining)
  let named := !field.isEmpty
  let fields :=
    if named && (root = .document || scope = .source) then Fields.single field else Fields.empty
  let path := Node.path fields root (if named then .member field :: more else more)
  if !path.isScalar && (← peek false).isSymbol .period then
    pass false
    return Node.map path (← term .current)
  else return path

/-- Reads a path behind its sigil. -/
def sigilPath (root : PathRoot) (scope : Scope) : Parser Node := do
  if (← peek false).isSymbol .period then
    pass false
    let field ← fieldName (← next true)
    pathBehind term root field scope
  else pathBehind term root "" scope

/-- The root of a path that begins with a field name. -/
def bareRoot : Scope → PathRoot
  | .root => .document
  | .current | .source => .current

/-! ## Calls -/

/-- Reads the sequence, the arrow and the expression of a function on sequences. -/
def sequenceArgs (scope : Scope) : Parser (Node × Node) := do
  expect .leftParen
  let sequence := (← term scope).asSequence
  expect .arrow
  let inner := if sequence.info.type = .source then Scope.source else Scope.current
  return (sequence, ← joined term inner)

/-- Reads the order of a sort, if one is given. -/
def sortOrder? (scope : Scope) : Parser (Option Node) := do
  if (← peek true).isSymbol .comma then
    pass true
    let order ← joined term scope
    if !order.isScalar then throw (.notScalar order.source)
    return some order
  else return none

/-- Reads the arguments of `MAP` behind the name. -/
def mapCall (scope : Scope) : Parser Node := do
  let (sequence, selector) ← sequenceArgs term scope
  expect .rightParen
  return Node.map sequence selector

/-- Reads the arguments of `FILTER` behind the name. -/
def filterCall (scope : Scope) : Parser Node := do
  let (sequence, predicate) ← sequenceArgs term scope
  expect .rightParen
  return Node.filter sequence predicate

/-- Reads the arguments of `SORT` behind the name. -/
def sortCall (scope : Scope) : Parser Node := do
  let (sequence, key) ← sequenceArgs term scope
  let order ← sortOrder? term scope
  expect .rightParen
  return Node.sort sequence key order

/-- The call of what the token names. -/
def callOf (token : Token) (name : String) (args : List Node) : Parser Node :=
  match Callable.find? name args.length with
  | some (.builtin function) => return Node.call function args
  | some (.generator generator) => return Node.generate generator token.range.start.offset
  | none => throw (.unknownFunction token (Text.upperName name) args.length)

/-- Reads the arguments of a call behind the name. -/
def call (token : Token) (name : String) (scope : Scope) : Parser Node := do
  expect .leftParen
  let args ← list term scope .rightParen
  match args with
  | [test, ifTrue, ifFalse] =>
    if Text.sameName name "IIF" then
      if !test.isScalar then throw (.notScalar test.source)
      return Node.conditional test ifTrue ifFalse
    else callOf token name args
  | _ => callOf token name args

/-- Reads what a word begins. -/
def wordTerm (token : Token) (word : String) (scope : Scope) : Parser Node := do
  if Text.sameName word "true" then return Node.boolean true
  else if Text.sameName word "false" then return Node.boolean false
  else if Text.sameName word "null" then return Node.null
  else if (← peek true).isSymbol .leftParen then
    if Text.sameName word "MAP" then mapCall term scope
    else if Text.sameName word "FILTER" then filterCall term scope
    else if Text.sameName word "SORT" then sortCall term scope
    else call term token word scope
  else pathBehind term (bareRoot scope) word scope

/-! ## Terms -/

/-- Reads what an asterisk begins: the documents, or what is taken from each. -/
def documentsTerm : Parser Node := do
  if (← peek false).isSymbol .period then
    pass false
    return Node.map Node.documents (← term .source)
  else return Node.documents

/-- Reads what an at sign begins: a parameter, or a path from the element at hand. -/
def atTerm (scope : Scope) : Parser Node := do
  match (← peek false).kind with
  | .word name | .int name =>
    pass false
    return Node.parameter name
  | _ => sigilPath term .current scope

/-- Reads what a minus sign begins: a number that follows at once. -/
def minusTerm (token : Token) : Parser Node := do
  let ahead ← peek false
  match ahead.kind with
  | .int _ | .double _ =>
    pass false
    number ahead true
  | _ => throw (.unexpected token)

/-- Reads one term, with this reader for the terms inside. -/
def termWith (scope : Scope) : Parser Node := do
  let token ← next true
  match token.kind with
  | .symbol .minus => minusTerm token
  | .int _ | .double _ => number token false
  | .word word => wordTerm term token word scope
  | .string text => return Node.string text
  | .symbol .asterisk => documentsTerm term
  | .symbol .leftBrace => document term scope
  | .symbol .leftBracket => array term scope
  | .symbol .atSign => atTerm term scope
  | .symbol .dollar => sigilPath term .document scope
  | .symbol .leftParen => do
    let inner ← joined term scope
    expect .rightParen
    return inner.parenthesized
  | _ => throw (.unexpected token)

end

end Parser

end DocQuery
