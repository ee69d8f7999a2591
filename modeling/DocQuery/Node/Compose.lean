import DocQuery.Node
import DocQuery.Number.Integer
import DocQuery.Number.Layout
import DocQuery.Text.Quoted
/-!
# DocQuery.Node.Compose

Nodes put together from their parts. A composed node takes over what is known of
its parts: it is immutable if all of them are, reads the documents if one of them
does, and reads the fields that they read. Its text is put together from theirs.

Where one value is asked for and a sequence is given, or the other way round, the
node is coerced: `gather` makes one array of a sequence, and `spread` a sequence
of the elements of one value.
-/

namespace DocQuery

/-- A field name behind a path: bare if it is a word, else quoted in brackets. -/
def memberText (name : String) : String :=
  if Text.isWord name then "." ++ name else ".[" ++ Text.quote name ++ "]"

/-- The name of an entry: bare if it is a word, else quoted. -/
def keyText (name : String) : String :=
  if Text.isWord name then name else Text.quote name

namespace PathStep

/-- The step as it is written behind a path. -/
def text : PathStep Node → String
  | .member name => memberText name
  | .index place => "[" ++ Number.intText place ++ "]"
  | .indexOf part | .filter part => "[" ++ part.source ++ "]"
  | .all | .items => "[*]"

end PathStep

namespace Node

/-- A node of this form that takes over what is known of its parts. -/
def compose (type : ExprType) (isScalar : Bool) (source : String) (form : Form Node) : Node :=
  let parts := form.children
  .mk { type, isScalar, source
        isImmutable := parts.all (·.info.isImmutable)
        usesSource := parts.any (·.info.usesSource)
        fields := parts.foldl (fun fields part => fields.union part.info.fields) Fields.empty } form

/-- The node with parentheses around its text. -/
def parenthesized : Node → Node
  | .mk info form => .mk { info with source := "(" ++ info.source ++ ")" } form

/-- The text stands in parentheses. -/
def isParenthesized (n : Node) : Bool := n.source.toList.head? == some '('

/-- A value that is written out. -/
def constant (type : ExprType) (value : Value) (source : String) : Node :=
  compose type true source (.constant value)

/-- A number of 32 bits. -/
def int32 (n : Int32) : Node := constant .int (.int32 n) (Number.intText n.toInt)

/-- A number of 64 bits. -/
def int64 (n : Int64) : Node := constant .int (.int64 n) (Number.intText n.toInt)

/-- A floating-point number. Its text keeps nine places at most. -/
def double (x : Double) : Node :=
  constant .double (.double x) (String.ofList (Number.writePlaces x))

/-- A truth value. -/
def boolean (b : Bool) : Node :=
  constant .boolean (.boolean b) (if b then "true" else "false")

/-- The null value. -/
def null : Node := constant .null .null "null"

/-- A string. -/
def string (s : String) : Node := constant .string (.string s) (Text.quote s)

/-- A node that is not immutable although it may have no parts that vary. -/
def varying : Node → Node
  | .mk info form => .mk { info with isImmutable := false } form

/-- A node that reads further fields, named in front of those of its parts. -/
def reading (fields : Fields) : Node → Node
  | .mk info form => .mk { info with fields := fields.union info.fields } form

/-- A parameter. -/
def parameter (name : String) : Node :=
  varying (compose .parameter true ("@" ++ name) (.parameter name))

/-- The sequence of all documents. -/
def documents : Node :=
  .mk { type := .source, isScalar := false, isImmutable := false, usesSource := true
        fields := Fields.empty, source := "*" } .documents

/-- A path. -/
def path (fields : Fields) (root : PathRoot) (steps : List (PathStep Node)) : Node :=
  let source := root.sigil ++ String.join (steps.map PathStep.text)
  reading fields
    (varying (compose .path (!steps.any PathStep.isEnumerable) source (.path root steps)))

/-- The field of the root document that an entry without a value stands for. -/
def shorthand (name : String) : Node :=
  path (Fields.single name) .document [.member name]

/-- The elements of an array or a binary, any other value by itself. A path keeps
its form and is written with a step more. -/
def spread : Node → Node
  | n@(.mk info form) =>
    let asCall := compose .call false ("ITEMS(" ++ info.source ++ ")") (.call .items [n])
    match form with
    | .path root steps =>
      if n.isParenthesized then asCall
      else
        .mk { info with isScalar := false, source := info.source ++ "[*]" }
          (.path root (steps ++ [.items]))
    | _ => asCall

/-- The elements of a sequence as one array. -/
def gather (n : Node) : Node :=
  compose .call true ("ARRAY(" ++ n.source ++ ")") (.call .array [n])

/-- The node as a sequence. -/
def asSequence (n : Node) : Node := if n.isScalar then n.spread else n

/-- The node as one value. -/
def asScalar (n : Node) : Node := if n.isScalar then n else n.gather

/-- A document with these entries. -/
def document (entries : List (String × Node)) : Node :=
  let texts := entries.map fun (name, part) => keyText name ++ ":" ++ part.source
  compose .document true ("\x7b" ++ ",".intercalate texts ++ "\x7d") (.document entries)

/-- An array of these items. -/
def array (items : List Node) : Node :=
  compose .array true ("[" ++ ",".intercalate (items.map source) ++ "]") (.array items)

/-- What a selector yields for each element of a sequence. -/
def map (sequence selector : Node) : Node :=
  compose .map false ("MAP(" ++ sequence.source ++ "=>" ++ selector.source ++ ")")
    (.map sequence selector)

/-- The elements of a sequence for which a predicate holds. -/
def filter (sequence predicate : Node) : Node :=
  compose .filter false ("FILTER(" ++ sequence.source ++ "=>" ++ predicate.source ++ ")")
    (.filter sequence predicate)

/-- The elements of a sequence in the order of their keys. -/
def sort (sequence key : Node) (order : Option Node) : Node :=
  let orderText := match order with
    | some order => "," ++ order.source
    | none => ""
  compose .sort false ("SORT(" ++ sequence.source ++ "=>" ++ key.source ++ orderText ++ ")")
    (.sort sequence key order)

/-- The part as a function wants it. -/
def coerce : Cardinality → Node → Node
  | .scalar, n => n.asScalar
  | .sequence, n => n.asSequence

/-- A call. The arguments are written as they were given and taken as the function
wants them. -/
def call (function : Builtin) (args : List Node) : Node :=
  let source := function.name ++ "(" ++ ",".intercalate (args.map source) ++ ")"
  compose .call function.isScalar source
    (.call function (List.zipWith coerce function.signature.params args))

/-- A call of a generator at this offset. -/
def generate (generator : Generator) (site : Nat) : Node :=
  varying (compose .call true (generator.name ++ "()") (.generate generator site))

/-- One of two nodes, as a test decides. If one is a sequence, both are taken as one. -/
def conditional (test ifTrue ifFalse : Node) : Node :=
  let source :=
    "IIF(" ++ test.source ++ "," ++ ifTrue.source ++ "," ++ ifFalse.source ++ ")"
  if ifTrue.isScalar && ifFalse.isScalar then
    compose .call true source (.conditional test ifTrue ifFalse)
  else compose .call false source (.conditional test ifTrue.asSequence ifFalse.asSequence)

/-- Two bounds joined by `AND`. -/
def bounds (lower upper : Node) : Node :=
  compose .array true (lower.source ++ " AND " ++ upper.source) (.array [lower, upper])

/-- Two terms joined by an operator. The terms are taken as they are. -/
def operation (op : Operator) (left right : Node) : Node :=
  let source := left.source ++ op.separator ++ right.source
  match op with
  | .binary op => compose (.binary op) true source (.binary op left right)
  | .quantified quantifier op =>
    compose (.binary (.comparison op)) true source (.quantified quantifier op left right)
  | .logic op => compose (.logic op) true source (.logic op left right)

end Node

end DocQuery
