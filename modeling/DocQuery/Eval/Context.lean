import DocQuery.Builtin
import DocQuery.Collation
import DocQuery.Eval.Error
/-!
# DocQuery.Eval.Context

What an expression is evaluated in: the documents, the document and the element
that paths start from, the parameters and the collation. What generators yield
is part of it too, so that evaluation is a function of its context.
-/

namespace DocQuery

/-- What generators draw on. -/
structure Ambient where
  /-- The time at which the evaluation takes place. -/
  now : DateTime
  /-- The number drawn by the call at this offset for this element. -/
  draw : (site : Nat) → (element : Option Value) → Nat

/-- What an expression is evaluated in. -/
structure Context where
  /-- The sequence of all documents. -/
  documents : List Value
  /-- The document that `$` stands for. -/
  root : Option Value
  /-- The element that `@` stands for. -/
  current : Option Value
  parameters : Document
  collation : Collation
  ambient : Ambient

namespace Context

/-- One document by itself, which is also the element at hand. -/
def ofDocument (document : Value) (parameters : Document) (collation : Collation)
    (ambient : Ambient) : Context :=
  { documents := [document], root := some document, current := some document
    parameters, collation, ambient }

/-- All documents together, with none of them at hand. -/
def ofDocuments (documents : List Value) (parameters : Document) (collation : Collation)
    (ambient : Ambient) : Context :=
  { documents, root := none, current := none, parameters, collation, ambient }

/-- The same with another element at hand. -/
def withCurrent (ctx : Context) (element : Value) : Context :=
  { ctx with current := some element }

/-- The value of a parameter; null if it is not bound. -/
def parameter (ctx : Context) (name : String) : Value :=
  (Entries.find? ctx.parameters name).getD .null

end Context

/-- What a generator yields for a call at this offset. -/
def Generator.value (generator : Generator) (site : Nat) (ctx : Context) : Value :=
  let ambient := ctx.ambient
  match generator with
  | .now | .nowUtc => .dateTime ambient.now
  | .today => .dateTime (DateTime.ofDate ambient.now.date)
  | .guid => .guid (Guid.generate (ambient.draw site ctx.current))
  | .objectId => .objectId (ObjectId.generate ambient.now (ambient.draw site ctx.current))

/-- The values of a sequence in order. An element that has no value is an error in
its place. -/
abbrev Results := List (Except EvalError Value)

namespace Results

/-- The values, unless one of them is an error: then the first such error. -/
def collect : Results → Except EvalError (List Value)
  | [] => .ok []
  | .error error :: _ => .error error
  | .ok value :: rest => (collect rest).map (value :: ·)

/-- These values. -/
def ofValues (values : List Value) : Results := values.map .ok

/-- No value but an error. -/
def failed (error : EvalError) : Results := [.error error]

end Results

end DocQuery
