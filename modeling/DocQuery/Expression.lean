import DocQuery.Error
import DocQuery.Plan
import DocQuery.Pool.Eval
import DocQuery.Pool.Flatten
/-!
# DocQuery.Expression

Expressions that are ready to be evaluated. A backend decides into what an
expression is made: a list of instructions, or a function of the context.
-/

namespace DocQuery

/-- What expressions are made into. -/
inductive Backend where
  | instructions
  | functions
deriving DecidableEq, Repr, Inhabited

namespace Backend

/-- The backend that is used where none is named. -/
def standard : Backend := .instructions

/-- The name of the backend. -/
def name : Backend → String
  | .instructions => "optree"
  | .functions => "closure"

/-- The backend with this name. -/
def ofName? (text : String) : Option Backend :=
  match Text.lowerName text with
  | "optree" | "op-tree" => some .instructions
  | "closure" => some .functions
  | _ => none

/-- What is said about a name that is no backend's. -/
def unknownMessage (text : String) : String :=
  "Unknown backend `" ++ text ++ "`, expected `optree` or `closure`"

end Backend

/-- What an expression has been made into. -/
inductive Program where
  | pool (pool : Pool)
  | plan (plan : Plan)

/-- What the node of an expression is made into. -/
def Backend.build (backend : Backend) (node : Node) : Except EvalError Program :=
  match backend with
  | .instructions => .ok (.pool node.flatten)
  | .functions => node.plan.map .plan

/-- How a text is compiled. -/
structure CompileOptions where
  scope : Scope := .root
  mode : ParseMode := .full
  /-- The parameters where an evaluation names none. -/
  parameters : Document := []

/-- An expression that is ready to be evaluated. -/
structure Expression where
  node : Node
  backend : Backend
  program : Program
  parameters : Document

namespace Expression

/-- Compiles a text. -/
def build (backend : Backend) (code : String) (options : CompileOptions) :
    Except Error Expression := do
  let node ← match parse code options.scope options.mode with
    | .ok node => .ok node
    | .error error => .error (Error.ofSyntax code error)
  match backend.build node with
  | .ok program => return { node, backend, program, parameters := options.parameters }
  | .error error => throw ⟨.eval error, node.source⟩

/-- The expression yields one value. -/
def isScalar (e : Expression) : Bool := e.node.isScalar

/-- An error in the evaluation of the expression. -/
def error (e : Expression) (error : EvalError) : Error := ⟨.eval error, e.node.source⟩

/-- The values of the expression. An expression that yields one value has a sequence
of it. -/
def execute (e : Expression) (ctx : Context) : Results :=
  match e.program with
  | .pool pool => if e.isScalar then Results.ofOne (pool.evalScalar ctx) else pool.evalValues ctx
  | .plan plan => plan.values ctx

/-- The one value of the expression. -/
def executeScalar (e : Expression) (ctx : Context) : Except Error Value :=
  let result :=
    if e.isScalar then
      match e.program with
      | .pool pool => pool.evalScalar ctx
      | .plan plan => plan.value e.node.source ctx
    else .error (.notScalar e.node.source)
  result.mapError e.error

/-- The values of the expression, unless there is an error among them. -/
def collect (e : Expression) (ctx : Context) : Except Error (List Value) :=
  (e.execute ctx).collect.mapError e.error

/-- The values of the expression for one document. -/
def executeDocument (e : Expression) (document : Value) (collation : Collation)
    (ambient : Ambient) : Except Error (List Value) :=
  e.collect (Context.ofDocument document e.parameters collation ambient)

/-- The values of the expression for all documents together. -/
def executeDocuments (e : Expression) (documents : List Value) (collation : Collation)
    (ambient : Ambient) : Except Error (List Value) :=
  e.collect (Context.ofDocuments documents e.parameters collation ambient)

end Expression

end DocQuery
