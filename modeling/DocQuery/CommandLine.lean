import DocQuery.CommandLine.Arguments
import DocQuery.Json.Reader
import DocQuery.Json.Writer
import DocQuery.Value.Json
/-!
# DocQuery.CommandLine

What the command line does: it reads the parameters, compiles the expression, reads
the documents and evaluates the expression for each of them, or once for all. The
output is written only if all of this succeeds; the first error is the result
otherwise.
-/

namespace DocQuery

namespace CommandLine

/-- Why a run has no output. -/
inductive RunError where
  | usage (error : UsageError)
  | library (error : Error)
  /-- A parameter without a name, or a text that is not there or cannot be read. -/
  | refused (message : String)
  /-- A document that is no JSON. What its reader says about the place is left out. -/
  | invalidJson
deriving DecidableEq, Repr

/-- What a run may read. -/
structure Inputs where
  /-- What comes in by itself, if anything does: a text, or why it cannot be read. -/
  incoming : Option (Except String String)
  /-- The contents of a file, if it is there: a text, or why it cannot be read. -/
  file? : String → Option (Except String String)

/-- The value of a parameter: what its text stands for as JSON, else the text. -/
def paramValue (text : String) : Value :=
  match Json.read? text with
  | some json => Value.ofJson json
  | none => .string text

/-- The name and the value of a parameter. -/
def param (text : String) : Except RunError (String × Value) :=
  match text.toList.dropWhile (· != '=') with
  | _ :: value =>
    let name := Text.trim (text.toList.takeWhile (· != '='))
    .ok (String.ofList name, paramValue (String.ofList value))
  | [] => .error (.refused ("Invalid parameter `" ++ text ++ "`, expected NAME=JSON"))

/-- The parameters by name. -/
def params (texts : List String) : Except RunError Document :=
  (texts.mapM param).map Entries.ofList

/-- The texts that hold the documents. -/
def contents (inputs : Inputs) (files : List String) : Except RunError (List String) :=
  if files.isEmpty then inputs.incoming.toList.mapM (Except.mapError .refused)
  else
    files.mapM fun name =>
      match inputs.file? name with
      | some text => text.mapError .refused
      | none => .error (.refused ("File not found: " ++ name))

/-- The documents of a text. -/
def documentsOf (text : String) : Except RunError (List Value) :=
  match Json.readAll? text with
  | some values => .ok (values.map Value.ofJson)
  | none => .error .invalidJson

/-- The documents to be evaluated. Where nothing comes in, there is one, which is null. -/
def documents (inputs : Inputs) (files : List String) : Except RunError (List Value) :=
  if files.isEmpty && inputs.incoming.isNone then .ok [.null]
  else do
    let texts ← contents inputs files
    return (← texts.mapM documentsOf).flatten

/-- One value as it is written. -/
def writeValue (compact : Bool) (value : Value) : String :=
  (if compact then value.toJson.toText else value.toJson.toLines) ++ "\n"

/-- The values as they are written, one after the other. -/
def writeValues (compact : Bool) (values : List Value) : String :=
  String.join (values.map (writeValue compact))

/-- A truth value as it is written. -/
def boolText (b : Bool) : String := if b then "true" else "false"

/-- What is known about an expression. -/
def explain (e : Expression) : String :=
  let info := e.node.info
  String.join
    (["type: " ++ info.type.name,
      "scalar: " ++ boolText info.isScalar,
      "immutable: " ++ boolText info.isImmutable,
      "use_source: " ++ boolText info.usesSource,
      "fields: " ++ info.fields.text,
      "backend: " ++ e.backend.name,
      "source: " ++ info.source].map (· ++ "\n"))

/-- The values of an expression for each of the documents, one after the other. -/
def evaluateEach (e : Expression) (collation : Collation) (ambient : Ambient)
    (documents : List Value) : Except Error (List Value) :=
  (documents.mapM fun document => e.executeDocument document collation ambient).map List.flatten

/-- The values of an expression. -/
def evaluate (e : Expression) (arguments : Arguments) (ambient : Ambient)
    (documents : List Value) : Except Error (List Value) :=
  let collation := arguments.collation.getD Collation.standard
  if arguments.aggregate then e.executeDocuments documents collation ambient
  else evaluateEach e collation ambient documents

/-- The expression that the arguments give. -/
def compile (arguments : Arguments) : Except RunError Expression := do
  let parameters ← params arguments.params
  let backend := arguments.backend.getD Backend.standard
  (Expression.build backend (arguments.expression.getD "") { parameters }).mapError .library

/-- The output of a run with these arguments. -/
def run (arguments : Arguments) (inputs : Inputs) (ambient : Ambient) :
    Except RunError String := do
  let expression ← compile arguments
  if arguments.explain then return explain expression
  else
    let documents ← documents inputs arguments.files
    let values ← (evaluate expression arguments ambient documents).mapError .library
    return writeValues arguments.compact values

/-- The output of a run with these texts as arguments. -/
def runWith (texts : List String) (inputs : Inputs) (ambient : Ambient) :
    Except RunError String :=
  match readArguments texts with
  | .ok arguments => run arguments inputs ambient
  | .error error => .error (.usage error)

end CommandLine

end DocQuery
