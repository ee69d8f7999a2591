import DocQuery.CommandLine
import DocQuery.Engine
import DocQuery.Eval.Ambient
import Std.Time.DateTime.Timestamp
/-!
# DocQuery.Main

The program: it gathers what the command line may read, the time and a random
number, and writes what comes out of the run.
-/

namespace DocQuery.CommandLine

/-- What the program says about its arguments. -/
def usage : String :=
  "docexpr evaluates document expressions against JSON documents.

Usage: docexpr [OPTIONS] <EXPRESSION> [FILES]...

Arguments:
  <EXPRESSION>
  [FILES]...

Options:
  -b, --backend <BACKEND>      Backend used to compile the expression
  -c, --collation <COLLATION>  String comparison rules: `binary` or `ignorecase`
                               [default: ignorecase]
  -p, --param <NAME=JSON>      Bind a parameter as NAME=JSON (repeatable)
  -A, --aggregate              Evaluate once over all documents instead of once per
                               document
      --explain                Print the parsed expression instead of evaluating it
      --compact                Print each result on a single line
  -v, --verbose...             Increase log verbosity (-v debug, -vv trace)
  -h, --help                   Print help
  -V, --version                Print version
"

/-- The text that was read, or what is said about why it was not. -/
def textOf (result : Except IO.Error String) : Except String String :=
  result.mapError toString

/-- The contents of a file, if it is there. -/
def readFile? (name : String) : IO (Option (Except String String)) := do
  match ← (IO.FS.readFile name).toBaseIO with
  | .error (.noFileOrDirectory _ _ _) => return none
  | result => return some (textOf result)

/-- What the run of these arguments may read. Standard input is read only where no
files are given and the input does not come from a terminal. -/
def gather (arguments : Arguments) : IO Inputs := do
  let stdin ← IO.getStdin
  let waits := arguments.explain || !arguments.files.isEmpty
  let incoming ←
    if waits then pure (some (.ok ""))
    else if ← stdin.isTty then pure none
    else (some ∘ textOf) <$> stdin.readToEnd.toBaseIO
  let files ←
    if arguments.explain then pure []
    else arguments.files.mapM fun name => return (name, ← readFile? name)
  return { incoming, file? := fun name => (files.lookup name).join }

/-- The time at which the program runs and a random number. -/
def gatherAmbient : IO Ambient := do
  let now ← Std.Time.Timestamp.now
  let millis := now.toMillisecondsSinceUnixEpoch.val
  let seed ← IO.getRandomBytes 16
  let number := seed.toList.foldl (fun n byte => n * 256 + byte.toNat) 0
  let date := (DateTime.ofUnixMillis? millis).getD (DateTime.ofDate Date.epoch)
  return Ambient.ofSeed date number

/-- Says why a run has no output. -/
def report : RunError → IO UInt32
  | .usage .displayHelp => do
    IO.print usage
    return 0
  | .usage .displayVersion => do
    IO.println ("docexpr " ++ Engine.version)
    return 0
  | .usage error => do
    IO.eprintln ("error: " ++ error.name)
    IO.eprint usage
    return 2
  | .library error => do
    IO.eprintln ("Error: " ++ error.cause.name ++ "\n\n  " ++ error.cause.message)
    return 1
  | .refused message => do
    IO.eprintln ("Error: " ++ message)
    return 1
  | .invalidJson => do
    IO.eprintln "Error: Invalid JSON"
    return 1

end DocQuery.CommandLine

open DocQuery.CommandLine in
/-- Runs the command line. -/
def main (texts : List String) : IO UInt32 := do
  match readArguments texts with
  | .error error => report (.usage error)
  | .ok arguments =>
    match run arguments (← gather arguments) (← gatherAmbient) with
    | .ok output =>
      IO.print output
      return 0
    | .error error => report error
