import DocQuery.Expression
/-!
# DocQuery.CommandLine.Arguments

The arguments of the command line. An option takes a value, which stands in the next
argument or is attached to the option; a switch takes none. Switches of one letter may
be written together, the last of them perhaps an option with its value. The first
other argument is the expression, the following ones are files, and behind `--`
everything is one of these.

The value of an option is read when something else follows, so an error that comes
with what follows may be found before one in the value.
-/

namespace DocQuery

/-- Why the arguments cannot be used, or what they ask for in place of a run. -/
inductive UsageError where
  | unknownArgument
  /-- A value is missing, or is empty where it must not be. -/
  | invalidValue
  | valueValidation
  /-- A switch is given a value. -/
  | tooManyValues
  /-- An option or a switch is given twice. -/
  | argumentConflict
  | missingRequiredArgument
  | displayHelp
  | displayVersion
deriving DecidableEq, Repr, Inhabited

namespace UsageError

/-- The name of the error. -/
def name : UsageError → String
  | .unknownArgument => "UnknownArgument"
  | .invalidValue => "InvalidValue"
  | .valueValidation => "ValueValidation"
  | .tooManyValues => "TooManyValues"
  | .argumentConflict => "ArgumentConflict"
  | .missingRequiredArgument => "MissingRequiredArgument"
  | .displayHelp => "DisplayHelp"
  | .displayVersion => "DisplayVersion"

end UsageError

namespace CommandLine

/-- An option that takes a value. -/
inductive ValueOption where
  | backend | collation | param
deriving DecidableEq, Repr

/-- A switch. -/
inductive Switch where
  | aggregate | explain | compact | verbose | help | version
deriving DecidableEq, Repr

/-- An option or a switch. -/
inductive Flag where
  | option (option : ValueOption)
  | switch (switch : Switch)
deriving DecidableEq, Repr

/-- The option or switch with this name. -/
def Flag.ofName? : String → Option Flag
  | "backend" => some (.option .backend)
  | "collation" => some (.option .collation)
  | "param" => some (.option .param)
  | "aggregate" => some (.switch .aggregate)
  | "explain" => some (.switch .explain)
  | "compact" => some (.switch .compact)
  | "verbose" => some (.switch .verbose)
  | "help" => some (.switch .help)
  | "version" => some (.switch .version)
  | _ => none

/-- The option or switch with this letter. -/
def Flag.ofLetter? : Char → Option Flag
  | 'b' => some (.option .backend)
  | 'c' => some (.option .collation)
  | 'p' => some (.option .param)
  | 'A' => some (.switch .aggregate)
  | 'v' => some (.switch .verbose)
  | 'h' => some (.switch .help)
  | 'V' => some (.switch .version)
  | _ => none

/-- What the arguments ask for. -/
structure Arguments where
  backend : Option Backend := none
  collation : Option Collation := none
  params : List String := []
  aggregate : Bool := false
  explain : Bool := false
  compact : Bool := false
  verbosity : Nat := 0
  expression : Option String := none
  files : List String := []
deriving DecidableEq, Repr

/-- What has been begun with and is not yet read. -/
inductive Pending where
  /-- An option with its value, if that has come. -/
  | option (option : ValueOption) (value : Option String)
  | expression (text : String)
  | files (names : List String)
deriving DecidableEq, Repr

/-- How far the arguments have been read. -/
structure Progress where
  given : Arguments := {}
  pending : Option Pending := none
  /-- The expression has come. -/
  hasExpression : Bool := false
  /-- Everything from here on is an expression or a file. -/
  isTrailing : Bool := false
deriving DecidableEq, Repr

/-- Reads the value of an option. Only parameters may be given more than once. -/
def setOption (given : Arguments) : ValueOption → String → Except UsageError Arguments
  | .param, text => .ok { given with params := given.params ++ [text] }
  | .backend, text =>
    if given.backend.isSome then .error .argumentConflict
    else
      match Backend.ofName? text with
      | some backend => .ok { given with backend := some backend }
      | none => .error .valueValidation
  | .collation, text =>
    if given.collation.isSome then .error .argumentConflict
    else
      match Collation.ofName? text with
      | some collation => .ok { given with collation := some collation }
      | none => .error .valueValidation

/-- Reads what is pending. -/
def settle (progress : Progress) : Except UsageError Progress :=
  match progress.pending with
  | none => .ok progress
  | some (.option _ none) => .error .invalidValue
  | some (.option option (some value)) =>
    (setOption progress.given option value).map fun given =>
      { progress with given, pending := none }
  | some (.expression text) =>
    .ok { progress with given := { progress.given with expression := some text }, pending := none }
  | some (.files names) =>
    if names.any String.isEmpty then .error .invalidValue
    else
      let files := progress.given.files ++ names
      .ok { progress with given := { progress.given with files }, pending := none }

/-- Turns on a switch that may be given once. -/
def turnOn (isOn : Bool) (given : Arguments) : Except UsageError Arguments :=
  if isOn then .error .argumentConflict else .ok given

/-- Turns on a switch. -/
def setSwitch (given : Arguments) : Switch → Except UsageError Arguments
  | .aggregate => turnOn given.aggregate { given with aggregate := true }
  | .explain => turnOn given.explain { given with explain := true }
  | .compact => turnOn given.compact { given with compact := true }
  | .verbose => .ok { given with verbosity := given.verbosity + 1 }
  | .help => .error .displayHelp
  | .version => .error .displayVersion

/-- Reads a switch. -/
def readSwitch (progress : Progress) (switch : Switch) : Except UsageError Progress := do
  let progress ← settle progress
  return { progress with given := ← setSwitch progress.given switch }

/-- Reads an option with the value attached to it. Without one the value is to come. -/
def readOption (progress : Progress) (option : ValueOption) (attached : Option String) :
    Except UsageError Progress := do
  let progress ← settle progress
  match attached with
  | some value => return { progress with given := ← setOption progress.given option value }
  | none => return { progress with pending := some (.option option none) }

/-- Reads an option or a switch by its name. -/
def readLong (progress : Progress) (text : List Char) : Except UsageError Progress :=
  let name := String.ofList (text.takeWhile (· != '='))
  let attached := match text.dropWhile (· != '=') with
    | _ :: value => some (String.ofList value)
    | [] => none
  match Flag.ofName? name with
  | some (.option option) => readOption progress option attached
  | some (.switch switch) =>
    if attached.isSome then .error .tooManyValues else readSwitch progress switch
  | none => .error .unknownArgument

/-- The value attached to the letter of an option; an equals sign in front of it does
not belong to it. -/
def attachedValue : List Char → Option String
  | [] => none
  | '=' :: rest => some (String.ofList rest)
  | rest => some (String.ofList rest)

/-- Reads options and switches by their letters. -/
def readShort (progress : Progress) : List Char → Except UsageError Progress
  | [] => .ok progress
  | letter :: rest =>
    match Flag.ofLetter? letter with
    | some (.switch switch) => do readShort (← readSwitch progress switch) rest
    | some (.option option) => readOption progress option (attachedValue rest)
    | none => .error .unknownArgument

/-- Reads an expression or a file. -/
def readPlain (progress : Progress) (text : String) : Except UsageError Progress :=
  if progress.hasExpression then
    match progress.pending with
    | some (.files names) => .ok { progress with pending := some (.files (names ++ [text])) }
    | _ => (settle progress).map fun progress => { progress with pending := some (.files [text]) }
  else
    (settle progress).map fun progress =>
      { progress with pending := some (.expression text), hasExpression := true }

/-- Reads an argument that is neither an option nor a switch: the value that an option
waits for, an expression or a file. -/
def readValue (progress : Progress) (text : String) : Except UsageError Progress :=
  match progress.pending with
  | some (.option option none) => .ok { progress with pending := some (.option option (some text)) }
  | _ => readPlain progress text

/-- Reads one argument. -/
def readArgument (progress : Progress) (text : String) : Except UsageError Progress :=
  if progress.isTrailing then readPlain progress text
  else
    match text.toList with
    | ['-', '-'] => .ok { progress with isTrailing := true }
    | '-' :: '-' :: rest => readLong progress rest
    | '-' :: letter :: rest => readShort progress (letter :: rest)
    | _ => readValue progress text

/-- Reads all arguments. There has to be an expression. -/
def readArguments (texts : List String) : Except UsageError Arguments := do
  let progress ← settle (← texts.foldlM readArgument {})
  if progress.given.expression.isSome then return progress.given
  else throw .missingRequiredArgument

end CommandLine

end DocQuery
