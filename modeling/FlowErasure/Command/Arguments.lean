/-!
# Arguments

A command line has at most one file to read and options with a value each. A value stands after an
equals sign or is the next argument. A value that starts with a dash has to stand after an equals
sign, and after `--` nothing is an option.

An argument is settled when the next one starts, so that of two faults the one found first wins; an
argument that is not known wins over an option before it that is not settled yet.
-/

namespace FlowErasure.Command

inductive ArgumentError where
  | unknownArgument
  /-- A value is missing, or empty where a path is wanted. -/
  | invalidValue
  /-- An option is given twice. -/
  | argumentConflict
  /-- A value for an option that takes none. -/
  | tooManyValues
  | displayHelp
  | displayVersion
  deriving DecidableEq, Repr, Inhabited

def ArgumentError.label : ArgumentError → String
  | .unknownArgument => "UnknownArgument"
  | .invalidValue => "InvalidValue"
  | .argumentConflict => "ArgumentConflict"
  | .tooManyValues => "TooManyValues"
  | .displayHelp => "DisplayHelp"
  | .displayVersion => "DisplayVersion"

structure Arguments where
  /-- The file to read; without it standard input is read. -/
  input : Option String := none
  sourceFileName : Option String := none
  sourceMapName : Option String := none
  /-- The file that the map is written to. -/
  mapFile : Option String := none
  /-- A file with compile options. -/
  config : Option String := none
  deriving DecidableEq, Repr, Inhabited

inductive Parameter where
  | input
  | sourceFileName
  | sourceMapName
  | mapFile
  | config
  deriving DecidableEq, Repr, Inhabited

/-- A path must not be empty; a name may. -/
def Parameter.isPath : Parameter → Bool
  | .input | .mapFile | .config => true
  | .sourceFileName | .sourceMapName => false

namespace Arguments

def get? (arguments : Arguments) : Parameter → Option String
  | .input => arguments.input
  | .sourceFileName => arguments.sourceFileName
  | .sourceMapName => arguments.sourceMapName
  | .mapFile => arguments.mapFile
  | .config => arguments.config

def set (arguments : Arguments) (value : String) : Parameter → Arguments
  | .input => { arguments with input := some value }
  | .sourceFileName => { arguments with sourceFileName := some value }
  | .sourceMapName => { arguments with sourceMapName := some value }
  | .mapFile => { arguments with mapFile := some value }
  | .config => { arguments with config := some value }

end Arguments

/-- What a word after two dashes means. -/
inductive LongOption where
  | parameter (p : Parameter)
  | help
  | version
  deriving DecidableEq, Repr, Inhabited

def LongOption.ofName? : String → Option LongOption
  | "source-file-name" => some (.parameter .sourceFileName)
  | "source-map-name" => some (.parameter .sourceMapName)
  | "map-file" => some (.parameter .mapFile)
  | "config" => some (.parameter .config)
  | "help" => some .help
  | "version" => some .version
  | _ => none

namespace Arguments

/-- Arguments in the middle of reading. -/
structure Reading where
  settled : Arguments := {}
  /-- The last argument, with its value once there is one. -/
  pending : Option (Parameter × Option String) := none
  /-- The file to read has been given. -/
  inputGiven : Bool := false
  deriving DecidableEq, Repr, Inhabited

namespace Reading

/-- Settles the last argument. -/
def settle (r : Reading) : Except ArgumentError Reading :=
  match r.pending with
  | none => .ok r
  | some (_, none) => .error .invalidValue
  | some (parameter, some value) =>
    if (r.settled.get? parameter).isSome then .error .argumentConflict
    else if parameter.isPath && value.isEmpty then .error .invalidValue
    else .ok { r with settled := r.settled.set value parameter, pending := none }

/-- An option with a value after an equals sign, or with a value to come. -/
def option (r : Reading) (parameter : Parameter) (value : Option String) :
    Except ArgumentError Reading := do
  let r ← r.settle
  let r := { r with pending := some (parameter, value) }
  if value.isSome then r.settle else return r

/-- An option without a value. -/
def flag (r : Reading) (answer : ArgumentError) : Except ArgumentError Reading := do
  let _ ← r.settle
  throw answer

/-- An argument that starts with two dashes, without them. -/
def long (r : Reading) (word : List Char) : Except ArgumentError Reading :=
  let name := String.ofList (word.takeWhile (· != '='))
  let value :=
    match word.dropWhile (· != '=') with
    | [] => none
    | _ :: value => some (String.ofList value)
  match LongOption.ofName? name with
  | none => .error .unknownArgument
  | some (.parameter parameter) => r.option parameter value
  | some .help => if value.isSome then .error .tooManyValues else r.flag .displayHelp
  | some .version => if value.isSome then .error .tooManyValues else r.flag .displayVersion

/-- An argument that starts with one dash, from the letter after it. -/
def short (r : Reading) (letter : Char) : Except ArgumentError Reading :=
  match letter with
  | 'h' => r.flag .displayHelp
  | 'V' => r.flag .displayVersion
  | _ => .error .unknownArgument

/-- An argument that is no option and no value of one. -/
def positional (r : Reading) (word : String) : Except ArgumentError Reading :=
  if r.inputGiven then .error .unknownArgument
  else do
    let r ← r.settle
    return { r with pending := some (.input, some word), inputGiven := true }

/-- An argument without a dash: the value of the option before it, if that waits for one. -/
def plain (r : Reading) (word : String) : Except ArgumentError Reading :=
  match r.pending with
  | some (parameter, none) => .ok { r with pending := some (parameter, some word) }
  | _ => r.positional word

end Reading

/-- Reads on; after `--` all arguments are positional. -/
def readFrom (r : Reading) (afterDashes : Bool) : List String → Except ArgumentError Reading
  | [] => r.settle
  | word :: words =>
    if afterDashes then do readFrom (← r.positional word) true words
    else
      match word.toList with
      | ['-', '-'] => readFrom r true words
      | '-' :: '-' :: rest => do readFrom (← r.long rest) false words
      | '-' :: letter :: _ => do readFrom (← r.short letter) false words
      | _ => do readFrom (← r.plain word) false words

/-- Reads a command line. -/
def parse (words : List String) : Except ArgumentError Arguments := do
  return (← readFrom {} false words).settled

end Arguments

end FlowErasure.Command
