import FlowErasure.Command.Arguments
import FlowErasure.Command.FileName
import FlowErasure.Options
import FlowErasure.Report
import FlowErasure.Text.Utf8

/-!
# Running a command

A command reads its options and its source, compiles, and writes the result. What it reads from and
writes to is given to it as `Surroundings`, so that it runs in any monad.
-/

namespace FlowErasure.Command

/-- Files and standard input. -/
structure Surroundings (m : Type → Type) where
  /-- The bytes of a file, if it can be read. -/
  read : String → m (Option (List UInt8))
  /-- Writes a file, and answers whether it could be written. -/
  write : String → List Char → m Bool
  /-- The bytes of standard input, if it can be read. -/
  standardInput : m (Option (List UInt8))

/-- Why a command cannot do its work. -/
inductive CommandError where
  | configUnreadable (path : String)
  | configInvalid (path : String)
  | inputUnreadable (path : String)
  | standardInputUnreadable
  | layout (error : LayoutError)
  | mapUnwritable (path : String)
  deriving DecidableEq, Repr, Inhabited

def CommandError.message : CommandError → String
  | .configUnreadable path => "failed to read config file " ++ path
  | .configInvalid path => "invalid config file " ++ path
  | .inputUnreadable path => "failed to read " ++ path
  | .standardInputUnreadable => "failed to read standard input"
  | .layout _ => "failed to print stripped code"
  | .mapUnwritable path => "failed to write source map " ++ path

/-- What a command leaves: an exit status or an error, and what it has written. -/
structure Outcome where
  status : Except CommandError Nat
  stdout : List Char := []
  stderr : List Char := []

/-- The source was compiled. -/
def statusSuccess : Nat :=
  0

/-- The source was refused, and the reason reported. -/
def statusRefused : Nat :=
  1

variable {m : Type → Type} [Monad m]

/-- Bytes as a text. -/
def text? (bytes : Option (List UInt8)) : Option (List Char) :=
  bytes.bind fun bytes => (Text.decodeUtf8 bytes).toOption

/-- The options in a file. -/
def loadConfig (s : Surroundings m) (path : String) : ExceptT CommandError m CompileOptions := do
  let some text := text? (← s.read path) | throw (.configUnreadable path)
  let some options := CompileOptions.ofJson? text | throw (.configInvalid path)
  return options

namespace Arguments

/-- The options that arguments give: a name from the command line wins over one from a file, and
that over the name of the file that is read or the stem of the map's. -/
def overlay (arguments : Arguments) (config : CompileOptions) : CompileOptions where
  sourceFileName := arguments.sourceFileName <|> config.sourceFileName <|> arguments.input
  sourceMapName :=
    arguments.sourceMapName <|> config.sourceMapName <|>
      (arguments.mapFile.bind fun path => (fileStem? path.toList).map String.ofList)

def compileOptions (arguments : Arguments) (s : Surroundings m) :
    ExceptT CommandError m CompileOptions := do
  match arguments.config with
  | some path => return arguments.overlay (← loadConfig s path)
  | none => return arguments.overlay {}

/-- The source to compile. -/
def readSource (arguments : Arguments) (s : Surroundings m) :
    ExceptT CommandError m (List Char) := do
  match arguments.input with
  | some path =>
    let some text := text? (← s.read path) | throw (.inputUnreadable path)
    return text
  | none =>
    let some text := text? (← s.standardInput) | throw .standardInputUnreadable
    return text

/-- Writes the map, if there is one and a file for it. -/
def writeMap (arguments : Arguments) (s : Surroundings m) (map : Option SourceMap) :
    m (Except CommandError Nat) := do
  match arguments.mapFile, map with
  | some path, some map =>
    if ← s.write path map.render then return .ok statusSuccess
    else return .error (.mapUnwritable path)
  | _, _ => return .ok statusSuccess

/-- Runs a command. A source that is refused is reported on standard error. The code is written
before the map, so it is there even if the map cannot be written. -/
def run (arguments : Arguments) (s : Surroundings m) (color : Bool) : m Outcome := do
  match ← (arguments.compileOptions s).run with
  | .error e => return { status := .error e }
  | .ok options =>
    match ← (arguments.readSource s).run with
    | .error e => return { status := .error e }
    | .ok source =>
      match compile source options with
      | .error (.parse e) =>
        return { status := .ok statusRefused, stderr := (e.report color source).toList ++ ['\n'] }
      | .error (.layout e) => return { status := .error (.layout e) }
      | .ok printed =>
        let status ← arguments.writeMap s printed.map
        return { status, stdout := printed.code }

end Arguments

end FlowErasure.Command
