import FlowErasure.Command.Run

/-!
# The command line
-/

namespace FlowErasure.Command

def usage : String :=
  "Strip Flow type annotations from JavaScript, keeping the formatting\n\n" ++
  "Usage: flow-erasure [OPTIONS] [INPUT]\n\n" ++
  "Arguments:\n" ++
  "  [INPUT]  File to strip. Reads standard input when omitted\n\n" ++
  "Options:\n" ++
  "      --source-file-name <SOURCE_FILE_NAME>  Name used in diagnostics and in the source map\n" ++
  "      --source-map-name <SOURCE_MAP_NAME>    Produce a source map whose `file` is this name\n" ++
  "      --map-file <MAP_FILE>                  Write the source map JSON to this path\n" ++
  "      --config <CONFIG>                      JSON file holding compile options\n" ++
  "  -h, --help                                 Print help\n" ++
  "  -V, --version                              Print version\n"

/-- All bytes of standard input. -/
partial def readAll (stream : IO.FS.Stream) (done : ByteArray) : IO ByteArray := do
  let chunk ← stream.read 65536
  if chunk.isEmpty then return done else readAll stream (done ++ chunk)

/-- The files and the standard input of the process. -/
def processSurroundings : Surroundings IO where
  read path := do
    try
      return some (← IO.FS.readBinFile path).toList
    catch _ => return none
  write path contents := do
    try
      IO.FS.writeFile path (String.ofList contents)
      return true
    catch _ => return false
  standardInput := do
    try
      return some (← readAll (← IO.getStdin) .empty).toList
    catch _ => return none

def exitStatus (outcome : Outcome) : IO UInt32 := do
  match outcome.status with
  | .ok status => return status.toUInt32
  | .error e =>
    IO.eprintln ("Error: " ++ e.message)
    return 1

end FlowErasure.Command

open FlowErasure.Command in
def main (words : List String) : IO UInt32 := do
  match Arguments.parse words with
  | .error .displayHelp =>
    IO.print usage
    return 0
  | .error .displayVersion =>
    IO.println "flow-erasure 0.1.0"
    return 0
  | .error e =>
    IO.eprintln ("error: " ++ e.label ++ "\n\n" ++ usage)
    return 2
  | .ok arguments =>
    let color ← (← IO.getStderr).isTty
    let outcome ← arguments.run processSurroundings color
    IO.print (String.ofList outcome.stdout)
    IO.eprint (String.ofList outcome.stderr)
    exitStatus outcome
