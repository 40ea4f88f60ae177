import FlowErasure.Message
import FlowErasure.Text.Lines

/-!
# Parse errors
-/

namespace FlowErasure

/-- Why and where a source is refused. Line and column count from one, the column in UTF-16
units. -/
structure ParseError where
  fileName : String
  start : Nat
  length : Nat
  line : Nat
  column : Nat
  code : Nat
  text : String
  deriving DecidableEq, Repr, Inhabited

namespace ParseError

/-- The error in one line: file, line, column, text. -/
def message (e : ParseError) : String :=
  e.fileName ++ ":" ++ toString e.line ++ ":" ++ toString e.column ++ ": " ++ e.text

end ParseError

/-- Name of a source that was given none. -/
def defaultFileName : String :=
  "source.js"

/-- A message about a range of the source, before the range is turned into line and column. -/
structure Failure where
  start : Nat
  length : Nat
  message : Message
  arguments : List String := []
  deriving DecidableEq, Repr, Inhabited

namespace Failure

/-- The error to report for a source. -/
def locate (failure : Failure) (fileName : String) (lines : Lines) : ParseError :=
  let position := lines.position failure.start
  { fileName
    start := failure.start
    length := failure.length
    line := position.line + 1
    column := position.column + 1
    code := failure.message.code
    text := Message.fill failure.message.template failure.arguments }

end Failure

end FlowErasure
