import FlowErasure.Compile
import FlowErasure.Text.Utf8

/-!
# Filters

A filter takes a source in chunks of bytes and compiles it as a whole at the end, so that nothing is
passed on of a source that is refused.
-/

namespace FlowErasure

structure Filter where
  options : CompileOptions
  /-- The chunks so far, the last first. -/
  chunks : List (List UInt8) := []
  deriving DecidableEq, Repr, Inhabited

inductive FilterError where
  | utf8 (error : Text.Utf8Error)
  | compile (error : CompileError)
  deriving DecidableEq, Repr, Inhabited

def FilterError.message : FilterError → String
  | .utf8 error => error.message
  | .compile error => error.message

namespace Filter

/-- Takes a chunk, and answers how many bytes of it were taken: all. -/
def write (filter : Filter) (chunk : List UInt8) : Nat × Filter :=
  (chunk.length, { filter with chunks := chunk :: filter.chunks })

/-- The bytes so far. -/
def buffer (filter : Filter) : List UInt8 :=
  filter.chunks.reverse.flatten

/-- Compiles all that was taken. -/
def finish (filter : Filter) : Except FilterError (List Char) :=
  match Text.decodeUtf8 filter.buffer with
  | .error e => .error (.utf8 e)
  | .ok text =>
    match compile text filter.options with
    | .error e => .error (.compile e)
    | .ok printed => .ok printed.code

end Filter

end FlowErasure
