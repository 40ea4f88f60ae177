import FlowErasure.Erasure.Pass
import FlowErasure.Layout.Print

/-!
# Compiling

From a source with types to the same source without them: read it, erase, lay it out.
-/

namespace FlowErasure

/-- Options of one compilation. -/
structure CompileOptions where
  /-- Name of the source in errors and in the map. -/
  sourceFileName : Option String := none
  /-- Name of the output in the map; without it there is no map. -/
  sourceMapName : Option String := none
  deriving DecidableEq, Repr, Inhabited

inductive CompileError where
  | parse (error : ParseError)
  | layout (error : LayoutError)
  deriving DecidableEq, Repr, Inhabited

def CompileError.message : CompileError → String
  | .parse error => error.message
  | .layout error => error.message

/-- Erases the types of a source. -/
def Parsed.erase (parsed : Parsed) : Parsed × ErasureStats :=
  let (tree, stats) := parsed.tree.erase .standard parsed.root
  ({ parsed with tree }, stats)

/-- The source without types, laid out as it was. -/
def compile (text : List Char) (options : CompileOptions) : Except CompileError Printed :=
  match parse text options.sourceFileName with
  | .error e => .error (.parse e)
  | .ok parsed =>
    let printOptions : PrintOptions :=
      { sourceFileName := options.sourceFileName, sourceMapName := options.sourceMapName }
    match parsed.erase.1.print printOptions with
    | .error e => .error (.layout e)
    | .ok printed => .ok printed

end FlowErasure
