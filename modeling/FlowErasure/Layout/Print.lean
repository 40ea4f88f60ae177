import FlowErasure.Grammar.Program
import FlowErasure.Layout.Edit
import FlowErasure.Layout.Writer
import FlowErasure.Token.CharClass

/-!
# Layout

A tree is laid out as the source it was read from, without the parts that were taken out of it. Every
character written comes from the source, apart from two separators: a space that keeps two words
apart and a semicolon that keeps two statements apart.
-/

namespace FlowErasure

namespace Layout

/-- A part of the output. -/
inductive Fragment where
  /-- The source from `start` to `stop`. -/
  | text (start stop : Nat)
  /-- Something was dropped here. -/
  | cut
  | semicolon
  deriving DecidableEq, Repr, Inhabited

/-- A part of the layout of a node. -/
inductive Piece where
  | fragment (f : Fragment)
  | node (id : NodeId)
  deriving DecidableEq, Repr, Inhabited

/-! ## Ranges to drop -/

/-- A dropped field takes the blanks before it along if there are blanks or a line end after it. -/
def fieldRange (bytes : List UInt8) (floor start stop : Nat) : Nat × Nat :=
  let spaceStart := Text.spaceBefore bytes floor start
  let spaceStop := Text.spaceAfter bytes stop
  if spaceStart < start && (stop < spaceStop || Text.endsLine bytes spaceStop) then
    (spaceStart, stop)
  else (start, stop)

def isLineStart (lines : Lines) (offset : Nat) : Bool :=
  offset == 0 || lines.start? (lines.lineOf offset) == some offset

/-- Dropped statements take whole lines if they stand on them alone, otherwise the blanks between
them and their neighbours. -/
def lineRange (source : Source) (floor start stop : Nat) : Nat × Nat :=
  let spaceStart := Text.spaceBefore source.bytes floor start
  let spaceStop := Text.spaceAfter source.bytes stop
  if Text.endsLine source.bytes spaceStop then
    if isLineStart source.lines spaceStart then
      (spaceStart, spaceStop + Text.lineEndLength (source.bytes.drop spaceStop))
    else (spaceStart, spaceStop)
  else (start, spaceStop)

/-! ## Pieces of a node -/

/-- What an edit puts in the place of what it drops. -/
def droppedPieces (cursor start : Nat) (semicolon : Bool) : List Piece :=
  [.fragment (.text cursor start), .fragment .cut] ++
    if semicolon then [.fragment .semicolon] else []

/-- The pieces of one edit for a text that is written up to `cursor`, and where it goes on. -/
def piecesOfEdit (source : Source) (cursor : Nat) (edit : Edit) : List Piece × Nat :=
  match edit.action with
  | .print id => ([.fragment (.text cursor edit.start), .node id], edit.stop)
  | .removeField =>
    let (start, stop) := fieldRange source.bytes cursor edit.start edit.stop
    (droppedPieces cursor start false, max stop cursor)
  | .removeLines semicolon =>
    let (start, stop) := lineRange source cursor edit.start edit.stop
    (droppedPieces cursor start semicolon, max stop cursor)
  | .removeExact => (droppedPieces cursor edit.start false, max edit.stop cursor)

/-- The text from `cursor` to `stop` with its edits. An edit that starts in a part that is written
already is passed over: the key and the value of a shorthand property are the same text. -/
def piecesFrom (source : Source) (stop cursor : Nat) : List Edit → List Piece
  | [] => [.fragment (.text cursor stop)]
  | edit :: edits =>
    if edit.start < cursor then piecesFrom source stop cursor edits
    else
      let (pieces, cursor) := piecesOfEdit source cursor edit
      pieces ++ piecesFrom source stop cursor edits

/-- The pieces of a node: its source text, as a whole if nothing in it has changed. -/
def piecesOfNode (source : Source) (tree : Tree) (id : NodeId) : Except LayoutError (List Piece) := do
  let (_, node) ← require tree id
  if !node.marks.any then return [.fragment (.text node.start node.stop)]
  if !node.hasSpan then throw (.missingSpan node.kind)
  let edits ← editsOfNode source tree node
  return piecesFrom source node.stop node.start (sortOn (fun edit => (edit.start, edit.stop)) edits)

/-- Appends the fragments of a node to those in `done`, the last first. Nodes are laid out at most
`depth` levels deep. -/
def fragmentsWithin (source : Source) (tree : Tree) :
    Nat → List Fragment → NodeId → Except LayoutError (List Fragment)
  | 0, done, _ => return done
  | depth + 1, done, id => do
    let pieces ← piecesOfNode source tree id
    pieces.foldlM (fun done piece =>
      match piece with
      | .fragment f => return f :: done
      | .node child => fragmentsWithin source tree depth done child) done

/-- The fragments of a node in order. -/
def fragments (source : Source) (tree : Tree) (id : NodeId) : Except LayoutError (List Fragment) := do
  return (← fragmentsWithin source tree (tree.size + 1) [] id).reverse

/-! ## Output -/

/-- The output so far, and whether something was dropped since the last text. -/
structure Output where
  writer : Writer
  separate : Bool := false

/-- Copies a part of the source. A space keeps words apart that a cut has brought together. -/
def Output.copy (output : Output) (source : Source) (start stop : Nat) : Output :=
  if stop ≤ start then output
  else
    match Text.slice? source.text start stop with
    | none | some [] => output
    | some (c :: cs) =>
      let joins :=
        output.separate && output.writer.lastChar?.any Token.isWordChar && Token.isWordChar c
      let writer := if joins then output.writer.write [' '] none else output.writer
      { writer := writer.write (c :: cs) (some (source.lines.position start)) }

def Output.put (source : Source) (output : Output) : Fragment → Output
  | .text start stop => output.copy source start stop
  | .cut => { output with separate := true }
  | .semicolon => { writer := output.writer.write [';'] none }

end Layout

/-- A text laid out from a tree. -/
structure Printed where
  code : List Char
  map : Option SourceMap
  deriving DecidableEq, Repr, Inhabited

/-- Names used when a tree is laid out. -/
structure PrintOptions where
  /-- Name of the source in the map, if not the name it was read under. -/
  sourceFileName : Option String := none
  /-- Name of the output in the map; without it there is no map. -/
  sourceMapName : Option String := none
  deriving DecidableEq, Repr, Inhabited

/-- A writer for the output, with a recorder if a map is wanted. -/
def PrintOptions.writer (options : PrintOptions) (fileName : Option String) : Writer :=
  match options.sourceMapName with
  | none => {}
  | some mapName =>
    let name := (options.sourceFileName <|> fileName).getD defaultFileName
    let recorder : SourceMap.Recorder := { file := some mapName }
    let (index, recorder) := recorder.addSource name
    { recorder := some recorder, source := index }

/-- Lays out the tree of a source. -/
def Parsed.print (parsed : Parsed) (options : PrintOptions) : Except LayoutError Printed := do
  let source := Layout.Source.ofText parsed.text
  let fragments ← Layout.fragments source parsed.tree parsed.root
  let output := fragments.foldl (Layout.Output.put source)
    { writer := options.writer parsed.fileName }
  return { code := output.writer.output, map := output.writer.recorder.map (·.finish) }

end FlowErasure
