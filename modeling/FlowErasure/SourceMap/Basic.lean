import FlowErasure.SourceMap.Vlq
import FlowErasure.Sorting
import FlowErasure.Text.Lines
import FlowErasure.Text.Quoted

/-!
# Source maps

A source map relates positions of a generated text to positions of its sources. A `Recorder`
collects mappings as the text is written. In the finished map they are sorted by generated position
and every number is written as the difference to its predecessor.
-/

namespace FlowErasure

/-- One mapping, in absolute positions. -/
structure Mapping where
  generated : Position
  /-- Place of the source in the list of sources. -/
  source : Nat
  origin : Position
  deriving DecidableEq, Repr, Inhabited

structure SourceMap where
  /-- Name of the generated file. -/
  file : Option String
  sources : List String
  /-- Lines are divided by semicolons, mappings in a line by commas. -/
  mappings : List Char
  deriving DecidableEq, Repr, Inhabited

namespace SourceMap

/-- The revision of the format. -/
def version : Nat :=
  3

/-- The numbers that the next mapping is written relative to. -/
structure Cursor where
  line : Nat := 0
  column : Nat := 0
  source : Nat := 0
  originLine : Nat := 0
  originColumn : Nat := 0
  /-- The line has a mapping already. -/
  begun : Bool := false
  deriving DecidableEq, Repr, Inhabited

namespace Cursor

/-- The cursor at the line of a mapping; columns of a new line count from zero. -/
def toLine (cursor : Cursor) (line : Nat) : Cursor :=
  if cursor.line < line then { cursor with line, column := 0, begun := false } else cursor

/-- The cursor after a mapping. -/
def after (cursor : Cursor) (m : Mapping) : Cursor where
  line := cursor.line
  column := m.generated.column
  source := m.source
  originLine := m.origin.line
  originColumn := m.origin.column
  begun := true

end Cursor

/-- A number relative to its predecessor, as a word of 32 bits. -/
def encodeDelta (current previous : Nat) : List Char :=
  Vlq.encode (Int32.ofInt (current - previous))

/-- Column, source, line and column in the source, each relative to the cursor. -/
def encodeSegment (cursor : Cursor) (m : Mapping) : List Char :=
  encodeDelta m.generated.column cursor.column ++
    (encodeDelta m.source cursor.source ++
      (encodeDelta m.origin.line cursor.originLine ++
        encodeDelta m.origin.column cursor.originColumn))

/-- Mappings from the cursor on. -/
def encodeFrom (cursor : Cursor) : List Mapping → List Char
  | [] => []
  | m :: ms =>
    let breaks := List.replicate (m.generated.line - cursor.line) ';'
    let here := cursor.toLine m.generated.line
    let comma := if here.begun then [','] else []
    breaks ++ (comma ++ (encodeSegment here m ++ encodeFrom (here.after m) ms))

/-- Mappings in the order of their generated positions. -/
def encodeMappings (ms : List Mapping) : List Char :=
  encodeFrom {} (sortOn (fun m => (m.generated.line, m.generated.column)) ms)

/-- Texts between brackets, divided by commas. -/
def renderList (texts : List String) : List Char :=
  '[' :: ((texts.map fun text => Text.quote text.toList).intersperse [',']).flatten ++ [']']

/-- The map as JSON without blanks. There are never names. -/
def render (map : SourceMap) : List Char :=
  let file :=
    match map.file with
    | none => []
    | some file => "\"file\":".toList ++ Text.quote file.toList ++ [',']
  "\x7b\"version\":".toList ++ (toString version).toList ++ [','] ++ file ++
    "\"sources\":".toList ++ renderList map.sources ++ ",\"names\":[],\"mappings\":".toList ++
    Text.quote map.mappings ++ ['\x7d']

/-- Collects the sources and mappings of a text that is being written. -/
structure Recorder where
  file : Option String
  sources : List String := []
  /-- The latest mapping first. -/
  latest : List Mapping := []
  deriving DecidableEq, Repr, Inhabited

namespace Recorder

/-- The place of a source in the list, to which it is added if it is new. -/
def addSource (recorder : Recorder) (name : String) : Nat × Recorder :=
  match recorder.sources.findIdx? (· == name) with
  | some index => (index, recorder)
  | none => (recorder.sources.length, { recorder with sources := recorder.sources ++ [name] })

/-- Records a mapping. It takes the place of the one before if the generated position is the
same. -/
def record (recorder : Recorder) (m : Mapping) : Recorder :=
  match recorder.latest with
  | previous :: earlier =>
    if previous.generated = m.generated then { recorder with latest := m :: earlier }
    else { recorder with latest := m :: previous :: earlier }
  | [] => { recorder with latest := [m] }

/-- How many mappings there are. -/
def count (recorder : Recorder) : Nat :=
  recorder.latest.length

/-- Mappings in the order in which they were recorded. -/
def mappings (recorder : Recorder) : List Mapping :=
  recorder.latest.reverse

def finish (recorder : Recorder) : SourceMap where
  file := recorder.file
  sources := recorder.sources
  mappings := encodeMappings recorder.mappings

end Recorder

end SourceMap

end FlowErasure
