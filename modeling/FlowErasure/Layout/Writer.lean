import FlowErasure.SourceMap.Basic

/-!
# Writing a text with a source map

A writer keeps the text written so far, the position at its end, and the mappings of the parts that
were copied from a source. Lines end where they end in a source, so that a copied text advances both
positions alike.
-/

namespace FlowErasure

structure Writer where
  /-- The text written so far, the last character first. -/
  reversed : List Char := []
  /-- The position at the end of the text. -/
  position : Position := ⟨0, 0⟩
  recorder : Option SourceMap.Recorder := none
  /-- The source that mappings point to. -/
  source : Nat := 0
  deriving DecidableEq, Repr, Inhabited

namespace Writer

/-- The text written so far. -/
def output (w : Writer) : List Char :=
  w.reversed.reverse

def lastChar? (w : Writer) : Option Char :=
  w.reversed.head?

/-- Maps the current position to a position of the source, if there is one. -/
def mapTo (w : Writer) : Option Position → Writer
  | none => w
  | some origin =>
    { w with recorder := w.recorder.map (·.record ⟨w.position, w.source, origin⟩) }

/-- Goes to the next line. If more text follows, its start is mapped. -/
def endLine (w : Writer) (origin : Option Position) (more : Bool) : Writer × Option Position :=
  let w := { w with position := ⟨w.position.line + 1, 0⟩ }
  let origin := origin.map fun p => ⟨p.line + 1, 0⟩
  (if more then w.mapTo origin else w, origin)

/-- Moves the position over a text and maps the start of each line in it. -/
def advance (w : Writer) (origin : Option Position) : List Char → Writer
  | [] => w
  | '\r' :: '\n' :: cs =>
    let (w, origin) := w.endLine origin !cs.isEmpty
    w.advance origin cs
  | c :: cs =>
    if Text.isLineBreak c then
      let (w, origin) := w.endLine origin !cs.isEmpty
      w.advance origin cs
    else
      { w with position := ⟨w.position.line, w.position.column + Text.units c⟩ }.advance origin cs

/-- The part of a text that moves the position. A line feed after a carriage return does not: the
line has ended already. -/
def advancing (w : Writer) (cs : List Char) : List Char :=
  match w.lastChar?, cs with
  | some '\r', '\n' :: rest => rest
  | _, cs => cs

/-- Appends a text. If it was copied, `origin` is where it starts in the source; then its start
and the start of each line in it are mapped. -/
def write (w : Writer) (cs : List Char) (origin : Option Position) : Writer :=
  if cs.isEmpty then w
  else
    let moved := (w.mapTo origin).advance origin (w.advancing cs)
    { moved with reversed := cs.reverseAux w.reversed }

end Writer

end FlowErasure
