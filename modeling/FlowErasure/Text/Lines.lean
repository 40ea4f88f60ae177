import FlowErasure.Text.Units

/-!
# Lines of a text

A line ends at LF, at CR LF, at a CR alone, at U+2028 and at U+2029. `Lines` keeps the byte offset
of every line start and answers which line and which UTF-16 column an offset belongs to.
-/

namespace FlowErasure

namespace Text

/-- The characters that end a line. -/
def isLineBreak (c : Char) : Bool :=
  c == '\n' || c == '\r' || c == '\u2028' || c == '\u2029'

/-- Offsets of the line starts after the first, for a text that begins at `offset`. -/
def lineStartsFrom (offset : Nat) : List Char → List Nat
  | [] => []
  | '\r' :: '\n' :: cs => (offset + 2) :: lineStartsFrom (offset + 2) cs
  | c :: cs =>
    if isLineBreak c then (offset + c.utf8Size) :: lineStartsFrom (offset + c.utf8Size) cs
    else lineStartsFrom (offset + c.utf8Size) cs

end Text

/-- A line and a UTF-16 column, both counted from zero. -/
structure Position where
  line : Nat
  column : Nat
  deriving DecidableEq, Repr, Inhabited

/-- A text with the byte offsets at which its lines start. -/
structure Lines where
  text : List Char
  size : Nat
  starts : List Nat
  deriving Repr, Inhabited

namespace Lines

def ofText (cs : List Char) : Lines where
  text := cs
  size := Text.byteLength cs
  starts := 0 :: Text.lineStartsFrom 0 cs

def count (lines : Lines) : Nat :=
  lines.starts.length

/-- Offset at which a line starts. -/
def start? (lines : Lines) (line : Nat) : Option Nat :=
  lines.starts[line]?

/-- The last line that starts at or before `offset`. -/
def lineOf (lines : Lines) (offset : Nat) : Nat :=
  (lines.starts.takeWhile (· ≤ offset)).length - 1

/-- Line and column of a byte offset; an offset beyond the end counts as the end. -/
def position (lines : Lines) (offset : Nat) : Position :=
  let offset := min offset lines.size
  let line := lines.lineOf offset
  let start := (lines.start? line).getD 0
  let column? := (Text.drop? lines.text start).bind (Text.unitsBefore? · (offset - start))
  { line, column := column?.getD 0 }

end Lines

end FlowErasure
