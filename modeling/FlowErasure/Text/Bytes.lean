import FlowErasure.Text.Units

/-!
# Bytes of a text

The UTF-8 bytes of a text, for questions about the surroundings of an offset.
-/

namespace FlowErasure.Text

/-- The UTF-8 bytes of a text. -/
def bytes (cs : List Char) : List UInt8 :=
  cs.flatMap String.utf8EncodeChar

/-- Bytes of the blanks that stay on a line: space, tab, vertical tab and form feed. -/
def isSpaceByte (b : UInt8) : Bool :=
  b == 0x20 || b == 0x09 || b == 0x0B || b == 0x0C

/-- Length of the line end that bytes start with, zero if there is none. -/
def lineEndLength : List UInt8 → Nat
  | 0x0D :: 0x0A :: _ => 2
  | 0x0A :: _ | 0x0D :: _ => 1
  | 0xE2 :: 0x80 :: 0xA8 :: _ | 0xE2 :: 0x80 :: 0xA9 :: _ => 3
  | _ => 0

/-- Start of the blanks before `offset`, but not before `floor`. -/
def spaceBefore (bs : List UInt8) (floor : Nat) : Nat → Nat
  | 0 => 0
  | offset + 1 =>
    if floor ≤ offset && (bs[offset]?).any isSpaceByte then spaceBefore bs floor offset
    else offset + 1

/-- End of the blanks at `offset`. -/
def spaceAfter (bs : List UInt8) (offset : Nat) : Nat :=
  offset + ((bs.drop offset).takeWhile isSpaceByte).length

/-- Does a line or the text end at `offset`? -/
def endsLine (bs : List UInt8) (offset : Nat) : Bool :=
  offset == bs.length || 0 < lineEndLength (bs.drop offset)

end FlowErasure.Text
