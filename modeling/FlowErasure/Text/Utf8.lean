/-!
# Reading UTF-8

Bytes are read as characters. What is no UTF-8 is refused with the place where it starts and how
many bytes of it could have started a character.
-/

namespace FlowErasure.Text

/-- Why bytes are no text. -/
inductive Utf8Error where
  /-- `length` bytes at `start` start no character together with the byte after them. -/
  | invalid (start length : Nat)
  /-- The bytes end inside a character that starts at `start`. -/
  | incomplete (start : Nat)
  deriving DecidableEq, Repr, Inhabited

def Utf8Error.message : Utf8Error → String
  | .invalid start length =>
    "invalid utf-8 sequence of " ++ toString length ++ " bytes from index " ++ toString start
  | .incomplete start => "incomplete utf-8 byte sequence from index " ++ toString start

/-- What the first byte of a character says: how many bytes follow, between which bounds the next of
them lies, and the bits it contributes. -/
structure Lead where
  following : Nat
  low : Nat := 0x80
  high : Nat := 0xBF
  bits : Nat
  deriving DecidableEq, Repr, Inhabited

/-- The bounds keep out characters written too long, surrogates, and values that are no
characters. -/
def lead? (b : Nat) : Option Lead :=
  if b < 0x80 then some { following := 0, bits := b }
  else if b < 0xC2 then none
  else if b < 0xE0 then some { following := 1, bits := b - 0xC0 }
  else if b = 0xE0 then some { following := 2, low := 0xA0, bits := 0 }
  else if b = 0xED then some { following := 2, high := 0x9F, bits := 0xD }
  else if b < 0xF0 then some { following := 2, bits := b - 0xE0 }
  else if b = 0xF0 then some { following := 3, low := 0x90, bits := 0 }
  else if b < 0xF4 then some { following := 3, bits := b - 0xF0 }
  else if b = 0xF4 then some { following := 3, high := 0x8F, bits := 4 }
  else none

/-- Reads the bytes that follow in a character that starts at `start` and of which `seen` bytes are
read. -/
def readFollowing (start seen : Nat) : Nat → Nat → Nat → Nat → List UInt8 →
    Except Utf8Error (Nat × List UInt8)
  | 0, _, _, bits, bs => .ok (bits, bs)
  | _ + 1, _, _, _, [] => .error (.incomplete start)
  | following + 1, low, high, bits, b :: bs =>
    if low ≤ b.toNat && b.toNat ≤ high then
      readFollowing start (seen + 1) following 0x80 0xBF (bits * 64 + b.toNat % 64) bs
    else .error (.invalid start seen)

/-- The first character, and the bytes after it. -/
def readChar (start : Nat) (b : UInt8) (bs : List UInt8) :
    Except Utf8Error (Char × List UInt8) :=
  match lead? b.toNat with
  | none => .error (.invalid start 1)
  | some lead => do
    let (value, rest) ← readFollowing start 1 lead.following lead.low lead.high lead.bits bs
    return (Char.ofNat value, rest)

/-- Reads at most `bound` characters, after those in `done`, the last first. -/
def decodeWithin : Nat → Nat → List Char → List UInt8 → Except Utf8Error (List Char)
  | 0, _, done, _ => .ok done.reverse
  | _, _, done, [] => .ok done.reverse
  | bound + 1, start, done, b :: bs => do
    let (c, rest) ← readChar start b bs
    decodeWithin bound (start + c.utf8Size) (c :: done) rest

/-- The text that bytes stand for. -/
def decodeUtf8 (bs : List UInt8) : Except Utf8Error (List Char) :=
  decodeWithin bs.length 0 [] bs

end FlowErasure.Text
