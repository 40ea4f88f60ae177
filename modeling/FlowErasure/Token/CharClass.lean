import FlowErasure.Text.Lines
import FlowErasure.Text.Alphabetic
import FlowErasure.Text.Numeral
import FlowErasure.Text.Blank

/-!
# Character classes of the lexical grammar
-/

namespace FlowErasure.Token

def isAsciiLetter (c : Char) : Bool :=
  ('a' ≤ c && c ≤ 'z') || ('A' ≤ c && c ≤ 'Z')

def isAsciiDigit (c : Char) : Bool :=
  '0' ≤ c && c ≤ '9'

def isAscii (c : Char) : Bool :=
  c.toNat < 0x80

/-- White space within a line. The byte order mark counts. -/
def isInlineBlank (c : Char) : Bool :=
  if isAscii c then c == ' ' || c == '\t' || c == '\x0b' || c == '\x0c'
  else c == '\ufeff' || (Text.isBlank c && !Text.isLineBreak c)

/-- Can a name start with `c`? -/
def isNameStart (c : Char) : Bool :=
  if isAscii c then isAsciiLetter c || c == '$' || c == '_'
  else Text.isAlphabetic c

/-- Can a name go on with `c`? The two joiners count. -/
def isNamePart (c : Char) : Bool :=
  if isAscii c then isAsciiLetter c || isAsciiDigit c || c == '$' || c == '_'
  else c == '\u200c' || c == '\u200d' || Text.isAlphabetic c || Text.isNumeral c

/-- Bytes that can belong to a name or a number, every byte of a non-ASCII character included. -/
def isWordByte (b : UInt8) : Bool :=
  0x80 ≤ b || (0x61 ≤ b && b ≤ 0x7a) || (0x41 ≤ b && b ≤ 0x5a) || (0x30 ≤ b && b ≤ 0x39) ||
    b == 0x24 || b == 0x5f

/-- Characters that would join with a neighbour of the same kind into one token. -/
def isWordChar (c : Char) : Bool :=
  !isAscii c || isAsciiLetter c || isAsciiDigit c || c == '_' || c == '$'

/-- Value of a hexadecimal digit. -/
def hexDigit? (c : Char) : Option Nat :=
  if '0' ≤ c && c ≤ '9' then some (c.toNat - 0x30)
  else if 'a' ≤ c && c ≤ 'f' then some (c.toNat - 0x61 + 10)
  else if 'A' ≤ c && c ≤ 'F' then some (c.toNat - 0x41 + 10)
  else none

/-- Is `c` a digit to the base `radix` (at most 16)? -/
def isDigitOf (radix : Nat) (c : Char) : Bool :=
  match hexDigit? c with
  | some d => d < radix
  | none => false

end FlowErasure.Token
