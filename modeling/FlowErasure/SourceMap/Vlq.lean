/-!
# Variable-length numbers in Base64

A signed 32-bit number is written as digits of five bits, the lowest first, one Base64 character per
digit. Every digit but the last has the continuation bit set, and the lowest bit of the number is
its sign.

The shift that makes room for the sign drops the highest bit. That bit is set in one magnitude only,
the one of the least number, which is therefore written like a negative zero.
-/

namespace FlowErasure.Vlq

/-- The Base64 characters in the order of their values. -/
def alphabet : List Char :=
  "ABCDEFGHIJKLMNOPQRSTUVWXYZabcdefghijklmnopqrstuvwxyz0123456789+/".toList

/-- The character for a value below 64. -/
def digitChar (digit : Nat) : Char :=
  alphabet.getD digit 'A'

/-- The value of a Base64 character. -/
def charDigit? (c : Char) : Option Nat :=
  alphabet.findIdx? (· == c)

/-- Digits of five bits, the lowest first, each with its continuation bit. -/
def digits (n : Nat) : List Nat :=
  if n < 32 then [n] else (n % 32 + 32) :: digits (n / 32)
termination_by n
decreasing_by omega

/-- Magnitude and sign in one word, the sign in the lowest bit. -/
def toWord (value : Int32) : Nat :=
  2 * value.toInt.natAbs % 0x100000000 + if value < 0 then 1 else 0

def ofWord (word : Nat) : Int32 :=
  if word % 2 = 1 then -Int32.ofNat (word / 2) else Int32.ofNat (word / 2)

def encode (value : Int32) : List Char :=
  (digits (toWord value)).map digitChar

/-- Reads on in a number of which `used` digits are read; they make up `word`. A word has 32 bits:
of the seventh digit two bits count, and an eighth is refused. -/
def decodeFrom (used word : Nat) : List Char → Option (Int32 × Nat)
  | [] => none
  | c :: cs => do
    let digit ← charDigit? c
    if used ≥ 7 then none
    else
      let word := (word + (digit % 32) <<< (5 * used)) % 0x100000000
      if digit < 32 then some (ofWord word, used + 1) else decodeFrom (used + 1) word cs

/-- The number at the front of a text, and how many characters it takes. -/
def decode (cs : List Char) : Option (Int32 × Nat) :=
  decodeFrom 0 0 cs

end FlowErasure.Vlq
