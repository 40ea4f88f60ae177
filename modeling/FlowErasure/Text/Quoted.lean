import FlowErasure.Token.CharClass

/-!
# Quoted texts

A text between double quotes as JSON writes it: quotes, backslashes and control characters are
escaped, everything else stands for itself.
-/

namespace FlowErasure.Text

/-! ## Writing -/

/-- The digit of a value below 16, in lower case. -/
def hexDigit (n : Nat) : Char :=
  if n < 10 then Char.ofNat ('0'.toNat + n) else Char.ofNat ('a'.toNat + (n - 10))

/-- One character inside quotes. -/
def escape (c : Char) : List Char :=
  match c with
  | '\x22' => ['\\', '\x22']
  | '\\' => ['\\', '\\']
  | '\x08' => ['\\', 'b']
  | '\t' => ['\\', 't']
  | '\n' => ['\\', 'n']
  | '\x0c' => ['\\', 'f']
  | '\r' => ['\\', 'r']
  | c =>
    if c.toNat < 0x20 then
      ['\\', 'u', '0', '0', hexDigit (c.toNat / 16), hexDigit (c.toNat % 16)]
    else [c]

/-- A text in double quotes. -/
def quote (cs : List Char) : List Char :=
  '\x22' :: (cs.flatMap escape ++ ['\x22'])

/-! ## Reading -/

/-- The value of four hexadecimal digits. -/
def hexValue? (a b c d : Char) : Option Nat := do
  let a ← Token.hexDigit? a
  let b ← Token.hexDigit? b
  let c ← Token.hexDigit? c
  let d ← Token.hexDigit? d
  return ((a * 16 + b) * 16 + c) * 16 + d

/-- The character that a letter after a backslash stands for. -/
def unescape? : Char → Option Char
  | '\x22' => some '\x22'
  | '\\' => some '\\'
  | '/' => some '/'
  | 'b' => some '\x08'
  | 'f' => some '\x0c'
  | 'n' => some '\n'
  | 'r' => some '\r'
  | 't' => some '\t'
  | _ => none

def isHighSurrogate (n : Nat) : Bool :=
  0xD800 ≤ n && n < 0xDC00

def isLowSurrogate (n : Nat) : Bool :=
  0xDC00 ≤ n && n < 0xE000

/-- The character of a surrogate pair. -/
def ofSurrogates (high low : Nat) : Char :=
  Char.ofNat (0x10000 + (high - 0xD800) * 0x400 + (low - 0xDC00))

/-- Reads up to the closing quote, and answers the text and what comes after the quote. A control
character must be escaped, and a surrogate only counts with its partner. -/
def unquoteOnto (done : List Char) : List Char → Option (List Char × List Char)
  | [] => none
  | '\x22' :: cs => some (done.reverse, cs)
  | '\\' :: 'u' :: a :: b :: c :: d :: cs =>
    match hexValue? a b c d with
    | none => none
    | some high =>
      if isLowSurrogate high then none
      else if isHighSurrogate high then
        match cs with
        | '\\' :: 'u' :: a :: b :: c :: d :: cs =>
          match hexValue? a b c d with
          | none => none
          | some low =>
            if isLowSurrogate low then unquoteOnto (ofSurrogates high low :: done) cs else none
        | _ => none
      else unquoteOnto (Char.ofNat high :: done) cs
  | '\\' :: c :: cs =>
    match unescape? c with
    | none => none
    | some c => unquoteOnto (c :: done) cs
  | c :: cs => if c.toNat < 0x20 || c = '\\' then none else unquoteOnto (c :: done) cs

/-- The text in quotes at the front, and what comes after it. -/
def unquote? : List Char → Option (List Char × List Char)
  | '\x22' :: cs => unquoteOnto [] cs
  | _ => none

end FlowErasure.Text
