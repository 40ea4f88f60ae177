import FlowErasure.Message
import FlowErasure.Token
import FlowErasure.Token.CharClass

/-!
# Lexer

`Lexer.next` reads one token. Three kinds of token depend on where they stand, so a grammar may
have the current token read again: a slash as a regular expression, a closing brace as the rest of
a template, and a `>` together with what follows it.

A lexer is a value, so looking ahead is reading on with a copy. It keeps the text from the current
token on and the text after it; offsets count bytes from the start of the source.
-/

namespace FlowErasure

/-- A lexical error: a range of the source and what is wrong with it. -/
structure Fault where
  start : Nat
  length : Nat
  message : Message
  deriving DecidableEq, Repr, Inhabited

/-- What is known of a token beside its kind and its text. -/
structure TokenFlags where
  /-- A line ends between the token and the one before it. -/
  lineBreakBefore : Bool := false
  unterminated : Bool := false
  /-- A name written with an escape is never a keyword. -/
  escaped : Bool := false
  octal : Bool := false
  deriving DecidableEq, Repr, Inhabited

/-- State of reading: the current token and the text still to be read. -/
structure Lexer where
  /-- Bytes in the whole source. -/
  size : Nat
  /-- The text after the current token. -/
  rest : List Char
  /-- End of the current token. -/
  pos : Nat
  /-- Where the white space and comments before the token start. -/
  fullStart : Nat
  /-- Start of the current token. -/
  start : Nat
  /-- The text from the current token on. -/
  startRest : List Char
  token : Token
  /-- The name an identifier spells, or the text a literal holds. -/
  value : String
  flags : TokenFlags
  /-- The first error that nobody has taken. -/
  fault : Option Fault
  deriving Repr, Inhabited

namespace Lexer

/-- A lexer before its first token. -/
def ofText (cs : List Char) : Lexer where
  size := Text.byteLength cs
  rest := cs
  pos := 0
  fullStart := 0
  start := 0
  startRest := cs
  token := .unknown
  value := ""
  flags := {}
  fault := none

/-- Text of the current token. -/
def text (l : Lexer) : String :=
  String.ofList ((Text.take? l.startRest (l.pos - l.start)).getD [])

/-- Bytes after the current token. -/
def bytesLeft (l : Lexer) : Nat :=
  l.size - l.pos

/-! ## White space and comments -/

/-- Where the reader of white space and comments stands. -/
inductive Within where
  | blank | lineComment | blockComment
  deriving DecidableEq, Repr

/-- White space and comments before a token. -/
structure Gap where
  rest : List Char
  stop : Nat
  /-- The gap holds a line end. -/
  broken : Bool
  /-- The text ends inside a comment. -/
  unclosed : Bool
  deriving Repr

def skipGap : Within → Nat → Bool → List Char → Gap
  | .blank, pos, broken, [] => ⟨[], pos, broken, false⟩
  | .blank, pos, broken, '/' :: '/' :: cs => skipGap .lineComment (pos + 2) broken cs
  | .blank, pos, broken, '/' :: '*' :: cs => skipGap .blockComment (pos + 2) broken cs
  | .blank, pos, broken, c :: cs =>
    if Text.isLineBreak c then skipGap .blank (pos + c.utf8Size) true cs
    else if Token.isInlineBlank c then skipGap .blank (pos + c.utf8Size) broken cs
    else ⟨c :: cs, pos, broken, false⟩
  | .lineComment, pos, broken, [] => ⟨[], pos, broken, false⟩
  | .lineComment, pos, broken, c :: cs =>
    if Text.isLineBreak c then skipGap .blank (pos + c.utf8Size) true cs
    else skipGap .lineComment (pos + c.utf8Size) broken cs
  | .blockComment, pos, broken, [] => ⟨[], pos, broken, true⟩
  | .blockComment, pos, broken, '*' :: '/' :: cs => skipGap .blank (pos + 2) broken cs
  | .blockComment, pos, broken, c :: cs =>
    skipGap .blockComment (pos + c.utf8Size) (broken || Text.isLineBreak c) cs

/-! ## Tokens

Each reader gets the offset and the text where its token starts, or where the part it reads starts,
and answers where that ends.
-/

/-- A place in the source: an offset and the text from there on. -/
structure Place where
  pos : Nat
  rest : List Char
  deriving Repr

/-- Punctuation, longer texts first. A `>` is read alone, so that nested type arguments close one
at a time. -/
def punctuation : List (List Char × Token) :=
  [("...".toList, .ellipsis), ("===".toList, .equalsEqualsEquals),
   ("!==".toList, .exclamationEqualsEquals), ("<<=".toList, .shiftLeftEquals),
   ("**=".toList, .asteriskAsteriskEquals),
   ("==".toList, .equalsEquals), ("!=".toList, .exclamationEquals), ("=>".toList, .arrow),
   ("<<".toList, .shiftLeft), ("<=".toList, .lessThanEquals), ("++".toList, .plusPlus),
   ("--".toList, .minusMinus), ("**".toList, .asteriskAsterisk), ("&&".toList, .ampersandAmpersand),
   ("||".toList, .barBar), ("+=".toList, .plusEquals), ("-=".toList, .minusEquals),
   ("*=".toList, .asteriskEquals), ("/=".toList, .slashEquals), ("%=".toList, .percentEquals),
   ("&=".toList, .ampersandEquals), ("|=".toList, .barEquals), ("^=".toList, .caretEquals),
   (['\x7b'], .openBrace), (['\x7d'], .closeBrace), (['('], .openParen), ([')'], .closeParen),
   (['['], .openBracket), ([']'], .closeBracket), ([';'], .semicolon), ([','], .comma),
   ([':'], .colon), (['?'], .question), (['~'], .tilde), (['.'], .dot), (['<'], .lessThan),
   (['>'], .greaterThan), (['='], .equals), (['!'], .exclamation), (['+'], .plus),
   (['-'], .minus), (['*'], .asterisk), (['/'], .slash), (['%'], .percent), (['&'], .ampersand),
   (['|'], .bar), (['^'], .caret)]

def punctuator? (cs : List Char) : Option (List Char × Token) :=
  punctuation.find? fun entry => entry.1.isPrefixOf cs

/-- End of a string literal whose quote is `quote`, and whether it is closed. -/
def stringEnd (quote : Char) : Nat → List Char → Place × Bool
  | pos, [] => (⟨pos, []⟩, false)
  | pos, '\\' :: '\r' :: '\n' :: cs => stringEnd quote (pos + 3) cs
  | pos, '\\' :: c :: cs => stringEnd quote (pos + 1 + c.utf8Size) cs
  | pos, ['\\'] => (⟨pos + 1, []⟩, false)
  | pos, c :: cs =>
    if c == '\n' || c == '\r' then (⟨pos, c :: cs⟩, false)
    else if c == quote then (⟨pos + 1, cs⟩, true)
    else stringEnd quote (pos + c.utf8Size) cs

/-- How a piece of template text ends. -/
inductive TemplateEnd where
  | closed | substitution | endOfText
  deriving DecidableEq, Repr

def templateEnd : Nat → List Char → Place × TemplateEnd
  | pos, [] => (⟨pos, []⟩, .endOfText)
  | pos, '\x60' :: cs => (⟨pos + 1, cs⟩, .closed)
  | pos, '$' :: '\x7b' :: cs => (⟨pos + 2, cs⟩, .substitution)
  | pos, '\\' :: '\r' :: '\n' :: cs => templateEnd (pos + 3) cs
  | pos, '\\' :: c :: cs => templateEnd (pos + 1 + c.utf8Size) cs
  | pos, ['\\'] => (⟨pos + 1, []⟩, .endOfText)
  | pos, c :: cs => templateEnd (pos + c.utf8Size) cs

/-- End of a regular expression body, and whether its closing slash is there. A slash in a class
does not close it. -/
def regexEnd : Bool → Nat → List Char → Place × Bool
  | _, pos, [] => (⟨pos, []⟩, false)
  | inClass, pos, '\\' :: c :: cs =>
    if Text.isLineBreak c then (⟨pos + 1, c :: cs⟩, false)
    else regexEnd inClass (pos + 1 + c.utf8Size) cs
  | _, pos, ['\\'] => (⟨pos + 1, []⟩, false)
  | inClass, pos, c :: cs =>
    if Text.isLineBreak c then (⟨pos, c :: cs⟩, false)
    else if c == '/' && !inClass then (⟨pos + 1, cs⟩, true)
    else regexEnd (c == '[' || (inClass && c != ']')) (pos + c.utf8Size) cs

/-- Skips the leading digits to the base `radix`. -/
def skipDigits (radix : Nat) (p : Place) : Place :=
  let digits := p.rest.takeWhile (Token.isDigitOf radix)
  ⟨p.pos + digits.length, p.rest.dropWhile (Token.isDigitOf radix)⟩

/-- Skips one character that is known to take one byte. -/
def skipByte (p : Place) : Place :=
  ⟨p.pos + 1, p.rest.tail⟩

def startsWith (p : Place) (accept : Char → Bool) : Bool :=
  p.rest.head?.any accept

/-- Skips the fraction of a decimal literal. -/
def skipFraction (p : Place) : Place :=
  if startsWith p (· == '.') then skipDigits 10 (skipByte p) else p

/-- Skips the exponent of a decimal literal, which needs a digit. -/
def skipExponent (p : Place) : Place × Option Fault :=
  if startsWith p (fun c => c == 'e' || c == 'E') then
    let afterMark := skipByte p
    let afterSign :=
      if startsWith afterMark (fun c => c == '+' || c == '-') then skipByte afterMark
      else afterMark
    let stop := skipDigits 10 afterSign
    (stop, if stop.pos == afterSign.pos then some ⟨stop.pos, 0, .digitExpected⟩ else none)
  else (p, none)

/-- The base announced by the letter after a leading zero. -/
def radix? : Char → Option Nat
  | 'x' | 'X' => some 16
  | 'o' | 'O' => some 8
  | 'b' | 'B' => some 2
  | _ => none

/-- A number literal: where it ends, whether it is an old-style octal, and its first error. -/
structure NumberEnd where
  place : Place
  octal : Bool := false
  fault : Option Fault := none

def decimalEnd (p : Place) : NumberEnd :=
  let (place, fault) := skipExponent (skipFraction (skipDigits 10 p))
  { place, fault }

def numberBody (p : Place) : NumberEnd :=
  match p.rest with
  | '0' :: c :: _ =>
    match radix? c with
    | some radix =>
      let digits := skipByte (skipByte p)
      let place := skipDigits radix digits
      let message := if radix == 16 then Message.hexadecimalDigitExpected else .digitExpected
      { place, fault := if place.pos == digits.pos then some ⟨place.pos, 0, message⟩ else none }
    | none =>
      if Token.isAsciiDigit c &&
          (p.rest.takeWhile Token.isAsciiDigit).all (Token.isDigitOf 8) then
        { place := skipDigits 10 p, octal := true }
      else decimalEnd p
  | _ => decimalEnd p

/-- A number literal must not run into a name or a further digit. -/
def numberEnd (p : Place) : NumberEnd :=
  let body := numberBody p
  match body.place.rest with
  | c :: _ =>
    if Token.isNameStart c || Token.isAsciiDigit c then
      { body with fault := body.fault <|> some ⟨body.place.pos, c.utf8Size, .invalidCharacter⟩ }
    else body
  | [] => body

/-- Value of hexadecimal digits; there must be one, and nothing else. -/
def hexValue? : List Char → Option Nat
  | [] => none
  | cs => cs.foldl (fun value c => return (← value) * 16 + (← Token.hexDigit? c)) (some 0)

/-- The character an escape stands for, its length, and the text after it. The text given starts
after the backslash. -/
def unicodeEscape? (cs : List Char) : Option (Char × Nat × List Char) := do
  let (digits, length, rest) ←
    match cs with
    | 'u' :: '\x7b' :: tail =>
      let digits := tail.takeWhile (· != '\x7d')
      match tail.dropWhile (· != '\x7d') with
      | _ :: rest => some (digits, digits.length + 4, rest)
      | [] => none
    | 'u' :: a :: b :: c :: d :: rest => some ([a, b, c, d], 6, rest)
    | _ => none
  let value ← hexValue? digits
  if value.isValidChar then some (Char.ofNat value, length, rest) else none

/-- A name while it is read: its characters so far are in reverse order. -/
structure NameEnd where
  place : Place
  reversed : List Char := []
  escaped : Bool := false
  fault : Option Fault := none

/-- Reads a name. A first character must be able to start one; `bound` is at least the number of
characters left. -/
def nameEnd : Nat → Bool → NameEnd → NameEnd
  | 0, _, name => name
  | bound + 1, first, name =>
    let fits (c : Char) : Bool := if first then Token.isNameStart c else Token.isNamePart c
    match name.place.rest with
    | [] => name
    | '\\' :: cs =>
      let pos := name.place.pos
      match unicodeEscape? cs with
      | some (c, length, rest) =>
        if fits c then
          nameEnd bound false
            { name with place := ⟨pos + length, rest⟩, reversed := c :: name.reversed,
                        escaped := true }
        else
          nameEnd bound false
            { name with place := ⟨pos + length, rest⟩,
                        fault := name.fault <|> some ⟨pos, length, .invalidCharacter⟩ }
      | none =>
        nameEnd bound false
          { name with place := ⟨pos + 1, cs⟩,
                      fault := name.fault <|> some ⟨pos, 1, .invalidCharacter⟩ }
    | c :: cs =>
      if fits c then
        nameEnd bound false
          { name with place := ⟨name.place.pos + c.utf8Size, cs⟩, reversed := c :: name.reversed }
      else name

/-! ## The current token -/

/-- The text of `n` bytes at the start of `cs`. -/
def textOf (cs : List Char) (n : Nat) : String :=
  String.ofList ((Text.take? cs n).getD [])

/-- Records an error unless one is waiting. -/
def withFault (l : Lexer) (fault : Option Fault) : Lexer :=
  { l with fault := l.fault <|> fault }

/-- Ends the current token at a place. -/
def finish (l : Lexer) (token : Token) (p : Place) (value : String) : Lexer :=
  { l with token, pos := p.pos, rest := p.rest, value }

def readString (l : Lexer) (quote : Char) (body : List Char) : Lexer :=
  let (p, closed) := stringEnd quote (l.start + 1) body
  let length := p.pos - l.start
  let l := l.finish .string p (textOf body (length - (if closed then 2 else 1)))
  if closed then l
  else { l with flags := { l.flags with unterminated := true } }.withFault
    (some ⟨l.start, length, .unterminatedString⟩)

/-- Reads template text after a backtick (`head`) or after the brace that ends a substitution. -/
def readTemplate (l : Lexer) (head : Bool) (body : List Char) : Lexer :=
  let (p, how) := templateEnd (l.start + 1) body
  let value := textOf body (p.pos - l.start - 1)
  match how with
  | .closed => l.finish (if head then .template else .templateTail) p value
  | .substitution => l.finish (if head then .templateHead else .templateMiddle) p value
  | .endOfText =>
    let l := l.finish (if head then .template else .templateTail) p value
    { l with flags := { l.flags with unterminated := true } }.withFault
      (some ⟨l.start, p.pos - l.start, .unterminatedTemplate⟩)

def readNumber (l : Lexer) : Lexer :=
  let number := numberEnd ⟨l.start, l.startRest⟩
  let l := l.finish .number number.place (textOf l.startRest (number.place.pos - l.start))
  { l with flags := { l.flags with octal := number.octal } }.withFault number.fault

def readName (l : Lexer) : Lexer :=
  let name := nameEnd (l.size - l.start + 1) true { place := ⟨l.start, l.startRest⟩ }
  let value := String.ofList name.reversed.reverse
  let token := if name.escaped then .identifier else (Token.keyword? value).getD .identifier
  let l := l.finish token name.place value
  { l with flags := { l.flags with escaped := name.escaped } }.withFault name.fault

/-- Reads the token at the start of `l.startRest`. -/
def readToken (l : Lexer) : Lexer :=
  match l.startRest with
  | [] => l.finish .endOfFile ⟨l.start, []⟩ ""
  | c :: cs =>
    if Token.isAsciiDigit c || (c == '.' && cs.head?.any Token.isAsciiDigit) then l.readNumber
    else if c == '\x22' || c == '\x27' then l.readString c cs
    else if c == '\x60' then l.readTemplate true cs
    else if c == '\\' || Token.isNameStart c then l.readName
    else
      match punctuator? (c :: cs) with
      | some (spelling, token) =>
        l.finish token ⟨l.start + spelling.length, (c :: cs).drop spelling.length⟩ ""
      | none =>
        (l.finish .unknown ⟨l.start + c.utf8Size, cs⟩ "").withFault
          (some ⟨l.start, c.utf8Size, .invalidCharacter⟩)

/-- Reads the next token. -/
def next (l : Lexer) : Lexer :=
  let gap := skipGap .blank l.pos false l.rest
  let l := { l with
    fullStart := l.pos, start := gap.stop, startRest := gap.rest,
    flags := { lineBreakBefore := gap.broken } }
  let l := if gap.unclosed then l.withFault (some ⟨gap.stop, 0, .commentNotTerminated⟩) else l
  l.readToken

/-- Skips a first line that starts with `#!`, up to its end. -/
def skipShebang (l : Lexer) : Lexer :=
  match l.rest with
  | '#' :: '!' :: cs =>
    if l.pos == 0 then
      let skipped := cs.takeWhile (!Text.isLineBreak ·)
      { l with
        pos := 2 + Text.byteLength skipped, rest := cs.dropWhile (!Text.isLineBreak ·) }
    else l
  | _ => l

/-- Reads a slash again, as a regular expression. -/
def rereadSlash (l : Lexer) : Lexer :=
  if l.token == .slash || l.token == .slashEquals then
    let (p, closed) := regexEnd false (l.start + 1) l.startRest.tail
    if closed then
      let flags := p.rest.takeWhile Token.isNamePart
      let p : Place := ⟨p.pos + Text.byteLength flags, p.rest.dropWhile Token.isNamePart⟩
      l.finish .regex p (textOf l.startRest (p.pos - l.start))
    else
      let l := l.finish .regex p (textOf l.startRest (p.pos - l.start))
      { l with flags := { l.flags with unterminated := true } }.withFault
        (some ⟨l.start, p.pos - l.start, .unterminatedRegex⟩)
  else l

/-- Reads a closing brace again, as the rest of a template. -/
def rereadBrace (l : Lexer) : Lexer :=
  if l.token == .closeBrace then l.readTemplate false l.startRest.tail else l

/-- Reads a `>` again, together with the `>` and `=` that follow it directly. -/
def rereadGreater (l : Lexer) : Lexer :=
  if l.token == .greaterThan then
    let (token, extra) : Token × Nat :=
      match l.rest with
      | '>' :: '>' :: '=' :: _ => (.shiftRightUnsignedEquals, 3)
      | '>' :: '>' :: _ => (.shiftRightUnsigned, 2)
      | '>' :: '=' :: _ => (.shiftRightEquals, 2)
      | '>' :: _ => (.shiftRight, 1)
      | '=' :: _ => (.greaterThanEquals, 1)
      | _ => (.greaterThan, 0)
    l.finish token ⟨l.pos + extra, l.rest.drop extra⟩ l.value
  else l

end Lexer

end FlowErasure
