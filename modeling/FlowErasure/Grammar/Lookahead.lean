import FlowErasure.Grammar.Basic

/-!
# Looking ahead

Decisions that need the tokens after the current one.
-/

namespace FlowErasure.Grammar

/-- `type` and `interface` start a declaration when a name follows on the same line. -/
def startsTypeDeclaration : Parser Bool :=
  lookAheadOnLine Token.isName

/-- `declare` starts a declaration when one of these follows on the same line. -/
def startsDeclareDeclaration : Parser Bool :=
  lookAheadOnLine fun t =>
    [.varKeyword, .letKeyword, .constKeyword, .functionKeyword, .classKeyword, .moduleKeyword,
     .typeKeyword, .interfaceKeyword].contains t

/-- `let` starts a declaration when a binding follows. -/
def startsLetDeclaration : Parser Bool :=
  lookAhead fun t => t.isName || t == .openBracket || t == .openBrace

/-- `async function` on one line. -/
def startsAsyncFunction : Parser Bool :=
  lookAheadOnLine (· == .functionKeyword)

/-- Tokens a property name can start with. -/
def startsPropertyName (t : Token) : Bool :=
  t.isWord || t == .string || t == .number || t == .openBracket

/-- Is the current word a modifier, with the name of a member after it? -/
def isMemberModifier (sameLine : Bool) : Parser Bool :=
  let accepts (t : Token) : Bool := startsPropertyName t || t == .asterisk
  if sameLine then lookAheadOnLine accepts else lookAhead accepts

/-- Is the current word the name of a parameter in a function type? -/
def isParameterName : Parser Bool :=
  lookAhead fun t => t == .colon || t == .question

/-- Does the `(` at hand open the parameters of a function type? -/
def opensTypeParameters : Parser Bool := do
  let next := (← get).lexer.next
  if next.token == .closeParen || next.token == .ellipsis then return true
  else if next.token.isWord then
    let after := next.next.token
    return after == .colon || after == .question
  else return false

/-! ## What follows a parenthesis -/

/-- What comes after the closing parenthesis of a list in parentheses. -/
inductive ParenFollow where
  | arrow
  /-- A colon: an arrow head only if a return type and an arrow come next. -/
  | colon
  | other
  /-- The brackets do not match; only reading the list can tell. -/
  | unknown
  deriving DecidableEq, Repr, Inhabited

/-- Tokens that can end an operand, so that a slash after them divides. -/
def endsOperand (t : Token) : Bool :=
  t.isName ||
    [.thisKeyword, .superKeyword, .nullKeyword, .trueKeyword, .falseKeyword, .number, .string,
     .regex, .template, .templateTail, .closeParen, .closeBracket, .closeBrace, .plusPlus,
     .minusMinus].contains t

/-- The token after `previous`, a slash being read as the context suggests. -/
def nextAfter (previous : Token) (l : Lexer) : Lexer :=
  let l := l.next
  if endsOperand previous then l else l.rereadSlash

/-- The bracket that a closing bracket matches. -/
def opener? : Token → Option Token
  | .closeParen => some .openParen
  | .closeBracket => some .openBracket
  | .closeBrace => some .openBrace
  | _ => none

/-- Reads on while brackets are open, the innermost first, and classifies the token after the last
one. The head of a template stands for its open substitution. -/
def followWithin : Nat → List Token → Token → Lexer → ParenFollow
  | 0, _, _, _ => .unknown
  | _, [], _, l =>
    match l.next.token with
    | .arrow => .arrow
    | .colon => .colon
    | _ => .other
  | bound + 1, innermost :: outer, previous, l =>
    let l := nextAfter previous l
    match l.token with
    | .openParen | .openBracket | .openBrace | .templateHead =>
      followWithin bound (l.token :: innermost :: outer) l.token l
    | .closeParen | .closeBracket | .closeBrace =>
      if innermost == .templateHead && l.token == .closeBrace then
        let l := l.rereadBrace
        followWithin bound (if l.token == .templateTail then outer else innermost :: outer) l.token l
      else if opener? l.token == some innermost then followWithin bound outer l.token l
      else .unknown
    | .endOfFile | .unknown => .unknown
    | _ => followWithin bound (innermost :: outer) l.token l

/-- What follows the list in parentheses that starts at the current token. -/
def parenFollow (l : Lexer) : ParenFollow :=
  followWithin (l.bytesLeft + 2) [.openParen] .openParen l

end FlowErasure.Grammar
