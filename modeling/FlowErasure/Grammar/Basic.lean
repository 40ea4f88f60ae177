import FlowErasure.ParseError
import FlowErasure.Syntax.Tree
import FlowErasure.Token.Lexer

/-!
# Parsers

A parser reads tokens, appends nodes to a tree, and stops at the first error. What it may assume
of its surroundings is a `Context`, which it can change for a part only. An error keeps the state
in which it arose; `attempt` goes back from it to the tokens and the number of nodes it started
with.

Loops go through `iterate`. Each round of a loop reads a token, so a loop has no more rounds than
there are bytes left.
-/

namespace FlowErasure.Grammar

/-- What the surrounding syntax says about the part being read. -/
structure Context where
  /-- In an async function, where `await` is an operator. -/
  inAsync : Bool := false
  /-- In a generator, where `yield` is an operator. -/
  inGenerator : Bool := false
  /-- In the head of a `for`, where `in` ends the expression. -/
  noIn : Bool := false
  /-- At the end of the first branch of a conditional, where a colon belongs to the conditional and
  not to a return type. -/
  conditionalTail : Bool := false
  deriving DecidableEq, Repr, Inhabited

structure State where
  lexer : Lexer
  /-- End of the last token that was consumed. -/
  lastEnd : Nat
  tree : Tree
  deriving Repr, Inhabited

abbrev Parser := ReaderT Context (EStateM Failure State)

variable {α : Type}

/-! ## Tokens -/

/-- Kind of the current token. -/
def token : Parser Token :=
  return (← get).lexer.token

def tokenStart : Parser Nat :=
  return (← get).lexer.start

/-- The name or literal text of the current token. -/
def tokenValue : Parser String :=
  return (← get).lexer.value

def isAt (t : Token) : Parser Bool :=
  return (← token) == t

def isAtAny (ts : List Token) : Parser Bool :=
  return ts.contains (← token)

/-- Does a line end before the current token? -/
def afterLineBreak : Parser Bool :=
  return (← get).lexer.flags.lineBreakBefore

/-- End of the last token that was consumed. -/
def lastEnd : Parser Nat :=
  return (← get).lastEnd

/-! ## Errors -/

def failAt (start length : Nat) (message : Message) : Parser α :=
  throw { start, length, message }

def failAtTokenWith (message : Message) (arguments : List String) : Parser α := do
  let l := (← get).lexer
  throw { start := l.start, length := l.pos - l.start, message, arguments }

def failAtToken (message : Message) : Parser α :=
  failAtTokenWith message []

def failExpecting (t : Token) : Parser α :=
  failAtTokenWith .tokenExpected [t.description]

def failUnexpected : Parser α := do
  if ← isAt .endOfFile then failAtToken .unexpectedEndOfText else failAtToken .unexpectedToken

/-- Turns an error of the lexer into an error of the parser. -/
def raiseFault : Parser Unit := do
  match (← get).lexer.fault with
  | none => pure ()
  | some fault =>
    modify fun s => { s with lexer := { s.lexer with fault := none } }
    failAt fault.start fault.length fault.message

/-! ## Consuming tokens -/

/-- Consumes the current token. -/
def advance : Parser Unit := do
  modify fun s => { s with lastEnd := s.lexer.pos, lexer := s.lexer.next }
  raiseFault

def expect (t : Token) : Parser Unit := do
  if ← isAt t then advance else failExpecting t

/-- Consumes the current token if it is `t`, and answers whether it was. -/
def accept (t : Token) : Parser Bool := do
  if ← isAt t then
    advance
    return true
  else
    return false

/-- Can a statement end before the current token? -/
def canEndStatement : Parser Bool := do
  if ← isAtAny [.semicolon, .closeBrace, .endOfFile] then return true else afterLineBreak

/-- Ends a statement, with a semicolon or where none is needed. -/
def endStatement : Parser Unit := do
  if ← isAt .semicolon then advance
  else if ← canEndStatement then pure ()
  else failExpecting .semicolon

def rereadSlash : Parser Unit := do
  modify fun s => { s with lexer := s.lexer.rereadSlash }
  raiseFault

def rereadBrace : Parser Unit := do
  modify fun s => { s with lexer := s.lexer.rereadBrace }
  raiseFault

/-- In an expression, a `>` takes the characters that follow it into one operator. -/
def rereadGreater : Parser Unit :=
  modify fun s => { s with lexer := s.lexer.rereadGreater }

/-- Does the token after the current one satisfy `accepts`? -/
def lookAhead (accepts : Token → Bool) : Parser Bool :=
  return accepts (← get).lexer.next.token

/-- The same, with no line end before that token. -/
def lookAheadOnLine (accepts : Token → Bool) : Parser Bool := do
  let next := (← get).lexer.next
  return !next.flags.lineBreakBefore && accepts next.token

/-! ## Speculation and repetition -/

/-- Runs a parser. If it fails, the tokens it consumed are read again and the nodes it appended are
dropped. The names it met are kept. -/
def attempt (p : Parser α) : Parser (Option α) := fun context s =>
  match p context s with
  | .ok a s' => .ok (some a) s'
  | .error _ s' => .ok none { s with tree := s'.tree.truncate s.tree.size }

def iterateWithin (step : α → Parser (Option α)) : Nat → α → Parser α
  | 0, _ => failUnexpected
  | bound + 1, a => do
    match ← step a with
    | none => return a
    | some b => iterateWithin step bound b

/-- Applies `step` until it answers `none`. Each round but the last consumes a token. -/
def iterate (step : α → Parser (Option α)) (a : α) : Parser α := do
  iterateWithin step ((← get).lexer.bytesLeft + 2) a

/-- Runs `item` until it answers `none`, and lists the answers. -/
def collect (item : Parser (Option α)) : Parser (List α) :=
  List.reverse <$> iterate (fun items => return (← item).map (· :: items)) []

/-- Items up to `close`, with a comma after each but perhaps the last. -/
def commaTerminated (close : Token) (item : Parser α) : Parser (List α) :=
  collect do
    if ← isAt close then return none
    let a ← item
    unless ← isAt close do expect .comma
    return some a

/-- One item, and one more after each comma. -/
def commaSeparated (item : Parser α) : Parser (List α) := do
  let first ← item
  let more ← collect do if ← accept .comma then some <$> item else return none
  return first :: more

/-- Items up to `close`; the first that no comma follows is the last. -/
def commaDelimited (close : Token) (item : Parser α) : Parser (List α) := do
  let step : List α × Bool → Parser (Option (List α × Bool)) := fun (items, more) => do
    if !more || (← isAt close) then return none
    let a ← item
    return some (a :: items, ← accept .comma)
  let (items, _) ← iterate step ([], true)
  return items.reverse

/-! ## Nodes -/

/-- What a node has beside kind, range and slots. -/
structure Details where
  flags : NodeFlags := {}
  token : Token := .unknown
  name : Atom := 0

def addNode (node : Node) : Parser NodeId :=
  modifyGet fun s =>
    let (id, tree) := s.tree.add node
    (id, { s with tree })

/-- Appends a node that reaches from `start` to the end of the last consumed token. -/
def finishWith (kind : NodeKind) (start : Nat) (slots : List Slot) (details : Details) :
    Parser NodeId := do
  let stop ← lastEnd
  addNode
    { kind, start, stop, slots
      flags := details.flags, token := details.token, name := details.name }

def finish (kind : NodeKind) (start : Nat) (slots : List Slot) : Parser NodeId :=
  finishWith kind start slots {}

/-- A list of nodes from `start` to the end of the last consumed token. -/
def listFrom (start : Nat) (nodes : List NodeId) : Parser Slot :=
  return .list ⟨nodes.map some, start, ← lastEnd⟩

def updateNode (id : NodeId) (f : Node → Node) : Parser Unit :=
  modify fun s => { s with tree := s.tree.modify id f }

def getNode? (id : NodeId) : Parser (Option Node) :=
  return (← get).tree.get? id

/-! ## Names and literals -/

/-- The name of the current token, in the pool. -/
def tokenAtom : Parser Atom :=
  modifyGet fun s =>
    let (atom, names) := s.tree.names.intern s.lexer.value
    (atom, { s with tree := { s.tree with names } })

/-- Can the current token be a name here? -/
def isIdentifier : Parser Bool := do
  let context ← read
  match ← token with
  | .yieldKeyword => return !context.inGenerator
  | .awaitKeyword => return !context.inAsync
  | t => return t.isName

/-- Any word, as after a dot or in a property key. -/
def identifierName : Parser NodeId := do
  if !(← token).isWord then failAtToken .identifierExpected
  let start ← tokenStart
  let name ← tokenAtom
  advance
  finishWith .identifier start [] { name }

def identifier : Parser NodeId := do
  if ← isIdentifier then identifierName else failAtToken .identifierExpected

/-- Consumes the current token into a literal node. -/
def literal : Parser NodeId := do
  let start ← tokenStart
  let token ← token
  advance
  finishWith .literal start [] { token }

def stringLiteral : Parser NodeId := do
  if ← isAt .string then literal else failExpecting .string

end FlowErasure.Grammar
