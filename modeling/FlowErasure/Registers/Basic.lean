import FlowErasure.Grammar.Lookahead
import FlowErasure.Grammar.Nested

/-!
# Registers

A parser that is handed nothing down: what surrounds the part being read, how deep it is nested and
what the current token is stand in registers, which every rule has to leave as it found them, on every
way out. `Machine` is where such a parser runs. It has the rules of the grammar, by the names they have
there, with instructions that set a register and set it back in the place of arguments.
-/

namespace FlowErasure.Grammar

structure Registers extends State where
  /-- Kind of the current token. The lexer knows it too, but it is read from here. -/
  current : Token
  context : Context
  /-- How many levels of nesting are open. -/
  depth : Nat

abbrev Machine := EStateM Failure Registers

namespace Machine

variable {α : Type}

/-! ## Tokens -/

def token : Machine Token :=
  return (← get).current

def tokenStart : Machine Nat :=
  return (← get).lexer.start

def tokenValue : Machine String :=
  return (← get).lexer.value

def isAt (t : Token) : Machine Bool :=
  return (← token) == t

def isAtAny (ts : List Token) : Machine Bool :=
  return ts.contains (← token)

def afterLineBreak : Machine Bool :=
  return (← get).lexer.flags.lineBreakBefore

def lastEnd : Machine Nat :=
  return (← get).lastEnd

def bytesLeft : Machine Nat :=
  return (← get).lexer.bytesLeft

/-! ## Errors -/

def failAt (start length : Nat) (message : Message) : Machine α :=
  throw { start, length, message }

def failAtTokenWith (message : Message) (arguments : List String) : Machine α := do
  let l := (← get).lexer
  throw { start := l.start, length := l.pos - l.start, message, arguments }

def failAtToken (message : Message) : Machine α :=
  failAtTokenWith message []

def failExpecting (t : Token) : Machine α :=
  failAtTokenWith .tokenExpected [t.description]

def failUnexpected : Machine α := do
  if ← isAt .endOfFile then failAtToken .unexpectedEndOfText else failAtToken .unexpectedToken

/-- Takes an error from the lexer and raises it. -/
def raiseFault : Machine Unit := do
  let fault := (← get).lexer.fault
  modify fun r => { r with lexer := { r.lexer with fault := none } }
  match fault with
  | none => pure ()
  | some fault => failAt fault.start fault.length fault.message

/-! ## Consuming tokens -/

/-- Moves the lexer, and takes the token that it has read. -/
def scan (move : Lexer → Lexer) : Machine Unit :=
  modify fun r =>
    let lexer := move r.lexer
    { r with lexer, current := lexer.token }

def advance : Machine Unit := do
  modify fun r => { r with lastEnd := r.lexer.pos }
  scan Lexer.next
  raiseFault

def expect (t : Token) : Machine Unit := do
  if ← isAt t then advance else failExpecting t

def accept (t : Token) : Machine Bool := do
  if ← isAt t then
    advance
    return true
  else
    return false

def canEndStatement : Machine Bool := do
  if ← isAtAny [.semicolon, .closeBrace, .endOfFile] then return true else afterLineBreak

def endStatement : Machine Unit := do
  if ← isAt .semicolon then advance
  else if ← canEndStatement then pure ()
  else failExpecting .semicolon

def rereadSlash : Machine Unit := do
  scan Lexer.rereadSlash
  raiseFault

def rereadBrace : Machine Unit := do
  scan Lexer.rereadBrace
  raiseFault

def rereadGreater : Machine Unit := do
  if ← isAt .greaterThan then scan Lexer.rereadGreater

/-- The first line has no token, so the current one stays. -/
def skipShebang : Machine Unit :=
  modify fun r => { r with lexer := r.lexer.skipShebang }

/-! ## Surroundings and nesting -/

def context : Machine Context :=
  return (← get).context

/-- Runs a part in other surroundings. They are set before it and reset after it, whether it answers
or fails. -/
def withContext (change : Context → Context) (p : Machine α) : Machine α := fun r =>
  let saved := r.context
  match p { r with context := change saved } with
  | .ok a r => .ok a { r with context := saved }
  | .error e r => .error e { r with context := saved }

def failTooDeep : Machine α :=
  failAtTokenWith .nestingDepthExceeded [toString nestingLimit]

/-- Runs a part one level of nesting deeper, unless that is too deep. The level is counted up before
the part and down after it, whether it answers or fails. -/
def guarded (p : Machine α) : Machine α := fun r =>
  if nestingLimit ≤ r.depth then failTooDeep r
  else
    match p { r with depth := r.depth + 1 } with
    | .ok a r => .ok a { r with depth := r.depth - 1 }
    | .error e r => .error e { r with depth := r.depth - 1 }

/-- Runs a part. If it fails, all registers are put back, the nodes that it appended are dropped, and
the names are kept. -/
def attempt (p : Machine α) : Machine (Option α) := fun r =>
  let saved := r
  match p r with
  | .ok a r => .ok (some a) r
  | .error _ r => .ok none { saved with tree := r.tree.truncate saved.tree.size }

/-! ## Looking ahead -/

/-- Lets the lexer go on to see what comes, and then puts it back. The register of the current token
is not asked to follow. -/
def lookThrough (look : StateM Lexer α) : Machine α := do
  let saved := (← get).lexer
  let (a, lexer) := look saved
  modify ({ · with lexer })
  modify ({ · with lexer := saved })
  return a

/-- The kind of the next token. -/
def upcoming : StateM Lexer Token := do
  modify Lexer.next
  return (← get).token

def lookAhead (accepts : Token → Bool) : Machine Bool :=
  lookThrough do return accepts (← upcoming)

def lookAheadOnLine (accepts : Token → Bool) : Machine Bool :=
  lookThrough do
    let t ← upcoming
    return !(← get).flags.lineBreakBefore && accepts t

def startsTypeDeclaration : Machine Bool :=
  lookAheadOnLine Token.isName

def startsDeclareDeclaration : Machine Bool :=
  lookAheadOnLine fun t =>
    [.varKeyword, .letKeyword, .constKeyword, .functionKeyword, .classKeyword, .moduleKeyword,
     .typeKeyword, .interfaceKeyword].contains t

def startsLetDeclaration : Machine Bool :=
  lookAhead fun t => t.isName || t == .openBracket || t == .openBrace

def startsAsyncFunction : Machine Bool :=
  lookAheadOnLine (· == .functionKeyword)

def isMemberModifier (sameLine : Bool) : Machine Bool :=
  let accepts (t : Token) : Bool := startsPropertyName t || t == .asterisk
  if sameLine then lookAheadOnLine accepts else lookAhead accepts

def isParameterName : Machine Bool :=
  lookAhead fun t => t == .colon || t == .question

def opensTypeParameters : Machine Bool :=
  lookThrough do
    let t ← upcoming
    if t == .closeParen || t == .ellipsis then return true
    else if t.isWord then
      let after ← upcoming
      return after == .colon || after == .question
    else return false

/-- Reads on while brackets are open, as `Grammar.followWithin` does. -/
def followWithin : Nat → List Token → Token → StateM Lexer ParenFollow
  | 0, _, _ => return .unknown
  | _, [], _ => do
    return match ← upcoming with
      | .arrow => .arrow
      | .colon => .colon
      | _ => .other
  | bound + 1, innermost :: outer, previous => do
    modify (nextAfter previous)
    let t := (← get).token
    match t with
    | .openParen | .openBracket | .openBrace | .templateHead =>
      followWithin bound (t :: innermost :: outer) t
    | .closeParen | .closeBracket | .closeBrace =>
      if innermost == .templateHead && t == .closeBrace then
        modify Lexer.rereadBrace
        let t := (← get).token
        followWithin bound (if t == .templateTail then outer else innermost :: outer) t
      else if opener? t == some innermost then followWithin bound outer t
      else return .unknown
    | .endOfFile | .unknown => return .unknown
    | _ => followWithin bound (innermost :: outer) t

def parenFollow : Machine ParenFollow :=
  lookThrough do followWithin ((← get).bytesLeft + 2) [.openParen] .openParen

/-! ## Repetition -/

def iterateWithin (step : α → Machine (Option α)) : Nat → α → Machine α
  | 0, _ => failUnexpected
  | bound + 1, a => do
    match ← step a with
    | none => return a
    | some b => iterateWithin step bound b

def iterate (step : α → Machine (Option α)) (a : α) : Machine α := do
  iterateWithin step ((← bytesLeft) + 2) a

def collect (item : Machine (Option α)) : Machine (List α) :=
  List.reverse <$> iterate (fun items => return (← item).map (· :: items)) []

def commaTerminated (close : Token) (item : Machine α) : Machine (List α) :=
  collect do
    if ← isAt close then return none
    let a ← item
    unless ← isAt close do expect .comma
    return some a

def commaSeparated (item : Machine α) : Machine (List α) := do
  let first ← item
  let more ← collect do if ← accept .comma then some <$> item else return none
  return first :: more

def commaDelimited (close : Token) (item : Machine α) : Machine (List α) := do
  let step : List α × Bool → Machine (Option (List α × Bool)) := fun (items, more) => do
    if !more || (← isAt close) then return none
    let a ← item
    return some (a :: items, ← accept .comma)
  let (items, _) ← iterate step ([], true)
  return items.reverse

/-! ## Nodes -/

def addNode (node : Node) : Machine NodeId :=
  modifyGet fun r =>
    let (id, tree) := r.tree.add node
    (id, { r with tree })

def finishWith (kind : NodeKind) (start : Nat) (slots : List Slot) (details : Details) :
    Machine NodeId := do
  let stop ← lastEnd
  addNode
    { kind, start, stop, slots
      flags := details.flags, token := details.token, name := details.name }

def finish (kind : NodeKind) (start : Nat) (slots : List Slot) : Machine NodeId :=
  finishWith kind start slots {}

def listFrom (start : Nat) (nodes : List NodeId) : Machine Slot :=
  return .list ⟨nodes.map some, start, ← lastEnd⟩

def updateNode (id : NodeId) (f : Node → Node) : Machine Unit :=
  modify fun r => { r with tree := r.tree.modify id f }

def getNode? (id : NodeId) : Machine (Option Node) :=
  return (← get).tree.get? id

/-! ## Names and literals -/

def tokenAtom : Machine Atom :=
  modifyGet fun r =>
    let (atom, names) := r.tree.names.intern r.lexer.value
    (atom, { r with tree := { r.tree with names } })

def isIdentifier : Machine Bool := do
  let context ← context
  match ← token with
  | .yieldKeyword => return !context.inGenerator
  | .awaitKeyword => return !context.inAsync
  | t => return t.isName

def identifierName : Machine NodeId := do
  if !(← token).isWord then failAtToken .identifierExpected
  let start ← tokenStart
  let name ← tokenAtom
  advance
  finishWith .identifier start [] { name }

def identifier : Machine NodeId := do
  if ← isIdentifier then identifierName else failAtToken .identifierExpected

def literal : Machine NodeId := do
  let start ← tokenStart
  let token ← token
  advance
  finishWith .literal start [] { token }

def stringLiteral : Machine NodeId := do
  if ← isAt .string then literal else failExpecting .string

end Machine

/-- The rules that open a level of nesting, each with the level. -/
structure Methods where
  statement : Machine NodeId
  assignment : Machine NodeId
  binary : Nat → Machine NodeId
  unary : Machine NodeId
  construction : Machine NodeId
  bindingTarget : Bool → Machine NodeId
  classMember : Machine NodeId
  type : Machine NodeId
  prefixType : Machine NodeId
  primaryType : Machine NodeId
  typeMember : Bool → Machine NodeId

end FlowErasure.Grammar
