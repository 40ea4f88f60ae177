import FlowErasure.Grammar.Modules

/-!
# Statements
-/

namespace FlowErasure.Grammar

variable (inner : Nested)

/-- Does the current token start a declaration that speaks of types alone? -/
def startsErasedDeclaration : Parser Bool := do
  match ← token with
  | .typeKeyword | .interfaceKeyword => startsTypeDeclaration
  | .declareKeyword => startsDeclareDeclaration
  | _ => return false

/-- The body of an `if`, a loop, a `with` or a label. Without it there would be no statement left,
so it must not be a declaration that is erased. -/
def embeddedStatement : Parser NodeId := do
  if ← startsErasedDeclaration then failAtToken .typeDeclarationNotAllowedHere
  else inner.statement

/-- An expression in parentheses, as in the head of an `if`. -/
def condition : Parser NodeId := do
  expect .openParen
  let test ← allowingIn (expression inner)
  expect .closeParen
  return test

/-! ## Branches -/

def ifStatement : Parser NodeId := do
  let start ← tokenStart
  advance
  let test ← condition inner
  let consequent ← embeddedStatement inner
  let alternate ← if ← accept .elseKeyword then some <$> embeddedStatement inner else pure none
  finish .ifStatement start [.node test, .node consequent, .ofOption alternate]

def switchCase : Parser NodeId := do
  let start ← tokenStart
  let test ←
    match ← token with
    | .caseKeyword =>
      advance
      some <$> expression inner
    | .defaultKeyword =>
      advance
      pure none
    | _ => failExpecting .caseKeyword
  expect .colon
  let listStart ← lastEnd
  let consequent ← collect do
    if ← isAtAny [.caseKeyword, .defaultKeyword, .closeBrace, .endOfFile] then return none
    some <$> inner.statement
  finish .switchCase start [.ofOption test, ← listFrom listStart consequent]

def switchStatement : Parser NodeId := do
  let start ← tokenStart
  advance
  let discriminant ← condition inner
  expect .openBrace
  let listStart ← lastEnd
  let cases ← collect do
    if ← isAt .closeBrace then return none
    some <$> switchCase inner
  let stop ← tokenStart
  advance
  finish .switchStatement start [.node discriminant, .list ⟨cases.map some, listStart, stop⟩]

/-! ## Loops -/

/-- A semicolon may always be left out after the condition. -/
def doStatement : Parser NodeId := do
  let start ← tokenStart
  advance
  let body ← embeddedStatement inner
  expect .whileKeyword
  let test ← condition inner
  let _ ← accept .semicolon
  finish .doWhileStatement start [.node body, .node test]

/-- `while` and `with`: a head in parentheses and a body. -/
def headedStatement (kind : NodeKind) : Parser NodeId := do
  let start ← tokenStart
  advance
  let head ← condition inner
  let body ← embeddedStatement inner
  finish kind start [.node head, .node body]

/-- The first part of the head of a `for`, in which `in` is no operator. -/
def forInit : Parser (Option NodeId) := do
  if ← isAt .semicolon then return none
  withReader ({ · with noIn := true }) do
    if ← startsVariables then variableDeclaration inner else expression inner

/-- Which loop over the members of a value a token belongs to. -/
def enumeration? : Token → Option NodeKind
  | .inKeyword => some .forInStatement
  | .ofKeyword => some .forOfStatement
  | _ => none

/-- What a loop over members assigns to. -/
def forTarget (init : NodeId) : Parser NodeId := do
  if (← get).tree.kind? init == some .variableDeclaration then return init
  else assignmentTarget init

/-- A `for` over members, from the token after its target. -/
def forEachRest (start : Nat) (kind : NodeKind) (init : NodeId) : Parser NodeId := do
  let left ← forTarget init
  advance
  let right ← allowingIn (if kind == .forOfStatement then inner.assignment else expression inner)
  expect .closeParen
  let body ← embeddedStatement inner
  finish kind start [.node left, .node right, .node body]

/-- An expression, unless `close` stands in its place. -/
def expressionBefore? (close : Token) : Parser (Option NodeId) := do
  if ← isAt close then return none else allowingIn (expression inner)

/-- A `for` with a test and an update, from the first semicolon. -/
def forRest (start : Nat) (init : Option NodeId) : Parser NodeId := do
  expect .semicolon
  let test ← expressionBefore? inner .semicolon
  expect .semicolon
  let update ← expressionBefore? inner .closeParen
  expect .closeParen
  let body ← embeddedStatement inner
  finish .forStatement start [.ofOption init, .ofOption test, .ofOption update, .node body]

def forStatement : Parser NodeId := do
  let start ← tokenStart
  advance
  expect .openParen
  let init ← forInit inner
  match enumeration? (← token), init with
  | some kind, some init => forEachRest inner start kind init
  | _, _ => forRest inner start init

/-! ## Jumps -/

def breakOrContinue (kind : NodeKind) : Parser NodeId := do
  let start ← tokenStart
  advance
  let labelled ← if ← canEndStatement then pure false else isIdentifier
  let label ← if labelled then some <$> identifier else pure none
  endStatement
  finish kind start [.ofOption label]

def returnStatement : Parser NodeId := do
  let start ← tokenStart
  advance
  let argument ← if ← canEndStatement then pure none else some <$> expression inner
  endStatement
  finish .returnStatement start [.ofOption argument]

def throwStatement : Parser NodeId := do
  let start ← tokenStart
  advance
  if ← afterLineBreak then failAtToken .lineBreakNotPermitted
  let argument ← expression inner
  endStatement
  finish .throwStatement start [.node argument]

def catchClause : Parser NodeId := do
  let start ← tokenStart
  advance
  expect .openParen
  let param ← bindingTarget inner false
  expect .closeParen
  let body ← blockStatement inner
  finish .catchClause start [.node param, .node body]

def tryStatement : Parser NodeId := do
  let start ← tokenStart
  advance
  let block ← blockStatement inner
  let handler ← if ← isAt .catchKeyword then some <$> catchClause inner else pure none
  let finalizer ← if ← accept .finallyKeyword then some <$> blockStatement inner else pure none
  if handler.isNone && finalizer.isNone then failExpecting .catchKeyword
  finish .tryStatement start [.node block, .ofOption handler, .ofOption finalizer]

/-! ## Statements -/

/-- A statement of one token. -/
def emptyStatement : Parser NodeId := do
  let start ← tokenStart
  advance
  finish .emptyStatement start []

def debuggerStatement : Parser NodeId := do
  let start ← tokenStart
  advance
  endStatement
  finish .debuggerStatement start []

def expressionOrLabeled : Parser NodeId := do
  let start ← tokenStart
  let labelled ← if ← isIdentifier then lookAhead (· == .colon) else pure false
  if labelled then
    let label ← identifier
    expect .colon
    let body ← embeddedStatement inner
    finish .labeledStatement start [.node label, .node body]
  else
    let expression ← expression inner
    endStatement
    finish .expressionStatement start [.node expression]

/-- A declaration that speaks of types alone. -/
def erasedDeclaration : Parser NodeId := do
  let start ← tokenStart
  match ← token with
  | .typeKeyword => typeAlias inner start {}
  | .interfaceKeyword => interfaceDeclaration inner start {}
  | _ => declareStatement inner

/-- A statement that its first token does not decide on its own. -/
def otherStatement : Parser NodeId := do
  if ← startsVariables then variableStatement inner
  else if ← startsFunction then functionDeclaration inner false
  else if ← startsErasedDeclaration then erasedDeclaration inner
  else expressionOrLabeled inner

def statement : Parser NodeId := do
  match ← token with
  | .openBrace => blockStatement inner
  | .semicolon => emptyStatement
  | .classKeyword => classDeclaration inner false
  | .ifKeyword => ifStatement inner
  | .doKeyword => doStatement inner
  | .whileKeyword => headedStatement inner .whileStatement
  | .forKeyword => forStatement inner
  | .continueKeyword => breakOrContinue .continueStatement
  | .breakKeyword => breakOrContinue .breakStatement
  | .returnKeyword => returnStatement inner
  | .withKeyword => headedStatement inner .withStatement
  | .switchKeyword => switchStatement inner
  | .throwKeyword => throwStatement inner
  | .tryKeyword => tryStatement inner
  | .debuggerKeyword => debuggerStatement
  | .importKeyword => importDeclaration
  | .exportKeyword => exportDeclaration inner
  | .endOfFile => failAtToken .declarationOrStatementExpected
  | _ => otherStatement inner

end FlowErasure.Grammar
