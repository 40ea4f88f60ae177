import FlowErasure.Grammar.Expressions

/-!
# Declarations

Variables, functions and classes, and the declarations that speak of types alone.
-/

namespace FlowErasure.Grammar

variable (inner : Nested)

/-! ## Values -/

def variableDeclarator : Parser NodeId := do
  let start ← tokenStart
  let id ← bindingTarget inner false
  let init ← if ← accept .equals then some <$> inner.assignment else pure none
  finish .variableDeclarator start [.node id, .ofOption init]

/-- Variables without the semicolon that ends them. -/
def variableDeclaration : Parser NodeId := do
  let start ← tokenStart
  let token ← token
  advance
  let listStart ← tokenStart
  let declarators ← commaSeparated (variableDeclarator inner)
  finishWith .variableDeclaration start [← listFrom listStart declarators] { token }

/-- Variables as a statement, which reaches to the end of the semicolon. -/
def variableStatement : Parser NodeId := do
  let declaration ← variableDeclaration inner
  endStatement
  let stop ← lastEnd
  updateNode declaration ({ · with stop })
  return declaration

/-- Does the current token start a variable declaration? -/
def startsVariables : Parser Bool := do
  match ← token with
  | .varKeyword | .constKeyword => return true
  | .letKeyword => startsLetDeclaration
  | _ => return false

/-- Does the current token start a function declaration? -/
def startsFunction : Parser Bool := do
  match ← token with
  | .functionKeyword => return true
  | .asyncKeyword => startsAsyncFunction
  | _ => return false

def functionDeclaration (allowAnonymous : Bool) : Parser NodeId := do
  function inner .functionDeclaration (← tokenStart) allowAnonymous

def classDeclaration (allowAnonymous : Bool) : Parser NodeId := do
  classOf inner (leftHandSide inner) .classDeclaration (← tokenStart) allowAnonymous

/-! ## Types -/

/-- A type alias; `start` is where an `export` or a `declare` before it starts. -/
def typeAlias (start : Nat) (flags : NodeFlags) : Parser NodeId := do
  expect .typeKeyword
  let id ← identifier
  let typeParameters ← typeParameters? inner
  expect .equals
  let right ← inner.type
  endStatement
  finishWith .typeAlias start [.node id, .ofOption typeParameters, .node right] { flags }

/-- What an interface or a declared class extends; the list spans the whole clause. -/
def extendsClause : Parser Slot := do
  if !(← isAt .extendsKeyword) then return .absent
  let listStart ← tokenStart
  advance
  let bases ← commaSeparated do
    let start ← tokenStart
    let id ← qualifiedTypeName
    let typeArguments ← typeArguments? inner
    finish .interfaceExtends start [.node id, .ofOption typeArguments]
  listFrom listStart bases

/-- Name, type parameters, bases and members of an interface or a declared class. -/
def interfaceRest (allowStatic : Bool) : Parser (List Slot) := do
  let id ← identifier
  let typeParameters ← typeParameters? inner
  let bases ← extendsClause inner
  let body ← objectType inner allowStatic
  return [.node id, .ofOption typeParameters, bases, .node body]

def interfaceDeclaration (start : Nat) (flags : NodeFlags) : Parser NodeId := do
  expect .interfaceKeyword
  let rest ← interfaceRest inner false
  finishWith .interfaceDeclaration start rest { flags }

/-! ## Ambient declarations -/

/-- The name of a declared function; the ascription of the name is the type of the function. -/
def declaredFunctionName : Parser NodeId := do
  let start ← tokenStart
  if !(← isIdentifier) then failAtToken .identifierExpected
  let name ← tokenAtom
  advance
  let typeStart ← tokenStart
  let type ← methodType inner
  let ascription ← finish .ascription typeStart [.node type]
  finishWith .identifier start [.absent, .node ascription] { name }

def moduleName : Parser NodeId := do
  if ← isAt .string then stringLiteral else identifier

/-- A declaration after `declare`. -/
def declareStatement : Parser NodeId := do
  let start ← tokenStart
  advance
  match ← token with
  | .varKeyword | .letKeyword | .constKeyword =>
    advance
    let id ← bindingIdentifier inner false
    endStatement
    finish .declareVariable start [.node id]
  | .functionKeyword =>
    advance
    let id ← declaredFunctionName inner
    endStatement
    finish .declareFunction start [.node id]
  | .classKeyword =>
    advance
    let rest ← interfaceRest inner true
    finish .declareClass start rest
  | .moduleKeyword =>
    advance
    let id ← moduleName
    let body ← blockStatement inner
    finish .declareModule start [.node id, .node body]
  | .typeKeyword => typeAlias inner start { declared := true }
  | .interfaceKeyword => interfaceDeclaration inner start { declared := true }
  | _ => failUnexpected

end FlowErasure.Grammar
