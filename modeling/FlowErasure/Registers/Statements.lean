import FlowErasure.Grammar.Statements
import FlowErasure.Registers.Expressions

/-!
# Statements

The rules of `Grammar.Declarations`, `Grammar.Modules` and `Grammar.Statements`, with registers.
-/

namespace FlowErasure.Grammar.Machine

variable (inner : Methods)

/-! ## Declarations -/

/-! ### Values -/

def variableDeclarator : Machine NodeId := do
  let start ← tokenStart
  let id ← bindingTarget inner false
  let init ← if ← accept .equals then some <$> inner.assignment else pure none
  finish .variableDeclarator start [.node id, .ofOption init]

def variableDeclaration : Machine NodeId := do
  let start ← tokenStart
  let token ← token
  advance
  let listStart ← tokenStart
  let declarators ← commaSeparated (variableDeclarator inner)
  finishWith .variableDeclaration start [← listFrom listStart declarators] { token }

def variableStatement : Machine NodeId := do
  let declaration ← variableDeclaration inner
  endStatement
  let stop ← lastEnd
  updateNode declaration ({ · with stop })
  return declaration

def startsVariables : Machine Bool := do
  match ← token with
  | .varKeyword | .constKeyword => return true
  | .letKeyword => startsLetDeclaration
  | _ => return false

def startsFunction : Machine Bool := do
  match ← token with
  | .functionKeyword => return true
  | .asyncKeyword => startsAsyncFunction
  | _ => return false

def functionDeclaration (allowAnonymous : Bool) : Machine NodeId := do
  function inner .functionDeclaration (← tokenStart) allowAnonymous

def classDeclaration (allowAnonymous : Bool) : Machine NodeId := do
  classOf inner (leftHandSide inner) .classDeclaration (← tokenStart) allowAnonymous

/-! ### Types -/

def typeAlias (start : Nat) (flags : NodeFlags) : Machine NodeId := do
  expect .typeKeyword
  let id ← identifier
  let typeParameters ← typeParameters? inner
  expect .equals
  let right ← inner.type
  endStatement
  finishWith .typeAlias start [.node id, .ofOption typeParameters, .node right] { flags }

def extendsClause : Machine Slot := do
  if !(← isAt .extendsKeyword) then return .absent
  let listStart ← tokenStart
  advance
  let bases ← commaSeparated do
    let start ← tokenStart
    let id ← qualifiedTypeName
    let typeArguments ← typeArguments? inner
    finish .interfaceExtends start [.node id, .ofOption typeArguments]
  listFrom listStart bases

def interfaceRest (allowStatic : Bool) : Machine (List Slot) := do
  let id ← identifier
  let typeParameters ← typeParameters? inner
  let bases ← extendsClause inner
  let body ← objectType inner allowStatic
  return [.node id, .ofOption typeParameters, bases, .node body]

def interfaceDeclaration (start : Nat) (flags : NodeFlags) : Machine NodeId := do
  expect .interfaceKeyword
  let rest ← interfaceRest inner false
  finishWith .interfaceDeclaration start rest { flags }

/-! ### Ambient declarations -/

def declaredFunctionName : Machine NodeId := do
  let start ← tokenStart
  if !(← isIdentifier) then failAtToken .identifierExpected
  let name ← tokenAtom
  advance
  let typeStart ← tokenStart
  let type ← methodType inner
  let ascription ← finish .ascription typeStart [.node type]
  finishWith .identifier start [.absent, .node ascription] { name }

def moduleName : Machine NodeId := do
  if ← isAt .string then stringLiteral else identifier

def declareStatement : Machine NodeId := do
  let start ← tokenStart
  advance
  match ← token with
  | .varKeyword | .letKeyword | .constKeyword =>
    advance
    let id ← bindingIdentifier inner false
    endStatement
    finish .declareVariable start [.node id]
  | .functionKeyword =>
    advance
    let id ← declaredFunctionName inner
    endStatement
    finish .declareFunction start [.node id]
  | .classKeyword =>
    advance
    let rest ← interfaceRest inner true
    finish .declareClass start rest
  | .moduleKeyword =>
    advance
    let id ← moduleName
    let body ← blockStatement inner
    finish .declareModule start [.node id, .node body]
  | .typeKeyword => typeAlias inner start { declared := true }
  | .interfaceKeyword => interfaceDeclaration inner start { declared := true }
  | _ => failUnexpected

/-! ## Imports and exports -/

/-! ### Imports -/

def startsTypeImport : Machine Bool :=
  lookAhead fun t =>
    t == .openBrace || t == .asterisk || (t.isName && t != .fromKeyword)

def importSpecifier : Machine NodeId := do
  let start ← tokenStart
  let name ← identifierName
  if ← accept .asKeyword then
    let localName ← identifier
    finish .importSpecifier start [.node name, .node localName]
  else finish .importSpecifier start [.absent, .node name]

def specifiersInBraces (specifier : Machine NodeId) : Machine (List NodeId) := do
  expect .openBrace
  let specifiers ← commaDelimited .closeBrace specifier
  expect .closeBrace
  return specifiers

def defaultImport : Machine NodeId := do
  let start ← tokenStart
  let localName ← identifier
  finish .importDefaultSpecifier start [.node localName]

def namespaceOrNamedImports : Machine (List NodeId) := do
  match ← token with
  | .asterisk =>
    let start ← tokenStart
    advance
    expect .asKeyword
    let localName ← identifier
    return [← finish .importNamespaceSpecifier start [.node localName]]
  | .openBrace => specifiersInBraces importSpecifier
  | _ => failExpecting .openBrace

def importSpecifiers : Machine (List NodeId) := do
  if ← isIdentifier then
    let first ← defaultImport
    if ← accept .comma then return first :: (← namespaceOrNamedImports) else return [first]
  else namespaceOrNamedImports

def importDeclaration : Machine NodeId := do
  let start ← tokenStart
  advance
  if ← isAt .string then
    let source ← stringLiteral
    endStatement
    finish .importDeclaration start [.absent, .node source]
  else
    if ← isAt .typeKeyword then
      if ← startsTypeImport then failAtToken .typeImportUnsupported
    let listStart ← tokenStart
    let specifiers ← importSpecifiers
    let specifiers ← listFrom listStart specifiers
    expect .fromKeyword
    let source ← stringLiteral
    endStatement
    finish .importDeclaration start [specifiers, .node source]

/-! ### Exports -/

def exportSpecifier : Machine NodeId := do
  let start ← tokenStart
  let localName ← identifierName
  let exported ← if ← accept .asKeyword then some <$> identifierName else pure none
  finish .exportSpecifier start [.node localName, .ofOption exported]

def defaultExport : Machine NodeId := do
  if ← startsFunction then functionDeclaration inner true
  else if ← isAt .classKeyword then classDeclaration inner true
  else
    let expression ← inner.assignment
    endStatement
    return expression

def exportedDeclaration : Machine NodeId := do
  if ← isAtAny [.varKeyword, .letKeyword, .constKeyword] then variableStatement inner
  else if ← startsFunction then functionDeclaration inner false
  else if ← isAt .classKeyword then classDeclaration inner false
  else failUnexpected

def exportDeclaration : Machine NodeId := do
  let start ← tokenStart
  advance
  match ← token with
  | .defaultKeyword =>
    advance
    let declaration ← defaultExport inner
    finish .exportDefaultDeclaration start [.node declaration]
  | .asterisk =>
    advance
    expect .fromKeyword
    let source ← stringLiteral
    endStatement
    finish .exportAllDeclaration start [.node source]
  | .openBrace =>
    let listStart ← tokenStart
    let specifiers ← specifiersInBraces exportSpecifier
    let specifiers ← listFrom listStart specifiers
    let source ← if ← accept .fromKeyword then some <$> stringLiteral else pure none
    endStatement
    finish .exportNamedDeclaration start [.absent, specifiers, .ofOption source]
  | .typeKeyword => typeAlias inner start { exported := true }
  | .interfaceKeyword => interfaceDeclaration inner start { exported := true }
  | _ =>
    let declaration ← exportedDeclaration inner
    finish .exportNamedDeclaration start [.node declaration, .absent, .absent]

def startsErasedDeclaration : Machine Bool := do
  match ← token with
  | .typeKeyword | .interfaceKeyword => startsTypeDeclaration
  | .declareKeyword => startsDeclareDeclaration
  | _ => return false

def embeddedStatement : Machine NodeId := do
  if ← startsErasedDeclaration then failAtToken .typeDeclarationNotAllowedHere
  else inner.statement

def condition : Machine NodeId := do
  expect .openParen
  let test ← allowingIn (expression inner)
  expect .closeParen
  return test

/-! ## Branches -/

def ifStatement : Machine NodeId := do
  let start ← tokenStart
  advance
  let test ← condition inner
  let consequent ← embeddedStatement inner
  let alternate ← if ← accept .elseKeyword then some <$> embeddedStatement inner else pure none
  finish .ifStatement start [.node test, .node consequent, .ofOption alternate]

def switchCase : Machine NodeId := do
  let start ← tokenStart
  let test ←
    match ← token with
    | .caseKeyword =>
      advance
      some <$> expression inner
    | .defaultKeyword =>
      advance
      pure none
    | _ => failExpecting .caseKeyword
  expect .colon
  let listStart ← lastEnd
  let consequent ← collect do
    if ← isAtAny [.caseKeyword, .defaultKeyword, .closeBrace, .endOfFile] then return none
    some <$> inner.statement
  finish .switchCase start [.ofOption test, ← listFrom listStart consequent]

def switchStatement : Machine NodeId := do
  let start ← tokenStart
  advance
  let discriminant ← condition inner
  expect .openBrace
  let listStart ← lastEnd
  let cases ← collect do
    if ← isAt .closeBrace then return none
    some <$> switchCase inner
  let stop ← tokenStart
  advance
  finish .switchStatement start [.node discriminant, .list ⟨cases.map some, listStart, stop⟩]

/-! ## Loops -/

def doStatement : Machine NodeId := do
  let start ← tokenStart
  advance
  let body ← embeddedStatement inner
  expect .whileKeyword
  let test ← condition inner
  let _ ← accept .semicolon
  finish .doWhileStatement start [.node body, .node test]

def headedStatement (kind : NodeKind) : Machine NodeId := do
  let start ← tokenStart
  advance
  let head ← condition inner
  let body ← embeddedStatement inner
  finish kind start [.node head, .node body]

def forInit : Machine (Option NodeId) := do
  if ← isAt .semicolon then return none
  withContext ({ · with noIn := true }) do
    if ← startsVariables then variableDeclaration inner else expression inner

def forTarget (init : NodeId) : Machine NodeId := do
  if (← getNode? init).map (·.kind) == some .variableDeclaration then return init
  else assignmentTarget init

def forEachRest (start : Nat) (kind : NodeKind) (init : NodeId) : Machine NodeId := do
  let left ← forTarget init
  advance
  let right ← allowingIn (if kind == .forOfStatement then inner.assignment else expression inner)
  expect .closeParen
  let body ← embeddedStatement inner
  finish kind start [.node left, .node right, .node body]

def expressionBefore? (close : Token) : Machine (Option NodeId) := do
  if ← isAt close then return none else allowingIn (expression inner)

def forRest (start : Nat) (init : Option NodeId) : Machine NodeId := do
  expect .semicolon
  let test ← expressionBefore? inner .semicolon
  expect .semicolon
  let update ← expressionBefore? inner .closeParen
  expect .closeParen
  let body ← embeddedStatement inner
  finish .forStatement start [.ofOption init, .ofOption test, .ofOption update, .node body]

def forStatement : Machine NodeId := do
  let start ← tokenStart
  advance
  expect .openParen
  let init ← forInit inner
  match enumeration? (← token), init with
  | some kind, some init => forEachRest inner start kind init
  | _, _ => forRest inner start init

/-! ## Jumps -/

def breakOrContinue (kind : NodeKind) : Machine NodeId := do
  let start ← tokenStart
  advance
  let labelled ← if ← canEndStatement then pure false else isIdentifier
  let label ← if labelled then some <$> identifier else pure none
  endStatement
  finish kind start [.ofOption label]

def returnStatement : Machine NodeId := do
  let start ← tokenStart
  advance
  let argument ← if ← canEndStatement then pure none else some <$> expression inner
  endStatement
  finish .returnStatement start [.ofOption argument]

def throwStatement : Machine NodeId := do
  let start ← tokenStart
  advance
  if ← afterLineBreak then failAtToken .lineBreakNotPermitted
  let argument ← expression inner
  endStatement
  finish .throwStatement start [.node argument]

def catchClause : Machine NodeId := do
  let start ← tokenStart
  advance
  expect .openParen
  let param ← bindingTarget inner false
  expect .closeParen
  let body ← blockStatement inner
  finish .catchClause start [.node param, .node body]

def tryStatement : Machine NodeId := do
  let start ← tokenStart
  advance
  let block ← blockStatement inner
  let handler ← if ← isAt .catchKeyword then some <$> catchClause inner else pure none
  let finalizer ← if ← accept .finallyKeyword then some <$> blockStatement inner else pure none
  if handler.isNone && finalizer.isNone then failExpecting .catchKeyword
  finish .tryStatement start [.node block, .ofOption handler, .ofOption finalizer]

/-! ## Statements -/

def emptyStatement : Machine NodeId := do
  let start ← tokenStart
  advance
  finish .emptyStatement start []

def debuggerStatement : Machine NodeId := do
  let start ← tokenStart
  advance
  endStatement
  finish .debuggerStatement start []

def expressionOrLabeled : Machine NodeId := do
  let start ← tokenStart
  let labelled ← if ← isIdentifier then lookAhead (· == .colon) else pure false
  if labelled then
    let label ← identifier
    expect .colon
    let body ← embeddedStatement inner
    finish .labeledStatement start [.node label, .node body]
  else
    let expression ← expression inner
    endStatement
    finish .expressionStatement start [.node expression]

def erasedDeclaration : Machine NodeId := do
  let start ← tokenStart
  match ← token with
  | .typeKeyword => typeAlias inner start {}
  | .interfaceKeyword => interfaceDeclaration inner start {}
  | _ => declareStatement inner

def otherStatement : Machine NodeId := do
  if ← startsVariables then variableStatement inner
  else if ← startsFunction then functionDeclaration inner false
  else if ← startsErasedDeclaration then erasedDeclaration inner
  else expressionOrLabeled inner

def statement : Machine NodeId := do
  match ← token with
  | .openBrace => blockStatement inner
  | .semicolon => emptyStatement
  | .classKeyword => classDeclaration inner false
  | .ifKeyword => ifStatement inner
  | .doKeyword => doStatement inner
  | .whileKeyword => headedStatement inner .whileStatement
  | .forKeyword => forStatement inner
  | .continueKeyword => breakOrContinue .continueStatement
  | .breakKeyword => breakOrContinue .breakStatement
  | .returnKeyword => returnStatement inner
  | .withKeyword => headedStatement inner .withStatement
  | .switchKeyword => switchStatement inner
  | .throwKeyword => throwStatement inner
  | .tryKeyword => tryStatement inner
  | .debuggerKeyword => debuggerStatement
  | .importKeyword => importDeclaration
  | .exportKeyword => exportDeclaration inner
  | .endOfFile => failAtToken .declarationOrStatementExpected
  | _ => otherStatement inner

end FlowErasure.Grammar.Machine
