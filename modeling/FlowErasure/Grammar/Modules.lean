import FlowErasure.Grammar.Declarations

/-!
# Imports and exports
-/

namespace FlowErasure.Grammar

variable (inner : Nested)

/-! ## Imports -/

/-- `type` after `import` is the start of a type import, unless it is the name of a default
import. -/
def startsTypeImport : Parser Bool :=
  lookAhead fun t =>
    t == .openBrace || t == .asterisk || (t.isName && t != .fromKeyword)

/-- One name in the braces of an import. -/
def importSpecifier : Parser NodeId := do
  let start ← tokenStart
  let name ← identifierName
  if ← accept .asKeyword then
    let localName ← identifier
    finish .importSpecifier start [.node name, .node localName]
  else finish .importSpecifier start [.absent, .node name]

/-- Names in braces. -/
def specifiersInBraces (specifier : Parser NodeId) : Parser (List NodeId) := do
  expect .openBrace
  let specifiers ← commaDelimited .closeBrace specifier
  expect .closeBrace
  return specifiers

def defaultImport : Parser NodeId := do
  let start ← tokenStart
  let localName ← identifier
  finish .importDefaultSpecifier start [.node localName]

/-- `* as name`, or names in braces. -/
def namespaceOrNamedImports : Parser (List NodeId) := do
  match ← token with
  | .asterisk =>
    let start ← tokenStart
    advance
    expect .asKeyword
    let localName ← identifier
    return [← finish .importNamespaceSpecifier start [.node localName]]
  | .openBrace => specifiersInBraces importSpecifier
  | _ => failExpecting .openBrace

/-- All that an import brings in. -/
def importSpecifiers : Parser (List NodeId) := do
  if ← isIdentifier then
    let first ← defaultImport
    if ← accept .comma then return first :: (← namespaceOrNamedImports) else return [first]
  else namespaceOrNamedImports

def importDeclaration : Parser NodeId := do
  let start ← tokenStart
  advance
  if ← isAt .string then
    let source ← stringLiteral
    endStatement
    finish .importDeclaration start [.absent, .node source]
  else
    if ← isAt .typeKeyword then
      if ← startsTypeImport then failAtToken .typeImportUnsupported
    let listStart ← tokenStart
    let specifiers ← importSpecifiers
    let specifiers ← listFrom listStart specifiers
    expect .fromKeyword
    let source ← stringLiteral
    endStatement
    finish .importDeclaration start [specifiers, .node source]

/-! ## Exports -/

def exportSpecifier : Parser NodeId := do
  let start ← tokenStart
  let localName ← identifierName
  let exported ← if ← accept .asKeyword then some <$> identifierName else pure none
  finish .exportSpecifier start [.node localName, .ofOption exported]

/-- What `export default` exports. -/
def defaultExport : Parser NodeId := do
  if ← startsFunction then functionDeclaration inner true
  else if ← isAt .classKeyword then classDeclaration inner true
  else
    let expression ← inner.assignment
    endStatement
    return expression

def exportedDeclaration : Parser NodeId := do
  if ← isAtAny [.varKeyword, .letKeyword, .constKeyword] then variableStatement inner
  else if ← startsFunction then functionDeclaration inner false
  else if ← isAt .classKeyword then classDeclaration inner false
  else failUnexpected

def exportDeclaration : Parser NodeId := do
  let start ← tokenStart
  advance
  match ← token with
  | .defaultKeyword =>
    advance
    let declaration ← defaultExport inner
    finish .exportDefaultDeclaration start [.node declaration]
  | .asterisk =>
    advance
    expect .fromKeyword
    let source ← stringLiteral
    endStatement
    finish .exportAllDeclaration start [.node source]
  | .openBrace =>
    let listStart ← tokenStart
    let specifiers ← specifiersInBraces exportSpecifier
    let specifiers ← listFrom listStart specifiers
    let source ← if ← accept .fromKeyword then some <$> stringLiteral else pure none
    endStatement
    finish .exportNamedDeclaration start [.absent, specifiers, .ofOption source]
  | .typeKeyword => typeAlias inner start { exported := true }
  | .interfaceKeyword => interfaceDeclaration inner start { exported := true }
  | _ =>
    let declaration ← exportedDeclaration inner
    finish .exportNamedDeclaration start [.node declaration, .absent, .absent]

end FlowErasure.Grammar
