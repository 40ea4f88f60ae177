import FlowErasure.Grammar.Classes
import FlowErasure.Registers.Types

/-!
# Patterns, functions and classes

The rules of `Grammar.Patterns`, `Grammar.Functions` and `Grammar.Classes`, with registers. The
parameters and the body of a function are read in the surroundings of that function.
-/

namespace FlowErasure.Grammar.Machine

variable (inner : Methods)

/-! ## Patterns -/

def propertyName : Machine (NodeId × Bool) := do
  match ← token with
  | .openBracket =>
    advance
    let key ← withContext ({ · with noIn := false }) inner.assignment
    expect .closeBracket
    return (key, true)
  | .string | .number => return (← literal, false)
  | _ => return (← identifierName, false)

def bindingIdentifier (allowOptional : Bool) : Machine NodeId := do
  let start ← tokenStart
  if !(← isIdentifier) then failAtToken .identifierExpected
  let name ← tokenAtom
  advance
  let optional ←
    if allowOptional && (← isAt .question) then
      let markStart ← tokenStart
      advance
      some <$> finish .optionalMarker markStart []
    else pure none
  let type ← ascription? inner
  finishWith .identifier start [.ofOption optional, .ofOption type] { name }

def bindingElement (allowOptional : Bool) : Machine NodeId := do
  let start ← tokenStart
  let target ← inner.bindingTarget allowOptional
  if ← accept .equals then
    let value ← withContext ({ · with noIn := false }) inner.assignment
    finish .assignmentPattern start [.node target, .node value]
  else return target

def shorthandDefault (start : Nat) (name : NodeId) : Machine NodeId := do
  if ← accept .equals then
    let value ← inner.assignment
    finish .assignmentPattern start [.node name, .node value]
  else return name

def bindingProperty : Machine NodeId := do
  let start ← tokenStart
  let canBeShorthand ← isIdentifier
  let (key, computed) ← propertyName inner
  if ← accept .colon then
    let value ← bindingElement inner false
    finishWith .property start [.node key, .node value] { flags := { computed } }
  else if canBeShorthand then
    let value ← shorthandDefault inner start key
    finishWith .property start [.absent, .node value] { flags := { shorthand := true } }
  else failExpecting .colon

def restElement (target : Machine NodeId) : Machine NodeId := do
  let start ← tokenStart
  expect .ellipsis
  let argument ← target
  finish .restElement start [.node argument]

def objectPattern (rest : Machine NodeId) : Machine NodeId := do
  let start ← tokenStart
  expect .openBrace
  let properties ← commaTerminated .closeBrace do
    if ← isAt .ellipsis then rest else bindingProperty inner
  expect .closeBrace
  let properties ← listFrom start properties
  let type ← ascription? inner
  finish .objectPattern start [properties, .ofOption type]

def elements (element : Machine NodeId) : Machine (List (Option NodeId)) :=
  collect do
    if ← isAt .closeBracket then return none
    if ← accept .comma then return some none
    let node ← element
    unless ← isAt .closeBracket do expect .comma
    return some (some node)

def arrayPattern (rest : Machine NodeId) : Machine NodeId := do
  let start ← tokenStart
  expect .openBracket
  let nodes ← elements do
    if ← isAt .ellipsis then rest else bindingElement inner false
  expect .closeBracket
  let stop ← lastEnd
  let type ← ascription? inner
  finish .arrayPattern start [.list ⟨nodes, start, stop⟩, .ofOption type]

def bindingTargetWithin : Nat → Bool → Machine NodeId
  | 0, _ => failUnexpected
  | bound + 1, allowOptional => do
    let rest := restElement (bindingTargetWithin bound false)
    match ← token with
    | .openBrace => objectPattern inner rest
    | .openBracket => arrayPattern inner rest
    | _ => bindingIdentifier inner allowOptional

def bindingTarget (allowOptional : Bool) : Machine NodeId := do
  bindingTargetWithin inner ((← bytesLeft) + 2) allowOptional

def parameterList : Machine Slot := do
  let start ← tokenStart
  expect .openParen
  let step : List NodeId × Bool → Machine (Option (List NodeId × Bool)) := fun (params, ended) => do
    if ended || (← isAt .closeParen) then return none
    if ← isAt .ellipsis then
      let param ← restElement (bindingTarget inner false)
      if ← isAt .comma then failAtToken .restParameterMustBeLast
      return some (param :: params, true)
    let param ← bindingElement inner true
    unless ← isAt .closeParen do expect .comma
    return some (param :: params, false)
  let (params, _) ← iterate step ([], false)
  expect .closeParen
  listFrom start params.reverse

/-! ## Functions -/

def statementBlock : Machine Slot := do
  expect .openBrace
  let start ← lastEnd
  let statements ← collect do
    if ← isAt .closeBrace then return none
    if ← isAt .endOfFile then failExpecting .closeBrace
    some <$> inner.statement
  let stop ← tokenStart
  advance
  return .list ⟨statements.map some, start, stop⟩

def blockStatement : Machine NodeId := do
  let start ← tokenStart
  let body ← statementBlock inner
  finish .blockStatement start [body]

def functionBody (isAsync isGenerator : Bool) : Machine NodeId :=
  withContext (Context.ofFunction isAsync isGenerator) (blockStatement inner)

def functionRest (isAsync isGenerator : Bool) : Machine (List Slot) := do
  let typeParameters ← typeParameters? inner
  let params ← withContext (Context.ofFunction isAsync isGenerator) (parameterList inner)
  let returnType ← ascription? inner
  let body ← functionBody inner isAsync isGenerator
  return [.ofOption typeParameters, params, .ofOption returnType, .node body]

def declaredName (present allowAnonymous : Bool) : Machine (Option NodeId) := do
  if present then identifier
  else if allowAnonymous then return none
  else failAtToken .identifierExpected

def function (kind : NodeKind) (start : Nat) (allowAnonymous : Bool) : Machine NodeId := do
  let async ← accept .asyncKeyword
  expect .functionKeyword
  let generator ← accept .asterisk
  let id ← declaredName (← isIdentifier) allowAnonymous
  let rest ← functionRest inner async generator
  finishWith kind start (.ofOption id :: rest) { flags := { async, generator } }

def methodFunction (flags : NodeFlags) : Machine NodeId := do
  let start ← tokenStart
  let rest ← functionRest inner flags.async flags.generator
  finishWith .functionExpression start (.absent :: rest)
    { flags := { async := flags.async, generator := flags.generator } }

/-! ## Classes -/

def accessorFlags (flags : NodeFlags) : Machine NodeFlags := do
  let t ← token
  if (t == .getKeyword || t == .setKeyword) && !flags.async && !flags.generator then
    if ← isMemberModifier false then
      advance
      return { flags with getter := t == .getKeyword, setter := t == .setKeyword }
  return flags

def functionFlags (flags : NodeFlags) : Machine NodeFlags := do
  let async ← if ← isAt .asyncKeyword then isMemberModifier true else pure false
  if async then advance
  let generator ← accept .asterisk
  return { flags with async, generator }

def classPropertyRest (start : Nat) (details : Details) (key : NodeId) : Machine NodeId := do
  let type ← ascription? inner
  if ← isAt .equals then failAtToken .propertyInitializerUnsupported
  endStatement
  finishWith .classProperty start [.node key, .ofOption type] details

def signedProperty (start : Nat) (flags : NodeFlags) : Machine NodeId := do
  let sign ← variance
  let (key, computed) ← propertyName inner
  classPropertyRest inner start { flags := { flags with computed }, token := sign } key

def classMember : Machine NodeId := do
  let start ← tokenStart
  let static ← if ← isAt .staticKeyword then isMemberModifier false else pure false
  if static then advance
  if ← isAtAny [.plus, .minus] then signedProperty inner start { static }
  else
    let flags ← functionFlags { static }
    let flags ← accessorFlags flags
    if !startsPropertyName (← token) then failUnexpected
    let namesConstructor := (← isAt .identifier) && (← tokenValue) == "constructor" && !static
    let (key, computed) ← propertyName inner
    let flags := { flags with computed }
    if ← isAtAny [.openParen, .lessThan] then
      let flags := { flags with isConstructor := namesConstructor }
      let value ← methodFunction inner flags
      finishWith .methodDefinition start [.node key, .node value] { flags }
    else if flags.needsFunction then failExpecting .openParen
    else classPropertyRest inner start { flags } key

def classBody : Machine NodeId := do
  let start ← tokenStart
  expect .openBrace
  let listStart ← lastEnd
  let members ← collect do
    match ← token with
    | .closeBrace => return none
    | .semicolon =>
      advance
      return some none
    | .endOfFile => failExpecting .closeBrace
    | _ => return some (some (← inner.classMember))
  let stop ← tokenStart
  advance
  finish .classBody start [.list ⟨members.filter Option.isSome, listStart, stop⟩]

def implementsClause : Machine Slot := do
  if !(← isAt .implementsKeyword) then return .absent
  let start ← tokenStart
  advance
  let interfaces ← commaSeparated do
    let start ← tokenStart
    let id ← identifier
    let typeArguments ← typeArguments? inner
    finish .classImplements start [.node id, .ofOption typeArguments]
  listFrom start interfaces

def classOf (heritage : Machine NodeId) (kind : NodeKind) (start : Nat) (allowAnonymous : Bool) :
    Machine NodeId := do
  expect .classKeyword
  let named := (← isIdentifier) && !(← isAt .implementsKeyword)
  let id ← declaredName named allowAnonymous
  let typeParameters ← typeParameters? inner
  let (superClass, superArguments) ←
    if ← accept .extendsKeyword then
      let superClass ← heritage
      pure (some superClass, ← typeArguments? inner)
    else pure (none, none)
  let implemented ← implementsClause inner
  let body ← classBody inner
  finish kind start
    [.ofOption id, .ofOption typeParameters, .ofOption superClass, .ofOption superArguments,
     implemented, .node body]

end FlowErasure.Grammar.Machine
