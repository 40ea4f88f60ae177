import FlowErasure.Grammar.Types
import FlowErasure.Registers.Basic

/-!
# Types

The rules of `Grammar.Types`, with registers.
-/

namespace FlowErasure.Grammar.Machine

variable (inner : Methods)

def ascription? : Machine (Option NodeId) := do
  if !(← isAt .colon) then return none
  let start ← tokenStart
  advance
  let type ← inner.type
  finish .ascription start [.node type]

/-! ## Parameters and arguments of types -/

def variance : Machine Token := do
  let t ← token
  if t == .plus || t == .minus then
    advance
    return t
  else
    return .unknown

def typeParameter : Machine NodeId := do
  let start ← tokenStart
  let sign ← variance
  if !(← isIdentifier) then failAtToken .identifierExpected
  let name ← tokenAtom
  advance
  let bound ← ascription? inner
  let defaultType ← if ← accept .equals then some <$> inner.type else pure none
  finishWith .typeParameter start [.ofOption bound, .ofOption defaultType] { name, token := sign }

def angleList? (kind : NodeKind) (item : Machine NodeId) : Machine (Option NodeId) := do
  if !(← isAt .lessThan) then return none
  let start ← tokenStart
  advance
  let items ← commaTerminated .greaterThan item
  expect .greaterThan
  finish kind start [← listFrom start items]

def typeParameters? : Machine (Option NodeId) :=
  angleList? .typeParameterDeclaration (typeParameter inner)

def typeArguments? : Machine (Option NodeId) :=
  angleList? .typeParameterInstantiation inner.type

/-! ## Function types -/

def functionTypeParam (start : Nat) : Machine NodeId := do
  let named ← if (← token).isWord then isParameterName else pure false
  if named then
    let name ← identifierName
    let optional ← accept .question
    expect .colon
    let type ← inner.type
    finishWith .functionTypeParam start [.node name, .node type] { flags := { optional } }
  else
    let type ← inner.type
    finish .functionTypeParam start [.absent, .node type]

def functionTypeParams (listStart : Nat) (params : List NodeId) :
    Machine (Slot × Option NodeId) := do
  let step : List NodeId × Option NodeId → Machine (Option (List NodeId × Option NodeId)) :=
    fun (params, rest) => do
      if rest.isSome || (← isAt .closeParen) then return none
      let start ← tokenStart
      if ← accept .ellipsis then
        let rest ← functionTypeParam inner start
        let _ ← accept .comma
        return some (params, some rest)
      let param ← functionTypeParam inner start
      unless ← isAt .closeParen do expect .comma
      return some (param :: params, none)
  let (params, rest) ← iterate step (params.reverse, none)
  expect .closeParen
  return (← listFrom listStart params.reverse, rest)

def finishFunctionType (start : Nat) (typeParameters : Option NodeId)
    (params : Slot × Option NodeId) (separator : Token) : Machine NodeId := do
  expect separator
  let returnType ← inner.type
  finish .functionType start
    [.ofOption typeParameters, params.1, .ofOption params.2, .node returnType]

def functionType (start : Nat) (separator : Token) : Machine NodeId := do
  let typeParameters ← typeParameters? inner
  let listStart ← tokenStart
  expect .openParen
  let params ← functionTypeParams inner listStart []
  finishFunctionType inner start typeParameters params separator

def methodType : Machine NodeId := do
  functionType inner (← tokenStart) .colon

def parenthesizedType : Machine NodeId := do
  let start ← tokenStart
  if ← opensTypeParameters then functionType inner start .arrow
  else
    expect .openParen
    let innerStart ← tokenStart
    let type ← inner.type
    let isFunction ←
      if ← isAt .comma then pure true
      else if ← isAt .closeParen then lookAhead (· == .arrow)
      else pure false
    if isFunction then
      let first ← finish .functionTypeParam innerStart [.absent, .node type]
      let _ ← accept .comma
      let params ← functionTypeParams inner start [first]
      finishFunctionType inner start none params .arrow
    else
      expect .closeParen
      return type

/-! ## Object types -/

def typeIndexer (start : Nat) (details : Details) : Machine NodeId := do
  expect .openBracket
  let named ← if (← token).isWord then lookAhead (· == .colon) else pure false
  let id ←
    if named then
      let id ← identifierName
      expect .colon
      pure (some id)
    else pure none
  let key ← inner.type
  expect .closeBracket
  expect .colon
  let value ← inner.type
  finishWith .objectTypeIndexer start [.ofOption id, .node key, .node value] details

def typeProperty (start : Nat) (details : Details) : Machine NodeId := do
  let key ← if ← isAtAny [.string, .number] then literal else identifierName
  let optional ← accept .question
  let flags := { details.flags with optional }
  if ← isAtAny [.openParen, .lessThan] then
    let value ← methodType inner
    finishWith .objectTypeProperty start [.node key, .node value]
      { details with flags := { flags with method := true } }
  else
    expect .colon
    let value ← inner.type
    finishWith .objectTypeProperty start [.node key, .node value] { details with flags }

def typeMember (allowStatic : Bool) : Machine NodeId := do
  let start ← tokenStart
  let static ←
    if allowStatic && (← isAt .staticKeyword) then
      lookAhead fun t => !([.openParen, .lessThan, .colon, .question] : List Token).contains t
    else pure false
  if static then advance
  let sign ← variance
  let details : Details := { flags := { static }, token := sign }
  match ← token with
  | .openBracket => typeIndexer inner start details
  | .openParen | .lessThan =>
    let value ← methodType inner
    finishWith .objectTypeCallProperty start [.node value] details
  | _ => typeProperty inner start details

def objectType (allowStatic : Bool) : Machine NodeId := do
  let start ← tokenStart
  expect .openBrace
  let exact ← accept .bar
  let members ← collect do
    if ← isAt (if exact then .bar else .closeBrace) then return none
    if ← isAt .endOfFile then failExpecting .closeBrace
    let member ← inner.typeMember allowStatic
    unless ← accept .comma do let _ ← accept .semicolon
    return some member
  if exact then expect .bar
  expect .closeBrace
  finish .objectType start [← listFrom start members]

/-! ## Types -/

def tokenType (kind : NodeKind) : Machine NodeId := do
  let start ← tokenStart
  let token ← token
  advance
  finishWith kind start [] { token }

def qualifiedTypeName : Machine NodeId := do
  let start ← tokenStart
  let first ← identifier
  iterate (fun name => do
    if ← accept .dot then
      let id ← identifierName
      finish .qualifiedTypeIdentifier start [.node name, .node id]
    else return none) first

def genericType : Machine NodeId := do
  let start ← tokenStart
  let id ← qualifiedTypeName
  let typeArguments ← typeArguments? inner
  finish .genericType start [.node id, .ofOption typeArguments]

def tupleType : Machine NodeId := do
  let start ← tokenStart
  expect .openBracket
  let types ← commaTerminated .closeBracket inner.type
  expect .closeBracket
  finish .tupleType start [← listFrom start types]

def namedType : Machine NodeId := do
  if ← lookAhead (· == .dot) then genericType inner
  else
    match primitiveType? (← tokenValue) with
    | some kind => tokenType kind
    | none => genericType inner

def negativeNumberType : Machine NodeId := do
  let start ← tokenStart
  advance
  let number ← tokenType .numberLiteralType
  updateNode number fun node => { node with start }
  return number

def primaryType : Machine NodeId := do
  let start ← tokenStart
  match ← token with
  | .openParen => parenthesizedType inner
  | .lessThan => functionType inner start .arrow
  | .openBrace => objectType inner false
  | .openBracket => tupleType inner
  | .typeOfKeyword =>
    advance
    let argument ← inner.primaryType
    finish .typeofType start [.node argument]
  | .asterisk => tokenType .existsType
  | .string => tokenType .stringLiteralType
  | .number => tokenType .numberLiteralType
  | .minus =>
    if ← lookAhead (· == .number) then negativeNumberType else failAtToken .typeExpected
  | .trueKeyword | .falseKeyword => tokenType .booleanLiteralType
  | .nullKeyword => tokenType .nullLiteralType
  | .voidKeyword => tokenType .voidType
  | t => if t.isName then namedType inner else failAtToken .typeExpected

def postfixType : Machine NodeId := do
  let start ← tokenStart
  let type ← primaryType inner
  iterate (fun type => do
    if !(← isAt .openBracket) || (← afterLineBreak) then return none
    if ← lookAhead (· == .closeBracket) then
      advance
      advance
      finish .arrayType start [.node type]
    else return none) type

def prefixType : Machine NodeId := do
  if ← isAt .question then
    let start ← tokenStart
    advance
    let type ← inner.prefixType
    finish .nullableType start [.node type]
  else postfixType inner

def isSeparator (separator : Token) : Machine Bool := do
  if ← isAt separator then lookAhead (· != .closeBrace) else return false

def typeList (separator : Token) (kind : NodeKind) (member : Machine NodeId) : Machine NodeId := do
  let start ← tokenStart
  let _ ← accept separator
  let first ← member
  let more ← collect do
    if ← isSeparator separator then
      advance
      some <$> member
    else return none
  if more.isEmpty then return first
  finish kind start [← listFrom start (first :: more)]

def intersectionType : Machine NodeId :=
  typeList .ampersand .intersectionType (prefixType inner)

def unionType : Machine NodeId :=
  typeList .bar .unionType (intersectionType inner)

end FlowErasure.Grammar.Machine
