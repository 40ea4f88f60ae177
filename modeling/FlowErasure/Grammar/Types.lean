import FlowErasure.Grammar.Lookahead
import FlowErasure.Grammar.Nested

/-!
# Types

Type ascriptions, types, type parameters and type arguments.
-/

namespace FlowErasure.Grammar

variable (inner : Nested)

/-- A colon and a type, if there is a colon. -/
def ascription? : Parser (Option NodeId) := do
  if !(← isAt .colon) then return none
  let start ← tokenStart
  advance
  let type ← inner.type
  finish .ascription start [.node type]

/-! ## Parameters and arguments of types -/

/-- A sign before a name or a property says how it may vary. -/
def variance : Parser Token := do
  let t ← token
  if t == .plus || t == .minus then
    advance
    return t
  else
    return .unknown

def typeParameter : Parser NodeId := do
  let start ← tokenStart
  let sign ← variance
  if !(← isIdentifier) then failAtToken .identifierExpected
  let name ← tokenAtom
  advance
  let bound ← ascription? inner
  let defaultType ← if ← accept .equals then some <$> inner.type else pure none
  finishWith .typeParameter start [.ofOption bound, .ofOption defaultType] { name, token := sign }

/-- A list between `<` and `>`, if there is a `<`. -/
def angleList? (kind : NodeKind) (item : Parser NodeId) : Parser (Option NodeId) := do
  if !(← isAt .lessThan) then return none
  let start ← tokenStart
  advance
  let items ← commaTerminated .greaterThan item
  expect .greaterThan
  finish kind start [← listFrom start items]

def typeParameters? : Parser (Option NodeId) :=
  angleList? .typeParameterDeclaration (typeParameter inner)

def typeArguments? : Parser (Option NodeId) :=
  angleList? .typeParameterInstantiation inner.type

/-! ## Function types -/

/-- A parameter of a function type: a type, with a name before it or not. -/
def functionTypeParam (start : Nat) : Parser NodeId := do
  let named ← if (← token).isWord then isParameterName else pure false
  if named then
    let name ← identifierName
    let optional ← accept .question
    expect .colon
    let type ← inner.type
    finishWith .functionTypeParam start [.node name, .node type] { flags := { optional } }
  else
    let type ← inner.type
    finish .functionTypeParam start [.absent, .node type]

/-- The parameters after those in `params`, up to and with the closing parenthesis, and the rest
parameter. -/
def functionTypeParams (listStart : Nat) (params : List NodeId) :
    Parser (Slot × Option NodeId) := do
  let step : List NodeId × Option NodeId → Parser (Option (List NodeId × Option NodeId)) :=
    fun (params, rest) => do
      if rest.isSome || (← isAt .closeParen) then return none
      let start ← tokenStart
      if ← accept .ellipsis then
        let rest ← functionTypeParam inner start
        let _ ← accept .comma
        return some (params, some rest)
      let param ← functionTypeParam inner start
      unless ← isAt .closeParen do expect .comma
      return some (param :: params, none)
  let (params, rest) ← iterate step (params.reverse, none)
  expect .closeParen
  return (← listFrom listStart params.reverse, rest)

/-- Ends a function type with its return type, which comes after `separator`. -/
def finishFunctionType (start : Nat) (typeParameters : Option NodeId)
    (params : Slot × Option NodeId) (separator : Token) : Parser NodeId := do
  expect separator
  let returnType ← inner.type
  finish .functionType start
    [.ofOption typeParameters, params.1, .ofOption params.2, .node returnType]

def functionType (start : Nat) (separator : Token) : Parser NodeId := do
  let typeParameters ← typeParameters? inner
  let listStart ← tokenStart
  expect .openParen
  let params ← functionTypeParams inner listStart []
  finishFunctionType inner start typeParameters params separator

/-- Parameters and return type after the name of a method or of a declared function. -/
def methodType : Parser NodeId := do
  functionType inner (← tokenStart) .colon

/-- At `(`: a function type or a type in parentheses. A type in parentheses with an arrow after it
is the only, unnamed parameter of a function type. -/
def parenthesizedType : Parser NodeId := do
  let start ← tokenStart
  if ← opensTypeParameters then functionType inner start .arrow
  else
    expect .openParen
    let innerStart ← tokenStart
    let type ← inner.type
    let isFunction ←
      if ← isAt .comma then pure true
      else if ← isAt .closeParen then lookAhead (· == .arrow)
      else pure false
    if isFunction then
      let first ← finish .functionTypeParam innerStart [.absent, .node type]
      let _ ← accept .comma
      let params ← functionTypeParams inner start [first]
      finishFunctionType inner start none params .arrow
    else
      expect .closeParen
      return type

/-! ## Object types -/

/-- `[K]: V`, with a name for the key or without. -/
def typeIndexer (start : Nat) (details : Details) : Parser NodeId := do
  expect .openBracket
  let named ← if (← token).isWord then lookAhead (· == .colon) else pure false
  let id ←
    if named then
      let id ← identifierName
      expect .colon
      pure (some id)
    else pure none
  let key ← inner.type
  expect .closeBracket
  expect .colon
  let value ← inner.type
  finishWith .objectTypeIndexer start [.ofOption id, .node key, .node value] details

def typeProperty (start : Nat) (details : Details) : Parser NodeId := do
  let key ← if ← isAtAny [.string, .number] then literal else identifierName
  let optional ← accept .question
  let flags := { details.flags with optional }
  if ← isAtAny [.openParen, .lessThan] then
    let value ← methodType inner
    finishWith .objectTypeProperty start [.node key, .node value]
      { details with flags := { flags with method := true } }
  else
    expect .colon
    let value ← inner.type
    finishWith .objectTypeProperty start [.node key, .node value] { details with flags }

/-- A member of an object type. In a declared class it may be static. -/
def typeMember (allowStatic : Bool) : Parser NodeId := do
  let start ← tokenStart
  let static ←
    if allowStatic && (← isAt .staticKeyword) then
      lookAhead fun t => !([.openParen, .lessThan, .colon, .question] : List Token).contains t
    else pure false
  if static then advance
  let sign ← variance
  let details : Details := { flags := { static }, token := sign }
  match ← token with
  | .openBracket => typeIndexer inner start details
  | .openParen | .lessThan =>
    let value ← methodType inner
    finishWith .objectTypeCallProperty start [.node value] details
  | _ => typeProperty inner start details

/-- An object type; between `{|` and `|}` it is exact. -/
def objectType (allowStatic : Bool) : Parser NodeId := do
  let start ← tokenStart
  expect .openBrace
  let exact ← accept .bar
  let members ← collect do
    if ← isAt (if exact then .bar else .closeBrace) then return none
    if ← isAt .endOfFile then failExpecting .closeBrace
    let member ← inner.typeMember allowStatic
    unless ← accept .comma do let _ ← accept .semicolon
    return some member
  if exact then expect .bar
  expect .closeBrace
  finish .objectType start [← listFrom start members]

/-! ## Types -/

/-- A type that is one token. -/
def tokenType (kind : NodeKind) : Parser NodeId := do
  let start ← tokenStart
  let token ← token
  advance
  finishWith kind start [] { token }

/-- `A` or `A.B.C`. -/
def qualifiedTypeName : Parser NodeId := do
  let start ← tokenStart
  let first ← identifier
  iterate (fun name => do
    if ← accept .dot then
      let id ← identifierName
      finish .qualifiedTypeIdentifier start [.node name, .node id]
    else return none) first

def genericType : Parser NodeId := do
  let start ← tokenStart
  let id ← qualifiedTypeName
  let typeArguments ← typeArguments? inner
  finish .genericType start [.node id, .ofOption typeArguments]

def tupleType : Parser NodeId := do
  let start ← tokenStart
  expect .openBracket
  let types ← commaTerminated .closeBracket inner.type
  expect .closeBracket
  finish .tupleType start [← listFrom start types]

/-- Names of types with a node kind of their own. -/
def primitiveType? : String → Option NodeKind
  | "any" => some .anyType
  | "mixed" => some .mixedType
  | "number" => some .numberType
  | "string" => some .stringType
  | "boolean" | "bool" => some .booleanType
  | _ => none

/-- A type that starts with a name: a primitive type, unless a dot follows, or a generic type. -/
def namedType : Parser NodeId := do
  if ← lookAhead (· == .dot) then genericType inner
  else
    match primitiveType? (← tokenValue) with
    | some kind => tokenType kind
    | none => genericType inner

def negativeNumberType : Parser NodeId := do
  let start ← tokenStart
  advance
  let number ← tokenType .numberLiteralType
  updateNode number fun node => { node with start }
  return number

def primaryType : Parser NodeId := do
  let start ← tokenStart
  match ← token with
  | .openParen => parenthesizedType inner
  | .lessThan => functionType inner start .arrow
  | .openBrace => objectType inner false
  | .openBracket => tupleType inner
  | .typeOfKeyword =>
    advance
    let argument ← inner.primaryType
    finish .typeofType start [.node argument]
  | .asterisk => tokenType .existsType
  | .string => tokenType .stringLiteralType
  | .number => tokenType .numberLiteralType
  | .minus =>
    if ← lookAhead (· == .number) then negativeNumberType else failAtToken .typeExpected
  | .trueKeyword | .falseKeyword => tokenType .booleanLiteralType
  | .nullKeyword => tokenType .nullLiteralType
  | .voidKeyword => tokenType .voidType
  | t => if t.isName then namedType inner else failAtToken .typeExpected

/-- `T[]`, `T[][]`. The brackets stay on the line of the type. -/
def postfixType : Parser NodeId := do
  let start ← tokenStart
  let type ← primaryType inner
  iterate (fun type => do
    if !(← isAt .openBracket) || (← afterLineBreak) then return none
    if ← lookAhead (· == .closeBracket) then
      advance
      advance
      finish .arrayType start [.node type]
    else return none) type

def prefixType : Parser NodeId := do
  if ← isAt .question then
    let start ← tokenStart
    advance
    let type ← inner.prefixType
    finish .nullableType start [.node type]
  else postfixType inner

/-- A separator that goes on with the list, not the one that closes an exact object type. -/
def isSeparator (separator : Token) : Parser Bool := do
  if ← isAt separator then lookAhead (· != .closeBrace) else return false

/-- Members with a separator between them and perhaps before the first. A single member stands for
itself. -/
def typeList (separator : Token) (kind : NodeKind) (member : Parser NodeId) : Parser NodeId := do
  let start ← tokenStart
  let _ ← accept separator
  let first ← member
  let more ← collect do
    if ← isSeparator separator then
      advance
      some <$> member
    else return none
  if more.isEmpty then return first
  finish kind start [← listFrom start (first :: more)]

def intersectionType : Parser NodeId :=
  typeList .ampersand .intersectionType (prefixType inner)

def unionType : Parser NodeId :=
  typeList .bar .unionType (intersectionType inner)

end FlowErasure.Grammar
