import FlowErasure.Grammar.Functions

/-!
# Classes
-/

namespace FlowErasure.Grammar

variable (inner : Nested)

/-- `get` or `set` before the name of a member. -/
def accessorFlags (flags : NodeFlags) : Parser NodeFlags := do
  let t ← token
  if (t == .getKeyword || t == .setKeyword) && !flags.async && !flags.generator then
    if ← isMemberModifier false then
      advance
      return { flags with getter := t == .getKeyword, setter := t == .setKeyword }
  return flags

/-- `async` and `*` before the name of a member. -/
def functionFlags (flags : NodeFlags) : Parser NodeFlags := do
  let async ← if ← isAt .asyncKeyword then isMemberModifier true else pure false
  if async then advance
  let generator ← accept .asterisk
  return { flags with async, generator }

/-- A property after its key. It has a type at most, no value. -/
def classPropertyRest (start : Nat) (details : Details) (key : NodeId) : Parser NodeId := do
  let type ← ascription? inner
  if ← isAt .equals then failAtToken .propertyInitializerUnsupported
  endStatement
  finishWith .classProperty start [.node key, .ofOption type] details

/-- A member that starts with a sign is a property. -/
def signedProperty (start : Nat) (flags : NodeFlags) : Parser NodeId := do
  let sign ← variance
  let (key, computed) ← propertyName inner
  classPropertyRest inner start { flags := { flags with computed }, token := sign } key

def classMember : Parser NodeId := do
  let start ← tokenStart
  let static ← if ← isAt .staticKeyword then isMemberModifier false else pure false
  if static then advance
  if ← isAtAny [.plus, .minus] then signedProperty inner start { static }
  else
    let flags ← functionFlags { static }
    let flags ← accessorFlags flags
    if !startsPropertyName (← token) then failUnexpected
    let namesConstructor := (← isAt .identifier) && (← tokenValue) == "constructor" && !static
    let (key, computed) ← propertyName inner
    let flags := { flags with computed }
    if ← isAtAny [.openParen, .lessThan] then
      let flags := { flags with isConstructor := namesConstructor }
      let value ← methodFunction inner flags
      finishWith .methodDefinition start [.node key, .node value] { flags }
    else if flags.needsFunction then failExpecting .openParen
    else classPropertyRest inner start { flags } key

def classBody : Parser NodeId := do
  let start ← tokenStart
  expect .openBrace
  let listStart ← lastEnd
  let members ← collect do
    match ← token with
    | .closeBrace => return none
    | .semicolon =>
      advance
      return some none
    | .endOfFile => failExpecting .closeBrace
    | _ => return some (some (← inner.classMember))
  let stop ← tokenStart
  advance
  finish .classBody start [.list ⟨members.filter Option.isSome, listStart, stop⟩]

/-- The interfaces a class implements; the list spans the whole clause. -/
def implementsClause : Parser Slot := do
  if !(← isAt .implementsKeyword) then return .absent
  let start ← tokenStart
  advance
  let interfaces ← commaSeparated do
    let start ← tokenStart
    let id ← identifier
    let typeArguments ← typeArguments? inner
    finish .classImplements start [.node id, .ofOption typeArguments]
  listFrom start interfaces

/-- A class that starts at `start`; `heritage` reads the class it extends. -/
def classOf (heritage : Parser NodeId) (kind : NodeKind) (start : Nat) (allowAnonymous : Bool) :
    Parser NodeId := do
  expect .classKeyword
  let named := (← isIdentifier) && !(← isAt .implementsKeyword)
  let id ← declaredName named allowAnonymous
  let typeParameters ← typeParameters? inner
  let (superClass, superArguments) ←
    if ← accept .extendsKeyword then
      let superClass ← heritage
      pure (some superClass, ← typeArguments? inner)
    else pure (none, none)
  let implemented ← implementsClause inner
  let body ← classBody inner
  finish kind start
    [.ofOption id, .ofOption typeParameters, .ofOption superClass, .ofOption superArguments,
     implemented, .node body]

end FlowErasure.Grammar
