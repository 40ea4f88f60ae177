import FlowErasure.Grammar.Types

/-!
# Binding patterns

Names and patterns that introduce bindings, with their type ascriptions and defaults.
-/

namespace FlowErasure.Grammar

variable (inner : Nested)

/-- A key of a property or of a class member, and whether it is computed. -/
def propertyName : Parser (NodeId × Bool) := do
  match ← token with
  | .openBracket =>
    advance
    let key ← withReader ({ · with noIn := false }) inner.assignment
    expect .closeBracket
    return (key, true)
  | .string | .number => return (← literal, false)
  | _ => return (← identifierName, false)

/-- A name, perhaps marked optional, with an ascription or without. -/
def bindingIdentifier (allowOptional : Bool) : Parser NodeId := do
  let start ← tokenStart
  if !(← isIdentifier) then failAtToken .identifierExpected
  let name ← tokenAtom
  advance
  let optional ←
    if allowOptional && (← isAt .question) then
      let markStart ← tokenStart
      advance
      some <$> finish .optionalMarker markStart []
    else pure none
  let type ← ascription? inner
  finishWith .identifier start [.ofOption optional, .ofOption type] { name }

/-- A target, with a default after it or without. -/
def bindingElement (allowOptional : Bool) : Parser NodeId := do
  let start ← tokenStart
  let target ← inner.bindingTarget allowOptional
  if ← accept .equals then
    let value ← withReader ({ · with noIn := false }) inner.assignment
    finish .assignmentPattern start [.node target, .node value]
  else return target

/-- `name` or `name = value`, after a name that is its own key. -/
def shorthandDefault (start : Nat) (name : NodeId) : Parser NodeId := do
  if ← accept .equals then
    let value ← inner.assignment
    finish .assignmentPattern start [.node name, .node value]
  else return name

def bindingProperty : Parser NodeId := do
  let start ← tokenStart
  let canBeShorthand ← isIdentifier
  let (key, computed) ← propertyName inner
  if ← accept .colon then
    let value ← bindingElement inner false
    finishWith .property start [.node key, .node value] { flags := { computed } }
  else if canBeShorthand then
    let value ← shorthandDefault inner start key
    finishWith .property start [.absent, .node value] { flags := { shorthand := true } }
  else failExpecting .colon

/-- Three dots and a target. -/
def restElement (target : Parser NodeId) : Parser NodeId := do
  let start ← tokenStart
  expect .ellipsis
  let argument ← target
  finish .restElement start [.node argument]

def objectPattern (rest : Parser NodeId) : Parser NodeId := do
  let start ← tokenStart
  expect .openBrace
  let properties ← commaTerminated .closeBrace do
    if ← isAt .ellipsis then rest else bindingProperty inner
  expect .closeBrace
  let properties ← listFrom start properties
  let type ← ascription? inner
  finish .objectPattern start [properties, .ofOption type]

/-- Elements up to a closing bracket; a comma where an element could start leaves a hole. -/
def elements (element : Parser NodeId) : Parser (List (Option NodeId)) :=
  collect do
    if ← isAt .closeBracket then return none
    if ← accept .comma then return some none
    let node ← element
    unless ← isAt .closeBracket do expect .comma
    return some (some node)

def arrayPattern (rest : Parser NodeId) : Parser NodeId := do
  let start ← tokenStart
  expect .openBracket
  let nodes ← elements do
    if ← isAt .ellipsis then rest else bindingElement inner false
  expect .closeBracket
  let stop ← lastEnd
  let type ← ascription? inner
  finish .arrayPattern start [.list ⟨nodes, start, stop⟩, .ofOption type]

/-- A target in which rest elements are nested less than `bound` deep. The nesting of rest elements
is not limited but by the text. -/
def bindingTargetWithin : Nat → Bool → Parser NodeId
  | 0, _ => failUnexpected
  | bound + 1, allowOptional => do
    let rest := restElement (bindingTargetWithin bound false)
    match ← token with
    | .openBrace => objectPattern inner rest
    | .openBracket => arrayPattern inner rest
    | _ => bindingIdentifier inner allowOptional

/-- A name or a pattern. -/
def bindingTarget (allowOptional : Bool) : Parser NodeId := do
  bindingTargetWithin inner ((← get).lexer.bytesLeft + 2) allowOptional

/-- Parameters in parentheses. A rest parameter is the last, without a comma. -/
def parameterList : Parser Slot := do
  let start ← tokenStart
  expect .openParen
  let step : List NodeId × Bool → Parser (Option (List NodeId × Bool)) := fun (params, ended) => do
    if ended || (← isAt .closeParen) then return none
    if ← isAt .ellipsis then
      let param ← restElement (bindingTarget inner false)
      if ← isAt .comma then failAtToken .restParameterMustBeLast
      return some (param :: params, true)
    let param ← bindingElement inner true
    unless ← isAt .closeParen do expect .comma
    return some (param :: params, false)
  let (params, _) ← iterate step ([], false)
  expect .closeParen
  listFrom start params.reverse

end FlowErasure.Grammar
