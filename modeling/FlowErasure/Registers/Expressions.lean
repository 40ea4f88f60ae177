import FlowErasure.Grammar.Expressions
import FlowErasure.Registers.Functions

/-!
# Expressions

The rules of `Grammar.Targets` and `Grammar.Expressions`, with registers.
-/

namespace FlowErasure.Grammar.Machine

variable (inner : Methods)

/-! ## Assignment targets -/

def failTarget {α : Type} (id : NodeId) : Machine α := do
  match ← getNode? id with
  | some node => failAt node.start (node.stop - node.start) .invalidAssignmentTarget
  | none => failAtToken .invalidAssignmentTarget

def rebuild (node : Node) (kind : NodeKind) (flags : NodeFlags) (slots : List Slot) :
    Machine NodeId :=
  addNode { kind, start := node.start, stop := node.stop, slots, flags }

def patternElement (target : NodeId → Machine NodeId) (id : NodeId) : Machine NodeId := do
  let some node ← getNode? id | failTarget id
  match node.kind with
  | .spreadElement =>
    let some argument := (node.slot? .argument).bind Slot.node? | failTarget id
    let argument ← target argument
    rebuild node .restElement {} [.node argument]
  | .assignmentExpression =>
    if node.token == .equals then rebuild node .assignmentPattern {} node.slots else target id
  | .assignmentPattern => return id
  | _ => target id

def patternProperty (target : NodeId → Machine NodeId) (id : NodeId) : Machine NodeId := do
  let some node ← getNode? id | failTarget id
  match node.kind with
  | .spreadElement => patternElement target id
  | .property =>
    if node.flags.method || node.flags.getter || node.flags.setter then failTarget id
    let some value := (node.slot? .value).bind Slot.node? | failTarget id
    let value ← patternElement target value
    rebuild node .property node.flags [(node.slot? .key).getD .absent, .node value]
  | _ => failTarget id

def assignmentTargetWithin : Nat → NodeId → Machine NodeId
  | 0, id => failTarget id
  | bound + 1, id => do
    let some node ← getNode? id | failTarget id
    let target := assignmentTargetWithin bound
    match node.kind with
    | .identifier | .memberExpression | .objectPattern | .arrayPattern => return id
    | .objectExpression =>
      let some items := (node.slot? .properties).bind Slot.list? | failTarget id
      let nodes ← items.nodes.mapM fun
        | none => failTarget id
        | some property => some <$> patternProperty target property
      rebuild node .objectPattern {} [.list { items with nodes }]
    | .arrayExpression =>
      let some items := (node.slot? .elements).bind Slot.list? | failTarget id
      let nodes ← items.nodes.mapM fun
        | none => pure none
        | some element => some <$> patternElement target element
      rebuild node .arrayPattern {} [.list { items with nodes }]
    | _ => failTarget id

def assignmentTarget (id : NodeId) : Machine NodeId :=
  assignmentTargetWithin (id + 1) id

def allowingIn {α : Type} (p : Machine α) : Machine α :=
  withContext ({ · with noIn := false }) p

def expression : Machine NodeId := do
  let start ← tokenStart
  let first ← inner.assignment
  let more ← collect do if ← accept .comma then some <$> inner.assignment else return none
  if more.isEmpty then return first
  finish .sequenceExpression start [← listFrom start (first :: more)]

def spreadOrAssignment : Machine NodeId := do
  if ← isAt .ellipsis then
    let start ← tokenStart
    advance
    let argument ← inner.assignment
    finish .spreadElement start [.node argument]
  else inner.assignment

/-! ## Literals -/

def parenthesizedExpression : Machine NodeId := do
  expect .openParen
  let expression ← allowingIn (expression inner)
  if ← isAt .colon then failAtToken .typeCastUnsupported
  expect .closeParen
  return expression

def templateRest (quasi : NodeId) : Machine (List NodeId × List NodeId) := do
  let step : List NodeId × List NodeId × Bool →
      Machine (Option (List NodeId × List NodeId × Bool)) := fun (quasis, expressions, ended) => do
    if ended then return none
    let expression ← allowingIn (expression inner)
    if !(← isAt .closeBrace) then failExpecting .closeBrace
    rereadBrace
    let continuation ← token
    let start ← tokenStart
    advance
    let quasi ← finish .templateElement start []
    return some (quasi :: quasis, expression :: expressions, continuation != .templateMiddle)
  let (quasis, expressions, _) ← iterate step ([quasi], [], false)
  return (quasis.reverse, expressions.reverse)

def templateLiteral : Machine NodeId := do
  let start ← tokenStart
  let head ← token
  advance
  let quasi ← finish .templateElement start []
  let (quasis, expressions) ←
    if head == .templateHead then templateRest inner quasi else pure ([quasi], [])
  finish .templateLiteral start [← listFrom start quasis, ← listFrom start expressions]

def arrayLiteral : Machine NodeId := do
  let start ← tokenStart
  expect .openBracket
  let nodes ← elements (allowingIn (spreadOrAssignment inner))
  expect .closeBracket
  finish .arrayExpression start [.list ⟨nodes, start, ← lastEnd⟩]

def propertyRest (start : Nat) (key : NodeId) (computed canBeShorthand : Bool) :
    Machine NodeId := do
  if ← accept .colon then
    let value ← inner.assignment
    finishWith .property start [.node key, .node value] { flags := { computed } }
  else if canBeShorthand && (← isAtAny [.comma, .closeBrace, .equals]) then
    let value ← shorthandDefault inner start key
    finishWith .property start [.absent, .node value] { flags := { shorthand := true } }
  else failAtToken .propertyAssignmentExpected

def objectMember : Machine NodeId := do
  if ← isAt .ellipsis then spreadOrAssignment inner
  else
    let start ← tokenStart
    let flags ← functionFlags {}
    let flags ← accessorFlags flags
    if !startsPropertyName (← token) then failAtToken .propertyAssignmentExpected
    let canBeShorthand := !flags.needsFunction && (← isIdentifier)
    let (key, computed) ← propertyName inner
    if ← isAtAny [.openParen, .lessThan] then
      let value ← methodFunction inner flags
      finishWith .property start [.node key, .node value]
        { flags := { flags with computed, method := true } }
    else if flags.needsFunction then failExpecting .openParen
    else propertyRest inner start key computed canBeShorthand

def objectLiteral : Machine NodeId := do
  let start ← tokenStart
  expect .openBrace
  let properties ← commaTerminated .closeBrace (allowingIn (objectMember inner))
  expect .closeBrace
  finish .objectExpression start [← listFrom start properties]

def primary (heritage : Machine NodeId) : Machine NodeId := do
  let start ← tokenStart
  match ← token with
  | .thisKeyword =>
    advance
    finish .thisExpression start []
  | .number | .string | .trueKeyword | .falseKeyword | .nullKeyword => literal
  | .slash | .slashEquals =>
    rereadSlash
    literal
  | .template | .templateHead => templateLiteral inner
  | .openParen => parenthesizedExpression inner
  | .openBracket => arrayLiteral inner
  | .openBrace => objectLiteral inner
  | .functionKeyword => function inner .functionExpression start true
  | .asyncKeyword =>
    if ← startsAsyncFunction then function inner .functionExpression start true else identifier
  | .classKeyword => classOf inner heritage .classExpression start true
  | .endOfFile => failUnexpected
  | _ => if ← isIdentifier then identifier else failAtToken .expressionExpected

/-! ## Member access and calls -/

def arguments : Machine Slot := do
  let start ← tokenStart
  expect .openParen
  let nodes ← commaTerminated .closeParen (allowingIn (spreadOrAssignment inner))
  expect .closeParen
  listFrom start nodes

def accessesAndCalls (start : Nat) (allowCall : Bool) (expression₀ : NodeId) : Machine NodeId :=
  iterate (fun object => do
    match ← token with
    | .dot =>
      advance
      let property ← identifierName
      finish .memberExpression start [.node object, .node property]
    | .openBracket =>
      advance
      let property ← allowingIn (expression inner)
      expect .closeBracket
      finishWith .memberExpression start [.node object, .node property]
        { flags := { computed := true } }
    | .openParen =>
      if allowCall then
        let arguments ← arguments inner
        finish .callExpression start [.node object, arguments]
      else return none
    | .template | .templateHead =>
      let quasi ← templateLiteral inner
      finish .taggedTemplateExpression start [.node object, .node quasi]
    | _ => return none) expression₀

def newExpression (operand : Machine NodeId) : Machine NodeId := do
  let start ← tokenStart
  advance
  let calleeStart ← tokenStart
  let callee ← if ← isAt .newKeyword then inner.construction else operand
  let callee ← accessesAndCalls inner calleeStart false callee
  let arguments ← if ← isAt .openParen then arguments inner else pure .absent
  finish .newExpression start [.node callee, arguments]

def leftHandSideWithin : Nat → Machine NodeId
  | 0 => failUnexpected
  | bound + 1 => do
    let start ← tokenStart
    let operand := primary inner (leftHandSideWithin bound)
    let expression ←
      match ← token with
      | .newKeyword => newExpression inner operand
      | .superKeyword =>
        advance
        finish .super start []
      | _ => operand
    accessesAndCalls inner start true expression

def leftHandSide : Machine NodeId := do
  leftHandSideWithin inner ((← bytesLeft) + 2)

def construction : Machine NodeId :=
  newExpression inner (primary inner (leftHandSide inner))

/-! ## Operators -/

def postfixExpression : Machine NodeId := do
  let start ← tokenStart
  let operand ← leftHandSide inner
  let token ← token
  if (token == .plusPlus || token == .minusMinus) && !(← afterLineBreak) then
    advance
    finishWith .updateExpression start [.node operand] { token }
  else return operand

def prefixOperation (kind : NodeKind) : Machine NodeId := do
  let start ← tokenStart
  let token ← token
  advance
  let argument ← inner.unary
  finishWith kind start [.node argument] { token, flags := { leading := true } }

def unary : Machine NodeId := do
  match ← token with
  | .deleteKeyword | .voidKeyword | .typeOfKeyword | .plus | .minus | .tilde | .exclamation =>
    prefixOperation inner .unaryExpression
  | .plusPlus | .minusMinus => prefixOperation inner .updateExpression
  | .awaitKeyword =>
    if (← context).inAsync then
      let start ← tokenStart
      advance
      let argument ← inner.unary
      finish .awaitExpression start [.node argument]
    else postfixExpression inner
  | _ => postfixExpression inner

def precedenceHere (t : Token) : Machine Nat := do
  if t == .inKeyword && (← context).noIn then return 0 else return t.precedence

def binary (precedence : Nat) : Machine NodeId := do
  let start ← tokenStart
  let first ← unary inner
  iterate (fun left => do
    rereadGreater
    let token ← token
    let next ← precedenceHere token
    let binds := if token == .asteriskAsterisk then precedence ≤ next else precedence < next
    if next = 0 || !binds then return none
    advance
    let right ← inner.binary next
    let kind := if token.isLogical then NodeKind.logicalExpression else .binaryExpression
    finishWith kind start [.node left, .node right] { token }) first

def inTail {α : Type} (tail : Bool) (p : Machine α) : Machine α :=
  withContext (fun context => { context with conditionalTail := context.conditionalTail || tail }) p

def conditional (tail : Bool) : Machine NodeId := do
  let start ← tokenStart
  let test ← binary inner 0
  if !(← isAt .question) then return test
  advance
  let consequent ← inTail true (allowingIn inner.assignment)
  expect .colon
  let alternate ← inTail tail inner.assignment
  finish .conditionalExpression start [.node test, .node consequent, .node alternate]

/-! ## Arrow functions -/

def isArrowParameter : Machine Bool := do
  if ← isIdentifier then lookAhead (· == .arrow) else return false

def arrowToken : Machine Unit := do
  if !(← isAt .arrow) then failExpecting .arrow
  if ← afterLineBreak then failAtToken .lineBreakNotPermitted
  advance

def singleParameterHead (isAsync : Bool) : Machine ArrowHead := do
  let start ← tokenStart
  let param ← identifier
  let params ← listFrom start [param]
  arrowToken
  return { isAsync, typeParameters := none, params, returnType := none }

def parameterListHead (isAsync : Bool) : Machine ArrowHead := do
  let typeParameters ← typeParameters? inner
  let params ← withContext (Context.ofFunction isAsync false) (parameterList inner)
  let returnType ← ascription? inner
  arrowToken
  return { isAsync, typeParameters, params, returnType }

def arrowHead : Machine ArrowHead := do
  if ← isArrowParameter then singleParameterHead false
  else
    let isAsync ←
      if ← isAt .asyncKeyword then
        lookAheadOnLine fun t => t == .openParen || t == .lessThan || t.isName
      else pure false
    if isAsync then
      advance
      if ← isIdentifier then singleParameterHead true else parameterListHead inner true
    else parameterListHead inner false

def startsArrowFunction (tail : Bool) : Machine Bool := do
  match ← token with
  | .openParen =>
    match ← parenFollow with
    | .arrow | .unknown => return true
    | .colon => return !tail
    | .other => return false
  | .lessThan | .asyncKeyword => return true
  | _ => isArrowParameter

def tryArrowHead (tail : Bool) : Machine (Option ArrowHead) :=
  attempt do
    let head ← arrowHead inner
    if tail && head.returnType.isSome then failExpecting .colon
    return head

def arrowBody (isAsync tail : Bool) : Machine NodeId := do
  if ← isAt .openBrace then functionBody inner isAsync false
  else
    withContext (fun context => { context with inAsync := isAsync, inGenerator := false })
      (inTail tail inner.assignment)

def arrowFunction? (tail : Bool) : Machine (Option NodeId) := do
  if !(← startsArrowFunction tail) then return none
  let start ← tokenStart
  let some head ← tryArrowHead inner tail | return none
  let expressionBody := !(← isAt .openBrace)
  let body ← arrowBody inner head.isAsync tail
  finishWith .arrowFunctionExpression start
    [.ofOption head.typeParameters, head.params, .ofOption head.returnType, .node body]
    { flags := { async := head.isAsync, expressionBody } }

/-! ## Assignments -/

def endsYield : Machine Bool := do
  if ← isAtAny [.closeParen, .closeBracket, .closeBrace, .comma, .colon, .semicolon, .endOfFile]
  then return true
  else return (← isAt .inKeyword) && (← context).noIn

def yieldExpression : Machine NodeId := do
  let start ← tokenStart
  advance
  if ← afterLineBreak then finish .yieldExpression start [.absent]
  else if ← accept .asterisk then
    let argument ← inner.assignment
    finishWith .yieldExpression start [.node argument] { flags := { delegate := true } }
  else if ← endsYield then finish .yieldExpression start [.absent]
  else
    let argument ← inner.assignment
    finish .yieldExpression start [.node argument]

def targetFor (operator : Token) (left : NodeId) : Machine NodeId := do
  if operator == .equals then assignmentTarget left
  else
    let some node ← getNode? left | failTarget left
    match node.kind with
    | .identifier | .memberExpression => return left
    | _ => failTarget left

def operation (tail : Bool) : Machine NodeId := do
  let start ← tokenStart
  let left ← conditional inner tail
  let token ← token
  if !token.isAssignment then return left
  let target ← targetFor token left
  advance
  let right ← inTail tail inner.assignment
  finishWith .assignmentExpression start [.node target, .node right] { token }

def assignment : Machine NodeId := do
  let tail := (← context).conditionalTail
  withContext ({ · with conditionalTail := false }) do
    if (← isAt .yieldKeyword) && (← context).inGenerator then yieldExpression inner
    else
      match ← arrowFunction? inner tail with
      | some arrow => return arrow
      | none => operation inner tail

end FlowErasure.Grammar.Machine
