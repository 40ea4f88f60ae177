import FlowErasure.Grammar.Classes
import FlowErasure.Grammar.Targets

/-!
# Expressions

A part of an expression that may contain an expression again calls it through `inner`, one level of
nesting deeper. The two exceptions are loops over what stands to the left (`a + b + c`, `a.b.c`),
which do not nest, and the class a class extends, whose nesting is limited by the text alone.
-/

namespace FlowErasure.Grammar

variable (inner : Nested)

/-- Runs a parser where `in` is an operator. -/
def allowingIn {α : Type} (p : Parser α) : Parser α :=
  withReader ({ · with noIn := false }) p

/-- An expression with the comma operator. -/
def expression : Parser NodeId := do
  let start ← tokenStart
  let first ← inner.assignment
  let more ← collect do if ← accept .comma then some <$> inner.assignment else return none
  if more.isEmpty then return first
  finish .sequenceExpression start [← listFrom start (first :: more)]

/-- An expression, or the spread of one. -/
def spreadOrAssignment : Parser NodeId := do
  if ← isAt .ellipsis then
    let start ← tokenStart
    advance
    let argument ← inner.assignment
    finish .spreadElement start [.node argument]
  else inner.assignment

/-! ## Literals -/

def parenthesizedExpression : Parser NodeId := do
  expect .openParen
  let expression ← allowingIn (expression inner)
  if ← isAt .colon then failAtToken .typeCastUnsupported
  expect .closeParen
  return expression

/-- The pieces of text and the expressions of a template after its head. -/
def templateRest (quasi : NodeId) : Parser (List NodeId × List NodeId) := do
  let step : List NodeId × List NodeId × Bool →
      Parser (Option (List NodeId × List NodeId × Bool)) := fun (quasis, expressions, ended) => do
    if ended then return none
    let expression ← allowingIn (expression inner)
    if !(← isAt .closeBrace) then failExpecting .closeBrace
    rereadBrace
    let continuation ← token
    let start ← tokenStart
    advance
    let quasi ← finish .templateElement start []
    return some (quasi :: quasis, expression :: expressions, continuation != .templateMiddle)
  let (quasis, expressions, _) ← iterate step ([quasi], [], false)
  return (quasis.reverse, expressions.reverse)

def templateLiteral : Parser NodeId := do
  let start ← tokenStart
  let head ← token
  advance
  let quasi ← finish .templateElement start []
  let (quasis, expressions) ←
    if head == .templateHead then templateRest inner quasi else pure ([quasi], [])
  finish .templateLiteral start [← listFrom start quasis, ← listFrom start expressions]

def arrayLiteral : Parser NodeId := do
  let start ← tokenStart
  expect .openBracket
  let nodes ← elements (allowingIn (spreadOrAssignment inner))
  expect .closeBracket
  finish .arrayExpression start [.list ⟨nodes, start, ← lastEnd⟩]

/-- A property after its key, which is neither spread nor method. A name with a default is only
right once the literal becomes a pattern. -/
def propertyRest (start : Nat) (key : NodeId) (computed canBeShorthand : Bool) :
    Parser NodeId := do
  if ← accept .colon then
    let value ← inner.assignment
    finishWith .property start [.node key, .node value] { flags := { computed } }
  else if canBeShorthand && (← isAtAny [.comma, .closeBrace, .equals]) then
    let value ← shorthandDefault inner start key
    finishWith .property start [.absent, .node value] { flags := { shorthand := true } }
  else failAtToken .propertyAssignmentExpected

def objectMember : Parser NodeId := do
  if ← isAt .ellipsis then spreadOrAssignment inner
  else
    let start ← tokenStart
    let flags ← functionFlags {}
    let flags ← accessorFlags flags
    if !startsPropertyName (← token) then failAtToken .propertyAssignmentExpected
    let canBeShorthand := !flags.needsFunction && (← isIdentifier)
    let (key, computed) ← propertyName inner
    if ← isAtAny [.openParen, .lessThan] then
      let value ← methodFunction inner flags
      finishWith .property start [.node key, .node value]
        { flags := { flags with computed, method := true } }
    else if flags.needsFunction then failExpecting .openParen
    else propertyRest inner start key computed canBeShorthand

def objectLiteral : Parser NodeId := do
  let start ← tokenStart
  expect .openBrace
  let properties ← commaTerminated .closeBrace (allowingIn (objectMember inner))
  expect .closeBrace
  finish .objectExpression start [← listFrom start properties]

/-- An operand that is no operator application; `heritage` reads what a class extends. -/
def primary (heritage : Parser NodeId) : Parser NodeId := do
  let start ← tokenStart
  match ← token with
  | .thisKeyword =>
    advance
    finish .thisExpression start []
  | .number | .string | .trueKeyword | .falseKeyword | .nullKeyword => literal
  | .slash | .slashEquals =>
    rereadSlash
    literal
  | .template | .templateHead => templateLiteral inner
  | .openParen => parenthesizedExpression inner
  | .openBracket => arrayLiteral inner
  | .openBrace => objectLiteral inner
  | .functionKeyword => function inner .functionExpression start true
  | .asyncKeyword =>
    if ← startsAsyncFunction then function inner .functionExpression start true else identifier
  | .classKeyword => classOf inner heritage .classExpression start true
  | .endOfFile => failUnexpected
  | _ => if ← isIdentifier then identifier else failAtToken .expressionExpected

/-! ## Member access and calls -/

/-- Arguments in parentheses. -/
def arguments : Parser Slot := do
  let start ← tokenStart
  expect .openParen
  let nodes ← commaTerminated .closeParen (allowingIn (spreadOrAssignment inner))
  expect .closeParen
  listFrom start nodes

/-- Member accesses, template applications and, if `allowCall`, calls after an expression. -/
def accessesAndCalls (start : Nat) (allowCall : Bool) (expression₀ : NodeId) : Parser NodeId :=
  iterate (fun object => do
    match ← token with
    | .dot =>
      advance
      let property ← identifierName
      finish .memberExpression start [.node object, .node property]
    | .openBracket =>
      advance
      let property ← allowingIn (expression inner)
      expect .closeBracket
      finishWith .memberExpression start [.node object, .node property]
        { flags := { computed := true } }
    | .openParen =>
      if allowCall then
        let arguments ← arguments inner
        finish .callExpression start [.node object, arguments]
      else return none
    | .template | .templateHead =>
      let quasi ← templateLiteral inner
      finish .taggedTemplateExpression start [.node object, .node quasi]
    | _ => return none) expression₀

/-- An expression that starts with `new`; `operand` reads what is constructed. -/
def newExpression (operand : Parser NodeId) : Parser NodeId := do
  let start ← tokenStart
  advance
  let calleeStart ← tokenStart
  let callee ← if ← isAt .newKeyword then inner.construction else operand
  let callee ← accessesAndCalls inner calleeStart false callee
  let arguments ← if ← isAt .openParen then arguments inner else pure .absent
  finish .newExpression start [.node callee, arguments]

/-- An operand with accesses and calls, in which classes extend classes less than `bound` deep. -/
def leftHandSideWithin : Nat → Parser NodeId
  | 0 => failUnexpected
  | bound + 1 => do
    let start ← tokenStart
    let operand := primary inner (leftHandSideWithin bound)
    let expression ←
      match ← token with
      | .newKeyword => newExpression inner operand
      | .superKeyword =>
        advance
        finish .super start []
      | _ => operand
    accessesAndCalls inner start true expression

/-- An operand with accesses and calls. -/
def leftHandSide : Parser NodeId := do
  leftHandSideWithin inner ((← get).lexer.bytesLeft + 2)

/-- An expression that starts with `new`, on its own. -/
def construction : Parser NodeId :=
  newExpression inner (primary inner (leftHandSide inner))

/-! ## Operators -/

/-- `++` or `--` after an operand, on its line. -/
def postfixExpression : Parser NodeId := do
  let start ← tokenStart
  let operand ← leftHandSide inner
  let token ← token
  if (token == .plusPlus || token == .minusMinus) && !(← afterLineBreak) then
    advance
    finishWith .updateExpression start [.node operand] { token }
  else return operand

/-- An operator before an operand. -/
def prefixOperation (kind : NodeKind) : Parser NodeId := do
  let start ← tokenStart
  let token ← token
  advance
  let argument ← inner.unary
  finishWith kind start [.node argument] { token, flags := { leading := true } }

def unary : Parser NodeId := do
  match ← token with
  | .deleteKeyword | .voidKeyword | .typeOfKeyword | .plus | .minus | .tilde | .exclamation =>
    prefixOperation inner .unaryExpression
  | .plusPlus | .minusMinus => prefixOperation inner .updateExpression
  | .awaitKeyword =>
    if (← read).inAsync then
      let start ← tokenStart
      advance
      let argument ← inner.unary
      finish .awaitExpression start [.node argument]
    else postfixExpression inner
  | _ => postfixExpression inner

/-- Precedence of a token as a binary operator here. -/
def precedenceHere (t : Token) : Parser Nat := do
  if t == .inKeyword && (← read).noIn then return 0 else return t.precedence

/-- Operands and operators that bind tighter than `precedence`. Operators of one precedence
associate to the left, `**` to the right. -/
def binary (precedence : Nat) : Parser NodeId := do
  let start ← tokenStart
  let first ← unary inner
  iterate (fun left => do
    rereadGreater
    let token ← token
    let next ← precedenceHere token
    let binds := if token == .asteriskAsterisk then precedence ≤ next else precedence < next
    if next = 0 || !binds then return none
    advance
    let right ← inner.binary next
    let kind := if token.isLogical then NodeKind.logicalExpression else .binaryExpression
    finishWith kind start [.node left, .node right] { token }) first

/-- Runs a parser at the end of a conditional's first branch, if `tail`. -/
def inTail {α : Type} (tail : Bool) (p : Parser α) : Parser α :=
  withReader (fun context => { context with conditionalTail := context.conditionalTail || tail }) p

def conditional (tail : Bool) : Parser NodeId := do
  let start ← tokenStart
  let test ← binary inner 0
  if !(← isAt .question) then return test
  advance
  let consequent ← inTail true (allowingIn inner.assignment)
  expect .colon
  let alternate ← inTail tail inner.assignment
  finish .conditionalExpression start [.node test, .node consequent, .node alternate]

/-! ## Arrow functions -/

/-- An arrow function before its body. -/
structure ArrowHead where
  isAsync : Bool
  typeParameters : Option NodeId
  params : Slot
  returnType : Option NodeId

/-- Is the current token a name with an arrow after it? -/
def isArrowParameter : Parser Bool := do
  if ← isIdentifier then lookAhead (· == .arrow) else return false

/-- The arrow, which stays on the line of the parameters. -/
def arrowToken : Parser Unit := do
  if !(← isAt .arrow) then failExpecting .arrow
  if ← afterLineBreak then failAtToken .lineBreakNotPermitted
  advance

/-- One name as all parameters. -/
def singleParameterHead (isAsync : Bool) : Parser ArrowHead := do
  let start ← tokenStart
  let param ← identifier
  let params ← listFrom start [param]
  arrowToken
  return { isAsync, typeParameters := none, params, returnType := none }

def parameterListHead (isAsync : Bool) : Parser ArrowHead := do
  let typeParameters ← typeParameters? inner
  let params ← withReader (Context.ofFunction isAsync false) (parameterList inner)
  let returnType ← ascription? inner
  arrowToken
  return { isAsync, typeParameters, params, returnType }

def arrowHead : Parser ArrowHead := do
  if ← isArrowParameter then singleParameterHead false
  else
    let isAsync ←
      if ← isAt .asyncKeyword then
        lookAheadOnLine fun t => t == .openParen || t == .lessThan || t.isName
      else pure false
    if isAsync then
      advance
      if ← isIdentifier then singleParameterHead true else parameterListHead inner true
    else parameterListHead inner false

/-- Can an arrow function start here? A parenthesis is looked through to what follows it. -/
def startsArrowFunction (tail : Bool) : Parser Bool := do
  match ← token with
  | .openParen =>
    match parenFollow (← get).lexer with
    | .arrow | .unknown => return true
    | .colon => return !tail
    | .other => return false
  | .lessThan | .asyncKeyword => return true
  | _ => isArrowParameter

/-- Tries to read an arrow function's head. At the end of a conditional's first branch a head has no
return type: there the colon is the conditional's. -/
def tryArrowHead (tail : Bool) : Parser (Option ArrowHead) :=
  attempt do
    let head ← arrowHead inner
    if tail && head.returnType.isSome then failExpecting .colon
    return head

/-- The body of an arrow function: a block or an expression. -/
def arrowBody (isAsync tail : Bool) : Parser NodeId := do
  if ← isAt .openBrace then functionBody inner isAsync false
  else
    withReader (fun context => { context with inAsync := isAsync, inGenerator := false })
      (inTail tail inner.assignment)

/-- An arrow function, if one starts here. -/
def arrowFunction? (tail : Bool) : Parser (Option NodeId) := do
  if !(← startsArrowFunction tail) then return none
  let start ← tokenStart
  let some head ← tryArrowHead inner tail | return none
  let expressionBody := !(← isAt .openBrace)
  let body ← arrowBody inner head.isAsync tail
  finishWith .arrowFunctionExpression start
    [.ofOption head.typeParameters, head.params, .ofOption head.returnType, .node body]
    { flags := { async := head.isAsync, expressionBody } }

/-! ## Assignments -/

/-- Tokens after `yield` that leave it without an argument. -/
def endsYield : Parser Bool := do
  if ← isAtAny [.closeParen, .closeBracket, .closeBrace, .comma, .colon, .semicolon, .endOfFile]
  then return true
  else return (← isAt .inKeyword) && (← read).noIn

def yieldExpression : Parser NodeId := do
  let start ← tokenStart
  advance
  if ← afterLineBreak then finish .yieldExpression start [.absent]
  else if ← accept .asterisk then
    let argument ← inner.assignment
    finishWith .yieldExpression start [.node argument] { flags := { delegate := true } }
  else if ← endsYield then finish .yieldExpression start [.absent]
  else
    let argument ← inner.assignment
    finish .yieldExpression start [.node argument]

/-- The target of an assignment with a given operator. Only plain assignment takes patterns. -/
def targetFor (operator : Token) (left : NodeId) : Parser NodeId := do
  if operator == .equals then assignmentTarget left
  else
    let some node ← getNode? left | failTarget left
    match node.kind with
    | .identifier | .memberExpression => return left
    | _ => failTarget left

/-- An expression that is neither `yield` nor an arrow function. -/
def operation (tail : Bool) : Parser NodeId := do
  let start ← tokenStart
  let left ← conditional inner tail
  let token ← token
  if !token.isAssignment then return left
  let target ← targetFor token left
  advance
  let right ← inTail tail inner.assignment
  finishWith .assignmentExpression start [.node target, .node right] { token }

/-- An expression without a comma operator. Whether it ends a conditional's first branch matters to
its own last part only, not to what is nested in it. -/
def assignment : Parser NodeId := do
  let tail := (← read).conditionalTail
  withReader ({ · with conditionalTail := false }) do
    if (← isAt .yieldKeyword) && (← read).inGenerator then yieldExpression inner
    else
      match ← arrowFunction? inner tail with
      | some arrow => return arrow
      | none => operation inner tail

end FlowErasure.Grammar
