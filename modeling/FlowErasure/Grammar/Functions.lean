import FlowErasure.Grammar.Patterns

/-!
# Blocks and functions
-/

namespace FlowErasure.Grammar

variable (inner : Nested)

/-- Statements in braces, as a list that spans what is between the braces. -/
def statementBlock : Parser Slot := do
  expect .openBrace
  let start ← lastEnd
  let statements ← collect do
    if ← isAt .closeBrace then return none
    if ← isAt .endOfFile then failExpecting .closeBrace
    some <$> inner.statement
  let stop ← tokenStart
  advance
  return .list ⟨statements.map some, start, stop⟩

def blockStatement : Parser NodeId := do
  let start ← tokenStart
  let body ← statementBlock inner
  finish .blockStatement start [body]

/-- The surroundings of the parameters and the body of a function. -/
def Context.ofFunction (isAsync isGenerator : Bool) (context : Context) : Context :=
  { context with inAsync := isAsync, inGenerator := isGenerator, noIn := false }

def functionBody (isAsync isGenerator : Bool) : Parser NodeId :=
  withReader (Context.ofFunction isAsync isGenerator) (blockStatement inner)

/-- What comes after the name of a function, as slots: type parameters, parameters, return type
and body. -/
def functionRest (isAsync isGenerator : Bool) : Parser (List Slot) := do
  let typeParameters ← typeParameters? inner
  let params ← withReader (Context.ofFunction isAsync isGenerator) (parameterList inner)
  let returnType ← ascription? inner
  let body ← functionBody inner isAsync isGenerator
  return [.ofOption typeParameters, params, .ofOption returnType, .node body]

/-- The name of a function or a class, which may be missing if `allowAnonymous`. -/
def declaredName (present allowAnonymous : Bool) : Parser (Option NodeId) := do
  if present then identifier
  else if allowAnonymous then return none
  else failAtToken .identifierExpected

/-- A function declaration or expression that starts at `start`. -/
def function (kind : NodeKind) (start : Nat) (allowAnonymous : Bool) : Parser NodeId := do
  let async ← accept .asyncKeyword
  expect .functionKeyword
  let generator ← accept .asterisk
  let id ← declaredName (← isIdentifier) allowAnonymous
  let rest ← functionRest inner async generator
  finishWith kind start (.ofOption id :: rest) { flags := { async, generator } }

/-- The function of a method, from its first token after the name. -/
def methodFunction (flags : NodeFlags) : Parser NodeId := do
  let start ← tokenStart
  let rest ← functionRest inner flags.async flags.generator
  finishWith .functionExpression start (.absent :: rest)
    { flags := { async := flags.async, generator := flags.generator } }

end FlowErasure.Grammar
