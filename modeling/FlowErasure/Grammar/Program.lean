import FlowErasure.Grammar.Statements

/-!
# Programs

The whole grammar: its rules tied together down to the nesting limit, and a program as a sequence
of statements.
-/

namespace FlowErasure

namespace Grammar

/-- The rules with `depth` levels of nesting below the first left to use. -/
def Nested.within : Nat → Nested
  | 0 => .exhausted
  | depth + 1 =>
    let inner := Nested.within depth
    { statement := Grammar.statement inner
      assignment := Grammar.assignment inner
      binary := Grammar.binary inner
      unary := Grammar.unary inner
      construction := Grammar.construction inner
      bindingTarget := Grammar.bindingTarget inner
      classMember := Grammar.classMember inner
      type := Grammar.unionType inner
      prefixType := Grammar.prefixType inner
      primaryType := Grammar.primaryType inner
      typeMember := Grammar.typeMember inner }

/-- The rules of the language. -/
def rules : Nested :=
  .within nestingLimit

/-- All statements up to the end, in a node that spans the whole source. -/
def program : Parser NodeId := do
  modify fun s => { s with lexer := s.lexer.skipShebang }
  advance
  let statements ← collect do
    if ← isAt .endOfFile then return none
    some <$> rules.statement
  let stop := (← get).lexer.size
  addNode
    { kind := .program, start := 0, stop, slots := [.list ⟨statements.map some, 0, stop⟩] }

namespace State

/-- Before the first token of a source. -/
def ofText (text : List Char) : State where
  lexer := .ofText text
  lastEnd := 0
  tree := .empty

/-- Reads a program from where the state is, and answers its node or the error that ended the
reading. Either way the state that was reached can be used on. -/
def readProgram (s : State) : Except Failure NodeId × State :=
  match program {} s with
  | .ok root s => (.ok root, s)
  | .error failure s => (.error failure, s)

end State

end Grammar

/-- A source with its syntax tree. -/
structure Parsed where
  text : List Char
  fileName : Option String
  tree : Tree
  /-- The node of the program. -/
  root : NodeId
  deriving DecidableEq, Repr, Inhabited

/-- Reads a source. The name of its file is only used in errors. -/
def parse (text : List Char) (fileName : Option String) : Except ParseError Parsed :=
  match (Grammar.State.ofText text).readProgram with
  | (.ok root, s) => .ok { text, fileName, tree := s.tree, root }
  | (.error failure, _) =>
    .error (failure.locate (fileName.getD defaultFileName) (Lines.ofText text))

end FlowErasure
