import FlowErasure.Grammar.Program
import FlowErasure.Registers.Statements

/-!
# Programs

The rules tied together, and programs read one after the other with the same registers.
-/

namespace FlowErasure.Grammar

namespace Methods

/-- Below the last level the depth is at the limit, so that no part is run. -/
def exhausted : Methods where
  statement := Machine.guarded Machine.failTooDeep
  assignment := Machine.guarded Machine.failTooDeep
  binary _ := Machine.guarded Machine.failTooDeep
  unary := Machine.guarded Machine.failTooDeep
  construction := Machine.guarded Machine.failTooDeep
  bindingTarget _ := Machine.guarded Machine.failTooDeep
  classMember := Machine.guarded Machine.failTooDeep
  type := Machine.guarded Machine.failTooDeep
  prefixType := Machine.guarded Machine.failTooDeep
  primaryType := Machine.guarded Machine.failTooDeep
  typeMember _ := Machine.guarded Machine.failTooDeep

/-- The rules where at most `levels` levels of nesting can be opened. -/
def within : Nat → Methods
  | 0 => exhausted
  | levels + 1 =>
    let inner := within levels
    { statement := Machine.guarded (Machine.statement inner)
      assignment := Machine.guarded (Machine.assignment inner)
      binary := fun precedence => Machine.guarded (Machine.binary inner precedence)
      unary := Machine.guarded (Machine.unary inner)
      construction := Machine.guarded (Machine.construction inner)
      bindingTarget := fun allowOptional =>
        Machine.guarded (Machine.bindingTarget inner allowOptional)
      classMember := Machine.guarded (Machine.classMember inner)
      type := Machine.guarded (Machine.unionType inner)
      prefixType := Machine.guarded (Machine.prefixType inner)
      primaryType := Machine.guarded (Machine.primaryType inner)
      typeMember := fun allowStatic => Machine.guarded (Machine.typeMember inner allowStatic) }

end Methods

def Machine.program : Machine NodeId := do
  skipShebang
  advance
  let statements ← collect do
    if ← isAt .endOfFile then return none
    some <$> (Methods.within nestingLimit).statement
  let stop := (← get).lexer.size
  addNode
    { kind := .program, start := 0, stop, slots := [.list ⟨statements.map some, 0, stop⟩] }

namespace Registers

/-- Before the first token of a source. -/
def ofText (text : List Char) : Registers where
  toState := .ofText text
  current := .unknown
  context := {}
  depth := 0

/-- Where a run ends, with an answer or with an error. -/
def final {α : Type} : EStateM.Result Failure Registers α → Registers
  | .ok _ r => r
  | .error _ r => r

/-- After a program has been read with the registers or refused. -/
def readProgram (r : Registers) : Registers :=
  final (Machine.program r)

end Registers

end FlowErasure.Grammar
