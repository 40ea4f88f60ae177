/-!
# Node flags
-/

namespace FlowErasure

/-- What the grammar records of a node beside its kind and its fields. -/
structure NodeFlags where
  generator : Bool := false
  async : Bool := false
  computed : Bool := false
  static : Bool := false
  method : Bool := false
  shorthand : Bool := false
  getter : Bool := false
  setter : Bool := false
  /-- An operator written before its operand. -/
  leading : Bool := false
  delegate : Bool := false
  /-- An optional object type property or function type parameter. -/
  optional : Bool := false
  /-- A type or interface that is exported. -/
  exported : Bool := false
  /-- A type or interface that is declared. -/
  declared : Bool := false
  isConstructor : Bool := false
  /-- An arrow function whose body is an expression. -/
  expressionBody : Bool := false
  deriving DecidableEq, Repr, Inhabited

namespace NodeFlags

/-- Flags that only a member with a function can have. -/
def needsFunction (flags : NodeFlags) : Bool :=
  flags.async || flags.generator || flags.getter || flags.setter

/-- Names of the flags that are set, in a fixed order. -/
def labels (flags : NodeFlags) : List String :=
  [(flags.generator, "GENERATOR"), (flags.async, "ASYNC"), (flags.computed, "COMPUTED"),
   (flags.static, "STATIC"), (flags.method, "METHOD"), (flags.shorthand, "SHORTHAND"),
   (flags.getter, "GETTER"), (flags.setter, "SETTER"), (flags.leading, "PREFIX"),
   (flags.delegate, "DELEGATE"), (flags.optional, "OPTIONAL"), (flags.exported, "EXPORTED"),
   (flags.declared, "DECLARED"), (flags.isConstructor, "CONSTRUCTOR"),
   (flags.expressionBody, "EXPRESSION_BODY")].filterMap
    fun (set, label) => if set then some label else none

end NodeFlags

end FlowErasure
