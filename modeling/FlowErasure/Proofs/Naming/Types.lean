import FlowErasure.Proofs.Frame.Types
import FlowErasure.Proofs.Naming.Parsers

/-!
# Names in types, patterns, functions and classes

`Nested.Naming` is what every rule may assume of the rules one level of nesting deeper: they name
identifiers right. Two rules finish identifiers of their own, with an ascription after the name.
-/

-- A rule with a long `do` block needs an instance for each of its steps in one search.
set_option synthInstance.maxSize 1000

namespace FlowErasure.Grammar

variable {text : List Char}

class Nested.Naming (text : List Char) (inner : Nested) : Prop where
  statement : Grammar.Naming text inner.statement
  assignment : Grammar.Naming text inner.assignment
  binary : ∀ precedence, Grammar.Naming text (inner.binary precedence)
  unary : Grammar.Naming text inner.unary
  construction : Grammar.Naming text inner.construction
  bindingTarget : ∀ allowOptional, Grammar.Naming text (inner.bindingTarget allowOptional)
  classMember : Grammar.Naming text inner.classMember
  type : Grammar.Naming text inner.type
  prefixType : Grammar.Naming text inner.prefixType
  primaryType : Grammar.Naming text inner.primaryType
  typeMember : ∀ allowStatic, Grammar.Naming text (inner.typeMember allowStatic)

attribute [instance] Nested.Naming.statement Nested.Naming.assignment Nested.Naming.binary
  Nested.Naming.unary Nested.Naming.construction Nested.Naming.bindingTarget
  Nested.Naming.classMember Nested.Naming.type Nested.Naming.prefixType
  Nested.Naming.primaryType Nested.Naming.typeMember

variable (inner : Nested) [inner.Naming text]

/-! ## Types -/

instance naming_ascription? : Naming text (ascription? inner) := by
  unfold ascription?; infer_instance

instance naming_variance : Naming text variance := by
  unfold variance; infer_instance

instance naming_typeParameter : Naming text (typeParameter inner) := by
  refine .step fun start => .step fun sign => .step fun named => .when fun _ => ?_
  refine .step fun name => .step fun _ => .step fun bound => .step fun b => ?_
  exact .either fun default => inferInstance

instance naming_angleList? (kind : NodeKind) (item : Parser NodeId)
    [Denied kind.isIdentifier] [Naming text item] :
    Naming text (angleList? kind item) := by
  unfold angleList?; infer_instance

instance naming_typeParameters? : Naming text (typeParameters? inner) := by
  unfold typeParameters?; infer_instance

instance naming_typeArguments? : Naming text (typeArguments? inner) := by
  unfold typeArguments?; infer_instance

instance naming_functionTypeParam (start : Nat) :
    Naming text (functionTypeParam inner start) := by
  exact .step fun t => .either fun named => inferInstance

instance naming_functionTypeParams (listStart : Nat) (params : List NodeId) :
    Naming text (functionTypeParams inner listStart params) := by
  refine (Naming.iterate (fun read => ?_) _).bind fun read => inferInstance
  refine .step fun _ => .ite inferInstance (.step fun start => .step fun _ => ?_)
  exact .ite inferInstance (.step fun param => .step fun _ => .ite inferInstance inferInstance)

instance naming_finishFunctionType (start : Nat) (typeParameters : Option NodeId)
    (params : Slot × Option NodeId) (separator : Token) :
    Naming text (finishFunctionType inner start typeParameters params separator) := by
  unfold finishFunctionType; infer_instance

instance naming_functionType (start : Nat) (separator : Token) :
    Naming text (functionType inner start separator) := by
  unfold functionType; infer_instance

instance naming_methodType : Naming text (methodType inner) := by
  unfold methodType; infer_instance

instance naming_parenthesizedType : Naming text (parenthesizedType inner) := by
  refine .step fun start => .step fun opens => .ite inferInstance ?_
  refine .step fun _ => .step fun innerStart => .step fun type => .step fun _ => .step fun _ => ?_
  extract_lets rest
  have hrest : ∀ isFunction, Naming text (rest isFunction) := fun _ => inferInstance
  exact .ite (.step hrest) (.either hrest)

instance naming_typeIndexer (start : Nat) (details : Details) :
    Naming text (typeIndexer inner start details) := by
  refine .step fun _ => .step fun t => .either fun named => ?_
  extract_lets rest
  have hrest : ∀ id, Naming text (rest id) := fun _ => inferInstance
  exact .ite (.step fun id => .step fun _ => .step hrest) (.step hrest)

instance naming_typeProperty (start : Nat) (details : Details) :
    Naming text (typeProperty inner start details) := by
  refine .step fun _ => .either fun key => .step fun optional => .step fun _ => ?_
  exact .ite inferInstance inferInstance

instance naming_typeMember (allowStatic : Bool) :
    Naming text (typeMember inner allowStatic) := by
  refine .step fun start => .step fun _ => .either fun static => .when fun _ => ?_
  refine .step fun sign => .step fun t => ?_
  split <;> infer_instance

instance naming_objectType (allowStatic : Bool) :
    Naming text (objectType inner allowStatic) := by
  refine .step fun start => .step fun _ => .step fun exact => ?_
  refine (Naming.collect ?_).bind fun members => .when fun _ => inferInstance
  exact .step fun closes => .ite inferInstance (.step fun ends => .when fun _ => inferInstance)

instance naming_tokenType (kind : NodeKind) [Denied kind.isIdentifier] :
    Naming text (tokenType kind) := by
  unfold tokenType; infer_instance

instance naming_qualifiedTypeName : Naming text qualifiedTypeName := by
  unfold qualifiedTypeName; infer_instance

instance naming_genericType : Naming text (genericType inner) := by
  unfold genericType; infer_instance

instance naming_tupleType : Naming text (tupleType inner) := by
  unfold tupleType; infer_instance

omit [inner.Naming text] in
theorem isIdentifier_of_primitiveType? {name : String} {kind : NodeKind}
    (h : primitiveType? name = some kind) : kind.isIdentifier = false := by
  unfold primitiveType? at h
  split at h <;> cases h <;> rfl

instance naming_namedType : Naming text (namedType inner) := by
  refine .step fun dotted => .ite inferInstance (.step fun name => ?_)
  split
  · rename_i kind hkind
    have hdenied : Denied kind.isIdentifier := ⟨isIdentifier_of_primitiveType? hkind⟩
    infer_instance
  · infer_instance

omit [inner.Naming text] in
theorem kind_of_tokenType {kind : NodeKind} {c : Context} {s s' : State} {id : NodeId}
    (h : tokenType kind c s = .ok id s') :
    ∃ node, s'.tree.get? id = some node ∧ node.kind = kind := by
  obtain ⟨start, _, -, h⟩ := of_bind_ok h
  obtain ⟨token, _, -, h⟩ := of_bind_ok h
  obtain ⟨_, _, -, h⟩ := of_bind_ok h
  obtain ⟨stop, s₁, -, h⟩ := of_bind_ok h
  cases h
  exact ⟨_, Tree.get?_add_self s₁.tree _, rfl⟩

/-- The sign becomes the start of the number, which is no identifier. -/
instance naming_negativeNumberType : Naming text negativeNumberType := by
  refine .step fun start => .step fun _ => ⟨fun noted c s hs hnamed => ?_⟩
  have hnumber : Naming text (tokenType .numberLiteralType) := inferInstance
  have hends := hnumber.names noted c s hs hnamed
  cases hrun : tokenType .numberLiteralType c s with
  | error e s' =>
      rw [hrun] at hends
      rw [bind_error hrun]
      exact hends
  | ok id s' =>
      rw [hrun] at hends
      rw [bind_ok hrun]
      obtain ⟨number, hget, hnumber⟩ := kind_of_tokenType hrun
      refine ⟨hends.1, hends.2.modify fun node hnode hkind => ?_⟩
      obtain rfl := Option.some.inj (hget.symm.trans hnode)
      exact absurd (hnumber.symm.trans hkind) (by decide)

instance naming_primaryType : Naming text (primaryType inner) := by
  refine .step fun start => .step fun t => ?_
  split <;> infer_instance

instance naming_postfixType : Naming text (postfixType inner) := by
  refine .step fun start => .step fun type => .iterate (fun type => ?_) _
  exact .step fun _ => .step fun _ => .ite inferInstance inferInstance

instance naming_prefixType : Naming text (prefixType inner) := by
  unfold prefixType; infer_instance

instance naming_typeList (separator : Token) (kind : NodeKind) (member : Parser NodeId)
    [Denied kind.isIdentifier] [Naming text member] :
    Naming text (typeList separator kind member) := by
  unfold typeList; infer_instance

instance naming_intersectionType : Naming text (intersectionType inner) := by
  unfold intersectionType; infer_instance

instance naming_unionType : Naming text (unionType inner) := by
  unfold unionType; infer_instance

/-! ## Patterns -/

instance naming_propertyName : Naming text (propertyName inner) := by
  refine .step fun t => ?_
  split <;> infer_instance

instance naming_bindingIdentifier (allowOptional : Bool) :
    Naming text (bindingIdentifier inner allowOptional) := by
  refine naming_introduced fun noted start name => ?_
  refine .step fun _ => .step fun marked => ?_
  extract_lets rest
  have hrest : ∀ mark, NamesWith text ((start, name) :: noted) (rest mark) :=
    fun mark => .step fun type => namesWith_finishWith (List.mem_cons_self ..)
  split
  · exact .step fun markStart => .step fun _ => .step hrest
  · exact .step hrest

instance naming_bindingElement (allowOptional : Bool) :
    Naming text (bindingElement inner allowOptional) := by
  unfold bindingElement; infer_instance

instance naming_shorthandDefault (start : Nat) (name : NodeId) :
    Naming text (shorthandDefault inner start name) := by
  unfold shorthandDefault; infer_instance

instance naming_bindingProperty : Naming text (bindingProperty inner) := by
  unfold bindingProperty; infer_instance

instance naming_restElement (target : Parser NodeId) [Naming text target] :
    Naming text (restElement target) := by
  unfold restElement; infer_instance

instance naming_objectPattern (rest : Parser NodeId) [Naming text rest] :
    Naming text (objectPattern inner rest) := by
  unfold objectPattern; infer_instance

instance naming_elements (element : Parser NodeId) [Naming text element] :
    Naming text (elements element) := by
  unfold elements; infer_instance

instance naming_arrayPattern (rest : Parser NodeId) [Naming text rest] :
    Naming text (arrayPattern inner rest) := by
  unfold arrayPattern; infer_instance

instance naming_bindingTargetWithin (bound : Nat) (allowOptional : Bool) :
    Naming text (bindingTargetWithin inner bound allowOptional) := by
  induction bound generalizing allowOptional with
  | zero => exact naming_failUnexpected
  | succ bound ih =>
      refine .step fun t => ?_
      split <;> infer_instance

instance naming_bindingTarget (allowOptional : Bool) :
    Naming text (bindingTarget inner allowOptional) :=
  .step fun _ => inferInstance

instance naming_parameterList : Naming text (parameterList inner) := by
  refine .step fun start => .step fun _ => ?_
  refine (Naming.iterate (fun read => ?_) _).bind fun read => inferInstance
  refine .step fun closes => .ite inferInstance (.step fun rest => .ite ?_ ?_)
  · exact .step fun param => .step fun more => .when fun _ => inferInstance
  · exact .step fun param => .step fun closes => .ite inferInstance inferInstance

/-! ## Blocks and functions -/

instance naming_statementBlock : Naming text (statementBlock inner) := by
  refine .step fun _ => .step fun start => (Naming.collect ?_).bind fun _ => inferInstance
  exact .step fun closes => .ite inferInstance (.step fun ends => .when fun _ => inferInstance)

instance naming_blockStatement : Naming text (blockStatement inner) := by
  unfold blockStatement; infer_instance

instance naming_functionBody (isAsync isGenerator : Bool) :
    Naming text (functionBody inner isAsync isGenerator) := by
  unfold functionBody; infer_instance

instance naming_functionRest (isAsync isGenerator : Bool) :
    Naming text (functionRest inner isAsync isGenerator) := by
  unfold functionRest; infer_instance

instance naming_declaredName (present allowAnonymous : Bool) :
    Naming text (declaredName present allowAnonymous) := by
  unfold declaredName; infer_instance

instance naming_function (kind : NodeKind) (start : Nat) (allowAnonymous : Bool)
    [Denied kind.isIdentifier] :
    Naming text (function inner kind start allowAnonymous) := by
  unfold function; infer_instance

instance naming_methodFunction (flags : NodeFlags) :
    Naming text (methodFunction inner flags) := by
  unfold methodFunction; infer_instance

/-! ## Classes -/

instance naming_accessorFlags (flags : NodeFlags) : Naming text (accessorFlags flags) := by
  unfold accessorFlags; infer_instance

instance naming_functionFlags (flags : NodeFlags) : Naming text (functionFlags flags) := by
  unfold functionFlags; infer_instance

instance naming_classPropertyRest (start : Nat) (details : Details) (key : NodeId) :
    Naming text (classPropertyRest inner start details key) := by
  unfold classPropertyRest; infer_instance

instance naming_signedProperty (start : Nat) (flags : NodeFlags) :
    Naming text (signedProperty inner start flags) := by
  unfold signedProperty; infer_instance

instance naming_classMember : Naming text (classMember inner) := by
  refine .step fun start => .step fun _ => .either fun static => .when fun _ => .step fun _ => ?_
  refine .ite inferInstance (.step fun flags => .step fun flags => .step fun t => .when fun _ => ?_)
  refine .step fun _ => .step fun _ => .step fun key => .step fun _ => ?_
  exact .ite inferInstance (.ite inferInstance inferInstance)

instance naming_classBody : Naming text (classBody inner) := by
  refine .step fun start => .step fun _ => .step fun listStart => ?_
  refine (Naming.collect (.step fun t => ?_)).bind fun members => inferInstance
  split <;> infer_instance

instance naming_implementsClause : Naming text (implementsClause inner) := by
  unfold implementsClause; infer_instance

instance naming_classOf (heritage : Parser NodeId) [Naming text heritage] (kind : NodeKind)
    [Denied kind.isIdentifier] (start : Nat) (allowAnonymous : Bool) :
    Naming text (classOf inner heritage kind start allowAnonymous) := by
  refine .step fun _ => .step fun _ => .step fun _ => .step fun id => .step fun typeParameters => ?_
  refine .step fun _ => ?_
  extract_lets rest
  have hrest : ∀ bases, Naming text (rest bases) := fun _ => inferInstance
  exact .ite (.step fun superClass => .step fun superArguments => .step hrest) (.step hrest)

end FlowErasure.Grammar
