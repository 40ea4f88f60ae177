import FlowErasure.Proofs.Registers.Parsers
import FlowErasure.Registers.Statements

/-!
# Types, patterns, functions and classes with registers

`Methods.Mirrors` is what every rule may assume of the rules one level of nesting deeper.
-/

namespace FlowErasure.Grammar

variable {levels : Nat}

class Methods.Mirrors (levels : Nat) (methods : Methods) (inner : Nested) : Prop where
  statement : Grammar.Mirrors levels methods.statement inner.statement
  assignment : Grammar.Mirrors levels methods.assignment inner.assignment
  binary : ∀ precedence,
    Grammar.Mirrors levels (methods.binary precedence) (inner.binary precedence)
  unary : Grammar.Mirrors levels methods.unary inner.unary
  construction : Grammar.Mirrors levels methods.construction inner.construction
  bindingTarget : ∀ allowOptional,
    Grammar.Mirrors levels (methods.bindingTarget allowOptional) (inner.bindingTarget allowOptional)
  classMember : Grammar.Mirrors levels methods.classMember inner.classMember
  type : Grammar.Mirrors levels methods.type inner.type
  prefixType : Grammar.Mirrors levels methods.prefixType inner.prefixType
  primaryType : Grammar.Mirrors levels methods.primaryType inner.primaryType
  typeMember : ∀ allowStatic,
    Grammar.Mirrors levels (methods.typeMember allowStatic) (inner.typeMember allowStatic)

attribute [instance] Methods.Mirrors.statement Methods.Mirrors.assignment Methods.Mirrors.binary
  Methods.Mirrors.unary Methods.Mirrors.construction Methods.Mirrors.bindingTarget
  Methods.Mirrors.classMember Methods.Mirrors.type Methods.Mirrors.prefixType
  Methods.Mirrors.primaryType Methods.Mirrors.typeMember

variable (methods : Methods) (inner : Nested) [methods.Mirrors levels inner]

/-! ## Types -/

instance mirrors_ascription? :
    Mirrors levels (Machine.ascription? methods) (ascription? inner) := by
  unfold Machine.ascription? ascription?; infer_instance

instance mirrors_variance : Mirrors levels Machine.variance variance := by
  unfold Machine.variance variance; infer_instance

instance mirrors_typeParameter :
    Mirrors levels (Machine.typeParameter methods) (typeParameter inner) := by
  refine .step fun start => .step fun sign => .step fun named => .when fun _ => ?_
  refine .step fun name => .step fun _ => .step fun bound => .step fun b => ?_
  exact .either fun default => inferInstance

instance mirrors_angleList? (kind : NodeKind) (item : Machine NodeId) (item' : Parser NodeId)
    [Mirrors levels item item'] :
    Mirrors levels (Machine.angleList? kind item) (angleList? kind item') := by
  unfold Machine.angleList? angleList?; infer_instance

instance mirrors_typeParameters? :
    Mirrors levels (Machine.typeParameters? methods) (typeParameters? inner) := by
  unfold Machine.typeParameters? typeParameters?; infer_instance

instance mirrors_typeArguments? :
    Mirrors levels (Machine.typeArguments? methods) (typeArguments? inner) := by
  unfold Machine.typeArguments? typeArguments?; infer_instance

instance mirrors_functionTypeParam (start : Nat) :
    Mirrors levels (Machine.functionTypeParam methods start) (functionTypeParam inner start) := by
  exact .step fun t => .either fun named => inferInstance

instance mirrors_functionTypeParams (listStart : Nat) (params : List NodeId) :
    Mirrors levels (Machine.functionTypeParams methods listStart params)
      (functionTypeParams inner listStart params) := by
  refine (Mirrors.iterate (fun read => ?_) _).bind fun read => inferInstance
  refine .step fun _ => .ite inferInstance (.step fun start => .step fun _ => ?_)
  exact .ite inferInstance (.step fun param => .step fun _ => .ite inferInstance inferInstance)

instance mirrors_finishFunctionType (start : Nat) (typeParameters : Option NodeId)
    (params : Slot × Option NodeId) (separator : Token) :
    Mirrors levels (Machine.finishFunctionType methods start typeParameters params separator)
      (finishFunctionType inner start typeParameters params separator) := by
  unfold Machine.finishFunctionType finishFunctionType; infer_instance

instance mirrors_functionType (start : Nat) (separator : Token) :
    Mirrors levels (Machine.functionType methods start separator)
      (functionType inner start separator) := by
  unfold Machine.functionType functionType; infer_instance

instance mirrors_methodType : Mirrors levels (Machine.methodType methods) (methodType inner) := by
  unfold Machine.methodType methodType; infer_instance

instance mirrors_parenthesizedType :
    Mirrors levels (Machine.parenthesizedType methods) (parenthesizedType inner) := by
  refine .step fun start => .step fun opens => .ite inferInstance ?_
  refine .step fun _ => .step fun innerStart => .step fun type => .step fun _ => .step fun _ => ?_
  extract_lets rest rest'
  have hrest : ∀ isFunction, Mirrors levels (rest isFunction) (rest' isFunction) :=
    fun _ => inferInstance
  exact .ite (.step hrest) (.either hrest)

instance mirrors_typeIndexer (start : Nat) (details : Details) :
    Mirrors levels (Machine.typeIndexer methods start details)
      (typeIndexer inner start details) := by
  refine .step fun _ => .step fun t => .either fun named => ?_
  extract_lets rest rest'
  have hrest : ∀ id, Mirrors levels (rest id) (rest' id) := fun _ => inferInstance
  exact .ite (.step fun id => .step fun _ => .step hrest) (.step hrest)

instance mirrors_typeProperty (start : Nat) (details : Details) :
    Mirrors levels (Machine.typeProperty methods start details)
      (typeProperty inner start details) := by
  refine .step fun _ => .either fun key => .step fun optional => .step fun _ => ?_
  exact .ite inferInstance inferInstance

instance mirrors_typeMember (allowStatic : Bool) :
    Mirrors levels (Machine.typeMember methods allowStatic) (typeMember inner allowStatic) := by
  refine .step fun start => .step fun _ => .either fun static => .when fun _ => ?_
  refine .step fun sign => .step fun t => ?_
  cases t <;> infer_instance

instance mirrors_objectType (allowStatic : Bool) :
    Mirrors levels (Machine.objectType methods allowStatic) (objectType inner allowStatic) := by
  refine .step fun start => .step fun _ => .step fun exact => ?_
  refine (Mirrors.collect ?_).bind fun members => .when fun _ => inferInstance
  exact .step fun closes => .ite inferInstance (.step fun ends => .when fun _ => inferInstance)

instance mirrors_tokenType (kind : NodeKind) :
    Mirrors levels (Machine.tokenType kind) (tokenType kind) := by
  unfold Machine.tokenType tokenType; infer_instance

instance mirrors_qualifiedTypeName :
    Mirrors levels Machine.qualifiedTypeName qualifiedTypeName := by
  unfold Machine.qualifiedTypeName qualifiedTypeName; infer_instance

instance mirrors_genericType :
    Mirrors levels (Machine.genericType methods) (genericType inner) := by
  unfold Machine.genericType genericType; infer_instance

instance mirrors_tupleType : Mirrors levels (Machine.tupleType methods) (tupleType inner) := by
  unfold Machine.tupleType tupleType; infer_instance

instance mirrors_namedType : Mirrors levels (Machine.namedType methods) (namedType inner) := by
  refine .step fun dotted => .ite inferInstance (.step fun name => ?_)
  cases primitiveType? name <;> infer_instance

instance mirrors_negativeNumberType :
    Mirrors levels Machine.negativeNumberType negativeNumberType := by
  unfold Machine.negativeNumberType negativeNumberType; infer_instance

instance mirrors_primaryType :
    Mirrors levels (Machine.primaryType methods) (primaryType inner) := by
  refine .step fun start => .step fun t => ?_
  cases t <;> infer_instance

instance mirrors_postfixType :
    Mirrors levels (Machine.postfixType methods) (postfixType inner) := by
  refine .step fun start => .step fun type => .iterate (fun type => ?_) _
  exact .step fun _ => .step fun _ => .ite inferInstance inferInstance

instance mirrors_prefixType : Mirrors levels (Machine.prefixType methods) (prefixType inner) := by
  unfold Machine.prefixType prefixType; infer_instance

instance mirrors_isSeparator (separator : Token) :
    Mirrors levels (Machine.isSeparator separator) (isSeparator separator) := by
  unfold Machine.isSeparator isSeparator; infer_instance

instance mirrors_typeList (separator : Token) (kind : NodeKind) (member : Machine NodeId)
    (member' : Parser NodeId) [Mirrors levels member member'] :
    Mirrors levels (Machine.typeList separator kind member) (typeList separator kind member') := by
  unfold Machine.typeList typeList; infer_instance

instance mirrors_intersectionType :
    Mirrors levels (Machine.intersectionType methods) (intersectionType inner) := by
  unfold Machine.intersectionType intersectionType; infer_instance

instance mirrors_unionType : Mirrors levels (Machine.unionType methods) (unionType inner) := by
  unfold Machine.unionType unionType; infer_instance

/-! ## Patterns -/

instance mirrors_propertyName :
    Mirrors levels (Machine.propertyName methods) (propertyName inner) := by
  refine .step fun t => ?_
  cases t <;> infer_instance

instance mirrors_bindingIdentifier (allowOptional : Bool) :
    Mirrors levels (Machine.bindingIdentifier methods allowOptional)
      (bindingIdentifier inner allowOptional) := by
  refine .step fun start => .step fun named => .when fun _ => ?_
  refine .step fun name => .step fun _ => .step fun marked => ?_
  extract_lets rest rest'
  have hrest : ∀ mark, Mirrors levels (rest mark) (rest' mark) := fun _ => inferInstance
  exact .ite (.step fun markStart => .step fun _ => .step hrest) (.step hrest)

instance mirrors_bindingElement (allowOptional : Bool) :
    Mirrors levels (Machine.bindingElement methods allowOptional)
      (bindingElement inner allowOptional) := by
  unfold Machine.bindingElement bindingElement; infer_instance

instance mirrors_shorthandDefault (start : Nat) (name : NodeId) :
    Mirrors levels (Machine.shorthandDefault methods start name)
      (shorthandDefault inner start name) := by
  unfold Machine.shorthandDefault shorthandDefault; infer_instance

instance mirrors_bindingProperty :
    Mirrors levels (Machine.bindingProperty methods) (bindingProperty inner) := by
  unfold Machine.bindingProperty bindingProperty; infer_instance

instance mirrors_restElement (target : Machine NodeId) (target' : Parser NodeId)
    [Mirrors levels target target'] :
    Mirrors levels (Machine.restElement target) (restElement target') := by
  unfold Machine.restElement restElement; infer_instance

instance mirrors_objectPattern (rest : Machine NodeId) (rest' : Parser NodeId)
    [Mirrors levels rest rest'] :
    Mirrors levels (Machine.objectPattern methods rest) (objectPattern inner rest') := by
  unfold Machine.objectPattern objectPattern; infer_instance

instance mirrors_elements (element : Machine NodeId) (element' : Parser NodeId)
    [Mirrors levels element element'] :
    Mirrors levels (Machine.elements element) (elements element') := by
  unfold Machine.elements elements; infer_instance

instance mirrors_arrayPattern (rest : Machine NodeId) (rest' : Parser NodeId)
    [Mirrors levels rest rest'] :
    Mirrors levels (Machine.arrayPattern methods rest) (arrayPattern inner rest') := by
  unfold Machine.arrayPattern arrayPattern; infer_instance

instance mirrors_bindingTargetWithin (bound : Nat) (allowOptional : Bool) :
    Mirrors levels (Machine.bindingTargetWithin methods bound allowOptional)
      (bindingTargetWithin inner bound allowOptional) := by
  induction bound generalizing allowOptional with
  | zero => exact mirrors_failUnexpected
  | succ bound ih =>
      refine .step fun t => ?_
      cases t <;> infer_instance

instance mirrors_bindingTarget (allowOptional : Bool) :
    Mirrors levels (Machine.bindingTarget methods allowOptional)
      (bindingTarget inner allowOptional) :=
  mirrors_bytesLeft.bind fun bound =>
    mirrors_bindingTargetWithin methods inner (bound + 2) allowOptional

instance mirrors_parameterList :
    Mirrors levels (Machine.parameterList methods) (parameterList inner) := by
  refine .step fun start => .step fun _ => ?_
  refine (Mirrors.iterate (fun read => ?_) _).bind fun read => inferInstance
  refine .step fun closes => .ite inferInstance (.step fun rest => .ite ?_ ?_)
  · exact .step fun param => .step fun more => .when fun _ => inferInstance
  · exact .step fun param => .step fun closes => .ite inferInstance inferInstance

/-! ## Blocks and functions -/

instance mirrors_statementBlock :
    Mirrors levels (Machine.statementBlock methods) (statementBlock inner) := by
  refine .step fun _ => .step fun start => (Mirrors.collect ?_).bind fun _ => inferInstance
  exact .step fun closes => .ite inferInstance (.step fun ends => .when fun _ => inferInstance)

instance mirrors_blockStatement :
    Mirrors levels (Machine.blockStatement methods) (blockStatement inner) := by
  unfold Machine.blockStatement blockStatement; infer_instance

instance mirrors_functionBody (isAsync isGenerator : Bool) :
    Mirrors levels (Machine.functionBody methods isAsync isGenerator)
      (functionBody inner isAsync isGenerator) := by
  unfold Machine.functionBody functionBody; infer_instance

instance mirrors_functionRest (isAsync isGenerator : Bool) :
    Mirrors levels (Machine.functionRest methods isAsync isGenerator)
      (functionRest inner isAsync isGenerator) := by
  unfold Machine.functionRest functionRest; infer_instance

instance mirrors_declaredName (present allowAnonymous : Bool) :
    Mirrors levels (Machine.declaredName present allowAnonymous)
      (declaredName present allowAnonymous) := by
  unfold Machine.declaredName declaredName; infer_instance

instance mirrors_function (kind : NodeKind) (start : Nat) (allowAnonymous : Bool) :
    Mirrors levels (Machine.function methods kind start allowAnonymous)
      (function inner kind start allowAnonymous) := by
  unfold Machine.function function; infer_instance

instance mirrors_methodFunction (flags : NodeFlags) :
    Mirrors levels (Machine.methodFunction methods flags) (methodFunction inner flags) := by
  unfold Machine.methodFunction methodFunction; infer_instance

/-! ## Classes -/

instance mirrors_accessorFlags (flags : NodeFlags) :
    Mirrors levels (Machine.accessorFlags flags) (accessorFlags flags) := by
  unfold Machine.accessorFlags accessorFlags; infer_instance

instance mirrors_functionFlags (flags : NodeFlags) :
    Mirrors levels (Machine.functionFlags flags) (functionFlags flags) := by
  unfold Machine.functionFlags functionFlags; infer_instance

instance mirrors_classPropertyRest (start : Nat) (details : Details) (key : NodeId) :
    Mirrors levels (Machine.classPropertyRest methods start details key)
      (classPropertyRest inner start details key) := by
  unfold Machine.classPropertyRest classPropertyRest; infer_instance

instance mirrors_signedProperty (start : Nat) (flags : NodeFlags) :
    Mirrors levels (Machine.signedProperty methods start flags)
      (signedProperty inner start flags) := by
  unfold Machine.signedProperty signedProperty; infer_instance

instance mirrors_classMember :
    Mirrors levels (Machine.classMember methods) (classMember inner) := by
  refine .step fun start => .step fun _ => .either fun static => .when fun _ => .step fun _ => ?_
  refine .ite inferInstance (.step fun flags => .step fun flags => .step fun t => .when fun _ => ?_)
  refine .step fun _ => .step fun _ => .step fun key => .step fun _ => ?_
  exact .ite inferInstance (.ite inferInstance inferInstance)

instance mirrors_classBody : Mirrors levels (Machine.classBody methods) (classBody inner) := by
  refine .step fun start => .step fun _ => .step fun listStart => ?_
  refine (Mirrors.collect (.step fun t => ?_)).bind fun members => inferInstance
  cases t <;> infer_instance

instance mirrors_implementsClause :
    Mirrors levels (Machine.implementsClause methods) (implementsClause inner) := by
  unfold Machine.implementsClause implementsClause; infer_instance

instance mirrors_classOf (heritage : Machine NodeId) (heritage' : Parser NodeId)
    [Mirrors levels heritage heritage'] (kind : NodeKind) (start : Nat) (allowAnonymous : Bool) :
    Mirrors levels (Machine.classOf methods heritage kind start allowAnonymous)
      (classOf inner heritage' kind start allowAnonymous) := by
  refine .step fun _ => .step fun _ => .step fun _ => .step fun id => .step fun typeParameters => ?_
  refine .step fun _ => ?_
  extract_lets rest rest'
  have hrest : ∀ bases, Mirrors levels (rest bases) (rest' bases) := fun _ => inferInstance
  exact .ite (.step fun superClass => .step fun superArguments => .step hrest) (.step hrest)

end FlowErasure.Grammar
