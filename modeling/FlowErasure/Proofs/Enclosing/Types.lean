import FlowErasure.Proofs.Enclosing.Nearest

/-!
# Operators in types, patterns, functions and classes

A rule answers with a node at which the operators of its context may stand. That holds of `await` and
`yield`, which are read in such a context only, and every node around them hands it on up to the
function, where the context changes together with the flags. In a type there is nothing to allow, so
what a rule for types answers may stand anywhere.
-/

namespace FlowErasure.Grammar

variable {final : Tree} {around : Operators} {c : Context}

def Context.operators (c : Context) : Operators :=
  ⟨c.inAsync, c.inGenerator⟩

abbrev Permits (final : Tree) (around : Operators) (c : Context) (p : Parser NodeId) : Prop :=
  AnswersIn Node.content final c p (final.Permits around)

abbrev AllPermit {α : Type} (final : Tree) (around : Operators) (c : Context) (p : Parser α)
    (nodes : α → List NodeId) : Prop :=
  AnswersIn Node.content final c p fun a => final.AllPermit around (nodes a)

namespace AnswersIn

variable {kind : NodeKind} {start : Nat} {slots : List Slot} {details : Details} {R : NodeId → Prop}

/-- A node at which operators may stand, if they may in its parts. -/
theorem finishNode (himp : ∀ id,
    (∀ around : Operators, around.admits kind →
      final.AllPermit (around.within kind details.flags) (slots.flatMap Slot.children) →
      final.Permits around id) → R id) :
    AnswersIn Node.content final c (finishWith kind start slots details) R := by
  apply shown.mono
  rintro id ⟨stop, hshows⟩
  exact himp id fun around hadmits hparts => .of_content hshows hadmits hparts

theorem neutralWith (hneutral : kind.isNeutral) (himp : ∀ id,
    (∀ around, final.AllPermit around (slots.flatMap Slot.children) → final.Permits around id) →
      R id) : AnswersIn Node.content final c (finishWith kind start slots details) R := by
  apply finishNode
  intro id hid
  apply himp
  intro around hparts
  obtain ⟨hadmits, hwithin⟩ := around.of_isNeutral details.flags hneutral
  apply hid around hadmits
  rwa [hwithin]

theorem neutral (hneutral : kind.isNeutral) (himp : ∀ id,
    (∀ around, final.AllPermit around (slots.flatMap Slot.children) → final.Permits around id) →
      R id) : AnswersIn Node.content final c (finish kind start slots) R :=
  neutralWith hneutral himp

/-- A function asks for nothing around it, if its parts stand where its flags say. -/
theorem finishFunction (hfunction : kind.isFunction) (himp : ∀ id,
    (final.AllPermit (.ofFunction kind details.flags) (slots.flatMap Slot.children) →
      ∀ around, final.Permits around id) → R id) :
    AnswersIn Node.content final c (finishWith kind start slots details) R := by
  apply finishNode
  intro id hid
  apply himp
  intro hparts around
  have hadmits : around.admits kind := by
    cases kind <;> first | rfl | cases hfunction
  have hwithin : around.within kind details.flags = .ofFunction kind details.flags := if_pos hfunction
  apply hid around hadmits
  rwa [hwithin]

theorem allElements {element : Parser NodeId} (helement : Permits final around c element) :
    AllPermit final around c (Grammar.elements element) fun nodes => nodes.filterMap id := by
  apply (elements helement).mono
  intro nodes hnodes id hid
  obtain ⟨node, hnode, rfl⟩ := List.mem_filterMap.mp hid
  exact hnodes id hnode

end AnswersIn

structure Nested.Permitting (final : Tree) (inner : Nested) : Prop where
  keeps : ∀ base, inner.Keeping base
  statement : ∀ c, Permits final c.operators c inner.statement
  assignment : ∀ c, Permits final c.operators c inner.assignment
  binary : ∀ c precedence, Permits final c.operators c (inner.binary precedence)
  unary : ∀ c, Permits final c.operators c inner.unary
  construction : ∀ c, Permits final c.operators c inner.construction
  bindingTarget : ∀ c allowOptional, Permits final c.operators c (inner.bindingTarget allowOptional)
  classMember : ∀ c, Permits final c.operators c inner.classMember
  type : ∀ around c, Permits final around c inner.type
  prefixType : ∀ around c, Permits final around c inner.prefixType
  primaryType : ∀ around c, Permits final around c inner.primaryType
  typeMember : ∀ around c allowStatic, Permits final around c (inner.typeMember allowStatic)

/-! ## Names and literals -/

variable (around)

theorem permits_identifierName : Permits final around c identifierName := by
  refine .quiet fun t => .when (.quiet fun start => AnswersIn.tokenAtom.bind fun name => ?_)
  exact .quiet fun _ => .neutralWith rfl (by simp_all)

theorem permits_identifier : Permits final around c identifier :=
  .quiet fun _ => .ite (permits_identifierName around) .fail

theorem permits_literal : Permits final around c literal :=
  .quiet fun start => .quiet fun t => .quiet fun _ => .neutralWith rfl (by simp_all)

variable {inner : Nested} (h : inner.Permitting final)

include h

/-! ## Types -/

theorem permits_ascription? : AllPermit final around c (ascription? inner) Option.toList := by
  refine .quiet fun _ => .ite (.pure (by simp)) ?_
  refine .quiet fun start => .quiet fun _ => (h.type around c).bind fun type => ?_
  have hascription : AnswersIn Node.content final c (finish .ascription start [.node type]) fun id =>
      final.Permits around type → final.Permits around id :=
    .neutral rfl (by simp_all)
  exact hascription.map (by simp)

theorem permits_typeParameter : Permits final around c (typeParameter inner) := by
  refine .quiet fun start => .quiet fun sign => .quiet fun _ => .when ?_
  refine AnswersIn.tokenAtom.bind fun name => .quiet fun _ => ?_
  apply (permits_ascription? around h).bind
  intro bound
  refine .quiet fun _ => .join (fun type => final.AllPermit around type.toList)
    ((h.type around c).map (by simp)) (.pure (by simp)) fun default => ?_
  exact .neutralWith rfl (by simp_all)

omit h in
theorem permits_angleList? {kind : NodeKind} {item : Parser NodeId} (hneutral : kind.isNeutral)
    (hitem : Permits final around c item) :
    AllPermit final around c (angleList? kind item) Option.toList := by
  refine .quiet fun _ => .ite (.pure (by simp)) (.quiet fun start => .quiet fun _ => ?_)
  apply hitem.commaTerminated.bind
  intro items
  refine .quiet fun _ => AnswersIn.listed.bind fun slot => ?_
  have hlist : AnswersIn Node.content final c (finish kind start [slot]) fun id =>
      slot.children = items → final.AllPermit around items → final.Permits around id :=
    .neutral hneutral (by simp_all)
  exact hlist.map fun id hid hslot hitems => by simpa using hid hslot hitems

theorem permits_typeParameters? :
    AllPermit final around c (typeParameters? inner) Option.toList :=
  permits_angleList? around rfl (permits_typeParameter around h)

theorem permits_typeArguments? : AllPermit final around c (typeArguments? inner) Option.toList :=
  permits_angleList? around rfl (h.type around c)

theorem permits_functionTypeParam (start : Nat) :
    Permits final around c (functionTypeParam inner start) := by
  refine .quiet fun t => .either fun named => .ite ?_ ?_
  · refine (permits_identifierName around).bind fun name => .quiet fun optional => .quiet fun _ => ?_
    exact (h.type around c).bind fun type => .neutralWith rfl (by simp_all)
  · exact (h.type around c).bind fun type => .neutral rfl (by simp_all)

theorem permits_functionTypeParams (listStart : Nat) (params : List NodeId) :
    AnswersIn Node.content final c (functionTypeParams inner listStart params) fun all =>
      final.AllPermit around params → final.AllPermit around (all.1.children ++ all.2.toList) := by
  apply (AnswersIn.iterate
    (P := fun read => final.AllPermit around (read.1 ++ read.2.toList)) _).bind
  · rintro ⟨params, rest⟩
    refine .quiet fun _ => AnswersIn.listed.bind fun slot => .pure ?_
    simp_all
  · rintro ⟨params, rest⟩
    refine .quiet fun _ => .ite (.pure (by simp)) (.quiet fun start => .quiet fun _ => .ite ?_ ?_)
    · apply (permits_functionTypeParam around h start).bind
      exact fun rest => .quiet fun _ => .pure (by simp_all)
    · apply (permits_functionTypeParam around h start).bind
      exact fun param => .quiet fun _ => .whenNot (.pure (by simp_all))

theorem permits_finishFunctionType (start : Nat) (typeParameters : Option NodeId)
    (params : Slot × Option NodeId) (separator : Token) :
    AnswersIn Node.content final c (finishFunctionType inner start typeParameters params separator)
      fun id => final.AllPermit around typeParameters.toList →
        final.AllPermit around (params.1.children ++ params.2.toList) → final.Permits around id := by
  refine .quiet fun _ => (h.type around c).bind fun returnType => .neutral rfl ?_
  simp_all

theorem permits_functionType (start : Nat) (separator : Token) :
    Permits final around c (functionType inner start separator) := by
  apply (permits_typeParameters? around h).bind
  intro typeParameters
  refine .quiet fun listStart => .quiet fun _ => ?_
  apply (permits_functionTypeParams around h listStart []).bind
  intro params
  exact (permits_finishFunctionType around h start _ params separator).mono (by simp_all)

theorem permits_methodType : Permits final around c (methodType inner) :=
  .quiet fun start => permits_functionType around h start .colon

theorem permits_parenthesizedType : Permits final around c (parenthesizedType inner) := by
  refine .quiet fun start => .quiet fun _ => .ite (permits_functionType around h start .arrow) ?_
  refine .quiet fun _ => .quiet fun innerStart => (h.type around c).bind fun type => ?_
  refine .quiet fun _ => .quiet fun _ => ?_
  extract_lets rest
  have hrest : ∀ isFunction, AnswersIn Node.content final c (rest isFunction) fun id =>
      final.Permits around type → final.Permits around id := by
    intro isFunction
    refine .ite ?_ (.quiet fun _ => .pure fun hid => hid)
    have hfirst : AnswersIn Node.content final c
        (finish .functionTypeParam innerStart [.absent, .node type]) fun first =>
          final.Permits around type → final.Permits around first :=
      .neutral rfl (by simp_all)
    refine hfirst.bind fun first => .quiet fun _ => ?_
    apply (permits_functionTypeParams around h start [first]).bind
    intro params
    apply (permits_finishFunctionType around h start none params .arrow).mono
    intro id hid hparams hfirst htype
    exact hid (by simp) (hparams (by simpa using hfirst htype))
  exact .ite (.quiet hrest) (.either hrest)

/-! ### Object types -/

theorem permits_typeIndexer (start : Nat) (details : Details) :
    Permits final around c (typeIndexer inner start details) := by
  refine .quiet fun _ => .quiet fun t => .either fun named => ?_
  extract_lets rest
  have hrest : ∀ id, AnswersIn Node.content final c (rest id) fun indexer =>
      final.AllPermit around id.toList → final.Permits around indexer := by
    intro id
    refine (h.type around c).bind fun key => .quiet fun _ => .quiet fun _ => ?_
    exact (h.type around c).bind fun value => .neutralWith rfl (by simp_all)
  refine .ite ?_ ((hrest none).mono (by simp))
  apply (permits_identifierName around).bind
  exact fun id => .quiet fun _ => (hrest (some id)).mono (by simp)

theorem permits_typeProperty (start : Nat) (details : Details) :
    Permits final around c (typeProperty inner start details) := by
  refine .quiet fun _ => .join (final.Permits around) (permits_literal around)
    (permits_identifierName around) ?_
  refine fun key => .quiet fun optional => .quiet fun _ => .ite ?_ ?_
  · exact (permits_methodType around h).bind fun value =>
      .neutralWith rfl (by simp_all)
  · exact .quiet fun _ => (h.type around c).bind fun value => .neutralWith rfl (by simp_all)

theorem permits_typeMember (allowStatic : Bool) :
    Permits final around c (typeMember inner allowStatic) := by
  have hcall : ∀ start details, Permits final around c (do
      let value ← methodType inner
      finishWith .objectTypeCallProperty start [.node value] details) := by
    intro start details
    exact (permits_methodType around h).bind fun value =>
      .neutralWith rfl (by simp_all)
  refine .quiet fun start => .quiet fun _ => .either fun static => .when ?_
  refine .quiet fun sign => .quiet fun t => ?_
  split
  · exact permits_typeIndexer around h start _
  · exact hcall start _
  · exact hcall start _
  · exact permits_typeProperty around h start _

theorem permits_objectType (allowStatic : Bool) :
    Permits final around c (objectType inner allowStatic) := by
  refine .quiet fun start => .quiet fun _ => .quiet fun exact => ?_
  apply (AnswersIn.collect (P := final.Permits around) _).bind
  · intro members
    refine .when (.quiet fun _ => AnswersIn.listed.bind fun slot => .neutral rfl ?_)
    simp_all [Tree.AllPermit]
  · refine .quiet fun _ => .ite (.pure (by simp)) (.quiet fun _ => .when ?_)
    refine (h.typeMember around c allowStatic).bind fun member => ?_
    have hsome : AnswersIn Node.content final c (pure (some member)) fun id =>
        final.Permits around member → ∀ b ∈ id, final.Permits around b := .pure (by simp)
    exact .quiet fun _ => .ite hsome (.quiet fun _ => hsome)

/-! ### Names and lists of types -/

omit h in
theorem permits_tokenType {kind : NodeKind} (hneutral : kind.isNeutral) :
    Permits final around c (tokenType kind) :=
  .quiet fun start => .quiet fun t => .quiet fun _ => .neutralWith hneutral (by simp_all)

omit h in
theorem permits_qualifiedTypeName : Permits final around c qualifiedTypeName := by
  refine .quiet fun start => (permits_identifier around).bind fun first => ?_
  apply AnswersIn.iterate
  intro name
  refine .quiet fun _ => .ite ?_ (.pure (by simp))
  refine (permits_identifierName around).bind fun id => ?_
  have hqualified : AnswersIn Node.content final c
      (finish .qualifiedTypeIdentifier start [.node name, .node id]) fun type =>
        final.Permits around id → final.Permits around name → final.Permits around type :=
    .neutral rfl (by simp_all)
  exact hqualified.bind fun type => .pure (by simp_all)

theorem permits_genericType : Permits final around c (genericType inner) := by
  refine .quiet fun start => (permits_qualifiedTypeName around).bind fun id => ?_
  apply (permits_typeArguments? around h).bind
  exact fun typeArguments => .neutral rfl (by simp_all)

theorem permits_tupleType : Permits final around c (tupleType inner) := by
  refine .quiet fun start => .quiet fun _ => ?_
  apply (h.type around c).commaTerminated.bind
  intro types
  refine .quiet fun _ => AnswersIn.listed.bind fun slot => .neutral rfl ?_
  simp_all [Tree.AllPermit]

omit h in
theorem isNeutral_of_primitiveType? {name : String} {kind : NodeKind}
    (hkind : primitiveType? name = some kind) : kind.isNeutral := by
  unfold primitiveType? at hkind
  split at hkind <;> cases hkind <;> rfl

theorem permits_namedType : Permits final around c (namedType inner) := by
  refine .quiet fun _ => .ite (permits_genericType around h) (.quiet fun name => ?_)
  split
  · rename_i kind hkind
    exact permits_tokenType around (isNeutral_of_primitiveType? hkind)
  · exact permits_genericType around h

omit h in
theorem permits_negativeNumberType : Permits final around c negativeNumberType := by
  refine .quiet fun start => .quiet fun _ => ?_
  apply (permits_tokenType around rfl).bind
  intro number
  refine (AnswersIn.updateNode ?_).bind fun _ => ?_
  · exact fun node => rfl
  · exact .pure fun _ hnumber => hnumber

theorem permits_primaryType : Permits final around c (primaryType inner) := by
  refine .quiet fun start => .quiet fun t => ?_
  split
  · exact permits_parenthesizedType around h
  · exact permits_functionType around h start .arrow
  · exact permits_objectType around h false
  · exact permits_tupleType around h
  · exact .quiet fun _ => (h.primaryType around c).bind fun argument => .neutral rfl (by simp_all)
  · exact permits_tokenType around rfl
  · exact permits_tokenType around rfl
  · exact permits_tokenType around rfl
  · exact .quiet fun _ => .ite (permits_negativeNumberType around) .fail
  · exact permits_tokenType around rfl
  · exact permits_tokenType around rfl
  · exact permits_tokenType around rfl
  · exact permits_tokenType around rfl
  · exact .ite (permits_namedType around h) .fail

theorem permits_postfixType : Permits final around c (postfixType inner) := by
  refine .quiet fun start => (permits_primaryType around h).bind fun type => ?_
  apply AnswersIn.iterate
  intro type
  refine .quiet fun _ => .quiet fun _ => .ite (.pure (by simp)) ?_
  refine .quiet fun _ => .ite (.quiet fun _ => .quiet fun _ => ?_) (.pure (by simp))
  have harray : AnswersIn Node.content final c (finish .arrayType start [.node type]) fun array =>
      final.Permits around type → final.Permits around array :=
    .neutral rfl (by simp_all)
  exact harray.bind fun array => .pure (by simp_all)

theorem permits_prefixType : Permits final around c (prefixType inner) := by
  refine .quiet fun _ => .ite (.quiet fun start => .quiet fun _ => ?_) (permits_postfixType around h)
  exact (h.prefixType around c).bind fun type => .neutral rfl (by simp_all)

omit h in
theorem permits_typeList {separator : Token} {kind : NodeKind} {member : Parser NodeId}
    (hneutral : kind.isNeutral) (hmember : Permits final around c member) :
    Permits final around c (typeList separator kind member) := by
  refine .quiet fun start => .quiet fun _ => hmember.bind fun first => ?_
  apply (AnswersIn.collect (P := final.Permits around) _).bind
  · intro more
    refine .ite (.pure fun _ hid => hid) (AnswersIn.listed.bind fun slot => .neutral hneutral ?_)
    simp_all [Tree.AllPermit]
  · exact .quiet fun _ => .ite (.quiet fun _ => hmember.map (by simp)) (.pure (by simp))

theorem permits_intersectionType : Permits final around c (intersectionType inner) :=
  permits_typeList around rfl (permits_prefixType around h)

theorem permits_unionType : Permits final around c (unionType inner) :=
  permits_typeList around rfl (permits_intersectionType around h)

/-! ## Patterns -/

omit h in
theorem permits_allowingIn {p : Parser NodeId} (hp : ∀ c, Permits final c.operators c p) :
    Permits final c.operators c (allowingIn p) :=
  (hp { c with noIn := false }).withReader

theorem permits_propertyName :
    AnswersIn Node.content final c (propertyName inner) fun name =>
      final.Permits c.operators name.1 := by
  have hkey := permits_allowingIn (c := c) h.assignment
  refine .quiet fun t => ?_
  split
  · exact .quiet fun _ => hkey.bind fun key => .quiet fun _ => .pure fun hkey => hkey
  · exact (permits_literal _).bind fun key => .pure fun hkey => hkey
  · exact (permits_literal _).bind fun key => .pure fun hkey => hkey
  · exact (permits_identifierName _).bind fun key => .pure fun hkey => hkey

theorem permits_bindingIdentifier (allowOptional : Bool) :
    Permits final around c (bindingIdentifier inner allowOptional) := by
  refine .quiet fun start => .quiet fun _ => .when ?_
  refine AnswersIn.tokenAtom.bind fun name => .quiet fun _ => .quiet fun _ => ?_
  extract_lets rest
  have hrest : ∀ mark, AnswersIn Node.content final c (rest mark) fun id =>
      final.AllPermit around mark.toList → final.Permits around id := by
    intro mark
    apply (permits_ascription? around h).bind
    exact fun type => .neutralWith rfl (by simp_all)
  refine .ite (.quiet fun markStart => .quiet fun _ => ?_) ((hrest none).mono (by simp))
  have hmark : Permits final around c (finish .optionalMarker markStart []) :=
    .neutral rfl (by simp_all)
  exact hmark.bind fun mark => (hrest (some mark)).mono (by simp)

theorem permits_bindingElement (allowOptional : Bool) :
    Permits final c.operators c (bindingElement inner allowOptional) := by
  have hvalue := permits_allowingIn (c := c) h.assignment
  refine .quiet fun start => (h.bindingTarget c allowOptional).bind fun target => ?_
  refine .quiet fun _ => .ite ?_ (.pure fun hid => hid)
  exact hvalue.bind fun value => .neutral rfl (by simp_all)

theorem permits_shorthandDefault (start : Nat) (name : NodeId) :
    AnswersIn Node.content final c (shorthandDefault inner start name) fun id =>
      final.Permits c.operators name → final.Permits c.operators id := by
  refine .quiet fun _ => .ite ?_ (.pure fun hid => hid)
  exact (h.assignment c).bind fun value => .neutral rfl (by simp_all)

theorem permits_bindingProperty : Permits final c.operators c (bindingProperty inner) := by
  refine .quiet fun start => .quiet fun canBeShorthand => (permits_propertyName h).bind ?_
  rintro ⟨key, computed⟩
  refine .quiet fun _ => .ite ?_ (.ite ?_ .fail)
  · exact (permits_bindingElement h false).bind fun value => .neutralWith rfl (by simp_all)
  · exact (permits_shorthandDefault h start key).bind fun value => .neutralWith rfl (by simp_all)

omit h in
theorem permits_restElement {target : Parser NodeId} (htarget : Permits final around c target) :
    Permits final around c (restElement target) :=
  .quiet fun start => .quiet fun _ => htarget.bind fun argument => .neutral rfl (by simp_all)

theorem permits_objectPattern {rest : Parser NodeId} (hrest : Permits final c.operators c rest) :
    Permits final c.operators c (objectPattern inner rest) := by
  have hproperty : Permits final c.operators c
      (do if ← isAt .ellipsis then rest else bindingProperty inner) :=
    .quiet fun _ => .ite hrest (permits_bindingProperty h)
  refine .quiet fun start => .quiet fun _ => hproperty.commaTerminated.bind fun properties => ?_
  refine .quiet fun _ => AnswersIn.listed.bind fun slot => ?_
  apply (permits_ascription? c.operators h).bind
  intro type
  apply AnswersIn.neutral rfl
  intro id hid htype hslot hproperties
  have hproperties : final.AllPermit c.operators properties := hproperties
  exact hid _ (by simp_all)

theorem permits_arrayPattern {rest : Parser NodeId} (hrest : Permits final c.operators c rest) :
    Permits final c.operators c (arrayPattern inner rest) := by
  have helement : Permits final c.operators c
      (do if ← isAt .ellipsis then rest else bindingElement inner false) :=
    .quiet fun _ => .ite hrest (permits_bindingElement h false)
  refine .quiet fun start => .quiet fun _ => (AnswersIn.allElements helement).bind fun nodes => ?_
  refine .quiet fun _ => .quiet fun stop => ?_
  apply (permits_ascription? c.operators h).bind
  intro type
  apply AnswersIn.neutral rfl
  simp_all

theorem permits_bindingTargetWithin (bound : Nat) (allowOptional : Bool) :
    Permits final c.operators c (bindingTargetWithin inner bound allowOptional) := by
  induction bound generalizing allowOptional with
  | zero => exact .fail (p := failUnexpected)
  | succ bound ih =>
      have hrest := permits_restElement c.operators (ih false)
      refine .quiet fun t => ?_
      split
      · exact permits_objectPattern h hrest
      · exact permits_arrayPattern h hrest
      · exact permits_bindingIdentifier c.operators h allowOptional

theorem permits_bindingTarget (allowOptional : Bool) :
    Permits final c.operators c (bindingTarget inner allowOptional) :=
  .quiet fun _ => permits_bindingTargetWithin h _ allowOptional

theorem permits_parameterList :
    AllPermit final c.operators c (parameterList inner) Slot.children := by
  have hrest := permits_restElement c.operators (permits_bindingTarget h (c := c) false)
  refine .quiet fun start => .quiet fun _ => ?_
  apply (AnswersIn.iterate (P := fun read => final.AllPermit c.operators read.1) _).bind
  · rintro ⟨params, ended⟩
    exact .quiet fun _ => AnswersIn.listed.mono (by simp_all)
  · rintro ⟨params, ended⟩
    refine .quiet fun _ => .ite (.pure (by simp)) (.quiet fun _ => .ite ?_ ?_)
    · exact hrest.bind fun param => .quiet fun _ => .when (.pure (by simp_all))
    · refine (permits_bindingElement h true).bind fun param => .quiet fun _ => ?_
      exact .whenNot (.pure (by simp_all))

/-! ## Blocks and functions -/

theorem permits_statementBlock :
    AllPermit final c.operators c (statementBlock inner) Slot.children := by
  refine .quiet fun _ => .quiet fun start => ?_
  apply (AnswersIn.collect (P := final.Permits c.operators) _).bind
  · intro statements
    refine .quiet fun stop => .quiet fun _ => .pure ?_
    simp_all [Tree.AllPermit, Slot.children]
  · refine .quiet fun _ => .ite (.pure (by simp)) (.quiet fun _ => .when ?_)
    exact (h.statement c).map (by simp)

theorem permits_blockStatement : Permits final c.operators c (blockStatement inner) :=
  .quiet fun start => (permits_statementBlock h).bind fun body => .neutral rfl (by simp_all)

/-- The body of a function stands in the function, whatever stands around it. -/
theorem permits_functionBody (isAsync isGenerator : Bool) :
    Permits final ⟨isAsync, isGenerator⟩ c (functionBody inner isAsync isGenerator) :=
  (permits_blockStatement h).withReader

theorem permits_functionRest (isAsync isGenerator : Bool) :
    AllPermit final ⟨isAsync, isGenerator⟩ c (functionRest inner isAsync isGenerator) fun slots =>
      slots.flatMap Slot.children := by
  have hparams : AllPermit final ⟨isAsync, isGenerator⟩ c
      (withReader (Context.ofFunction isAsync isGenerator) (parameterList inner)) Slot.children :=
    (permits_parameterList h).withReader
  apply (permits_typeParameters? ⟨isAsync, isGenerator⟩ h).bind
  intro typeParameters
  refine hparams.bind fun params => ?_
  apply (permits_ascription? ⟨isAsync, isGenerator⟩ h).bind
  intro returnType
  exact (permits_functionBody h isAsync isGenerator).bind fun body => .pure (by simp_all)

omit h in
theorem permits_declaredName (present allowAnonymous : Bool) :
    AllPermit final around c (declaredName present allowAnonymous) Option.toList :=
  .ite ((permits_identifier around).map (by simp)) (.ite (.pure (by simp)) .fail)

/-- The flags of a function are those its parameters and its body have been read with. -/
theorem permits_function {kind : NodeKind} (hfunction : kind.isFunction)
    (hkind : kind ≠ .arrowFunctionExpression) (start : Nat) (allowAnonymous : Bool) :
    Permits final around c (function inner kind start allowAnonymous) := by
  refine .quiet fun async => .quiet fun _ => .quiet fun generator => .quiet fun named => ?_
  apply (permits_declaredName ⟨async, generator⟩ _ _).bind
  intro id
  apply (permits_functionRest h async generator).bind
  intro rest
  apply AnswersIn.finishFunction hfunction
  rw [Operators.ofFunction_of_ne hkind]
  simp_all

theorem permits_methodFunction (flags : NodeFlags) :
    Permits final around c (methodFunction inner flags) := by
  refine .quiet fun start => ?_
  apply (permits_functionRest h flags.async flags.generator).bind
  intro rest
  apply AnswersIn.finishFunction rfl
  rw [Operators.ofFunction_of_ne (by decide)]
  simp_all

/-! ## Classes -/

theorem permits_classPropertyRest (start : Nat) (details : Details) (key : NodeId) :
    AnswersIn Node.content final c (classPropertyRest inner start details key) fun id =>
      final.Permits around key → final.Permits around id := by
  apply (permits_ascription? around h).bind
  exact fun type => .quiet fun _ => .when (.quiet fun _ => .neutralWith rfl (by simp_all))

theorem permits_signedProperty (start : Nat) (flags : NodeFlags) :
    Permits final c.operators c (signedProperty inner start flags) := by
  refine .quiet fun sign => (permits_propertyName h).bind ?_
  rintro ⟨key, computed⟩
  exact permits_classPropertyRest c.operators h start _ key

theorem permits_classMember : Permits final c.operators c (classMember inner) := by
  refine .quiet fun start => .quiet fun _ => .either fun static => .when (.quiet fun _ => ?_)
  refine .ite (permits_signedProperty h start _) ?_
  refine .quiet fun flags => .quiet fun flags => .quiet fun t => .when ?_
  refine .quiet fun _ => .quiet fun _ => (permits_propertyName h).bind ?_
  rintro ⟨key, computed⟩
  refine .quiet fun _ => .ite ?_ (.ite .fail (permits_classPropertyRest _ h start _ key))
  apply (permits_methodFunction c.operators h _).bind
  exact fun value => .neutralWith rfl (by simp_all)

theorem permits_classBody : Permits final c.operators c (classBody inner) := by
  refine .quiet fun start => .quiet fun _ => .quiet fun listStart => ?_
  apply (AnswersIn.collect (P := fun member => final.AllPermit c.operators member.toList) _).bind
  · intro members
    refine .quiet fun stop => .quiet fun _ => .neutral rfl fun id hid hmembers => hid _ ?_
    intro child hchild
    obtain ⟨member, hmember, rfl⟩ : ∃ member ∈ members, member = some child := by
      simpa [Slot.children] using hchild
    exact hmembers _ hmember child (by simp)
  · refine .quiet fun t => ?_
    split
    · exact .pure (by simp)
    · exact .quiet fun _ => .pure (by simp)
    · exact .fail
    · exact (h.classMember c).bind fun member => .pure (by simp)

theorem permits_implementsClause :
    AllPermit final around c (implementsClause inner) Slot.children := by
  refine .quiet fun _ => .ite (.pure (by simp [Slot.children])) ?_
  refine .quiet fun start => .quiet fun _ => ?_
  apply (AnswersIn.commaSeparated (P := final.Permits around) _).bind
  · exact fun ids => AnswersIn.listed.mono (by simp_all [Tree.AllPermit])
  · refine .quiet fun start => (permits_identifier around).bind fun id => ?_
    apply (permits_typeArguments? around h).bind
    exact fun typeArguments => .neutral rfl (by simp_all)

/-- What a class extends is read outside of its members, in the context of the class. -/
theorem permits_classOf {heritage : Parser NodeId} (hheritage : Permits final c.operators c heritage)
    {kind : NodeKind} (hneutral : kind.isNeutral) (start : Nat) (allowAnonymous : Bool) :
    Permits final c.operators c (classOf inner heritage kind start allowAnonymous) := by
  refine .quiet fun _ => .quiet fun _ => .quiet fun _ => ?_
  apply (permits_declaredName c.operators _ _).bind
  intro id
  apply (permits_typeParameters? c.operators h).bind
  intro typeParameters
  apply AnswersIn.quiet
  intro extended
  extract_lets rest
  have hrest : ∀ extended, AnswersIn Node.content final c (rest extended) fun node =>
      final.AllPermit c.operators extended.1.toList → final.AllPermit c.operators extended.2.toList →
      final.AllPermit c.operators typeParameters.toList → final.AllPermit c.operators id.toList →
        final.Permits c.operators node := by
    rintro ⟨superClass, superArguments⟩
    apply (permits_implementsClause c.operators h).bind
    intro implemented
    apply (permits_classBody h).bind
    intro body
    apply AnswersIn.neutral hneutral
    simp_all
  apply AnswersIn.ite
  · apply hheritage.bind
    intro superClass
    apply (permits_typeArguments? c.operators h).bind
    intro superArguments
    exact (hrest (some superClass, superArguments)).mono (by simp_all)
  · exact (hrest (none, none)).mono (by simp_all)

end FlowErasure.Grammar
