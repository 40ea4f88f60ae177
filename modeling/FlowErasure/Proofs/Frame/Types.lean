import FlowErasure.Grammar.Classes
import FlowErasure.Proofs.Frame.Parsers

/-!
# What the rules for types, patterns, functions and classes keep

`Nested.Keeping` is what every rule may assume of the rules one level of nesting deeper.
-/

namespace FlowErasure.Grammar

variable {base : Tree}

structure Nested.Keeping (base : Tree) (inner : Nested) : Prop where
  statement : KeepsRule base inner.statement
  assignment : KeepsRule base inner.assignment
  binary : ∀ precedence, KeepsRule base (inner.binary precedence)
  unary : KeepsRule base inner.unary
  construction : KeepsRule base inner.construction
  bindingTarget : ∀ allowOptional, KeepsRule base (inner.bindingTarget allowOptional)
  classMember : KeepsRule base inner.classMember
  type : KeepsRule base inner.type
  prefixType : KeepsRule base inner.prefixType
  primaryType : KeepsRule base inner.primaryType
  typeMember : ∀ allowStatic, KeepsRule base (inner.typeMember allowStatic)

variable {inner : Nested} (h : inner.Keeping base)

include h

/-! ## Types -/

theorem keeps_ascription? : Keeps base (ascription? inner) Option.toList := by
  refine .quiet fun _ => .ite (.pure (by simp)) ?_
  refine .quiet fun start => .quiet fun _ => h.type.bind fun type htype => ?_
  exact (Keeps.finish (by simpa using htype)).map fun id hid => by simpa using hid

omit h in
instance quiet_variance : Quiet variance := by
  unfold variance; infer_instance

theorem keeps_typeParameter : KeepsRule base (typeParameter inner) := by
  refine .quiet fun start => .quiet fun sign => .quiet fun _ => .when ?_
  refine Keeps.tokenAtom.bind fun name _ => .quiet fun _ => ?_
  refine (keeps_ascription? h).bind fun bound hbound => .quiet fun _ => ?_
  refine .join Option.toList (h.type.map (by simp)) (.pure (by simp)) fun default hdefault => ?_
  exact .finishWith (by simpa using ⟨hbound, hdefault⟩)

omit h in
theorem keeps_angleList? {kind : NodeKind} {item : Parser NodeId} (hitem : KeepsRule base item) :
    Keeps base (angleList? kind item) Option.toList := by
  refine .quiet fun _ => .ite (.pure (by simp)) ?_
  refine .quiet fun start => .quiet fun _ => ?_
  refine (Keeps.commaTerminated hitem).bind fun items hitems => .quiet fun _ => ?_
  refine (Keeps.listFrom hitems).bind fun slot hslot => ?_
  exact (Keeps.finish (by simpa using hslot)).map (by simp)

theorem keeps_typeParameters? : Keeps base (typeParameters? inner) Option.toList :=
  keeps_angleList? (keeps_typeParameter h)

theorem keeps_typeArguments? : Keeps base (typeArguments? inner) Option.toList :=
  keeps_angleList? h.type

theorem keeps_functionTypeParam (start : Nat) : KeepsRule base (functionTypeParam inner start) := by
  refine .quiet fun t => .either fun named => .ite ?_ ?_
  · refine Keeps.identifierName.bind fun name hname => .quiet fun optional => .quiet fun _ => ?_
    refine h.type.bind fun type htype => .finishWith ?_
    simp_all
  · refine h.type.bind fun type htype => .finish ?_
    simpa using htype

theorem keeps_functionTypeParams {listStart : Nat} {params : List NodeId}
    (hparams : base.Later params) :
    Keeps base (functionTypeParams inner listStart params)
      fun all => all.1.children ++ all.2.toList := by
  refine (Keeps.iterate (fun read => read.1 ++ read.2.toList) (by simpa using hparams) ?_).bind ?_
  · rintro ⟨params, rest⟩ hread
    refine .quiet fun _ => .ite (.pure (by simp)) ?_
    refine .quiet fun start => .quiet fun _ => .ite ?_ ?_
    · refine (keeps_functionTypeParam h start).bind fun rest hrest => .quiet fun _ => .pure ?_
      simp_all
    · refine (keeps_functionTypeParam h start).bind fun param hparam => .quiet fun _ => ?_
      exact .whenNot (.pure (by simp_all))
  · rintro ⟨params, rest⟩ hread
    have hparams : base.Later params.reverse := by simp_all
    refine .quiet fun _ => (Keeps.listFrom hparams).bind fun slot hslot => .pure ?_
    simp_all

theorem keeps_finishFunctionType {start : Nat} {typeParameters : Option NodeId}
    {params : Slot × Option NodeId} {separator : Token}
    (htypeParameters : base.Later typeParameters.toList)
    (hparams : base.Later (params.1.children ++ params.2.toList)) :
    KeepsRule base (finishFunctionType inner start typeParameters params separator) := by
  refine .quiet fun _ => h.type.bind fun returnType hreturnType => .finish ?_
  simp_all

theorem keeps_functionType (start : Nat) (separator : Token) :
    KeepsRule base (functionType inner start separator) := by
  refine (keeps_typeParameters? h).bind fun typeParameters htypeParameters => ?_
  refine .quiet fun listStart => .quiet fun _ => ?_
  refine (keeps_functionTypeParams h (by simp)).bind fun params hparams => ?_
  exact keeps_finishFunctionType h htypeParameters hparams

theorem keeps_methodType : KeepsRule base (methodType inner) :=
  .quiet fun start => keeps_functionType h start .colon

theorem keeps_parenthesizedType : KeepsRule base (parenthesizedType inner) := by
  refine .quiet fun start => .quiet fun _ => .ite (keeps_functionType h start .arrow) ?_
  refine .quiet fun _ => .quiet fun innerStart => h.type.bind fun type htype => ?_
  refine .quiet fun _ => .quiet fun _ => ?_
  -- However it is found out whether the type is a parameter, what comes next is the same.
  extract_lets rest
  have hrest : ∀ isFunction, KeepsRule base (rest isFunction) := by
    refine fun isFunction => .ite ?_ (.quiet fun _ => .pure htype)
    refine (Keeps.finish (by simpa using htype)).bind fun first hfirst => .quiet fun _ => ?_
    refine (keeps_functionTypeParams h hfirst).bind fun params hparams => ?_
    exact keeps_finishFunctionType h (by simp) hparams
  exact .ite (.quiet hrest) (.either hrest)

/-! ### Object types -/

theorem keeps_typeIndexer (start : Nat) (details : Details) :
    KeepsRule base (typeIndexer inner start details) := by
  refine .quiet fun _ => .quiet fun t => .either fun named => ?_
  extract_lets rest
  have hrest : ∀ id : Option NodeId, base.Later id.toList → KeepsRule base (rest id) := by
    intro id hid
    refine h.type.bind fun key hkey => .quiet fun _ => .quiet fun _ => ?_
    refine h.type.bind fun value hvalue => .finishWith ?_
    simp_all
  refine .ite (Keeps.identifierName.bind fun id hid => .quiet fun _ => ?_) (hrest none (by simp))
  exact hrest (some id) (by simpa using hid)

theorem keeps_typeProperty (start : Nat) (details : Details) :
    KeepsRule base (typeProperty inner start details) := by
  refine .quiet fun _ => .join (fun id => [id]) .literal .identifierName fun key hkey => ?_
  refine .quiet fun optional => .quiet fun _ => .ite ?_ ?_
  · refine (keeps_methodType h).bind fun value hvalue => .finishWith ?_
    simp_all
  · refine .quiet fun _ => h.type.bind fun value hvalue => .finishWith ?_
    simp_all

theorem keeps_typeMember (allowStatic : Bool) : KeepsRule base (typeMember inner allowStatic) := by
  refine .quiet fun start => .quiet fun _ => .either fun static => .when ?_
  refine .quiet fun sign => .quiet fun t => ?_
  split
  · exact keeps_typeIndexer h start _
  · refine (keeps_methodType h).bind fun value hvalue => .finishWith (by simpa using hvalue)
  · refine (keeps_methodType h).bind fun value hvalue => .finishWith (by simpa using hvalue)
  · exact keeps_typeProperty h start _

theorem keeps_objectType (allowStatic : Bool) : KeepsRule base (objectType inner allowStatic) := by
  refine .quiet fun start => .quiet fun _ => .quiet fun exact => ?_
  refine (Keeps.collect_nodes ?_).bind fun members hmembers => ?_
  · refine .quiet fun _ => .ite (.pure (by simp)) (.quiet fun _ => .when ?_)
    refine (h.typeMember allowStatic).bind fun member hmember => ?_
    have hsome : Keeps base (pure (some member)) Option.toList := .pure (by simpa using hmember)
    exact .quiet fun _ => .ite hsome (.quiet fun _ => hsome)
  · refine .when (.quiet fun _ => (Keeps.listFrom hmembers).bind fun slot hslot => ?_)
    exact .finish (by simpa using hslot)

/-! ### Names and lists of types -/

omit h in
theorem keeps_tokenType (kind : NodeKind) : KeepsRule base (tokenType kind) :=
  .quiet fun start => .quiet fun t => .quiet fun _ => .finishWith (by simp)

omit h in
theorem keeps_qualifiedTypeName : KeepsRule base qualifiedTypeName := by
  refine .quiet fun start => Keeps.identifier.bind fun first hfirst => ?_
  refine .iterate _ hfirst fun name hname => .quiet fun _ => .ite ?_ (.pure (by simp))
  refine Keeps.identifierName.bind fun id hid => (Keeps.finish ?_).bind fun name hname => ?_
  · simp_all
  · exact .pure (by simpa using hname)

theorem keeps_genericType : KeepsRule base (genericType inner) := by
  refine .quiet fun start => keeps_qualifiedTypeName.bind fun id hid => ?_
  refine (keeps_typeArguments? h).bind fun typeArguments htypeArguments => .finish ?_
  simp_all

theorem keeps_tupleType : KeepsRule base (tupleType inner) := by
  refine .quiet fun start => .quiet fun _ => ?_
  refine (Keeps.commaTerminated h.type).bind fun types htypes => .quiet fun _ => ?_
  exact (Keeps.listFrom htypes).bind fun slot hslot => .finish (by simpa using hslot)

theorem keeps_namedType : KeepsRule base (namedType inner) := by
  refine .quiet fun _ => .ite (keeps_genericType h) (.quiet fun name => ?_)
  split
  · exact keeps_tokenType _
  · exact keeps_genericType h

omit h in
theorem keeps_negativeNumberType : KeepsRule base negativeNumberType := by
  refine .quiet fun start => .quiet fun _ => (keeps_tokenType _).bind fun number hnumber => ?_
  have hle : base.size ≤ number := by simpa using hnumber
  refine (Keeps.updateNode hle ?_).bind fun _ _ => ?_
  · exact fun node => rfl
  · exact .pure hnumber

theorem keeps_primaryType : KeepsRule base (primaryType inner) := by
  refine .quiet fun start => .quiet fun t => ?_
  split
  · exact keeps_parenthesizedType h
  · exact keeps_functionType h start .arrow
  · exact keeps_objectType h false
  · exact keeps_tupleType h
  · exact .quiet fun _ => h.primaryType.bind fun argument harg => .finish (by simpa using harg)
  · exact keeps_tokenType _
  · exact keeps_tokenType _
  · exact keeps_tokenType _
  · exact .quiet fun _ => .ite keeps_negativeNumberType .fail
  · exact keeps_tokenType _
  · exact keeps_tokenType _
  · exact keeps_tokenType _
  · exact keeps_tokenType _
  · exact .ite (keeps_namedType h) .fail

theorem keeps_postfixType : KeepsRule base (postfixType inner) := by
  refine .quiet fun start => (keeps_primaryType h).bind fun type htype => ?_
  refine .iterate _ htype fun type htype => .quiet fun _ => .quiet fun _ => ?_
  refine .ite (.pure (by simp)) (.quiet fun _ => .ite ?_ (.pure (by simp)))
  refine .quiet fun _ => .quiet fun _ => ?_
  refine (Keeps.finish (by simpa using htype)).bind fun array harray => .pure ?_
  simpa using harray

theorem keeps_prefixType : KeepsRule base (prefixType inner) := by
  refine .quiet fun _ => .ite ?_ (keeps_postfixType h)
  refine .quiet fun start => .quiet fun _ => h.prefixType.bind fun type htype => ?_
  exact .finish (by simpa using htype)

omit h in
instance looks_isSeparator (separator : Token) : Looks (isSeparator separator) := by
  unfold isSeparator; infer_instance

omit h in
theorem keeps_typeList {separator : Token} {kind : NodeKind} {member : Parser NodeId}
    (hmember : KeepsRule base member) : KeepsRule base (typeList separator kind member) := by
  refine .quiet fun start => .quiet fun _ => hmember.bind fun first hfirst => ?_
  refine (Keeps.collect_nodes ?_).bind fun more hmore => .ite (.pure hfirst) ?_
  · refine .quiet fun _ => .ite (.quiet fun _ => hmember.map ?_) (.pure (by simp))
    simp
  · have hall : base.Later (first :: more) := by simp_all
    exact (Keeps.listFrom hall).bind fun slot hslot => .finish (by simpa using hslot)

theorem keeps_intersectionType : KeepsRule base (intersectionType inner) :=
  keeps_typeList (keeps_prefixType h)

theorem keeps_unionType : KeepsRule base (unionType inner) :=
  keeps_typeList (keeps_intersectionType h)

/-! ## Patterns -/

theorem keeps_propertyName : Keeps base (propertyName inner) fun name => [name.1] := by
  refine .quiet fun t => ?_
  split
  · refine .quiet fun _ => h.assignment.withReader.bind fun key hkey => .quiet fun _ => ?_
    exact .pure hkey
  · exact Keeps.literal.bind fun key hkey => .pure hkey
  · exact Keeps.literal.bind fun key hkey => .pure hkey
  · exact Keeps.identifierName.bind fun key hkey => .pure hkey

theorem keeps_bindingIdentifier (allowOptional : Bool) :
    KeepsRule base (bindingIdentifier inner allowOptional) := by
  refine .quiet fun start => .quiet fun _ => .when ?_
  refine Keeps.tokenAtom.bind fun name _ => .quiet fun _ => .quiet fun _ => ?_
  extract_lets rest
  have hrest : ∀ mark : Option NodeId, base.Later mark.toList → KeepsRule base (rest mark) := by
    intro mark hmark
    refine (keeps_ascription? h).bind fun type htype => .finishWith ?_
    simp_all
  refine .ite (.quiet fun markStart => .quiet fun _ => ?_) (hrest none (by simp))
  exact (Keeps.finish (by simp)).bind fun mark hmark => hrest (some mark) (by simpa using hmark)

theorem keeps_bindingElement (allowOptional : Bool) :
    KeepsRule base (bindingElement inner allowOptional) := by
  refine .quiet fun start => (h.bindingTarget allowOptional).bind fun target htarget => ?_
  refine .quiet fun _ => .ite ?_ (.pure htarget)
  refine h.assignment.withReader.bind fun value hvalue => .finish ?_
  simp_all

theorem keeps_shorthandDefault {start : Nat} {name : NodeId} (hname : base.size ≤ name) :
    KeepsRule base (shorthandDefault inner start name) := by
  refine .quiet fun _ => .ite ?_ (.pure (by simpa using hname))
  refine h.assignment.bind fun value hvalue => .finish ?_
  simp_all

theorem keeps_bindingProperty : KeepsRule base (bindingProperty inner) := by
  refine .quiet fun start => .quiet fun canBeShorthand => (keeps_propertyName h).bind ?_
  rintro ⟨key, computed⟩ hkey
  refine .quiet fun _ => .ite ?_ (.ite ?_ .fail)
  · refine (keeps_bindingElement h false).bind fun value hvalue => .finishWith ?_
    simp_all
  · have hle : base.size ≤ key := by simpa using hkey
    refine (keeps_shorthandDefault h hle).bind fun value hvalue => .finishWith ?_
    simpa using hvalue

omit h in
theorem keeps_restElement {target : Parser NodeId} (htarget : KeepsRule base target) :
    KeepsRule base (restElement target) := by
  refine .quiet fun start => .quiet fun _ => htarget.bind fun argument hargument => .finish ?_
  simpa using hargument

omit h in
theorem keeps_restOr {rest item : Parser NodeId} (hrest : KeepsRule base rest)
    (hitem : KeepsRule base item) :
    KeepsRule base (do if ← isAt .ellipsis then rest else item) :=
  .quiet fun _ => .ite hrest hitem

theorem keeps_objectPattern {rest : Parser NodeId} (hrest : KeepsRule base rest) :
    KeepsRule base (objectPattern inner rest) := by
  have hproperty := keeps_restOr hrest (keeps_bindingProperty h)
  refine .quiet fun start => .quiet fun _ => ?_
  refine (Keeps.commaTerminated hproperty).bind fun properties hproperties => .quiet fun _ => ?_
  refine (Keeps.listFrom hproperties).bind fun slot hslot => ?_
  refine (keeps_ascription? h).bind fun type htype => .finish ?_
  simp_all

omit h in
theorem keeps_elements {element : Parser NodeId} (helement : KeepsRule base element) :
    Keeps base (elements element) fun nodes => nodes.filterMap id := by
  refine (Keeps.collect Option.toList ?_).mono fun nodes hnodes => ?_
  · refine .quiet fun _ => .ite (.pure (by simp)) (.quiet fun _ => .ite (.pure (by simp)) ?_)
    refine helement.bind fun node hnode => .quiet fun _ => .whenNot (.pure ?_)
    simpa using hnode
  · exact hnodes.of_subset fun id hid => by simpa [List.mem_flatMap] using hid

theorem keeps_arrayPattern {rest : Parser NodeId} (hrest : KeepsRule base rest) :
    KeepsRule base (arrayPattern inner rest) := by
  have helement := keeps_restOr hrest (keeps_bindingElement h false)
  refine .quiet fun start => .quiet fun _ => ?_
  refine (keeps_elements helement).bind fun nodes hnodes => .quiet fun _ => .quiet fun stop => ?_
  refine (keeps_ascription? h).bind fun type htype => .finish ?_
  simp_all

theorem keeps_bindingTargetWithin (bound : Nat) (allowOptional : Bool) :
    KeepsRule base (bindingTargetWithin inner bound allowOptional) := by
  induction bound generalizing allowOptional with
  | zero => exact .fail (p := failUnexpected)
  | succ bound ih =>
      refine .quiet fun t => ?_
      split
      · exact keeps_objectPattern h (keeps_restElement (ih false))
      · exact keeps_arrayPattern h (keeps_restElement (ih false))
      · exact keeps_bindingIdentifier h allowOptional

theorem keeps_bindingTarget (allowOptional : Bool) :
    KeepsRule base (bindingTarget inner allowOptional) :=
  .quiet fun _ => keeps_bindingTargetWithin h _ allowOptional

theorem keeps_parameterList : Keeps base (parameterList inner) Slot.children := by
  refine .quiet fun start => .quiet fun _ => (Keeps.iterate (fun read => read.1) ?_ ?_).bind ?_
  · simp
  · rintro ⟨params, ended⟩ hparams
    refine .quiet fun _ => .ite (.pure (by simp)) (.quiet fun _ => .ite ?_ ?_)
    · refine (keeps_restElement (keeps_bindingTarget h false)).bind fun param hparam => ?_
      exact .quiet fun _ => .when (.pure (by simp_all))
    · refine (keeps_bindingElement h true).bind fun param hparam => .quiet fun _ => ?_
      exact .whenNot (.pure (by simp_all))
  · rintro ⟨params, ended⟩ hparams
    exact .quiet fun _ => .listFrom (by simpa using hparams)

/-! ## Functions -/

theorem keeps_statementBlock : Keeps base (statementBlock inner) Slot.children := by
  refine .quiet fun _ => .quiet fun start => (Keeps.collect_nodes ?_).bind fun ids hids => ?_
  · exact .quiet fun _ => .ite (.pure (by simp)) (.quiet fun _ => .when (h.statement.map (by simp)))
  · exact .quiet fun stop => .quiet fun _ => .pure (by simpa using hids)

theorem keeps_blockStatement : KeepsRule base (blockStatement inner) := by
  refine .quiet fun start => (keeps_statementBlock h).bind fun body hbody => .finish ?_
  simpa using hbody

theorem keeps_functionBody (isAsync isGenerator : Bool) :
    KeepsRule base (functionBody inner isAsync isGenerator) :=
  (keeps_blockStatement h).withReader

theorem keeps_functionRest (isAsync isGenerator : Bool) :
    Keeps base (functionRest inner isAsync isGenerator) fun slots =>
      slots.flatMap Slot.children := by
  refine (keeps_typeParameters? h).bind fun typeParameters htypeParameters => ?_
  refine (keeps_parameterList h).withReader.bind fun params hparams => ?_
  refine (keeps_ascription? h).bind fun returnType hreturnType => ?_
  refine (keeps_functionBody h isAsync isGenerator).bind fun body hbody => .pure ?_
  simp_all

omit h in
theorem keeps_declaredName (present allowAnonymous : Bool) :
    Keeps base (declaredName present allowAnonymous) Option.toList :=
  .ite (Keeps.identifier.map (by simp)) (.ite (.pure (by simp)) .fail)

theorem keeps_function (kind : NodeKind) (start : Nat) (allowAnonymous : Bool) :
    KeepsRule base (function inner kind start allowAnonymous) := by
  refine .quiet fun async => .quiet fun _ => .quiet fun generator => .quiet fun present => ?_
  refine (keeps_declaredName present allowAnonymous).bind fun id hid => ?_
  refine (keeps_functionRest h async generator).bind fun rest hrest => .finishWith ?_
  simp_all

theorem keeps_methodFunction (flags : NodeFlags) : KeepsRule base (methodFunction inner flags) := by
  refine .quiet fun start => (keeps_functionRest h _ _).bind fun rest hrest => .finishWith ?_
  simpa using hrest

/-! ## Classes -/

omit h in
instance quiet_accessorFlags (flags : NodeFlags) : Quiet (accessorFlags flags) := by
  unfold accessorFlags; infer_instance

omit h in
instance quiet_functionFlags (flags : NodeFlags) : Quiet (functionFlags flags) := by
  unfold functionFlags; infer_instance

theorem keeps_classPropertyRest (start : Nat) (details : Details) {key : NodeId}
    (hkey : base.size ≤ key) : KeepsRule base (classPropertyRest inner start details key) := by
  refine (keeps_ascription? h).bind fun type htype => .quiet fun _ => .when (.quiet fun _ => ?_)
  exact .finishWith (by simp_all)

theorem keeps_signedProperty (start : Nat) (flags : NodeFlags) :
    KeepsRule base (signedProperty inner start flags) := by
  refine .quiet fun sign => (keeps_propertyName h).bind ?_
  rintro ⟨key, computed⟩ hkey
  exact keeps_classPropertyRest h start _ (by simpa using hkey)

theorem keeps_classMember : KeepsRule base (classMember inner) := by
  refine .quiet fun start => .quiet fun _ => .either fun static => .when (.quiet fun _ => ?_)
  refine .ite (keeps_signedProperty h start _) ?_
  refine .quiet fun flags => .quiet fun flags => .quiet fun t => .when ?_
  refine .quiet fun _ => .quiet fun _ => (keeps_propertyName h).bind ?_
  rintro ⟨key, computed⟩ hkey
  have hle : base.size ≤ key := by simpa using hkey
  refine .quiet fun _ => .ite ?_ (.ite .fail (keeps_classPropertyRest h start _ hle))
  refine (keeps_methodFunction h _).bind fun value hvalue => .finishWith ?_
  simp_all

theorem keeps_classBody : KeepsRule base (classBody inner) := by
  refine .quiet fun start => .quiet fun _ => .quiet fun listStart => ?_
  refine (Keeps.collect Option.toList ?_).bind fun members hmembers => ?_
  · refine .quiet fun t => ?_
    split
    · exact .pure (by simp)
    · exact .quiet fun _ => .pure (by simp)
    · exact .fail
    · exact h.classMember.bind fun member hmember => .pure (by simpa using hmember)
  · refine .quiet fun stop => .quiet fun _ => .finish ?_
    refine hmembers.of_subset fun id hid => ?_
    simpa [List.mem_flatMap] using hid

theorem keeps_implementsClause : Keeps base (implementsClause inner) Slot.children := by
  refine .quiet fun _ => .ite (.pure (by simp)) (.quiet fun listStart => .quiet fun _ => ?_)
  refine (Keeps.commaSeparated ?_).bind fun interfaces hinterfaces => .listFrom hinterfaces
  refine .quiet fun start => Keeps.identifier.bind fun id hid => ?_
  refine (keeps_typeArguments? h).bind fun typeArguments htypeArguments => .finish ?_
  simp_all

theorem keeps_classOf {heritage : Parser NodeId} (hheritage : KeepsRule base heritage)
    (kind : NodeKind) (start : Nat) (allowAnonymous : Bool) :
    KeepsRule base (classOf inner heritage kind start allowAnonymous) := by
  refine .quiet fun _ => .quiet fun _ => .quiet fun _ => ?_
  refine (keeps_declaredName _ allowAnonymous).bind fun id hid => ?_
  refine (keeps_typeParameters? h).bind fun typeParameters htypeParameters => .quiet fun _ => ?_
  extract_lets rest
  have hrest : ∀ bases : Option NodeId × Option NodeId,
      base.Later (bases.1.toList ++ bases.2.toList) → KeepsRule base (rest bases) := by
    rintro ⟨superClass, superArguments⟩ hbases
    refine (keeps_implementsClause h).bind fun implemented himplemented => ?_
    refine (keeps_classBody h).bind fun body hbody => .finish ?_
    simp_all
  refine .ite ?_ (hrest (none, none) (by simp))
  refine hheritage.bind fun superClass hsuperClass => ?_
  refine (keeps_typeArguments? h).bind fun superArguments hsuperArguments => ?_
  exact hrest (some superClass, superArguments) (by simp_all)

end FlowErasure.Grammar
