import FlowErasure.Proofs.Frame.Types
import FlowErasure.Proofs.Refusal.Parsers

/-!
# Where the rules for types, patterns, functions and classes fail

`Nested.Eating` is what every rule may assume of the rules one level of nesting deeper. A rule that
is given the start of its node needs it to be before the current token or, if it may end without a
token, before the end of the last one.
-/

namespace FlowErasure.Grammar

open Text (Boundary)

variable {text : List Char} {a b e e' : Nat}

/-- The rules one level deeper consume tokens and fail where they should. They keep what was in the
table, so that an attempt can be taken back. -/
structure Nested.Eating (text : List Char) (inner : Nested) : Prop where
  keeping : ∀ base, inner.Keeping base
  statement : Eats text inner.statement
  assignment : Eats text inner.assignment
  binary : ∀ precedence, Eats text (inner.binary precedence)
  unary : Eats text inner.unary
  construction : Eats text inner.construction
  bindingTarget : ∀ allowOptional, Eats text (inner.bindingTarget allowOptional)
  classMember : Eats text inner.classMember
  type : Eats text inner.type
  prefixType : Eats text inner.prefixType
  primaryType : Eats text inner.primaryType
  typeMember : ∀ allowStatic, Eats text (inner.typeMember allowStatic)

variable {inner : Nested} (h : inner.Eating text)

include h

/-! ## Types -/

theorem calm_ascription? : Calm text (ascription? inner) where
  safe a e := by
    refine .calm fun _ => .ite (.pure (Nat.le_refl e)) ?_
    refine .start fun b _ heb hb => .eat fun _ => h.type.bind fun type => ?_
    exact (Safe.finish hb (Nat.le_refl b) heb).map

omit h in
instance calm_variance : Calm text variance := by
  unfold variance; infer_instance

theorem eats_typeParameter : Eats text (typeParameter inner) where
  safe a e := by
    refine .start fun b hab _ hb => .calm fun sign => .calm fun _ => .when ?_
    refine .calm fun name => .eat fun _ => (calm_ascription? h).bind fun bound => .calm fun _ => ?_
    refine .join (h.type.calm.safe b b).map (.pure (Nat.le_refl b)) fun default => ?_
    exact .finishWith hb (Nat.le_refl b) hab

omit h in
theorem calm_angleList? {kind : NodeKind} {item : Parser NodeId} (hitem : Eats text item) :
    Calm text (angleList? kind item) where
  safe a e := by
    refine .calm fun _ => .ite (.pure (Nat.le_refl e)) ?_
    refine .start fun b _ heb hb => .eat fun _ => hitem.commaTerminated.bind fun items => ?_
    refine .calm fun _ => .calm fun slot => ?_
    exact (Safe.finish hb (Nat.le_refl b) heb).map

theorem calm_typeParameters? : Calm text (typeParameters? inner) :=
  calm_angleList? (eats_typeParameter h)

theorem calm_typeArguments? : Calm text (typeArguments? inner) :=
  calm_angleList? h.type

theorem safe_functionTypeParam (hb : Boundary text b) (hle : b ≤ a) :
    Safe text a e (functionTypeParam inner b) a := by
  refine .calm fun t => .either fun named => .ite ?_ ?_
  · refine .eat fun name => .calm fun optional => .calm fun _ => h.type.bind fun type => ?_
    exact .finishWith hb hle (Nat.le_refl a)
  · exact h.type.bind fun type => .finish hb hle (Nat.le_refl a)

theorem eats_functionTypeParams (listStart : Nat) (params : List NodeId) :
    Eats text (functionTypeParams inner listStart params) where
  safe a e := by
    refine (Safe.iterate ?_ _).bind fun read => ?_
    · rintro ⟨params, rest⟩
      refine .calm fun _ => .ite (.pure (Nat.le_refl e)) ?_
      refine .start fun b _ heb hb => .calm fun _ => .ite ?_ ?_
      · refine (safe_functionTypeParam h hb (Nat.le_refl b)).bind fun rest => .calm fun _ => ?_
        exact .pure heb
      · refine (safe_functionTypeParam h hb (Nat.le_refl b)).bind fun param => .calm fun _ => ?_
        exact .whenNot (.pure heb)
    · exact .eat fun _ => .calm fun slot => .pure (Nat.le_refl a)

theorem safe_finishFunctionType {typeParameters : Option NodeId} {params : Slot × Option NodeId}
    {separator : Token} (hb : Boundary text b) (hle : b ≤ a) :
    Safe text a e (finishFunctionType inner b typeParameters params separator) a :=
  .eat fun _ => h.type.bind fun _ => .finish hb hle (Nat.le_refl a)

theorem safe_functionType (separator : Token) (hb : Boundary text b) (hle : b ≤ a) :
    Safe text a e (functionType inner b separator) a := by
  refine (calm_typeParameters? h).bind fun typeParameters => .calm fun listStart => ?_
  refine .calm fun _ => ?_
  exact (eats_functionTypeParams h _ _).bind fun params => safe_finishFunctionType h hb hle

theorem eats_methodType : Eats text (methodType inner) :=
  ⟨fun _ _ => .start fun b hab _ hb => (safe_functionType h .colon hb (Nat.le_refl b)).mono hab⟩

theorem eats_parenthesizedType : Eats text (parenthesizedType inner) where
  safe a e := by
    refine .start fun b hab _ hb => .calm fun _ => .ite ?_ (.eat fun _ => ?_)
    · exact (safe_functionType h .arrow hb (Nat.le_refl b)).mono hab
    refine .start fun b₁ hb₁ _ hinner => h.type.bind fun type => .calm fun _ => .calm fun _ => ?_
    -- However it is found out whether the type is a parameter, what comes next is the same.
    extract_lets rest
    have hrest : ∀ isFunction, Safe text b₁ b₁ (rest isFunction) a := by
      refine fun isFunction => .ite ?_ (.calm fun _ => .pure (hab.trans hb₁))
      refine (Safe.finish hinner (Nat.le_refl b₁) (Nat.le_refl b₁)).bind fun first => ?_
      refine .calm fun _ => (eats_functionTypeParams h _ _).bind fun params => ?_
      exact (safe_finishFunctionType h hb hb₁).mono (hab.trans hb₁)
    exact .ite (.calm hrest) (.either hrest)

/-! ### Object types -/

theorem safe_typeIndexer {details : Details} (hb : Boundary text b) (hle : b ≤ a) :
    Safe text a e (typeIndexer inner b details) a := by
  refine .eat fun _ => .calm fun t => .either fun named => ?_
  extract_lets rest
  have hrest : ∀ id, Safe text a a (rest id) a := by
    refine fun id => h.type.bind fun key => .calm fun _ => .calm fun _ => ?_
    exact h.type.bind fun value => .finishWith hb hle (Nat.le_refl a)
  exact .ite (.eat fun id => .calm fun _ => hrest (some id)) (hrest none)

theorem safe_typeProperty {details : Details} (hb : Boundary text b) (hle : b ≤ a) :
    Safe text a e (typeProperty inner b details) a := by
  refine .calm fun _ => .join (Eats.safe a e) (Eats.safe a e) fun key => ?_
  refine .calm fun optional => .calm fun _ => .ite ?_ (.calm fun _ => ?_)
  · exact (eats_methodType h).bind fun value => .finishWith hb hle (Nat.le_refl a)
  · exact h.type.bind fun value => .finishWith hb hle (Nat.le_refl a)

theorem eats_typeMember (allowStatic : Bool) : Eats text (typeMember inner allowStatic) where
  safe a e := by
    refine .start fun b hab _ hb => .calm fun _ => .either fun static => .when ?_
    refine .calm fun sign => .calm fun t => ?_
    split
    · exact (safe_typeIndexer h hb (Nat.le_refl b)).mono hab
    · exact (eats_methodType h).bind fun value => .finishWith hb (Nat.le_refl b) hab
    · exact (eats_methodType h).bind fun value => .finishWith hb (Nat.le_refl b) hab
    · exact (safe_typeProperty h hb (Nat.le_refl b)).mono hab

theorem eats_objectType (allowStatic : Bool) : Eats text (objectType inner allowStatic) where
  safe a e := by
    refine .start fun b hab _ hb => .eat fun _ => .calm fun exact => ?_
    refine (Safe.collect ?_).bind fun members => ?_
    · refine .calm fun _ => .ite (.pure (Nat.le_refl b)) (.calm fun _ => .when ?_)
      refine (h.typeMember allowStatic).bind fun member => ?_
      exact .calm fun _ => .ite (.pure (Nat.le_refl b)) (.calm fun _ => .pure (Nat.le_refl b))
    · refine .when (.calm fun _ => .calm fun slot => .finish hb (Nat.le_refl b) hab)

/-! ### Names and lists of types -/

omit h in
instance eats_tokenType (kind : NodeKind) : Eats text (tokenType kind) where
  safe a e := by
    refine .start fun b hab _ hb => .calm fun t => .eat fun _ => ?_
    exact .finishWith hb (Nat.le_refl b) hab

omit h in
instance eats_qualifiedTypeName : Eats text qualifiedTypeName where
  safe a e := by
    refine .start fun b hab _ hb => .eat fun first => (Safe.iterate ?_ first).mono hab
    refine fun name => .calm fun _ => .ite ?_ (.pure (Nat.le_refl b))
    refine .eat fun id => (Safe.finish hb (Nat.le_refl b) (Nat.le_refl b)).bind fun name => ?_
    exact .pure (Nat.le_refl b)

omit h in
theorem endsLast_tokenType (kind : NodeKind) : EndsLast (tokenType kind) := by
  intro c s id s' hrun
  obtain ⟨start, s₁, -, hrun⟩ := of_bind_ok hrun
  obtain ⟨token, s₂, -, hrun⟩ := of_bind_ok hrun
  obtain ⟨_, s₃, -, hrun⟩ := of_bind_ok hrun
  exact endsLast_finishWith c s₃ id s' hrun

theorem eats_genericType : Eats text (genericType inner) where
  safe a e := by
    refine .start fun b hab _ hb => .eat fun id => (calm_typeArguments? h).bind fun arguments => ?_
    exact .finish hb (Nat.le_refl b) hab

theorem eats_tupleType : Eats text (tupleType inner) where
  safe a e := by
    refine .start fun b hab _ hb => .eat fun _ => h.type.commaTerminated.bind fun types => ?_
    exact .calm fun _ => .calm fun slot => .finish hb (Nat.le_refl b) hab

theorem eats_namedType : Eats text (namedType inner) where
  safe a e := by
    refine .calm fun _ => .ite ((eats_genericType h).safe a e) (.calm fun name => ?_)
    split
    · exact Eats.safe a e
    · exact (eats_genericType h).safe a e

omit h in
theorem eats_negativeNumberType : Eats text negativeNumberType where
  safe a e := by
    refine .start fun b hab _ hb => .eat fun _ => ?_
    exact (Safe.updateStart (Eats.safe b b) (endsLast_tokenType _) hb (Nat.le_refl b)).mono hab

theorem eats_primaryType : Eats text (primaryType inner) where
  safe a e := by
    refine .start fun b hab _ hb => .calm fun t => Safe.mono ?_ hab
    split
    · exact (eats_parenthesizedType h).safe b e
    · exact safe_functionType h .arrow hb (Nat.le_refl b)
    · exact (eats_objectType h false).safe b e
    · exact (eats_tupleType h).safe b e
    · refine .eat fun _ => h.primaryType.bind fun argument => ?_
      exact .finish hb (Nat.le_refl b) (Nat.le_refl b)
    · exact Eats.safe b e
    · exact Eats.safe b e
    · exact Eats.safe b e
    · exact .calm fun _ => .ite (eats_negativeNumberType.safe b e) .fail
    · exact Eats.safe b e
    · exact Eats.safe b e
    · exact Eats.safe b e
    · exact Eats.safe b e
    · exact .ite ((eats_namedType h).safe b e) .fail

theorem eats_postfixType : Eats text (postfixType inner) where
  safe a e := by
    refine .start fun b hab _ hb => (eats_primaryType h).bind fun type => ?_
    refine (Safe.iterate (fun type => .calm fun _ => .calm fun _ => ?_) type).mono hab
    refine .ite (.pure (Nat.le_refl b)) (.calm fun _ => .ite ?_ (.pure (Nat.le_refl b)))
    refine .calm fun _ => .calm fun _ => ?_
    exact (Safe.finish hb (Nat.le_refl b) (Nat.le_refl b)).bind fun array => .pure (Nat.le_refl b)

theorem eats_prefixType : Eats text (prefixType inner) where
  safe a e := by
    refine .calm fun _ => .ite ?_ ((eats_postfixType h).safe a e)
    refine .start fun b hab _ hb => .eat fun _ => h.prefixType.bind fun type => ?_
    exact .finish hb (Nat.le_refl b) hab

omit h in
theorem eats_typeList {separator : Token} {kind : NodeKind} {member : Parser NodeId}
    (hmember : Eats text member) : Eats text (typeList separator kind member) where
  safe a e := by
    refine .start fun b hab _ hb => .calm fun _ => hmember.bind fun first => ?_
    refine (Safe.collect ?_).bind fun more => .ite (.pure hab) ?_
    · refine .calm fun _ => .ite (.calm fun _ => ?_) (.pure (Nat.le_refl b))
      exact (hmember.calm.safe b b).map
    · exact .calm fun slot => .finish hb (Nat.le_refl b) hab

theorem eats_intersectionType : Eats text (intersectionType inner) :=
  eats_typeList (eats_prefixType h)

theorem eats_unionType : Eats text (unionType inner) :=
  eats_typeList (eats_intersectionType h)

/-! ## Patterns -/

theorem eats_propertyName : Eats text (propertyName inner) where
  safe a e := by
    refine .calm fun t => ?_
    split
    · refine .eat fun _ => h.assignment.withReader.bind fun key => .calm fun _ => ?_
      exact .pure (Nat.le_refl a)
    · exact .eat fun key => .pure (Nat.le_refl a)
    · exact .eat fun key => .pure (Nat.le_refl a)
    · exact .eat fun key => .pure (Nat.le_refl a)

theorem eats_bindingIdentifier (allowOptional : Bool) :
    Eats text (bindingIdentifier inner allowOptional) where
  safe a e := by
    refine .start fun b hab _ hb => .calm fun _ => .when (.calm fun name => .eat fun _ => ?_)
    refine .calm fun _ => ?_
    extract_lets rest
    have hrest : ∀ mark a', Safe text a' b (rest mark) a := fun mark a' =>
      (calm_ascription? h).bind fun type => .finishWith hb (Nat.le_refl b) hab
    refine .ite (.start fun b₁ _ hb₁ hmark => .eat fun _ => ?_) (hrest none b)
    exact (Safe.finish hmark (Nat.le_refl b₁) hb₁).bind fun mark => hrest (some mark) b₁

theorem eats_bindingElement (allowOptional : Bool) :
    Eats text (bindingElement inner allowOptional) where
  safe a e := by
    refine .start fun b hab _ hb => (h.bindingTarget allowOptional).bind fun target => ?_
    refine .calm fun _ => .ite ?_ (.pure hab)
    exact h.assignment.withReader.bind fun value => .finish hb (Nat.le_refl b) hab

theorem safe_shorthandDefault {name : NodeId} (hb : Boundary text b) (hle : b ≤ a) (he' : e' ≤ a)
    (he : e' ≤ e) : Safe text a e (shorthandDefault inner b name) e' :=
  .calm fun _ => .ite (h.assignment.bind fun _ => .finish hb hle he') (.pure he)

theorem eats_bindingProperty : Eats text (bindingProperty inner) where
  safe a e := by
    refine .start fun b hab _ hb => .calm fun canBeShorthand => (eats_propertyName h).bind ?_
    rintro ⟨key, computed⟩
    refine .calm fun _ => .ite ?_ (.ite ?_ .fail)
    · refine (eats_bindingElement h false).bind fun value => ?_
      exact .finishWith hb (Nat.le_refl b) hab
    · refine (safe_shorthandDefault h hb (Nat.le_refl b) (Nat.le_refl b) (Nat.le_refl b)).bind ?_
      exact fun value => .finishWith hb (Nat.le_refl b) hab

omit h in
theorem eats_restElement {target : Parser NodeId} (htarget : Eats text target) :
    Eats text (restElement target) where
  safe a e := by
    refine .start fun b hab _ hb => .eat fun _ => htarget.bind fun argument => ?_
    exact .finish hb (Nat.le_refl b) hab

omit h in
theorem eats_restOr {rest item : Parser NodeId} (hrest : Eats text rest) (hitem : Eats text item) :
    Eats text (do if ← isAt .ellipsis then rest else item) :=
  ⟨fun a e => .calm fun _ => .ite (hrest.safe a e) (hitem.safe a e)⟩

theorem eats_objectPattern {rest : Parser NodeId} (hrest : Eats text rest) :
    Eats text (objectPattern inner rest) where
  safe a e := by
    have hproperty := eats_restOr hrest (eats_bindingProperty h)
    refine .start fun b hab _ hb => .eat fun _ => ?_
    refine hproperty.commaTerminated.bind fun properties => .calm fun _ => .calm fun slot => ?_
    refine (calm_ascription? h).bind fun type => ?_
    exact .finish hb (Nat.le_refl b) hab

omit h in
theorem calm_elements {element : Parser NodeId} (helement : Eats text element) :
    Calm text (elements element) where
  safe a e := by
    refine .collect (.calm fun _ => .ite (.pure (Nat.le_refl e)) (.calm fun _ => ?_))
    refine .ite (.pure (Nat.le_refl e)) (helement.calm.bind fun node => .calm fun _ => ?_)
    exact .whenNot (.pure (Nat.le_refl e))

theorem eats_arrayPattern {rest : Parser NodeId} (hrest : Eats text rest) :
    Eats text (arrayPattern inner rest) where
  safe a e := by
    have helement := eats_restOr hrest (eats_bindingElement h false)
    refine .start fun b hab _ hb => .eat fun _ => (calm_elements helement).bind fun nodes => ?_
    refine .calm fun _ => .calm fun stop => (calm_ascription? h).bind fun type => ?_
    exact .finish hb (Nat.le_refl b) hab

theorem eats_bindingTargetWithin (bound : Nat) (allowOptional : Bool) :
    Eats text (bindingTargetWithin inner bound allowOptional) := by
  induction bound generalizing allowOptional with
  | zero => exact ⟨fun _ _ => .fail (p := failUnexpected)⟩
  | succ bound ih =>
      refine ⟨fun a e => .calm fun t => ?_⟩
      split
      · exact (eats_objectPattern h (eats_restElement (ih false))).safe a e
      · exact (eats_arrayPattern h (eats_restElement (ih false))).safe a e
      · exact (eats_bindingIdentifier h allowOptional).safe a e

theorem eats_bindingTarget (allowOptional : Bool) :
    Eats text (bindingTarget inner allowOptional) where
  safe a e := .calm fun _ => (eats_bindingTargetWithin h _ allowOptional).safe a e

theorem eats_parameterList : Eats text (parameterList inner) where
  safe a e := by
    refine .start fun b hab _ hb => .eat fun _ => (Safe.iterate ?_ _).bind fun read => ?_
    · rintro ⟨params, ended⟩
      refine .calm fun _ => .ite (.pure (Nat.le_refl b)) (.calm fun _ => .ite ?_ ?_)
      · refine (eats_restElement (eats_bindingTarget h false)).bind fun param => ?_
        exact .calm fun _ => .when (.pure (Nat.le_refl b))
      · refine (eats_bindingElement h true).bind fun param => .calm fun _ => ?_
        exact .whenNot (.pure (Nat.le_refl b))
    · exact .calm fun _ => .mono (Calm.safe b b) hab

/-! ## Functions -/

theorem eats_statementBlock : Eats text (statementBlock inner) where
  safe a e := by
    refine .eat fun _ => .calm fun start => (Safe.collect ?_).bind fun ids => ?_
    · refine .calm fun _ => .ite (.pure (Nat.le_refl a)) (.calm fun _ => .when ?_)
      exact (h.statement.calm.safe a a).map
    · exact .calm fun stop => .calm fun _ => .pure (Nat.le_refl a)

theorem eats_blockStatement : Eats text (blockStatement inner) where
  safe a e := by
    refine .start fun b hab _ hb => (eats_statementBlock h).bind fun body => ?_
    exact .finish hb (Nat.le_refl b) hab

theorem eats_functionBody (isAsync isGenerator : Bool) :
    Eats text (functionBody inner isAsync isGenerator) :=
  (eats_blockStatement h).withReader

theorem eats_functionRest (isAsync isGenerator : Bool) :
    Eats text (functionRest inner isAsync isGenerator) where
  safe a e := by
    refine (calm_typeParameters? h).bind fun typeParameters => ?_
    refine (eats_parameterList h).withReader.bind fun params => ?_
    refine (calm_ascription? h).bind fun returnType => ?_
    exact (eats_functionBody h isAsync isGenerator).bind fun body => .pure (Nat.le_refl a)

omit h in
instance calm_declaredName (present allowAnonymous : Bool) :
    Calm text (declaredName present allowAnonymous) where
  safe a e := .ite ((Eats.calm inferInstance).safe a e).map (.ite (.pure (Nat.le_refl e)) .fail)

theorem safe_function (kind : NodeKind) (allowAnonymous : Bool) (hb : Boundary text b)
    (hle : b ≤ a) : Safe text a e (function inner kind b allowAnonymous) a := by
  refine .calm fun async => .eat fun _ => .calm fun generator => .calm fun present => ?_
  refine .calm fun id => (eats_functionRest h async generator).bind fun rest => ?_
  exact .finishWith hb hle (Nat.le_refl a)

theorem eats_methodFunction (flags : NodeFlags) : Eats text (methodFunction inner flags) where
  safe a e := by
    refine .start fun b hab _ hb => (eats_functionRest h _ _).bind fun rest => ?_
    exact .finishWith hb (Nat.le_refl b) hab

/-! ## Classes -/

omit h in
instance calm_accessorFlags (flags : NodeFlags) : Calm text (accessorFlags flags) := by
  unfold accessorFlags; infer_instance

omit h in
instance calm_functionFlags (flags : NodeFlags) : Calm text (functionFlags flags) := by
  unfold functionFlags; infer_instance

theorem safe_classPropertyRest {details : Details} {key : NodeId} (hb : Boundary text b)
    (hle : b ≤ e) (he' : e' ≤ e) :
    Safe text a e (classPropertyRest inner b details key) e' := by
  refine (calm_ascription? h).bind fun type => .calm fun _ => .when (.calm fun _ => ?_)
  exact .finishWith hb hle he'

theorem safe_signedProperty {flags : NodeFlags} (hb : Boundary text b) (hle : b ≤ a) :
    Safe text a e (signedProperty inner b flags) a := by
  refine .calm fun sign => (eats_propertyName h).bind ?_
  rintro ⟨key, computed⟩
  exact safe_classPropertyRest h hb hle (Nat.le_refl a)

theorem eats_classMember : Eats text (classMember inner) where
  safe a e := by
    refine .start fun b hab _ hb => .mono (m := b) ?_ hab
    refine .calm fun _ => .either fun static => .when (.calm fun _ => ?_)
    refine .ite (safe_signedProperty h hb (Nat.le_refl b)) ?_
    refine .calm fun flags => .calm fun flags => .calm fun t => .when ?_
    refine .calm fun _ => .calm fun _ => (eats_propertyName h).bind ?_
    rintro ⟨key, computed⟩
    refine .calm fun _ => .ite ?_ (.ite .fail ?_)
    · refine (eats_methodFunction h _).bind fun value => ?_
      exact .finishWith hb (Nat.le_refl b) (Nat.le_refl b)
    · exact safe_classPropertyRest h hb (Nat.le_refl b) (Nat.le_refl b)

theorem eats_classBody : Eats text (classBody inner) where
  safe a e := by
    refine .start fun b hab _ hb => .eat fun _ => .calm fun listStart => ?_
    refine (Safe.collect ?_).bind fun members => ?_
    · refine .calm fun t => ?_
      split
      · exact .pure (Nat.le_refl b)
      · exact .calm fun _ => .pure (Nat.le_refl b)
      · exact .fail
      · exact h.classMember.bind fun member => .pure (Nat.le_refl b)
    · exact .calm fun stop => .calm fun _ => .finish hb (Nat.le_refl b) hab

theorem calm_implementsClause : Calm text (implementsClause inner) where
  safe a e := by
    have hinterface : Eats text (do
        let start ← tokenStart
        let id ← identifier
        let typeArguments ← typeArguments? inner
        finish .classImplements start [.node id, .ofOption typeArguments]) := by
      refine ⟨fun a e => .start fun b hab _ hb => .eat fun id => ?_⟩
      exact (calm_typeArguments? h).bind fun arguments => .finish hb (Nat.le_refl b) hab
    refine .calm fun _ => .ite (.pure (Nat.le_refl e)) (.calm fun listStart => .calm fun _ => ?_)
    exact hinterface.commaSeparated.calm.bind fun interfaces => Calm.safe a e

theorem safe_classOf {heritage : Parser NodeId} (hheritage : Eats text heritage) (kind : NodeKind)
    (allowAnonymous : Bool) (hb : Boundary text b) (hle : b ≤ a) :
    Safe text a e (classOf inner heritage kind b allowAnonymous) a := by
  refine .eat fun _ => .calm fun _ => .calm fun _ => .calm fun id => ?_
  refine (calm_typeParameters? h).bind fun typeParameters => .calm fun _ => ?_
  extract_lets rest
  have hrest : ∀ bases, Safe text a a (rest bases) a := by
    rintro ⟨superClass, superArguments⟩
    refine (calm_implementsClause h).bind fun implemented => ?_
    exact (eats_classBody h).bind fun body => .finish hb hle (Nat.le_refl a)
  refine .ite (hheritage.bind fun superClass => ?_) (hrest (none, none))
  exact (calm_typeArguments? h).bind fun superArguments => hrest (some superClass, superArguments)

end FlowErasure.Grammar
