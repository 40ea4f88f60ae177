import FlowErasure.Proofs.Frame.Types
import FlowErasure.Proofs.Nesting.Parsers

/-!
# Ranks of types, patterns, functions and classes

`Nested.Ranked` is what every rule may assume of the rules one level of nesting deeper: what they
answer is below `b`, the rank at which the own level starts. A rule then says how far above `b` its
answers may stand.
-/

namespace FlowErasure.Grammar

variable {final : Tree} {c : Context} {b : Nat}

/-- The rules one level deeper answer with nodes below the level that starts at `b`. -/
structure Nested.Ranked (final : Tree) (b : Nat) (inner : Nested) : Prop where
  first : 16 ≤ b
  level : b % 16 = 0
  keeps : ∀ base, inner.Keeping base
  statement : ∀ {c}, RanksBelow final c b inner.statement
  assignment : ∀ {c}, RanksBelow final c b inner.assignment
  binary : ∀ {c} precedence, RanksBelow final c b (inner.binary precedence)
  unary : ∀ {c}, RanksBelow final c b inner.unary
  construction : ∀ {c}, RanksBelow final c b inner.construction
  bindingTarget : ∀ {c} allowOptional, RanksBelow final c b (inner.bindingTarget allowOptional)
  classMember : ∀ {c}, RanksBelow final c b inner.classMember
  -- A type leaves room for its ascription, and a name with an ascription for what it is a part of.
  type : ∀ {c}, RanksBelow final c (b - 8) inner.type
  prefixType : ∀ {c}, RanksBelow final c b inner.prefixType
  primaryType : ∀ {c}, RanksBelow final c b inner.primaryType
  typeMember : ∀ {c} allowStatic, RanksBelow final c b (inner.typeMember allowStatic)

variable {inner : Nested} (h : inner.Ranked final b)

include h

theorem Nested.Ranked.fits {kind : NodeKind} (stage : Nat)
    (hkind : (kind.stages.contains stage && kind != .identifier && stage < 16) = true) :
    kind.fitsAt (b + stage) := by
  have hfirst := h.first
  have hlevel := h.level
  obtain ⟨level, rfl⟩ : ∃ level, b = 16 * level + 16 := ⟨b / 16 - 1, by omega⟩
  exact NodeKind.fitsAt_of_stage level hkind

/-- If there is a node that is a type, there is a level below. -/
theorem Nested.Ranked.of_type {id : NodeId} (hid : final.Below (b - 8) id) : 32 ≤ b := by
  have hlt := hid.lt
  have hlevel := h.level
  omega

/-! ## Names and literals -/

theorem ranks_word : RanksBelow final c (b + 2) identifierName := by
  have hfirst := h.first
  exact RanksBelow.identifierName.le (by omega)

theorem ranks_name : RanksBelow final c (b + 2) identifier := by
  have hfirst := h.first
  exact RanksBelow.identifier.le (by omega)

theorem ranks_literal : RanksBelow final c (b + 2) literal := by
  have hfirst := h.first
  exact RanksBelow.literal.le (by omega)

/-! ## Types -/

theorem ranks_ascription? : AllRankBelow final c (b - 7) (ascription? inner) Option.toList := by
  refine .quiet fun _ => .ite (.pure (by simp)) ?_
  refine .quiet fun start => .quiet fun _ => h.type.bind fun type => ?_
  refine AnswersIn.shaped.map fun id hshape htype => ?_
  have hlevel := h.level
  have hle := h.of_type htype
  obtain ⟨level, rfl⟩ : ∃ level, b = 16 * level + 32 := ⟨b / 16 - 2, by omega⟩
  have hfits : NodeKind.ascription.fitsAt (16 * level + 16 + 8) :=
    NodeKind.fitsAt_of_stage level rfl
  have hid : final.Below (16 * level + 32 - 7) id :=
    .of_children (by omega) hfits hshape (by simpa using htype)
  simpa using hid

theorem ranks_typeParameter : RanksBelow final c (b + 3) (typeParameter inner) := by
  have hascription := (ranks_ascription? h).le (c := c) (n := b + 2) (by omega)
  have htype := h.type.le (c := c) (n := b + 2) (by omega)
  refine .quiet fun start => .quiet fun sign => .quiet fun _ => .when ?_
  refine AnswersIn.tokenAtom.bind fun name => .quiet fun _ => hascription.bind fun bound => ?_
  refine .quiet fun _ => .join (fun type => final.AllBelow (b + 2) type.toList)
    (htype.map (by simp)) (.pure (by simp)) fun default => ?_
  exact .rankedWith (h.fits 2 rfl) (by simp_all)

omit h in
theorem ranks_angleList? {kind : NodeKind} {rank : Nat} {item : Parser NodeId}
    (hfits : kind.fitsAt rank) (hitem : RanksBelow final c rank item) :
    AllRankBelow final c (rank + 1) (angleList? kind item) Option.toList := by
  refine .quiet fun _ => .ite (.pure (by simp)) (.quiet fun start => .quiet fun _ => ?_)
  refine (RanksBelow.commaTerminated hitem).bind fun items => .quiet fun _ => ?_
  refine AnswersIn.listed.bind fun slot => ?_
  exact (AnswersIn.ranked hfits fun id hid => hid).map (by simp_all)

theorem ranks_typeParameters? :
    AllRankBelow final c (b + 4) (typeParameters? inner) Option.toList :=
  ranks_angleList? (h.fits 3 rfl) (ranks_typeParameter h)

theorem ranks_typeArguments? : AllRankBelow final c (b + 3) (typeArguments? inner) Option.toList :=
  ranks_angleList? (h.fits 2 rfl) (h.type.le (by omega))

theorem ranks_functionTypeParam (start : Nat) :
    RanksBelow final c (b + 3) (functionTypeParam inner start) := by
  have htype := h.type.le (c := c) (n := b + 2) (by omega)
  refine .quiet fun t => .either fun named => .ite ?_ ?_
  · refine (ranks_word h).bind fun name => ?_
    refine .quiet fun optional => .quiet fun _ => htype.bind fun type => ?_
    exact .rankedWith (h.fits 2 rfl) (by simp_all)
  · exact htype.bind fun type => .ranked (h.fits 2 rfl) (by simp_all)

theorem ranks_functionTypeParams (listStart : Nat) (params : List NodeId) :
    AnswersIn Node.shape final c (functionTypeParams inner listStart params) fun all =>
      final.AllBelow (b + 3) params → final.AllBelow (b + 3) (all.1.children ++ all.2.toList) := by
  refine (AnswersIn.iterate
    (P := fun read => final.AllBelow (b + 3) (read.1 ++ read.2.toList)) ?_).bind ?_
  · rintro ⟨params, rest⟩
    refine .quiet fun _ => .ite (.pure (by simp)) ?_
    refine .quiet fun start => .quiet fun _ => .ite ?_ ?_
    · refine (ranks_functionTypeParam h start).bind fun rest => .quiet fun _ => .pure ?_
      simp_all
    · refine (ranks_functionTypeParam h start).bind fun param => .quiet fun _ => ?_
      exact .whenNot (.pure (by simp_all))
  · rintro ⟨params, rest⟩
    refine .quiet fun _ => AnswersIn.listed.bind fun slot => .pure ?_
    simp_all

theorem ranks_finishFunctionType (start : Nat) (typeParameters : Option NodeId)
    (params : Slot × Option NodeId) (separator : Token) :
    AnswersIn Node.shape final c
        (finishFunctionType inner start typeParameters params separator) fun id =>
      final.AllBelow (b + 4) typeParameters.toList →
      final.AllBelow (b + 3) (params.1.children ++ params.2.toList) →
        final.Below (b + 5) id ∧ 32 ≤ b := by
  refine .quiet fun _ => h.type.bind fun returnType => ?_
  refine .ranked (h.fits 4 rfl) fun id hid hreturnType htypeParameters hparams => ?_
  have htype : final.Below (b + 4) returnType := hreturnType.mono (by omega)
  have hparams : final.AllBelow (b + 4) (params.1.children ++ params.2.toList) :=
    hparams.mono (by omega)
  exact ⟨hid (by simp_all), h.of_type hreturnType⟩

theorem ranks_functionType (start : Nat) (separator : Token) :
    AnswersIn Node.shape final c (functionType inner start separator) fun id =>
      final.Below (b + 5) id ∧ 32 ≤ b := by
  refine (ranks_typeParameters? h).bind fun typeParameters => ?_
  refine .quiet fun listStart => .quiet fun _ => ?_
  refine (ranks_functionTypeParams h listStart []).bind fun params => ?_
  exact (ranks_finishFunctionType h start _ params separator).mono (by simp_all)

theorem ranks_methodType :
    AnswersIn Node.shape final c (methodType inner) fun id => final.Below (b + 5) id ∧ 32 ≤ b :=
  .quiet fun start => ranks_functionType h start .colon

theorem ranks_parenthesizedType : RanksBelow final c (b + 5) (parenthesizedType inner) := by
  have htype := h.type.le (c := c) (n := b + 2) (by omega)
  refine .quiet fun start => .quiet fun _ => .ite ?_ ?_
  · exact (ranks_functionType h start .arrow).mono fun id hid => hid.1
  · refine .quiet fun _ => .quiet fun innerStart => htype.bind fun type => ?_
    refine .quiet fun _ => .quiet fun _ => ?_
    -- However it is found out whether the type is a parameter, what comes next is the same.
    extract_lets rest
    have hrest : ∀ isFunction, AnswersIn Node.shape final c (rest isFunction) fun id =>
        final.Below (b + 2) type → final.Below (b + 5) id := by
      refine fun isFunction => .ite ?_ (.quiet fun _ => .pure fun hid => hid.mono (by omega))
      have hfirst : AnswersIn Node.shape final c
          (finish .functionTypeParam innerStart [.absent, .node type]) fun first =>
            final.Below (b + 2) type → final.Below (b + 3) first :=
        .ranked (h.fits 2 rfl) (by simp_all)
      refine hfirst.bind fun first => .quiet fun _ => ?_
      refine (ranks_functionTypeParams h start [first]).bind fun params => ?_
      refine (ranks_finishFunctionType h start none params .arrow).mono ?_
      exact fun id hid hparams hfirst htype => (hid (by simp) (hparams (by simp_all))).1
    exact .ite (.quiet hrest) (.either hrest)

/-! ### Object types -/

theorem ranks_typeIndexer (start : Nat) (details : Details) :
    RanksBelow final c (b + 3) (typeIndexer inner start details) := by
  have htype := h.type.le (c := c) (n := b + 2) (by omega)
  refine .quiet fun _ => .quiet fun t => .either fun named => ?_
  extract_lets rest
  have hrest : ∀ id, AnswersIn Node.shape final c (rest id) fun indexer =>
      final.AllBelow (b + 2) id.toList → final.Below (b + 3) indexer := by
    intro id
    refine htype.bind fun key => .quiet fun _ => .quiet fun _ => htype.bind fun value => ?_
    exact .rankedWith (h.fits 2 rfl) (by simp_all)
  refine .ite ?_ ((hrest none).mono (by simp))
  refine (ranks_word h).bind fun id => .quiet fun _ => ?_
  exact (hrest (some id)).mono (by simp)

theorem ranks_typeProperty (start : Nat) (details : Details) :
    RanksBelow final c (b + 6) (typeProperty inner start details) := by
  have htype := h.type.le (c := c) (n := b + 5) (by omega)
  refine .quiet fun _ => .join (final.Below (b + 5)) ((ranks_literal h).le (by omega))
    ((ranks_word h).le (by omega)) fun key => ?_
  refine .quiet fun optional => .quiet fun _ => .ite ?_ ?_
  · refine (ranks_methodType h).bind fun value => .rankedWith (h.fits 5 rfl) ?_
    simp_all
  · exact .quiet fun _ => htype.bind fun value => .rankedWith (h.fits 5 rfl) (by simp_all)

theorem ranks_typeMember (allowStatic : Bool) :
    RanksBelow final c (b + 6) (typeMember inner allowStatic) := by
  have hcall : ∀ start details, RanksBelow final c (b + 6) (do
      let value ← methodType inner
      finishWith .objectTypeCallProperty start [.node value] details) := by
    refine fun start details => (ranks_methodType h).bind fun value => ?_
    exact .rankedWith (h.fits 5 rfl) (by simp_all)
  refine .quiet fun start => .quiet fun _ => .either fun static => .when ?_
  refine .quiet fun sign => .quiet fun t => ?_
  split
  · exact (ranks_typeIndexer h start _).le (by omega)
  · exact hcall start _
  · exact hcall start _
  · exact ranks_typeProperty h start _

theorem ranks_objectType (allowStatic : Bool) :
    RanksBelow final c (b + 3) (objectType inner allowStatic) := by
  have hmember := (h.typeMember allowStatic).le (c := c) (n := b + 2) (by omega)
  refine .quiet fun start => .quiet fun _ => .quiet fun exact => ?_
  refine (AllRankBelow.collect (n := b + 2) ?_).bind fun members => ?_
  · refine .quiet fun _ => .ite (.pure (by simp)) (.quiet fun _ => .when ?_)
    refine hmember.bind fun member => ?_
    have hsome : AnswersIn Node.shape final c (pure (some member)) fun id =>
        final.Below (b + 2) member → final.AllBelow (b + 2) id.toList := .pure (by simp)
    exact .quiet fun _ => .ite hsome (.quiet fun _ => hsome)
  · refine .when (.quiet fun _ => AnswersIn.listed.bind fun slot => ?_)
    exact .ranked (h.fits 2 rfl) (by simp_all)

/-! ### Names and lists of types -/

omit h in
theorem ranks_tokenType {kind : NodeKind} (hfits : kind.fitsAt 16) :
    RanksBelow final c 17 (tokenType kind) :=
  .quiet fun start => .quiet fun t => .quiet fun _ => .rankedWith hfits (by simp)

theorem ranks_qualifiedTypeName : RanksBelow final c (b + 3) qualifiedTypeName := by
  refine .quiet fun start => ((ranks_name h).le (n := b + 3) (by omega)).bind fun first => ?_
  refine .iterate fun name => .quiet fun _ => .ite ?_ (.pure (by simp))
  refine (ranks_word h).bind fun id => ?_
  have hqualified : AnswersIn Node.shape final c
      (finish .qualifiedTypeIdentifier start [.node name, .node id]) fun type =>
        final.Below (b + 2) id → final.Below (b + 3) name → final.Below (b + 3) type :=
    .rankedLeft (h.fits 2 rfl) ⟨_, _, rfl, rfl⟩ (by simp_all)
  exact hqualified.bind fun type => .pure (by simp_all)

theorem ranks_genericType : RanksBelow final c (b + 4) (genericType inner) := by
  refine .quiet fun start => (ranks_qualifiedTypeName h).bind fun id => ?_
  refine (ranks_typeArguments? h).bind fun typeArguments => ?_
  exact .ranked (h.fits 3 rfl) (by simp_all)

theorem ranks_tupleType : RanksBelow final c (b + 3) (tupleType inner) := by
  have htype := h.type.le (c := c) (n := b + 2) (by omega)
  refine .quiet fun start => .quiet fun _ => ?_
  refine (RanksBelow.commaTerminated htype).bind fun types => .quiet fun _ => ?_
  refine AnswersIn.listed.bind fun slot => ?_
  exact .ranked (h.fits 2 rfl) (by simp_all)

omit h in
theorem fitsAt_of_primitiveType? {name : String} {kind : NodeKind}
    (hkind : primitiveType? name = some kind) : kind.fitsAt 16 := by
  unfold primitiveType? at hkind
  split at hkind <;> cases hkind <;> decide

theorem ranks_namedType : RanksBelow final c (b + 4) (namedType inner) := by
  have hfirst := h.first
  refine .quiet fun _ => .ite (ranks_genericType h) (.quiet fun name => ?_)
  split
  · rename_i kind hkind
    exact (ranks_tokenType (fitsAt_of_primitiveType? hkind)).le (by omega)
  · exact ranks_genericType h

omit h in
theorem ranks_negativeNumberType : RanksBelow final c 17 negativeNumberType := by
  refine .quiet fun start => .quiet fun _ => (ranks_tokenType (by decide)).bind fun number => ?_
  refine (AnswersIn.updateNode ?_).bind fun _ => ?_
  · exact fun node => rfl
  · exact .pure fun _ hnumber => hnumber

theorem ranks_primaryType : RanksBelow final c (b + 5) (primaryType inner) := by
  have hfirst := h.first
  have htoken : ∀ kind : NodeKind, kind.fitsAt 16 → RanksBelow final c (b + 5) (tokenType kind) :=
    fun kind hkind => (ranks_tokenType hkind).le (by omega)
  have hargument := h.primaryType.le (c := c) (n := b + 2) (by omega)
  refine .quiet fun start => .quiet fun t => ?_
  split
  · exact ranks_parenthesizedType h
  · exact (ranks_functionType h start .arrow).mono fun id hid => hid.1
  · exact (ranks_objectType h false).le (by omega)
  · exact (ranks_tupleType h).le (by omega)
  · refine RanksBelow.le (m := b + 3) (.quiet fun _ => hargument.bind fun argument => ?_) (by omega)
    exact .ranked (h.fits 2 rfl) (by simp_all)
  · exact htoken _ (by decide)
  · exact htoken _ (by decide)
  · exact htoken _ (by decide)
  · exact .quiet fun _ => .ite (ranks_negativeNumberType.le (by omega)) .fail
  · exact htoken _ (by decide)
  · exact htoken _ (by decide)
  · exact htoken _ (by decide)
  · exact htoken _ (by decide)
  · exact .ite ((ranks_namedType h).le (by omega)) .fail

theorem ranks_postfixType : RanksBelow final c (b + 6) (postfixType inner) := by
  refine .quiet fun start => ((ranks_primaryType h).le (n := b + 6) (by omega)).bind fun type => ?_
  refine .iterate fun type => .quiet fun _ => .quiet fun _ => .ite (.pure (by simp)) ?_
  refine .quiet fun _ => .ite (.quiet fun _ => .quiet fun _ => ?_) (.pure (by simp))
  have harray : AnswersIn Node.shape final c (finish .arrayType start [.node type]) fun array =>
      final.Below (b + 6) type → final.Below (b + 6) array :=
    .rankedLeft (h.fits 5 rfl) ⟨_, _, rfl, rfl⟩ (by simp_all)
  exact harray.bind fun array => .pure (by simp_all)

theorem ranks_prefixType : RanksBelow final c (b + 6) (prefixType inner) := by
  have htype := h.prefixType.le (c := c) (n := b + 2) (by omega)
  refine .quiet fun _ => .ite ?_ (ranks_postfixType h)
  refine RanksBelow.le (m := b + 3)
    (.quiet fun start => .quiet fun _ => htype.bind fun type => ?_) (by omega)
  exact .ranked (h.fits 2 rfl) (by simp_all)

omit h in
theorem ranks_typeList {separator : Token} {kind : NodeKind} {rank : Nat} {member : Parser NodeId}
    (hfits : kind.fitsAt rank) (hmember : RanksBelow final c rank member) :
    RanksBelow final c (rank + 1) (typeList separator kind member) := by
  refine .quiet fun start => .quiet fun _ => hmember.bind fun first => ?_
  refine (AllRankBelow.collect (n := rank) ?_).bind fun more => .ite (.pure ?_) ?_
  · exact .quiet fun _ => .ite (.quiet fun _ => hmember.map (by simp)) (.pure (by simp))
  · exact fun _ hid => hid.mono (Nat.le_succ rank)
  · refine AnswersIn.listed.bind fun slot => ?_
    exact .ranked hfits (by simp_all)

theorem ranks_intersectionType : RanksBelow final c (b + 7) (intersectionType inner) :=
  ranks_typeList (h.fits 6 rfl) (ranks_prefixType h)

theorem ranks_unionType : RanksBelow final c (b + 8) (unionType inner) :=
  ranks_typeList (h.fits 7 rfl) (ranks_intersectionType h)

/-! ## Patterns -/

theorem ranks_propertyName :
    AnswersIn Node.shape final c (propertyName inner) fun name => final.Below (b + 2) name.1 := by
  refine .quiet fun t => ?_
  split
  · refine .quiet fun _ => (h.assignment.le (n := b + 2) (by omega)).withReader.bind fun key => ?_
    exact .quiet fun _ => .pure fun hkey => hkey
  · exact (ranks_literal h).bind fun key => .pure fun hkey => hkey
  · exact (ranks_literal h).bind fun key => .pure fun hkey => hkey
  · exact (ranks_word h).bind fun key => .pure fun hkey => hkey

/-- A name has the rank of its ascription and one more; without one, it has the least. -/
theorem Nested.Ranked.identifier_of_shape {id : NodeId} {slot : Slot} {ascription : Option NodeId}
    (hshape : final.shape? id =
      some (.identifier, Tree.fitSlots .identifier [slot, .ofOption ascription]))
    (hslot : final.AllBelow 17 slot.children)
    (hascription : final.AllBelow (b + 9) ascription.toList) (hle : ascription.isSome → 32 ≤ b) :
    final.Below (b + 10) id := by
  have hfirst := h.first
  have hlevel := h.level
  cases ascription with
  | none =>
      refine .of_children (by omega : 17 < b + 10) (by decide) hshape ?_
      simpa using hslot
  | some type =>
      have hle := hle rfl
      have hfits : NodeKind.identifier.fitsAt (b + 9) := by
        have hmod : (b + 9) % 16 = 9 := by omega
        simp [NodeKind.fitsAt, hmod]
        omega
      refine .of_children (by omega) hfits hshape ?_
      have hslot : final.AllBelow (b + 9) slot.children := hslot.mono (by omega)
      simpa using ⟨hslot, by simpa using hascription⟩

theorem ranks_bindingIdentifier (allowOptional : Bool) :
    RanksBelow final c (b + 10) (bindingIdentifier inner allowOptional) := by
  refine .quiet fun start => .quiet fun _ => .when ?_
  refine AnswersIn.tokenAtom.bind fun name => .quiet fun _ => .quiet fun _ => ?_
  extract_lets rest
  have hrest : ∀ mark, AnswersIn Node.shape final c (rest mark) fun id =>
      final.AllBelow 17 mark.toList → final.Below (b + 10) id := by
    refine fun mark => (ranks_ascription? h).bind fun type => ?_
    refine AnswersIn.shaped.mono fun id hshape htype hmark => ?_
    refine h.identifier_of_shape hshape (by simpa using hmark) (htype.mono (by omega)) ?_
    intro hsome
    obtain ⟨type, rfl⟩ := Option.isSome_iff_exists.mp hsome
    have hlt : 16 < b - 7 := Tree.Below.lt (htype type (by simp))
    have hlevel := h.level
    omega
  refine .ite (.quiet fun markStart => .quiet fun _ => ?_) ((hrest none).mono (by simp))
  have hmark : RanksBelow final c 17 (finish .optionalMarker markStart []) :=
    .ranked (by decide : NodeKind.optionalMarker.fitsAt 16) (by simp_all)
  exact hmark.bind fun mark => (hrest (some mark)).mono (by simp)

theorem ranks_bindingElement (allowOptional : Bool) :
    RanksBelow final c (b + 3) (bindingElement inner allowOptional) := by
  have htarget := (h.bindingTarget allowOptional).le (c := c) (n := b + 2) (by omega)
  have hvalue : ∀ c, RanksBelow final c (b + 2) inner.assignment := fun _ => h.assignment.le (by omega)
  refine .quiet fun start => htarget.bind fun target => .quiet fun _ => .ite ?_ ?_
  · exact (hvalue _).withReader.bind fun value => .ranked (h.fits 2 rfl) (by simp_all)
  · exact .pure fun hid => hid.mono (by omega)

theorem ranks_shorthandDefault (start : Nat) (name : NodeId) :
    AnswersIn Node.shape final c (shorthandDefault inner start name) fun id =>
      final.Below (b + 2) name → final.Below (b + 3) id := by
  have hvalue := h.assignment.le (c := c) (n := b + 2) (by omega)
  refine .quiet fun _ => .ite ?_ (.pure fun hid => hid.mono (by omega))
  exact hvalue.bind fun value => .ranked (h.fits 2 rfl) (by simp_all)

theorem ranks_bindingProperty : RanksBelow final c (b + 6) (bindingProperty inner) := by
  have helement := (ranks_bindingElement h false).le (c := c) (n := b + 5) (by omega)
  refine .quiet fun start => .quiet fun canBeShorthand => (ranks_propertyName h).bind ?_
  rintro ⟨key, computed⟩
  refine .quiet fun _ => .ite ?_ (.ite ?_ .fail)
  · refine helement.bind fun value => .rankedWith (h.fits 5 rfl) fun id hid hvalue hkey => ?_
    have hkey : final.Below (b + 5) key := hkey.mono (by omega)
    exact hid (by simp_all)
  · refine (ranks_shorthandDefault h start key).bind fun value => ?_
    refine .rankedWith (h.fits 5 rfl) fun id hid hvalue hkey => ?_
    have hvalue : final.Below (b + 5) value := (hvalue hkey).mono (by omega)
    exact hid (by simp_all)

/-- The target of a rest element may be of any stage of the level. -/
theorem ranks_restElement {target : Parser NodeId} (htarget : RanksBelow final c (b + 16) target) :
    RanksBelow final c (b + 3) (restElement target) := by
  refine .quiet fun start => .quiet fun _ => htarget.bind fun argument => ?_
  refine AnswersIn.shaped.mono fun id hshape hargument => ?_
  have hlevel := h.level
  have hlimit : (b + 2) / 16 * 16 + 16 = b + 16 := by omega
  exact .of_rest (Nat.lt_succ_self _) (h.fits 2 rfl) hshape (hlimit ▸ hargument)

omit h in
theorem ranks_restOr {n : Nat} {rest item : Parser NodeId} (hrest : RanksBelow final c n rest)
    (hitem : RanksBelow final c n item) :
    RanksBelow final c n (do if ← isAt .ellipsis then rest else item) :=
  .quiet fun _ => .ite hrest hitem

theorem ranks_objectPattern {rest : Parser NodeId} (hrest : RanksBelow final c (b + 3) rest) :
    RanksBelow final c (b + 7) (objectPattern inner rest) := by
  have hproperty := ranks_restOr (hrest.le (by omega)) (ranks_bindingProperty h)
  have hascription := (ranks_ascription? h).le (c := c) (n := b + 6) (by omega)
  refine .quiet fun start => .quiet fun _ => ?_
  refine (RanksBelow.commaTerminated hproperty).bind fun properties => .quiet fun _ => ?_
  refine AnswersIn.listed.bind fun slot => hascription.bind fun type => ?_
  exact .ranked (h.fits 6 rfl) (by simp_all)

omit h in
theorem ranks_elements {n : Nat} {element : Parser NodeId} (helement : RanksBelow final c n element) :
    AllRankBelow final c n (elements element) fun nodes => nodes.filterMap id := by
  have hnodes : AnswersIn Node.shape final c (elements element) fun nodes =>
      ∀ id, some id ∈ nodes → final.Below n id :=
    .elements helement
  refine hnodes.mono fun nodes hnodes id hid => ?_
  obtain ⟨node, hnode, rfl⟩ := List.mem_filterMap.mp hid
  exact hnodes id hnode

theorem ranks_arrayPattern {rest : Parser NodeId} (hrest : RanksBelow final c (b + 3) rest) :
    RanksBelow final c (b + 4) (arrayPattern inner rest) := by
  have helement := ranks_restOr hrest (ranks_bindingElement h false)
  have hascription := (ranks_ascription? h).le (c := c) (n := b + 3) (by omega)
  refine .quiet fun start => .quiet fun _ => (ranks_elements helement).bind fun nodes => ?_
  refine .quiet fun _ => .quiet fun stop => hascription.bind fun type => ?_
  exact .ranked (h.fits 3 rfl) (by simp_all)

theorem ranks_bindingTargetWithin (bound : Nat) (allowOptional : Bool) :
    RanksBelow final c (b + 10) (bindingTargetWithin inner bound allowOptional) := by
  induction bound generalizing allowOptional with
  | zero => exact .fail (p := failUnexpected)
  | succ bound ih =>
      have hrest := ranks_restElement h ((ih false).le (by omega))
      refine .quiet fun t => ?_
      split
      · exact (ranks_objectPattern h hrest).le (by omega)
      · exact (ranks_arrayPattern h hrest).le (by omega)
      · exact ranks_bindingIdentifier h allowOptional

theorem ranks_bindingTarget (allowOptional : Bool) :
    RanksBelow final c (b + 10) (bindingTarget inner allowOptional) :=
  .quiet fun _ => ranks_bindingTargetWithin h _ allowOptional

theorem ranks_parameterList : AllRankBelow final c (b + 3) (parameterList inner) Slot.children := by
  have hrest := ranks_restElement h ((ranks_bindingTarget (c := c) h false).le (by omega))
  refine .quiet fun start => .quiet fun _ => ?_
  refine (AnswersIn.iterate (P := fun read => final.AllBelow (b + 3) read.1) ?_).bind ?_
  · rintro ⟨params, ended⟩
    refine .quiet fun _ => .ite (.pure (by simp)) (.quiet fun _ => .ite ?_ ?_)
    · exact hrest.bind fun param => .quiet fun _ => .when (.pure (by simp_all))
    · refine (ranks_bindingElement h true).bind fun param => .quiet fun _ => ?_
      exact .whenNot (.pure (by simp_all))
  · rintro ⟨params, ended⟩
    exact .quiet fun _ => .listFrom (by simp_all)

/-! ## Blocks and functions -/

theorem ranks_statementBlock : AllRankBelow final c b (statementBlock inner) Slot.children := by
  refine .quiet fun _ => .quiet fun start => (AllRankBelow.collect (n := b) ?_).bind ?_
  · refine .quiet fun _ => .ite (.pure (by simp)) (.quiet fun _ => .when ?_)
    exact h.statement.map (by simp)
  · exact fun ids => .quiet fun stop => .quiet fun _ => .pure (by simp)

theorem ranks_blockStatement : RanksBelow final c (b + 3) (blockStatement inner) := by
  have hblock := (ranks_statementBlock h).le (c := c) (n := b + 2) (by omega)
  exact .quiet fun start => hblock.bind fun body => .ranked (h.fits 2 rfl) (by simp_all)

theorem ranks_functionBody (isAsync isGenerator : Bool) :
    RanksBelow final c (b + 3) (functionBody inner isAsync isGenerator) :=
  (ranks_blockStatement h).withReader

theorem ranks_functionRest (isAsync isGenerator : Bool) :
    AllRankBelow final c (b + 4) (functionRest inner isAsync isGenerator) fun slots =>
      slots.flatMap Slot.children := by
  have hparams : ∀ c, AllRankBelow final c (b + 4) (parameterList inner) Slot.children :=
    fun _ => (ranks_parameterList h).le (by omega)
  have hascription := (ranks_ascription? h).le (c := c) (n := b + 4) (by omega)
  have hbody := (ranks_functionBody h isAsync isGenerator).le (c := c) (n := b + 4) (by omega)
  refine (ranks_typeParameters? h).bind fun typeParameters => ?_
  refine (hparams _).withReader.bind fun params => hascription.bind fun returnType => ?_
  exact hbody.bind fun body => .pure (by simp_all)

theorem ranks_declaredName (present allowAnonymous : Bool) :
    AllRankBelow final c (b + 4) (declaredName present allowAnonymous) Option.toList := by
  have hname := (ranks_name h).le (c := c) (n := b + 4) (by omega)
  exact .ite (hname.map (by simp)) (.ite (.pure (by simp)) .fail)

theorem ranks_function {kind : NodeKind} (hfits : kind.fitsAt (b + 4)) (start : Nat)
    (allowAnonymous : Bool) :
    RanksBelow final c (b + 5) (function inner kind start allowAnonymous) := by
  refine .quiet fun async => .quiet fun _ => .quiet fun generator => .quiet fun _ => ?_
  refine (ranks_declaredName h _ _).bind fun id => (ranks_functionRest h _ _).bind fun rest => ?_
  exact .rankedWith hfits (by simp_all)

theorem ranks_methodFunction (flags : NodeFlags) :
    RanksBelow final c (b + 5) (methodFunction inner flags) := by
  refine .quiet fun start => (ranks_functionRest h _ _).bind fun rest => ?_
  exact .rankedWith (h.fits 4 rfl) (by simp_all)

/-! ## Classes -/

theorem ranks_classPropertyRest (start : Nat) (details : Details) (key : NodeId) :
    AnswersIn Node.shape final c (classPropertyRest inner start details key) fun id =>
      final.Below (b + 2) key → final.Below (b + 3) id := by
  have hascription := (ranks_ascription? h).le (c := c) (n := b + 2) (by omega)
  refine hascription.bind fun type => .quiet fun _ => .when (.quiet fun _ => ?_)
  exact .rankedWith (h.fits 2 rfl) (by simp_all)

theorem ranks_signedProperty (start : Nat) (flags : NodeFlags) :
    RanksBelow final c (b + 3) (signedProperty inner start flags) := by
  refine .quiet fun sign => (ranks_propertyName h).bind ?_
  rintro ⟨key, computed⟩
  exact ranks_classPropertyRest h start _ key

theorem ranks_classMember : RanksBelow final c (b + 6) (classMember inner) := by
  refine .quiet fun start => .quiet fun _ => .either fun static => .when (.quiet fun _ => ?_)
  refine .ite ((ranks_signedProperty h start _).le (by omega)) ?_
  refine .quiet fun flags => .quiet fun flags => .quiet fun t => .when ?_
  refine .quiet fun _ => .quiet fun _ => (ranks_propertyName h).bind ?_
  rintro ⟨key, computed⟩
  refine .quiet fun _ => .ite ?_ (.ite .fail ?_)
  · refine (ranks_methodFunction h _).bind fun value => ?_
    refine .rankedWith (h.fits 5 rfl) fun id hid hvalue hkey => ?_
    have hkey : final.Below (b + 5) key := hkey.mono (by omega)
    exact hid (by simp_all)
  · exact (ranks_classPropertyRest h start _ key).mono fun id hid hkey => (hid hkey).mono (by omega)

theorem ranks_classBody : RanksBelow final c (b + 3) (classBody inner) := by
  have hmember := h.classMember.le (c := c) (n := b + 2) (by omega)
  refine .quiet fun start => .quiet fun _ => .quiet fun listStart => ?_
  refine (AnswersIn.collect (P := fun member => final.AllBelow (b + 2) member.toList) ?_).bind ?_
  · refine .quiet fun t => ?_
    split
    · exact .pure (by simp)
    · exact .quiet fun _ => .pure (by simp)
    · exact .fail
    · exact hmember.bind fun member => .pure (by simp)
  · intro members
    refine .quiet fun stop => .quiet fun _ => .ranked (h.fits 2 rfl) fun id hid hmembers => hid ?_
    intro child hchild
    obtain ⟨member, hmember, rfl⟩ : ∃ member ∈ members, member = some child := by
      simpa using hchild
    exact hmembers _ hmember child (by simp)

theorem ranks_implementsClause :
    AllRankBelow final c (b + 4) (implementsClause inner) Slot.children := by
  have hname := (ranks_name h).le (c := c) (n := b + 3) (by omega)
  refine .quiet fun _ => .ite (.pure (by simp)) (.quiet fun start => .quiet fun _ => ?_)
  refine (RanksBelow.commaSeparated (n := b + 4) ?_).bind fun ids => .listFrom (by simp_all)
  refine .quiet fun start => hname.bind fun id => ?_
  refine (ranks_typeArguments? h).bind fun typeArguments => ?_
  exact .ranked (h.fits 3 rfl) (by simp_all)

/-- What a class extends may be of any stage of the level. -/
theorem Nested.Ranked.class_of_shape {kind : NodeKind} {node : NodeId}
    {id typeParameters superClass superArguments implemented body : Slot}
    (hkind : kind = .classDeclaration ∨ kind = .classExpression)
    (hshape : final.shape? node = some (kind, Tree.fitSlots kind
      [id, typeParameters, superClass, superArguments, implemented, body]))
    (hsuper : final.AllBelow (b + 16) superClass.children)
    (hchildren : final.AllBelow (b + 4) ([id, typeParameters, superArguments, implemented,
      body].flatMap Slot.children)) : final.Below (b + 5) node := by
  have hlevel := h.level
  have hlimit : (b + 4) / 16 * 16 + 16 = b + 16 := by omega
  have hfits : kind.fitsAt (b + 4) := by
    rcases hkind with rfl | rfl
    · exact h.fits 4 rfl
    · exact h.fits 4 rfl
  refine .of_fields (Nat.lt_succ_self (b + 4)) hfits hshape fun spec slot hmem => ?_
  have hslot : spec = .maybe .superClass ∧ slot = superClass ∨
      slot ∈ [id, typeParameters, superArguments, implemented, body] := by
    rcases hkind with rfl | rfl <;> simp [NodeKind.schema] at hmem <;> grind
  rcases hslot with ⟨rfl, rfl⟩ | hslot
  · have hguard : kind.isUnguarded .superClass = true ∧ kind.isLeftSpine .superClass = false := by
      rcases hkind with rfl | rfl
      · exact ⟨rfl, rfl⟩
      · exact ⟨rfl, rfl⟩
    simpa [NodeKind.limit, FieldSpec.maybe, hguard, hlimit] using hsuper
  · have hbelow : final.AllBelow (b + 4) slot.children := fun child hchild =>
      hchildren child (List.mem_flatMap.mpr ⟨slot, hslot, hchild⟩)
    exact hbelow.mono (NodeKind.le_limit ..)

theorem ranks_classOf {heritage : Parser NodeId} (hheritage : RanksBelow final c (b + 16) heritage)
    {kind : NodeKind} (hkind : kind = .classDeclaration ∨ kind = .classExpression) (start : Nat)
    (allowAnonymous : Bool) :
    RanksBelow final c (b + 5) (classOf inner heritage kind start allowAnonymous) := by
  have harguments := (ranks_typeArguments? h).le (c := c) (n := b + 4) (by omega)
  have hbody := (ranks_classBody h).le (c := c) (n := b + 4) (by omega)
  refine .quiet fun _ => .quiet fun _ => .quiet fun _ => ?_
  refine (ranks_declaredName h _ _).bind fun id => ?_
  refine (ranks_typeParameters? h).bind fun typeParameters => .quiet fun _ => ?_
  extract_lets rest
  have hrest : ∀ extended, AnswersIn Node.shape final c (rest extended) fun node =>
      final.AllBelow (b + 16) extended.1.toList → final.AllBelow (b + 4) extended.2.toList →
      final.AllBelow (b + 4) typeParameters.toList → final.AllBelow (b + 4) id.toList →
        final.Below (b + 5) node := by
    rintro ⟨superClass, superArguments⟩
    refine (ranks_implementsClause h).bind fun implemented => hbody.bind fun body => ?_
    refine AnswersIn.shaped.mono fun node hshape hbody himplemented hsuper harguments htype hid => ?_
    exact h.class_of_shape hkind hshape (by simpa using hsuper) (by simp_all)
  refine .ite ?_ ((hrest (none, none)).mono (by simp_all))
  refine hheritage.bind fun superClass => harguments.bind fun superArguments => ?_
  exact (hrest (some superClass, superArguments)).mono (by simp_all)

end FlowErasure.Grammar
