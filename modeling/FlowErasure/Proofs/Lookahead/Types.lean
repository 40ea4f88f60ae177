import FlowErasure.Grammar.Classes
import FlowErasure.Proofs.Lookahead.Moves

/-!
# Types, patterns, functions and classes along a scan

Whatever these rules read closes the brackets it opens. `Nested.Follows` is what every rule may assume
of the rules one level of nesting deeper.
-/

namespace FlowErasure.Grammar

variable {α : Type} {follow : ParenFollow} {b : Bracket} {st : List Bracket} {K : Scan → Prop}
  {l : Lexer}

open Scan

/-- The parser leaves the brackets as they are, wherever it starts. -/
def Passes (follow : ParenFollow) (p : Parser α) : Prop :=
  ∀ {b st l}, At follow (b :: st) Any l → Moves p l fun _ l' => At follow (b :: st) Any l'

def ReadsOperand (follow : ParenFollow) (p : Parser α) : Prop :=
  ∀ {b st l}, Opens follow (b :: st) l → Moves p l fun _ l' => At follow (b :: st) Ended l'

structure Nested.Follows (follow : ParenFollow) (inner : Nested) : Prop where
  statement : ∀ {b st l}, b.token = .openBrace → At follow (b :: st) Fresh l →
    Moves inner.statement l fun _ l' => At follow (b :: st) Fresh l'
  assignment : ReadsOperand follow inner.assignment
  binary : ∀ precedence, ReadsOperand follow (inner.binary precedence)
  unary : ReadsOperand follow inner.unary
  construction : ∀ {b st l}, At follow (b :: st) Any l → l.token = .newKeyword →
    Moves inner.construction l fun _ l' => At follow (b :: st) Ended l'
  bindingTarget : ∀ allowOptional, Passes follow (inner.bindingTarget allowOptional)
  classMember : Passes follow inner.classMember
  type : Passes follow inner.type
  prefixType : Passes follow inner.prefixType
  primaryType : Passes follow inner.primaryType
  typeMember : ∀ allowStatic, Passes follow (inner.typeMember allowStatic)

variable {inner : Nested} (hin : inner.Follows follow)

include hin

/-! ## Types -/

theorem passes_ascription? : Passes follow (ascription? inner) := by
  intro b st l h
  refine .tell (.ite (fun _ => .pure h) fun hl => .still fun start => ?_)
  refine (h.consume (t := .colon) (by simpa using hl) (by decide)).bind fun _ l h => ?_
  exact (hin.type h.any).bind fun type l h => .stay fun _ => h

omit hin in
theorem passes_variance : Passes follow variance := by
  intro b st l h
  refine .tell (.ite (fun hl => ?_) fun _ => .pure h)
  have hl : l.token = .plus ∨ l.token = .minus := by simpa using hl
  obtain hl | hl := hl
  · exact (h.consume hl (by decide)).bind fun _ _ h => .pure h.any
  · exact (h.consume hl (by decide)).bind fun _ _ h => .pure h.any

theorem passes_typeParameter : Passes follow (typeParameter inner) := by
  intro b st l h
  refine .still fun start => (passes_variance h).bind fun sign l h => ?_
  refine .isIdentifier fun named hnamed => .check fun hname => .still fun name => ?_
  have hword : l.token.isWord := isWord_of_isName (hnamed (by simpa using hname))
  refine (h.word hword).bind fun _ l h => (passes_ascription? hin h.any).bind fun bound l h => ?_
  refine (h.acceptAny (by decide)).bind fun _ l h => ?_
  refine .join (fun _ => (hin.type h).map) (fun _ => .pure h) fun default l h => .stay fun _ => h

omit hin in
theorem passes_angleList? {kind : NodeKind} {item : Parser NodeId} (hitem : Passes follow item) :
    Passes follow (angleList? kind item) := by
  intro b st l h
  refine .tell (.ite (fun _ => .pure h) fun hl => .still fun start => ?_)
  refine (h.consume (t := .lessThan) (by simpa using hl) (by decide)).bind fun _ l h => ?_
  have hclose : isSlash .greaterThan = false := rfl
  have hitems := (h.fresh (by decide)).commaTerminated hclose fun l h => hitem h.any
  refine hitems.bind fun items l h => ?_
  exact (h.expect (by decide)).bind fun _ l h => .stay fun _ => h.any

theorem passes_typeParameters? : Passes follow (typeParameters? inner) :=
  passes_angleList? (passes_typeParameter hin)

theorem passes_typeArguments? : Passes follow (typeArguments? inner) :=
  passes_angleList? hin.type

theorem passes_functionTypeParam (start : Nat) : Passes follow (functionTypeParam inner start) := by
  intro b st l h
  refine .tell (.join (E := At follow (b :: st) Any) (fun _ => .stay fun _ => h) (fun _ => .pure h)
    fun named l h => ?_)
  refine .ite (fun _ => ?_) fun _ => (hin.type h).bind fun type l h => .stay fun _ => h
  refine h.anyName.bind fun name l h => (h.acceptAny (by decide)).bind fun optional l h => ?_
  refine (h.expect (by decide)).bind fun _ l h => (hin.type h.any).bind fun type l h => ?_
  exact .stay fun _ => h

/-- The parameters of a function type close the parenthesis that is open. -/
theorem moves_functionTypeParams {b' : Bracket} (hb : b'.token = .openParen)
    (h : At follow (b' :: b :: st) Any l) (listStart : Nat) (params : List NodeId) :
    Moves (functionTypeParams inner listStart params) l fun _ l' => At follow (b :: st) Any l' := by
  refine (Moves.iterate (I := fun _ => At follow (b' :: b :: st) Any)
    (E := fun _ => At follow (b' :: b :: st) Any) h ?_).bind ?_
  · rintro ⟨params, rest⟩ l h
    refine .tell (.ite (fun _ => .pure h) fun _ => .still fun start => ?_)
    refine (h.acceptAny (by decide)).bind fun ended l h => .ite (fun _ => ?_) fun _ => ?_
    · refine (passes_functionTypeParam hin start h).bind fun rest l h => ?_
      exact (h.acceptAny (by decide)).bind fun _ l h => .pure h
    · refine (passes_functionTypeParam hin start h).bind fun param l h => ?_
      refine .tell (.ite (fun _ => .pure h) fun _ => ?_)
      exact (h.expect (by decide)).bind fun _ l h => .pure h.any
  · rintro ⟨params, rest⟩ l h
    exact (h.close (by rw [hb]; rfl)).bind fun _ l h => .still fun slot => .pure h.any

theorem passes_finishFunctionType {separator : Token} (hseparator : isOrdinary separator)
    (start : Nat) (typeParameters : Option NodeId) (params : Slot × Option NodeId) :
    Passes follow (finishFunctionType inner start typeParameters params separator) := by
  intro b st l h
  refine (h.expect hseparator).bind fun _ l h => (hin.type h.any).bind fun returnType l h => ?_
  exact .stay fun _ => h

theorem passes_functionType {separator : Token} (hseparator : isOrdinary separator) (start : Nat) :
    Passes follow (functionType inner start separator) := by
  intro b st l h
  refine (passes_typeParameters? hin h).bind fun typeParameters l h => .still fun listStart => ?_
  refine (h.expectOpen rfl).bind fun _ l ⟨_, h⟩ => ?_
  refine (moves_functionTypeParams hin rfl h.any listStart []).bind fun params l h => ?_
  exact passes_finishFunctionType hin hseparator start typeParameters params h

theorem passes_methodType : Passes follow (methodType inner) :=
  fun h => .still fun start => passes_functionType hin (by decide) start h

theorem passes_parenthesizedType : Passes follow (parenthesizedType inner) := by
  intro b st l h
  refine .still fun start => .still fun isFunctionType => .ite (fun _ => ?_) fun _ => ?_
  · exact passes_functionType hin (by decide) start h
  refine (h.expectOpen rfl).bind fun _ l ⟨ofHead, h⟩ => .still fun innerStart => ?_
  refine (hin.type h.any).bind fun type l h => ?_
  refine .tell (.tell ?_)
  -- However it is found out whether the type is a parameter, what comes next is the same.
  extract_lets rest
  have hrest : ∀ isFunction, Moves (rest isFunction) l fun _ l' => At follow (b :: st) Any l' := by
    refine fun isFunction => .ite (fun _ => ?_) fun _ => ?_
    · refine .still fun first => (h.acceptAny (by decide)).bind fun _ l h => ?_
      refine (moves_functionTypeParams hin rfl h start [first]).bind fun params l h => ?_
      exact passes_finishFunctionType hin (by decide) start none params h
    · exact (h.close rfl).bind fun _ l h => .pure h.any
  exact .ite (fun _ => .still hrest) fun _ => .ite (fun _ => .still hrest) fun _ => .still hrest

/-! ### Object types -/

theorem passes_typeIndexer (start : Nat) (details : Details) :
    Passes follow (typeIndexer inner start details) := by
  intro b st l h
  refine (h.expectOpen rfl).bind fun _ l ⟨ofHead, h⟩ => .tell ?_
  extract_lets rest withNamed
  have hrest : ∀ id l, At follow (⟨.openBracket, ofHead⟩ :: b :: st) Any l →
      Moves (rest id) l fun _ l' => At follow (b :: st) Any l' := by
    intro id l h
    refine (hin.type h).bind fun key l h => (h.close rfl).bind fun _ l h => ?_
    refine (h.expect (by decide)).bind fun _ l h => (hin.type h.any).bind fun value l h => ?_
    exact .stay fun _ => h
  have hnamed : ∀ named, Moves (withNamed named) l fun _ l' => At follow (b :: st) Any l' := by
    refine fun named => .ite (fun _ => ?_) fun _ => .still fun id => ?_
    · refine h.anyName.bind fun id l h => (h.expect (by decide)).bind fun _ l h => ?_
      exact .still fun id => hrest id l h.any
    · exact hrest id l h.any
  exact .ite (fun _ => .still hnamed) fun _ => .still hnamed

theorem passes_typeProperty (start : Nat) (details : Details) :
    Passes follow (typeProperty inner start details) := by
  intro b st l h
  refine .tell (.join (E := At follow (b :: st) Any) (fun hl => ?_) (fun _ => h.anyName) ?_)
  · have hl : l.token = .string ∨ l.token = .number := by simpa using hl
    obtain hl | hl := hl
    · exact (h.literal hl (by decide)).mono fun _ _ h => h.any
    · exact (h.literal hl (by decide)).mono fun _ _ h => h.any
  intro key l h
  refine (h.acceptAny (by decide)).bind fun optional l h => ?_
  refine .tell (.ite (fun _ => ?_) fun _ => ?_)
  · exact (passes_methodType hin h).bind fun value l h => .stay fun _ => h
  · refine (h.expect (by decide)).bind fun _ l h => (hin.type h.any).bind fun value l h => ?_
    exact .stay fun _ => h

theorem passes_typeMember (allowStatic : Bool) : Passes follow (typeMember inner allowStatic) := by
  intro b st l h
  refine .still fun start => .tell ?_
  refine h.modifier (t := .staticKeyword) (fun hl => ?_) (by decide) fun static l h => ?_
  · exact (by simpa using hl : _ ∧ l.token = .staticKeyword).2
  refine (passes_variance h).bind fun sign l h => .tell ?_
  split
  · exact passes_typeIndexer hin start _ h
  · exact (passes_methodType hin h).bind fun value l h => .stay fun _ => h
  · exact (passes_methodType hin h).bind fun value l h => .stay fun _ => h
  · exact passes_typeProperty hin start _ h

theorem moves_objectType (h : At follow (b :: st) Any l) (allowStatic : Bool) :
    Moves (objectType inner allowStatic) l fun _ l' => At follow (b :: st) Clear l' := by
  refine .still fun start => (h.expectOpen rfl).bind fun _ l ⟨ofHead, h⟩ => ?_
  refine (h.acceptAny (by decide)).bind fun exact l h => ?_
  refine (Moves.collect (I := At follow (⟨.openBrace, ofHead⟩ :: b :: st) Any)
    (E := At follow (⟨.openBrace, ofHead⟩ :: b :: st) Any) h fun l h => ?_).bind
      fun members l h => ?_
  · refine .tell (.ite (fun _ => .pure h) fun _ => .tell (.check fun _ => ?_))
    refine (hin.typeMember allowStatic h).bind fun member l h => ?_
    refine (h.acceptAny (by decide)).bind fun comma l h => .ite (fun _ => .pure h) fun _ => ?_
    exact (h.acceptAny (by decide)).bind fun _ l h => .pure h
  · refine .optional (E := At follow (⟨.openBrace, ofHead⟩ :: b :: st) Any) (fun _ => ?_)
      (fun _ => h) fun l h => ?_
    · exact (h.expect (by decide)).mono fun _ _ h => h.any
    · exact (h.close rfl).bind fun _ l h => .stay fun _ => h.clear_of_after rfl

/-! ### Names and lists of types -/

omit hin in
theorem moves_tokenType {t : Token} (h : At follow (b :: st) Any l) (hl : l.token = t)
    (ht : isOrdinary t) (kind : NodeKind) :
    Moves (tokenType kind) l fun _ l' => At follow (b :: st) Any l' :=
  .still fun _ => .tell ((h.consume hl ht).bind fun _ _ h => .stay fun _ => h.any)

omit hin in
theorem passes_qualifiedTypeName : Passes follow qualifiedTypeName := by
  intro b st l h
  refine .still fun start => h.identifier.bind fun first l h => ?_
  refine .iterate (I := fun _ => At follow (b :: st) Any) h.any fun name l h => ?_
  refine (h.acceptAny (by decide)).bind fun dot l h => .ite (fun _ => ?_) fun _ => .pure h
  exact h.anyName.bind fun id l h => .still fun name => .pure h

theorem passes_genericType : Passes follow (genericType inner) := by
  intro b st l h
  refine .still fun start => (passes_qualifiedTypeName h).bind fun id l h => ?_
  exact (passes_typeArguments? hin h).bind fun typeArguments l h => .stay fun _ => h

theorem passes_tupleType : Passes follow (tupleType inner) := by
  intro b st l h
  refine .still fun start => (h.expectOpen rfl).bind fun _ l ⟨ofHead, h⟩ => ?_
  refine ((h.fresh rfl).commaTerminated rfl fun l h => hin.type h.any).bind fun types l h => ?_
  exact (h.close rfl).bind fun _ l h => .stay fun _ => h.any

theorem moves_namedType (h : At follow (b :: st) Any l) (hl : l.token.isName) :
    Moves (namedType inner) l fun _ l' => At follow (b :: st) Any l' := by
  have hordinary := isOrdinary_of_isWord (isWord_of_isName hl)
  refine .still fun dotted => .ite (fun _ => passes_genericType hin h) fun _ => .still fun name => ?_
  split
  · exact moves_tokenType h rfl hordinary _
  · exact passes_genericType hin h

omit hin in
theorem moves_negativeNumberType (h : At follow (b :: st) Any l) (hl : l.token = .minus)
    (hnext : l.next.token = .number) :
    Moves negativeNumberType l fun _ l' => At follow (b :: st) Any l' := by
  have hminus : At follow (b :: st) Any l.next := by
    refine (h.ordinary ?_).any
    rw [hl]
    decide
  refine .still fun start => .bind (Q := fun _ l' => l' = l.next) (.advance rfl) ?_
  rintro _ _ rfl
  refine (moves_tokenType hminus hnext (by decide) _).bind fun number l h => ?_
  exact .stay fun _ => h

theorem passes_primaryType : Passes follow (primaryType inner) := by
  intro b st l h
  refine .still fun start => .tell ?_
  split
  · exact passes_parenthesizedType hin h
  · exact passes_functionType hin (by decide) start h
  · exact (moves_objectType hin h false).mono fun _ _ h => h.any
  · exact passes_tupleType hin h
  · rename_i hl
    refine (h.consume hl (by decide)).bind fun _ l h => ?_
    exact (hin.primaryType h.any).bind fun argument l h => .stay fun _ => h
  · exact moves_tokenType h ‹_› (by decide) _
  · exact moves_tokenType h ‹_› (by decide) _
  · exact moves_tokenType h ‹_› (by decide) _
  · rename_i hl
    refine .tell (.ite (fun hnext => ?_) fun _ => .fail)
    exact moves_negativeNumberType h hl (by simpa using hnext)
  · exact moves_tokenType h ‹_› (by decide) _
  · exact moves_tokenType h ‹_› (by decide) _
  · exact moves_tokenType h ‹_› (by decide) _
  · exact moves_tokenType h ‹_› (by decide) _
  · exact .ite (fun hname => moves_namedType hin h hname) fun _ => .fail

theorem passes_postfixType : Passes follow (postfixType inner) := by
  intro b st l h
  refine .still fun start => (passes_primaryType hin h).bind fun type l h => ?_
  refine .iterate (I := fun _ => At follow (b :: st) Any) h fun type l h => .tell (.tell ?_)
  refine .ite (fun _ => .pure h) fun hl => .tell (.ite (fun hnext => ?_) fun _ => .pure h)
  have hl : l.token = .openBracket := by
    simp only [Bool.or_eq_true, Bool.not_eq_true', not_or] at hl
    simpa using hl.1
  obtain ⟨scan, -, h⟩ := h.opens (by rw [hl]; rfl)
  rw [hl] at h
  refine .bind (Q := fun _ l' => l' = l.next) (.advance rfl) ?_
  rintro _ _ rfl
  refine (h.overClose (by simpa using hnext) rfl).bind fun _ l h => .still fun array => ?_
  exact .pure h.any

theorem passes_prefixType : Passes follow (prefixType inner) := by
  intro b st l h
  refine .tell (.ite (fun hl => .still fun start => ?_) fun _ => passes_postfixType hin h)
  refine (h.consume (t := .question) (by simpa using hl) (by decide)).bind fun _ l h => ?_
  exact (hin.prefixType h.any).bind fun type l h => .stay fun _ => h

omit hin in
instance tells_isSeparator (separator : Token) :
    Tells (isSeparator separator) fun l => l.token == separator && l.next.token != .closeBrace where
  ok c s := by
    unfold isSeparator
    rw [bind_ok (Tells.ok c s)]
    cases s.lexer.token == separator <;> rfl

omit hin in
theorem passes_typeList {separator : Token} {kind : NodeKind} {member : Parser NodeId}
    (hseparator : isOrdinary separator) (hmember : Passes follow member) :
    Passes follow (typeList separator kind member) := by
  intro b st l h
  refine .still fun start => (h.acceptAny hseparator).bind fun _ l h => ?_
  refine (hmember h).bind fun first l h => ?_
  refine (Moves.collect (I := At follow (b :: st) Any) (E := At follow (b :: st) Any) h
    fun l h => ?_).bind fun more l h => .ite (fun _ => .pure h) fun _ => .stay fun _ => h
  refine .tell (.ite (fun hl => ?_) fun _ => .pure h)
  obtain ⟨hl, -⟩ : l.token = separator ∧ l.next.token ≠ .closeBrace := by simpa using hl
  exact (h.consume hl hseparator).bind fun _ l h => (hmember h.any).mapTo fun _ _ h => h

theorem passes_intersectionType : Passes follow (intersectionType inner) :=
  passes_typeList (by decide) (passes_prefixType hin)

theorem passes_unionType : Passes follow (unionType inner) :=
  passes_typeList (by decide) (passes_intersectionType hin)

/-! ## Patterns -/

theorem passes_propertyName : Passes follow (propertyName inner) := by
  intro b st l h
  refine .tell ?_
  split
  · refine (h.overOpen (t := .openBracket) ‹_› rfl).bind fun _ l ⟨ofHead, h⟩ => ?_
    refine (hin.assignment (.inl (h.fresh rfl))).withReader.bind fun key l h => ?_
    exact (h.close rfl).bind fun _ l h => .pure h.any
  · exact (h.literal ‹_› (by decide)).bind fun key l h => .pure h.any
  · exact (h.literal ‹_› (by decide)).bind fun key l h => .pure h.any
  · exact h.anyName.bind fun key l h => .pure h

theorem passes_bindingIdentifier (allowOptional : Bool) :
    Passes follow (bindingIdentifier inner allowOptional) := by
  intro b st l h
  refine .still fun start => .isIdentifier fun named hnamed => .check fun hname => ?_
  have hword : l.token.isWord := isWord_of_isName (hnamed (by simpa using hname))
  refine .still fun name => (h.word hword).bind fun _ l h => .tell ?_
  extract_lets rest
  have hrest : ∀ mark l, At follow (b :: st) Any l →
      Moves (rest mark) l fun _ l' => At follow (b :: st) Any l' :=
    fun mark l h => (passes_ascription? hin h).bind fun type l h => .stay fun _ => h
  refine .ite (fun hl => .still fun markStart => ?_) fun _ => .still fun mark => hrest _ l h.any
  obtain ⟨-, hl⟩ : allowOptional = true ∧ l.token = .question := by simpa using hl
  exact (h.consume hl (by decide)).bind fun _ l h => .still fun mark => hrest _ l h.any

theorem passes_bindingElement (allowOptional : Bool) :
    Passes follow (bindingElement inner allowOptional) := by
  intro b st l h
  refine .still fun start => (hin.bindingTarget allowOptional h).bind fun target l h => ?_
  refine h.accept (by decide) (fun l h => ?_) fun _ => .pure h
  refine (hin.assignment (.inl (h.fresh rfl))).withReader.bind fun value l h => ?_
  exact .stay fun _ => h.any

theorem moves_shorthandDefault (h : At follow (b :: st) K l) (start : Nat) (name : NodeId) :
    Moves (shorthandDefault inner start name) l fun _ l' => At follow (b :: st) Any l' := by
  refine h.accept (by decide) (fun l h => ?_) fun _ => .pure h.any
  exact (hin.assignment (.inl (h.fresh rfl))).bind fun value l h => .stay fun _ => h.any

theorem passes_bindingProperty : Passes follow (bindingProperty inner) := by
  intro b st l h
  refine .still fun start => .still fun canBeShorthand => (passes_propertyName hin h).bind ?_
  rintro ⟨key, computed⟩ l h
  refine (h.acceptAny (by decide)).bind fun colon l h => .ite (fun _ => ?_) fun _ => ?_
  · exact (passes_bindingElement hin false h).bind fun value l h => .stay fun _ => h
  · refine .ite (fun _ => ?_) fun _ => .fail
    exact (moves_shorthandDefault hin h start key).bind fun value l h => .stay fun _ => h

omit hin in
theorem passes_restElement {target : Parser NodeId} (htarget : Passes follow target) :
    Passes follow (restElement target) := by
  intro b st l h
  refine .still fun start => (h.expect (by decide)).bind fun _ l h => ?_
  exact (htarget h.any).bind fun argument l h => .stay fun _ => h

omit hin in
theorem passes_restOr {rest item : Parser NodeId} (hrest : Passes follow rest)
    (hitem : Passes follow item) :
    Passes follow (do if ← isAt .ellipsis then rest else item) :=
  fun h => .tell (.ite (fun _ => hrest h) fun _ => hitem h)

theorem passes_objectPattern {rest : Parser NodeId} (hrest : Passes follow rest) :
    Passes follow (objectPattern inner rest) := by
  intro b st l h
  refine .still fun start => (h.expectOpen rfl).bind fun _ l ⟨ofHead, h⟩ => ?_
  refine ((h.fresh rfl).commaTerminated rfl fun l h =>
    passes_restOr hrest (passes_bindingProperty hin) h.any).bind fun properties l h => ?_
  refine (h.close rfl).bind fun _ l h => .still fun slot => ?_
  exact (passes_ascription? hin h.any).bind fun type l h => .stay fun _ => h

omit hin in
theorem moves_elements {element : Parser NodeId} (h : At follow (b :: st) Fresh l)
    (helement : ∀ l, At follow (b :: st) Fresh l →
      Moves element l fun _ l' => At follow (b :: st) Any l') :
    Moves (elements element) l fun _ l' => At follow (b :: st) Any l' := by
  refine .collect (I := At follow (b :: st) Fresh) h fun l h => ?_
  refine .tell (.ite (fun _ => .pure h.any) fun _ => ?_)
  refine h.accept (by decide) (fun l h => .pure (h.fresh (by decide))) fun _ => ?_
  refine (helement l h).bind fun node l h => .tell (.ite (fun hl => .pure ?_) fun _ => ?_)
  · have hl : l.token = .closeBracket := by simpa using hl
    exact (h.clear (by rw [hl]; rfl)).fresh_of_clear
  · exact (h.expect (by decide)).bind fun _ l h => .pure (h.fresh (by decide))

theorem passes_arrayPattern {rest : Parser NodeId} (hrest : Passes follow rest) :
    Passes follow (arrayPattern inner rest) := by
  intro b st l h
  refine .still fun start => (h.expectOpen rfl).bind fun _ l ⟨ofHead, h⟩ => ?_
  refine (moves_elements (h.fresh rfl) fun l h =>
    passes_restOr hrest (passes_bindingElement hin false) h.any).bind fun nodes l h => ?_
  refine (h.close rfl).bind fun _ l h => .still fun stop => ?_
  exact (passes_ascription? hin h.any).bind fun type l h => .stay fun _ => h

theorem passes_bindingTargetWithin (bound : Nat) (allowOptional : Bool) :
    Passes follow (bindingTargetWithin inner bound allowOptional) := by
  induction bound generalizing allowOptional with
  | zero => exact fun _ => .fail (p := failUnexpected)
  | succ bound ih =>
      intro b st l h
      refine .tell ?_
      split
      · exact passes_objectPattern hin (passes_restElement (ih false)) h
      · exact passes_arrayPattern hin (passes_restElement (ih false)) h
      · exact passes_bindingIdentifier hin allowOptional h

theorem passes_bindingTarget (allowOptional : Bool) :
    Passes follow (bindingTarget inner allowOptional) :=
  fun h => .still fun _ => passes_bindingTargetWithin hin _ allowOptional h

/-- The parameters and the parenthesis that closes the list, from the one that opens it. -/
theorem moves_parameterList {b' : Bracket} (hb : b'.token = .openParen)
    (h : l.token = .openParen → At follow (b' :: st) Any l.next) :
    Moves (parameterList inner) l fun _ l' => At follow st (After .closeParen) l' := by
  refine .still fun start => .bind (Q := fun _ => At follow (b' :: st) Any) (.expect h) fun _ l h => ?_
  refine (Moves.iterate (I := fun _ => At follow (b' :: st) Any)
    (E := fun _ => At follow (b' :: st) Any) h ?_).bind ?_
  · rintro ⟨params, ended⟩ l h
    refine .tell (.ite (fun _ => .pure h) fun _ => .tell (.ite (fun _ => ?_) fun _ => ?_))
    · refine (passes_restElement (passes_bindingTarget hin false) h).bind fun param l h => ?_
      exact .tell (.check fun _ => .pure h)
    · refine (passes_bindingElement hin true h).bind fun param l h => ?_
      refine .tell (.ite (fun _ => .pure h) fun _ => ?_)
      exact (h.expect (by decide)).bind fun _ l h => .pure h.any
  · rintro ⟨params, ended⟩ l h
    exact (h.close (by rw [hb]; rfl)).bind fun _ l h => .stay fun _ => h

theorem passes_parameterList : Passes follow (parameterList inner) := by
  intro b st l h
  by_cases hl : l.token = .openParen
  · obtain ⟨scan, -, hopened⟩ := h.opens (by rw [hl]; rfl)
    exact (moves_parameterList hin hl fun _ => hopened.any).mono fun _ _ h => h.any
  · have hopened : l.token = .openParen → At follow (⟨.openParen, false⟩ :: b :: st) Any l.next :=
      fun hopen => absurd hopen hl
    exact (moves_parameterList hin rfl hopened).mono fun _ _ h => h.any

/-! ## Functions -/

theorem moves_statementBlock (h : At follow (b :: st) K l) :
    Moves (statementBlock inner) l fun _ l' => At follow (b :: st) Clear l' := by
  refine (h.expectOpen rfl).bind fun _ l ⟨ofHead, h⟩ => .still fun start => ?_
  refine (Moves.collect (I := At follow (⟨.openBrace, ofHead⟩ :: b :: st) Fresh)
    (E := fun l => At follow (⟨.openBrace, ofHead⟩ :: b :: st) Fresh l ∧ l.token = .closeBrace)
    (h.fresh rfl) fun l h => ?_).bind fun statements l ⟨h, hl⟩ => ?_
  · refine .tell (.ite (fun hl => .pure ⟨h, by simpa using hl⟩) fun _ => .tell (.check fun _ => ?_))
    exact (hin.statement rfl h).mapTo fun _ _ h => h
  · exact .still fun stop => (h.overBrace hl rfl).bind fun _ l h => .pure h

theorem moves_blockStatement (h : At follow (b :: st) K l) :
    Moves (blockStatement inner) l fun _ l' => At follow (b :: st) Clear l' :=
  .still fun _ => (moves_statementBlock hin h).bind fun _ _ h => .stay fun _ => h

theorem moves_functionBody (h : At follow (b :: st) K l) (isAsync isGenerator : Bool) :
    Moves (functionBody inner isAsync isGenerator) l fun _ l' => At follow (b :: st) Clear l' :=
  (moves_blockStatement hin h).withReader

theorem moves_functionRest (h : At follow (b :: st) K l) (isAsync isGenerator : Bool) :
    Moves (functionRest inner isAsync isGenerator) l fun _ l' => At follow (b :: st) Clear l' := by
  refine (passes_typeParameters? hin h.any).bind fun typeParameters l h => ?_
  refine (passes_parameterList hin h).withReader.bind fun params l h => ?_
  refine (passes_ascription? hin h).bind fun returnType l h => ?_
  exact (moves_functionBody hin h isAsync isGenerator).bind fun body l h => .pure h

omit hin in
theorem passes_declaredName (present allowAnonymous : Bool) :
    Passes follow (declaredName present allowAnonymous) := by
  intro b st l h
  refine .ite (fun _ => ?_) fun _ => .ite (fun _ => .pure h) fun _ => .fail
  exact h.identifier.mapTo fun _ _ h => h.any

theorem moves_function (h : At follow (b :: st) K l) (kind : NodeKind) (start : Nat)
    (allowAnonymous : Bool) :
    Moves (function inner kind start allowAnonymous) l fun _ l' =>
      At follow (b :: st) Clear l' := by
  refine (h.acceptAny (by decide)).bind fun async l h => ?_
  refine (h.expect (by decide)).bind fun _ l h => ?_
  refine (h.acceptAny (by decide)).bind fun generator l h => .still fun present => ?_
  refine (passes_declaredName present allowAnonymous h).bind fun id l h => ?_
  exact (moves_functionRest hin h async generator).bind fun rest l h => .stay fun _ => h

theorem moves_methodFunction (h : At follow (b :: st) K l) (flags : NodeFlags) :
    Moves (methodFunction inner flags) l fun _ l' => At follow (b :: st) Clear l' :=
  .still fun _ => (moves_functionRest hin h _ _).bind fun _ _ h => .stay fun _ => h

/-! ## Classes -/

omit hin in
theorem passes_accessorFlags (flags : NodeFlags) : Passes follow (accessorFlags flags) := by
  intro b st l h
  refine .tell (.ite (fun hl => .still fun isAccessor => ?_) fun _ => .pure h)
  refine .ite (fun _ => ?_) fun _ => .pure h
  have hword : l.token = .getKeyword ∨ l.token = .setKeyword := by
    simp only [Bool.and_eq_true, Bool.or_eq_true, beq_iff_eq] at hl
    exact hl.1.1
  obtain hl | hl := hword
  · exact (h.consume hl (by decide)).bind fun _ _ h => .pure h.any
  · exact (h.consume hl (by decide)).bind fun _ _ h => .pure h.any

omit hin in
theorem passes_functionFlags (flags : NodeFlags) : Passes follow (functionFlags flags) := by
  intro b st l h
  refine .tell ?_
  refine h.modifier (t := .asyncKeyword) (fun hl => by simpa using hl) (by decide) ?_
  exact fun async l h => (h.acceptAny (by decide)).bind fun generator l h => .pure h

theorem passes_classPropertyRest (start : Nat) (details : Details) (key : NodeId) :
    Passes follow (classPropertyRest inner start details key) := by
  intro b st l h
  refine (passes_ascription? hin h).bind fun type l h => .tell (.check fun _ => ?_)
  exact h.endMember.bind fun _ l h => .stay fun _ => h

theorem passes_signedProperty (start : Nat) (flags : NodeFlags) :
    Passes follow (signedProperty inner start flags) := by
  intro b st l h
  refine (passes_variance h).bind fun sign l h => (passes_propertyName hin h).bind ?_
  rintro ⟨key, computed⟩ l h
  exact passes_classPropertyRest hin start _ key h

theorem passes_classMember : Passes follow (classMember inner) := by
  intro b st l h
  refine .still fun start => .tell ?_
  refine h.modifier (t := .staticKeyword) (fun hl => by simpa using hl) (by decide) ?_
  refine fun static l h => .tell (.ite (fun _ => passes_signedProperty hin start _ h) fun _ => ?_)
  refine (passes_functionFlags _ h).bind fun flags l h => ?_
  refine (passes_accessorFlags _ h).bind fun flags l h => .tell (.check fun _ => ?_)
  refine .tell (.still fun value => (passes_propertyName hin h).bind ?_)
  rintro ⟨key, computed⟩ l h
  refine .tell (.ite (fun _ => ?_) fun _ => .ite (fun _ => .fail) fun _ => ?_)
  · exact (moves_methodFunction hin h _).bind fun value l h => .stay fun _ => h.any
  · exact passes_classPropertyRest hin start _ key h

theorem moves_classBody (h : At follow (b :: st) K l) :
    Moves (classBody inner) l fun _ l' => At follow (b :: st) Clear l' := by
  refine .still fun start => (h.expectOpen rfl).bind fun _ l ⟨ofHead, h⟩ => .still fun listStart => ?_
  refine (Moves.collect (I := At follow (⟨.openBrace, ofHead⟩ :: b :: st) Any)
    (E := fun l => At follow (⟨.openBrace, ofHead⟩ :: b :: st) Any l ∧ l.token = .closeBrace)
    h.any fun l h => ?_).bind fun members l ⟨h, hl⟩ => ?_
  · refine .tell ?_
    split
    · exact .pure ⟨h, ‹_›⟩
    · exact (h.consume ‹_› (by decide)).bind fun _ l h => .pure h.any
    · exact .fail
    · exact (hin.classMember h).bind fun member l h => .pure h
  · exact .still fun stop => (h.overBrace hl rfl).bind fun _ l h => .stay fun _ => h

theorem passes_implementsClause : Passes follow (implementsClause inner) := by
  intro b st l h
  refine .tell (.ite (fun _ => .pure h) fun hl => .still fun listStart => ?_)
  refine (h.consume (t := .implementsKeyword) (by simpa using hl) (by decide)).bind fun _ l h => ?_
  refine (h.any.commaSeparated fun l h => ?_).bind fun interfaces l h => .stay fun _ => h
  refine .still fun start => h.identifier.bind fun id l h => ?_
  exact (passes_typeArguments? hin h.any).bind fun typeArguments l h => .stay fun _ => h

theorem moves_classOf {heritage : Parser NodeId} (hheritage : ReadsOperand follow heritage)
    (h : At follow (b :: st) K l) (kind : NodeKind) (start : Nat) (allowAnonymous : Bool) :
    Moves (classOf inner heritage kind start allowAnonymous) l fun _ l' =>
      At follow (b :: st) Clear l' := by
  refine (h.expect (by decide)).bind fun _ l h => .still fun named => .tell ?_
  refine (passes_declaredName _ allowAnonymous h.any).bind fun id l h => ?_
  refine (passes_typeParameters? hin h).bind fun typeParameters l h => ?_
  have hbases : ∀ l, At follow (b :: st) Any l → ∀ superClass superArguments,
      Moves (do
        let implemented ← implementsClause inner
        let body ← classBody inner
        finish kind start
          [.ofOption id, .ofOption typeParameters, .ofOption superClass, .ofOption superArguments,
           implemented, .node body]) l fun _ l' => At follow (b :: st) Clear l' := by
    intro l h superClass superArguments
    refine (passes_implementsClause hin h).bind fun implemented l h => ?_
    exact (moves_classBody hin h).bind fun body l h => .stay fun _ => h
  refine h.accept (by decide) (fun l h => ?_) fun _ => .tell (hbases l h _ _)
  refine (hheritage (.inl (h.fresh (by decide)))).bind fun superClass l h => ?_
  exact (passes_typeArguments? hin h.any).bind fun superArguments l h => .tell (hbases l h _ _)

end FlowErasure.Grammar
