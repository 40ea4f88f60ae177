import FlowErasure.Proofs.Frame.Expressions
import FlowErasure.Proofs.Lookahead.Types

/-!
# Expressions along a scan

An operand starts where a slash would start a regular expression, and ends where it would divide. So
the scan and the grammar read every slash in the same way.
-/

namespace FlowErasure.Grammar

variable {follow : ParenFollow} {b : Bracket} {st : List Bracket} {K : Scan → Prop} {l : Lexer}

open Scan

theorem Opens.fresh {t : Token} (h : Opens follow st l) (hl : l.token = t)
    (ht : Lexer.startsNoOperand t = false) : At follow st Fresh l := by
  refine h.resolve_right fun hstarts => ?_
  rw [hl, ht] at hstarts
  cases hstarts

theorem startsNoOperand_of_isName {t : Token} (ht : t.isName) :
    Lexer.startsNoOperand t = false := by
  revert ht
  cases t <;> decide

/-! ## Assignment targets -/

section Targets

variable {α : Type}

theorem still_mapM {γ : Type} {g : γ → Parser α} (h : ∀ item, Still (g item)) (items : List γ) :
    Still (items.mapM g) := by
  induction items with
  | nil => rw [List.mapM_nil]; infer_instance
  | cons item items ih =>
      rw [List.mapM_cons]
      exact .bind (h item) fun _ => .bind ih fun _ => inferInstance

instance still_rebuild (node : Node) (kind : NodeKind) (flags : NodeFlags) (slots : List Slot) :
    Still (rebuild node kind flags slots) := by
  unfold rebuild; infer_instance

variable {target : NodeId → Parser NodeId}

theorem still_patternElement (htarget : ∀ id, Still (target id)) (id : NodeId) :
    Still (patternElement target id) := by
  refine .bind inferInstance fun node => ?_
  cases node with
  | none => exact still_of_fails (failTarget id)
  | some node =>
      dsimp only
      split
      · split
        · infer_instance
        · exact still_of_fails (failTarget id)
      · infer_instance
      · infer_instance
      · exact htarget id

theorem still_patternValue (htarget : ∀ id, Still (target id)) (id : NodeId) (node : Node) :
    Still (do
      let some value := (node.slot? .value).bind Slot.node? | failTarget id
      let value ← patternElement target value
      rebuild node .property node.flags [(node.slot? .key).getD .absent, .node value]) := by
  split
  · exact .bind (still_patternElement htarget _) fun _ => inferInstance
  · exact still_of_fails (failTarget id)

theorem still_patternProperty (htarget : ∀ id, Still (target id)) (id : NodeId) :
    Still (patternProperty target id) := by
  refine .bind inferInstance fun node => ?_
  cases node with
  | none => exact still_of_fails (failTarget id)
  | some node =>
      dsimp only
      split
      · exact still_patternElement htarget id
      · split
        · exact .bind (still_of_fails (failTarget id)) fun _ => still_patternValue htarget id node
        · exact still_patternValue htarget id node
      · exact still_of_fails (failTarget id)

theorem still_assignmentTargetWithin (bound : Nat) (id : NodeId) :
    Still (assignmentTargetWithin bound id) := by
  induction bound generalizing id with
  | zero => exact still_of_fails (failTarget id)
  | succ bound ih =>
      refine .bind inferInstance fun node => ?_
      cases node with
      | none => exact still_of_fails (failTarget id)
      | some node =>
          dsimp only
          split
          · infer_instance
          · infer_instance
          · infer_instance
          · infer_instance
          · split
            · refine .bind (still_mapM (fun item => ?_) _) fun _ => inferInstance
              cases item with
              | none => exact still_of_fails (failTarget id)
              | some property =>
                  have hproperty := still_patternProperty ih property
                  exact still_map _ _
            · exact still_of_fails (failTarget id)
          · split
            · refine .bind (still_mapM (fun item => ?_) _) fun _ => inferInstance
              cases item with
              | none => infer_instance
              | some element =>
                  have helement := still_patternElement ih element
                  exact still_map _ _
            · exact still_of_fails (failTarget id)
          · exact still_of_fails (failTarget id)

instance still_assignmentTarget (id : NodeId) : Still (assignmentTarget id) :=
  still_assignmentTargetWithin _ id

end Targets

variable {inner : Nested} (hin : inner.Follows follow)

include hin

/-! ## Literals -/

theorem moves_expression (h : Opens follow (b :: st) l) :
    Moves (expression inner) l fun _ l' => At follow (b :: st) Ended l' := by
  refine .still fun start => (hin.assignment h).bind fun first l h => ?_
  refine (h.afterComma fun l h => hin.assignment (.inl h)).bind fun more l h => ?_
  exact .ite (fun _ => .pure h) fun _ => .stay fun _ => h

theorem reads_spreadOrAssignment : ReadsOperand follow (spreadOrAssignment inner) := by
  intro b st l h
  refine .tell (.ite (fun hl => .still fun start => ?_) fun _ => hin.assignment h)
  have hl : l.token = .ellipsis := by simpa using hl
  refine ((h.fresh hl rfl).consume hl (by decide)).bind fun _ l h => ?_
  exact (hin.assignment (.inl (h.fresh rfl))).bind fun argument l h => .stay fun _ => h

theorem moves_parenthesizedExpression (h : At follow (b :: st) K l) :
    Moves (parenthesizedExpression inner) l fun _ l' => At follow (b :: st) Ended l' := by
  refine (h.expectOpen rfl).bind fun _ l ⟨ofHead, h⟩ => ?_
  refine (moves_expression hin (.inl (h.fresh rfl))).withReader.bind fun expression l h => ?_
  exact .tell (.check fun _ => (h.close rfl).bind fun _ l h => .pure (h.ended rfl))

/-- The head of a template is open until the piece of text that ends the template. -/
theorem moves_templateRest {b' : Bracket} (hb : b'.token = .templateHead)
    (h : At follow (b' :: b :: st) Fresh l) (quasi : NodeId) :
    Moves (templateRest inner quasi) l fun _ l' => At follow (b :: st) Ended l' := by
  refine (Moves.iterate
    (I := fun a l => if a.2.2 then At follow (b :: st) Ended l else At follow (b' :: b :: st) Fresh l)
    (E := fun _ => At follow (b :: st) Ended) h ?_).bind fun _ l h => .pure h
  rintro ⟨quasis, expressions, ended⟩ l h
  cases ended with
  | true => exact .pure h
  | false =>
      refine (moves_expression hin (.inl h)).withReader.bind fun expression l h => ?_
      refine .tell (.check fun hl => ?_)
      have hl : l.token = .closeBrace := by simpa using hl
      refine .bind (Q := fun _ l' => l' = l.rereadBrace) (.rereadBrace rfl) ?_
      rintro _ _ rfl
      refine .tell (.still fun start => ?_)
      refine .bind (Q := fun _ l' => l' = l.rereadBrace.next) (.advance rfl) ?_
      rintro _ _ rfl
      refine .still fun quasi => .pure ?_
      have hnext := h.resumes hb hl
      obtain htoken | htoken := Lexer.token_rereadBrace_eq_or hl
      · rw [htoken] at hnext ⊢
        exact hnext.ended rfl
      · rw [htoken] at hnext ⊢
        exact hnext.fresh rfl

theorem moves_templateLiteral (h : At follow (b :: st) K l)
    (hl : l.token = .template ∨ l.token = .templateHead) :
    Moves (templateLiteral inner) l fun _ l' => At follow (b :: st) Ended l' := by
  refine .still fun start => .tell ?_
  obtain hl | hl := hl
  · refine (h.consume hl (by decide)).bind fun _ l h => .still fun quasi => ?_
    rw [hl]
    exact .tell (.stay fun _ => h.ended rfl)
  · refine (h.overOpen hl rfl).bind fun _ l ⟨ofHead, h⟩ => .still fun quasi => ?_
    rw [hl]
    exact (moves_templateRest hin rfl (h.fresh rfl) quasi).bind fun _ l h => .stay fun _ => h

theorem moves_arrayLiteral (h : At follow (b :: st) K l) :
    Moves (arrayLiteral inner) l fun _ l' => At follow (b :: st) Ended l' := by
  refine .still fun start => (h.expectOpen rfl).bind fun _ l ⟨ofHead, h⟩ => ?_
  refine (moves_elements (h.fresh rfl) fun l h => ?_).bind fun nodes l h => ?_
  · exact (reads_spreadOrAssignment hin (.inl h)).withReader.mono fun _ _ h => h.any
  · exact (h.close rfl).bind fun _ l h => .still fun stop => .stay fun _ => h.ended rfl

theorem passes_propertyRest (start : Nat) (key : NodeId) (computed canBeShorthand : Bool) :
    Passes follow (propertyRest inner start key computed canBeShorthand) := by
  intro b st l h
  refine h.accept (by decide) (fun l h => ?_) fun _ => ?_
  · exact (hin.assignment (.inl (h.fresh rfl))).bind fun value l h => .stay fun _ => h.any
  · refine .tell (.ite (fun _ => ?_) fun _ => .fail)
    exact (moves_shorthandDefault hin h start key).bind fun value l h => .stay fun _ => h

theorem moves_objectMember (h : At follow (b :: st) Fresh l) :
    Moves (objectMember inner) l fun _ l' => At follow (b :: st) Any l' := by
  refine .tell (.ite (fun _ => ?_) fun _ => .still fun start => ?_)
  · exact (reads_spreadOrAssignment hin (.inl h)).mono fun _ _ h => h.any
  refine (passes_functionFlags _ h.any).bind fun flags l h => ?_
  refine (passes_accessorFlags _ h).bind fun flags l h => .tell (.check fun _ => ?_)
  refine .still fun named => (passes_propertyName hin h).bind ?_
  rintro ⟨key, computed⟩ l h
  refine .tell (.ite (fun _ => ?_) fun _ => .ite (fun _ => .fail) fun _ => ?_)
  · exact (moves_methodFunction hin h _).bind fun value l h => .stay fun _ => h.any
  · exact passes_propertyRest hin start key computed _ h

theorem moves_objectLiteral (h : At follow (b :: st) K l) :
    Moves (objectLiteral inner) l fun _ l' => At follow (b :: st) Ended l' := by
  refine .still fun start => (h.expectOpen rfl).bind fun _ l ⟨ofHead, h⟩ => ?_
  refine ((h.fresh rfl).commaTerminated rfl fun l h =>
    (moves_objectMember hin h).withReader).bind fun properties l h => ?_
  exact (h.close rfl).bind fun _ l h => .still fun slot => .stay fun _ => h.ended rfl

omit hin in
/-- A slash where an operand may start is read again, as a regular expression. -/
theorem moves_regex (h : At follow (b :: st) Fresh l) (hl : isSlash l.token) :
    Moves (do rereadSlash; literal) l fun _ l' => At follow (b :: st) Ended l' := by
  refine .bind (Q := fun _ l' => l' = l.rereadSlash) (.rereadSlash rfl) ?_
  rintro _ _ rfl
  refine .still fun start => .tell ?_
  refine .bind (Q := fun _ l' => At follow (b :: st) Ended l') (.advance ((h.regex hl).ended rfl)) ?_
  exact fun _ l h => .stay fun _ => h

theorem reads_primary {heritage : Parser NodeId} (hheritage : ReadsOperand follow heritage) :
    ReadsOperand follow (primary inner heritage) := by
  intro b st l h
  have hliteral : ∀ t, l.token = t → Lexer.startsNoOperand t = false → isOrdinary t →
      endsOperand t → Moves literal l fun _ l' => At follow (b :: st) Ended l' :=
    fun t hl hstarts ht hends =>
      ((h.fresh hl hstarts).literal hl ht).mono fun _ _ h => h.ended hends
  have hname : Moves (do if ← isIdentifier then identifier else failAtToken .expressionExpected) l
      fun _ l' => At follow (b :: st) Ended l' := by
    refine .isIdentifier fun named hnamed => .ite (fun hname => ?_) fun _ => .fail
    exact (h.fresh rfl (startsNoOperand_of_isName (hnamed hname))).identifier
  refine .still fun start => .tell ?_
  split
  · rename_i hl
    exact ((h.fresh hl rfl).consume hl (by decide)).bind fun _ l h => .stay fun _ => h.ended rfl
  · exact hliteral _ ‹_› rfl (by decide) rfl
  · exact hliteral _ ‹_› rfl (by decide) rfl
  · exact hliteral _ ‹_› rfl (by decide) rfl
  · exact hliteral _ ‹_› rfl (by decide) rfl
  · exact hliteral _ ‹_› rfl (by decide) rfl
  · rename_i hl
    exact moves_regex (h.fresh hl rfl) (by rw [hl]; rfl)
  · rename_i hl
    exact moves_regex (h.fresh hl rfl) (by rw [hl]; rfl)
  · rename_i hl
    exact moves_templateLiteral hin (h.fresh hl rfl) (.inl hl)
  · rename_i hl
    exact moves_templateLiteral hin (h.fresh hl rfl) (.inr hl)
  · exact moves_parenthesizedExpression hin (h.fresh ‹_› rfl)
  · exact moves_arrayLiteral hin (h.fresh ‹_› rfl)
  · exact moves_objectLiteral hin (h.fresh ‹_› rfl)
  · exact (moves_function hin (h.fresh ‹_› rfl) _ start true).mono fun _ _ h => h.ended_of_clear
  · rename_i hl
    refine .still fun starts => .ite (fun _ => ?_) fun _ => (h.fresh hl rfl).identifier
    exact (moves_function hin (h.fresh hl rfl) _ start true).mono fun _ _ h => h.ended_of_clear
  · refine (moves_classOf hin hheritage (h.fresh ‹_› rfl) _ start true).mono fun _ _ h => ?_
    exact h.ended_of_clear
  · exact .fail
  · exact hname

/-! ## Member access and calls -/

theorem moves_arguments (h : At follow (b :: st) K l) :
    Moves (arguments inner) l fun _ l' => At follow (b :: st) Ended l' := by
  refine .still fun start => (h.expectOpen rfl).bind fun _ l ⟨ofHead, h⟩ => ?_
  refine ((h.fresh rfl).commaTerminated rfl fun l h => ?_).bind fun nodes l h => ?_
  · exact (reads_spreadOrAssignment hin (.inl h)).withReader.mono fun _ _ h => h.any
  · exact (h.close rfl).bind fun _ l h => .stay fun _ => h.ended rfl

/-- An operand goes on with accesses and calls, and a slash after each of them divides. -/
theorem moves_accessesAndCalls (h : At follow (b :: st) Ended l) (start : Nat) (allowCall : Bool)
    (expression₀ : NodeId) :
    Moves (accessesAndCalls inner start allowCall expression₀) l fun _ l' =>
      At follow (b :: st) Ended l' := by
  refine .iterate (I := fun _ => At follow (b :: st) Ended) h fun object l h => .tell ?_
  split
  · refine (h.consume ‹_› (by decide)).bind fun _ l h => h.property.bind fun property l h => ?_
    exact .still fun access => .pure h
  · refine (h.overOpen (t := .openBracket) ‹_› rfl).bind fun _ l ⟨ofHead, h⟩ => ?_
    refine (moves_expression hin (.inl (h.fresh rfl))).withReader.bind fun property l h => ?_
    exact (h.close rfl).bind fun _ l h => .still fun access => .pure (h.ended rfl)
  · refine .ite (fun _ => ?_) fun _ => .pure h
    exact (moves_arguments hin h).bind fun arguments l h => .still fun call => .pure h
  · exact (moves_templateLiteral hin h (.inl ‹_›)).bind fun quasi l h => .still fun _ => .pure h
  · exact (moves_templateLiteral hin h (.inr ‹_›)).bind fun quasi l h => .still fun _ => .pure h
  · exact .pure h

theorem moves_newExpression {operand : Parser NodeId} (hoperand : ReadsOperand follow operand)
    (h : At follow (b :: st) K l) (hl : l.token = .newKeyword) :
    Moves (newExpression inner operand) l fun _ l' => At follow (b :: st) Ended l' := by
  refine .still fun start => (h.consume hl (by decide)).bind fun _ l h => .still fun calleeStart => ?_
  refine .tell (.join (fun hl => hin.construction h.any (by simpa using hl))
    (fun _ => hoperand (.inl (h.fresh rfl))) fun callee l h => ?_)
  refine (moves_accessesAndCalls hin h calleeStart false callee).bind fun callee l h => ?_
  exact .tell (.join (fun _ => moves_arguments hin h) (fun _ => .pure h)
    fun arguments l h => .stay fun _ => h)

theorem reads_leftHandSideWithin (bound : Nat) :
    ReadsOperand follow (leftHandSideWithin inner bound) := by
  induction bound with
  | zero => exact fun _ => .fail (p := failUnexpected)
  | succ bound ih =>
      intro b st l h
      have hoperand : ReadsOperand follow (primary inner (leftHandSideWithin inner bound)) :=
        reads_primary hin ih
      refine .still fun start => .tell ?_
      extract_lets rest
      have hrest : ∀ id l, At follow (b :: st) Ended l →
          Moves (rest id) l fun _ l' => At follow (b :: st) Ended l' :=
        fun id l h => moves_accessesAndCalls hin h start true id
      split
      · rename_i hl
        exact (moves_newExpression hin hoperand (h.fresh hl rfl) hl).bind hrest
      · rename_i hl
        refine ((h.fresh hl rfl).consume hl (by decide)).bind fun _ l h => .still fun id => ?_
        exact hrest id l (h.ended rfl)
      · exact (hoperand h).bind hrest

theorem reads_leftHandSide : ReadsOperand follow (leftHandSide inner) :=
  fun h => .still fun _ => reads_leftHandSideWithin hin _ h

theorem moves_construction (h : At follow (b :: st) K l) (hl : l.token = .newKeyword) :
    Moves (construction inner) l fun _ l' => At follow (b :: st) Ended l' :=
  moves_newExpression hin (reads_primary hin (reads_leftHandSide hin)) h hl

/-! ## Operators -/

theorem reads_postfixExpression : ReadsOperand follow (postfixExpression inner) := by
  intro b st l h
  refine .still fun start => (reads_leftHandSide hin h).bind fun operand l h => .tell (.tell ?_)
  refine .ite (fun hl => ?_) fun _ => .pure h
  have hl : l.token = .plusPlus ∨ l.token = .minusMinus := by
    simp only [Bool.and_eq_true, Bool.or_eq_true, beq_iff_eq] at hl
    exact hl.1
  obtain hl | hl := hl
  · exact (h.consume hl (by decide)).bind fun _ l h => .stay fun _ => h.ended rfl
  · exact (h.consume hl (by decide)).bind fun _ l h => .stay fun _ => h.ended rfl

/-- An operator before an operand. After `++` and `--` no slash comes. -/
theorem moves_prefixOperation (h : At follow (b :: st) K l) {t : Token} (hl : l.token = t)
    (ht : isOrdinary t)
    (hends : endsOperand t = false ∨ [Token.closeBrace, .plusPlus, .minusMinus, .yieldKeyword,
      .awaitKeyword, .ofKeyword].contains t) (kind : NodeKind) :
    Moves (prefixOperation inner kind) l fun _ l' => At follow (b :: st) Ended l' := by
  refine .still fun start => .tell ((h.consume hl ht).bind fun _ l h => ?_)
  have h : At follow (b :: st) Fresh l :=
    hends.elim h.fresh fun hclear => (h.clear_of_after hclear).fresh_of_clear
  exact (hin.unary (.inl h)).bind fun argument l h => .stay fun _ => h

theorem reads_unary : ReadsOperand follow (unary inner) := by
  intro b st l h
  have hprefix : ∀ t, l.token = t → Lexer.startsNoOperand t = false → isOrdinary t →
      endsOperand t = false → Moves (prefixOperation inner .unaryExpression) l fun _ l' =>
        At follow (b :: st) Ended l' :=
    fun t hl hstarts ht hends =>
      moves_prefixOperation hin (h.fresh hl hstarts) hl ht (.inl hends) _
  refine .tell ?_
  split
  · exact hprefix _ ‹_› rfl (by decide) rfl
  · exact hprefix _ ‹_› rfl (by decide) rfl
  · exact hprefix _ ‹_› rfl (by decide) rfl
  · exact hprefix _ ‹_› rfl (by decide) rfl
  · exact hprefix _ ‹_› rfl (by decide) rfl
  · exact hprefix _ ‹_› rfl (by decide) rfl
  · exact hprefix _ ‹_› rfl (by decide) rfl
  · exact moves_prefixOperation hin (h.fresh ‹_› rfl) ‹_› (by decide) (.inr rfl) _
  · exact moves_prefixOperation hin (h.fresh ‹_› rfl) ‹_› (by decide) (.inr rfl) _
  · rename_i hl
    refine .still fun c => .ite (fun _ => .still fun start => ?_)
      fun _ => reads_postfixExpression hin h
    refine ((h.fresh hl rfl).consume hl (by decide)).bind fun _ l h => ?_
    have h := (h.clear_of_after rfl).fresh_of_clear
    exact (hin.unary (.inl h)).bind fun argument l h => .stay fun _ => h
  · exact reads_postfixExpression hin h

omit hin in
theorem moves_precedenceHere (t : Token) :
    Moves (precedenceHere t) l fun next l' => l' = l ∧ (next ≠ 0 → t.precedence ≠ 0) := by
  refine .still fun c => .ite (fun _ => .pure ⟨rfl, fun hne => absurd rfl hne⟩) fun _ => ?_
  exact .pure ⟨rfl, id⟩

theorem reads_binary (precedence : Nat) : ReadsOperand follow (binary inner precedence) := by
  intro b st l h
  refine .still fun start => (reads_unary hin h).bind fun first l h => ?_
  refine .iterate (I := fun _ => At follow (b :: st) Ended) h fun left l h => ?_
  refine .bind (Q := fun _ => At follow (b :: st) Ended) (.rereadGreater h.reread) fun _ l h => ?_
  refine .tell ((moves_precedenceHere l.token).bind ?_)
  rintro next _ ⟨rfl, hnext⟩
  refine .ite (fun _ => .pure h) fun hbinds => ?_
  have hne : next ≠ 0 := fun hzero => hbinds (by simp [hzero])
  refine .bind (Q := fun _ => Opens follow (b :: st)) (.advance (h.operator (.inl (hnext hne)))) ?_
  exact fun _ l h => (hin.binary next h).bind fun right l h => .still fun id => .pure h

theorem reads_conditional (tail : Bool) : ReadsOperand follow (conditional inner tail) := by
  intro b st l h
  refine .still fun start => (reads_binary hin 0 h).bind fun test l h => .tell ?_
  refine .ite (fun _ => .pure h) fun hl => ?_
  refine (h.consume (t := .question) (by simpa using hl) (by decide)).bind fun _ l h => ?_
  refine (hin.assignment (.inl (h.fresh rfl))).withReader.withReader.bind fun consequent l h => ?_
  refine (h.expect (by decide)).bind fun _ l h => ?_
  refine (hin.assignment (.inl (h.fresh rfl))).withReader.bind fun alternate l h => ?_
  exact .stay fun _ => h

/-! ## Arrow functions -/

omit hin in
theorem moves_arrowToken (h : At follow (b :: st) K l) :
    Moves arrowToken l fun _ l' => At follow (b :: st) (After .arrow) l' := by
  refine .tell (.check fun hl => .tell (.check fun _ => ?_))
  exact h.consume (by simpa using hl) (by decide)

omit hin in
theorem moves_singleParameterHead (h : At follow (b :: st) K l) (isAsync : Bool) :
    Moves (singleParameterHead isAsync) l fun _ l' => At follow (b :: st) (After .arrow) l' := by
  refine .still fun start => h.identifier.bind fun param l h => .still fun params => ?_
  exact (moves_arrowToken h).bind fun _ l h => .pure h

theorem moves_parameterListHead (h : At follow (b :: st) K l) (isAsync : Bool) :
    Moves (parameterListHead inner isAsync) l fun _ l' =>
      At follow (b :: st) (After .arrow) l' := by
  refine (passes_typeParameters? hin h.any).bind fun typeParameters l h => ?_
  refine (passes_parameterList hin h).withReader.bind fun params l h => ?_
  refine (passes_ascription? hin h).bind fun returnType l h => ?_
  exact (moves_arrowToken h).bind fun _ l h => .pure h

theorem moves_arrowHead (h : At follow (b :: st) K l) :
    Moves (arrowHead inner) l fun _ l' => At follow (b :: st) (After .arrow) l' := by
  refine .still fun single => .ite (fun _ => moves_singleParameterHead h false) fun _ => .tell ?_
  extract_lets rest
  have hplain : Moves (rest false) l fun _ l' => At follow (b :: st) (After .arrow) l' :=
    moves_parameterListHead hin h false
  refine .ite (fun hl => .still fun isAsync => ?_) fun _ => .tell hplain
  cases isAsync with
  | false => exact hplain
  | true =>
      refine (h.consume (t := .asyncKeyword) (by simpa using hl) (by decide)).bind fun _ l h => ?_
      refine .still fun named => .ite (fun _ => ?_) fun _ => ?_
      · exact moves_singleParameterHead h true
      · exact moves_parameterListHead hin h true

omit hin in
theorem moves_startsArrowFunction (l : Lexer) (tail : Bool) :
    Moves (startsArrowFunction tail) l fun starts l' =>
      l' = l ∧ (starts = true → Lexer.startsNoOperand l.token = false) := by
  refine .tell ?_
  split
  · rename_i hl
    have hstarts : Lexer.startsNoOperand l.token = false := by rw [hl]; rfl
    refine .still fun s => ?_
    split
    · exact .pure ⟨rfl, fun _ => hstarts⟩
    · exact .pure ⟨rfl, fun _ => hstarts⟩
    · exact .pure ⟨rfl, fun _ => hstarts⟩
    · exact .pure ⟨rfl, fun _ => hstarts⟩
  · rename_i hl
    exact .pure ⟨rfl, fun _ => by rw [hl]; rfl⟩
  · rename_i hl
    exact .pure ⟨rfl, fun _ => by rw [hl]; rfl⟩
  · refine .isIdentifier fun named hnamed => .ite (fun hname => .stay fun _ => ?_) fun _ => ?_
    · exact ⟨rfl, fun _ => startsNoOperand_of_isName (hnamed hname)⟩
    · exact .pure ⟨rfl, fun hstarts => by cases hstarts⟩

theorem moves_arrowBody (h : At follow (b :: st) (After .arrow) l) (isAsync tail : Bool) :
    Moves (arrowBody inner isAsync tail) l fun _ l' => At follow (b :: st) Ended l' := by
  refine .tell (.ite (fun _ => ?_) fun _ => ?_)
  · exact (moves_functionBody hin h isAsync false).mono fun _ _ h => h.ended_of_clear
  · exact (hin.assignment (.inl (h.fresh rfl))).withReader.withReader

/-! ## Assignments -/

theorem moves_yieldExpression (h : At follow (b :: st) K l) (hl : l.token = .yieldKeyword) :
    Moves (yieldExpression inner) l fun _ l' => At follow (b :: st) Ended l' := by
  refine .still fun start => (h.consume hl (by decide)).bind fun _ l h => .tell ?_
  have h := h.clear_of_after rfl
  refine .ite (fun _ => .stay fun _ => h.ended_of_clear) fun _ => ?_
  refine h.accept (by decide) (fun l h => ?_) fun _ => .still fun ends => ?_
  · exact (hin.assignment (.inl (h.fresh rfl))).bind fun argument l h => .stay fun _ => h
  · refine .ite (fun _ => .stay fun _ => h.ended_of_clear) fun _ => ?_
    exact (hin.assignment (.inl h.fresh_of_clear)).bind fun argument l h => .stay fun _ => h

omit hin in
instance still_targetFor (operator : Token) (left : NodeId) : Still (targetFor operator left) := by
  unfold targetFor
  split
  · infer_instance
  · refine .bind inferInstance fun node => ?_
    cases node with
    | none => exact still_of_fails (failTarget left)
    | some node =>
        dsimp only
        split
        · infer_instance
        · infer_instance
        · exact still_of_fails (failTarget left)

theorem reads_operation (tail : Bool) : ReadsOperand follow (operation inner tail) := by
  intro b st l h
  refine .still fun start => (reads_conditional hin tail h).bind fun left l h => .tell ?_
  refine .ite (fun _ => .pure h) fun hl => .still fun target => ?_
  refine .bind (Q := fun _ => Opens follow (b :: st)) (.advance (h.operator (.inr ?_))) ?_
  · simpa using hl
  · exact fun _ l h => (hin.assignment h).withReader.bind fun right l h => .stay fun _ => h

end FlowErasure.Grammar
