import FlowErasure.Proofs.Frame.Expressions
import FlowErasure.Proofs.Refusal.Types

/-!
# Where the rules for expressions fail

An expression that is no assignment target is refused as a whole, with the range of its node.
-/

namespace FlowErasure.Grammar

open Text (Boundary)

variable {text : List Char} {a b e e' : Nat} {inner : Nested} (h : inner.Eating text)

include h

/-! ## Assignment targets -/

section Targets

omit h

instance rejects_failTarget {α : Type} (id : NodeId) : Rejects text (failTarget id : Parser α) where
  safe a e e' c s hs ha he := by
    have hget : getNode? id c s = .ok (s.tree.get? id) s := rfl
    unfold failTarget
    rw [bind_ok hget]
    cases hnode : s.tree.get? id with
    | none => exact ⟨hs, hs.blames_token⟩
    | some node =>
        refine ⟨hs, ?_⟩
        have hspan := (hs.nodes id node hnode).2.2.1
        have hblames : s.Blames text node.start node.stop := .node hnode
        rwa [← Nat.add_sub_cancel' hspan] at hblames

/-- A node of the table, or a failure where there is none. The start of the node is before the end
of the last token, which is remembered. -/
theorem safe_getNode {id : NodeId} {rest : Node → Parser NodeId}
    (hrest : ∀ node e₁, e ≤ e₁ → node.start ≤ e₁ → Boundary text node.start →
      Boundary text node.stop → node.start ≤ node.stop → Safe text a e₁ (rest node) e') :
    Safe text a e (do
      let some node ← getNode? id | failTarget id
      rest node) e' := by
  intro c s hs ha he
  have hget : getNode? id c s = .ok (s.tree.get? id) s := rfl
  rw [bind_ok hget]
  cases hnode : s.tree.get? id with
  | none => exact (rejects_failTarget id).safe a e e' c s hs ha he
  | some node =>
      obtain ⟨hstart, hstop, hspan, hbound⟩ := hs.nodes id node hnode
      exact hrest node (max e node.start) (Nat.le_max_left _ _) (Nat.le_max_right _ _) hstart hstop
        hspan c s hs ha (Nat.max_le.mpr ⟨he, hbound⟩)

theorem safe_rebuild {node : Node} {kind : NodeKind} {flags : NodeFlags} {slots : List Slot}
    (hstart : Boundary text node.start) (hstop : Boundary text node.stop)
    (hspan : node.start ≤ node.stop) (hbound : node.start ≤ e) (he' : e' ≤ e) :
    Safe text a e (rebuild node kind flags slots) e' :=
  fun _ _ hs ha he =>
    ⟨hs.withTree (hs.nodes.add hstart hstop hspan (hbound.trans he)), ha, he'.trans he⟩

variable {target : NodeId → Parser NodeId}

theorem calm_patternElement (htarget : ∀ id, Calm text (target id)) (id : NodeId) :
    Calm text (patternElement target id) where
  safe a e := by
    refine safe_getNode fun node e₁ hle hbound hstart hstop hspan => ?_
    split
    · split
      · exact (htarget _).bind fun argument => safe_rebuild hstart hstop hspan hbound hle
      · exact .fail
    · exact .ite (safe_rebuild hstart hstop hspan hbound hle) (((htarget id).safe a e₁).mono hle)
    · exact .pure hle
    · exact ((htarget id).safe a e₁).mono hle

theorem calm_patternProperty (htarget : ∀ id, Calm text (target id)) (id : NodeId) :
    Calm text (patternProperty target id) where
  safe a e := by
    refine safe_getNode fun node e₁ hle hbound hstart hstop hspan => ?_
    split
    · exact ((calm_patternElement htarget id).safe a e₁).mono hle
    · refine .when ?_
      split
      · refine (calm_patternElement htarget _).bind fun value => ?_
        exact safe_rebuild hstart hstop hspan hbound hle
      · exact .fail
    · exact .fail

theorem safe_mapM_elements {convert : NodeId → Parser NodeId} {hole : Parser (Option NodeId)}
    (hconvert : ∀ id, Calm text (convert id)) (hhole : Safe text a e hole e)
    (nodes : List (Option NodeId)) :
    Safe text a e (nodes.mapM fun
      | none => hole
      | some element => some <$> convert element) e := by
  refine .mapM (fun node => ?_) nodes
  cases node with
  | none => exact hhole
  | some element => exact ((hconvert element).safe a e).map

theorem calm_assignmentTargetWithin (bound : Nat) (id : NodeId) :
    Calm text (assignmentTargetWithin bound id) := by
  induction bound generalizing id with
  | zero => exact calm_of_rejects (failTarget id)
  | succ bound ih =>
      refine ⟨fun a e => safe_getNode fun node e₁ hle hbound hstart hstop hspan => ?_⟩
      split
      · exact .pure hle
      · exact .pure hle
      · exact .pure hle
      · exact .pure hle
      · split
        · refine (safe_mapM_elements (calm_patternProperty ih) .fail _).bind fun nodes => ?_
          exact safe_rebuild hstart hstop hspan hbound hle
        · exact .fail
      · split
        · refine (safe_mapM_elements (calm_patternElement ih) (.pure (Nat.le_refl e₁)) _).bind ?_
          exact fun nodes => safe_rebuild hstart hstop hspan hbound hle
        · exact .fail
      · exact .fail

instance calm_assignmentTarget (id : NodeId) : Calm text (assignmentTarget id) :=
  calm_assignmentTargetWithin _ id

end Targets

/-! ## Expressions -/

theorem eats_expression : Eats text (expression inner) where
  safe a e := by
    refine .start fun b hab _ hb => h.assignment.bind fun first => ?_
    refine (Safe.afterComma (h.assignment.calm.safe b b)).bind fun more => .ite (.pure hab) ?_
    exact .calm fun slot => .finish hb (Nat.le_refl b) hab

theorem eats_spreadOrAssignment : Eats text (spreadOrAssignment inner) where
  safe a e := by
    refine .calm fun _ => .ite ?_ (h.assignment.safe a e)
    refine .start fun b hab _ hb => .eat fun _ => h.assignment.bind fun argument => ?_
    exact .finish hb (Nat.le_refl b) hab

/-! ### Literals -/

theorem eats_parenthesizedExpression : Eats text (parenthesizedExpression inner) where
  safe a e := by
    refine .eat fun _ => (eats_expression h).withReader.calm.bind fun expression => ?_
    exact .calm fun _ => .when (.calm fun _ => .pure (Nat.le_refl a))

theorem calm_templateRest (quasi : NodeId) : Calm text (templateRest inner quasi) where
  safe a e := by
    refine (Safe.iterate ?_ _).bind fun parts => .pure (Nat.le_refl e)
    rintro ⟨quasis, expressions, ended⟩
    refine .ite (.pure (Nat.le_refl e)) ?_
    refine (eats_expression h).withReader.calm.bind fun expression => .calm fun _ => .when ?_
    refine .calm fun _ => .calm fun t => .start fun b _ heb hb => .eat fun _ => ?_
    exact (Safe.finish hb (Nat.le_refl b) heb).bind fun quasi => .pure (Nat.le_refl e)

theorem eats_templateLiteral : Eats text (templateLiteral inner) where
  safe a e := by
    refine .start fun b hab _ hb => .calm fun head => .eat fun _ => ?_
    refine (Safe.finish hb (Nat.le_refl b) (Nat.le_refl b)).bind fun quasi => ?_
    refine .join ((calm_templateRest h quasi).safe b b) (.pure (Nat.le_refl b)) fun parts => ?_
    exact .calm fun slot => .calm fun slot' => .finish hb (Nat.le_refl b) hab

theorem eats_arrayLiteral : Eats text (arrayLiteral inner) where
  safe a e := by
    refine .start fun b hab _ hb => .eat fun _ => ?_
    refine (calm_elements (eats_spreadOrAssignment h).withReader).bind fun nodes => ?_
    exact .calm fun _ => .calm fun stop => .finish hb (Nat.le_refl b) hab

theorem safe_propertyRest {key : NodeId} {computed canBeShorthand : Bool} (hb : Boundary text b)
    (ha : b ≤ a) (he : b ≤ e) (he' : e' ≤ e) (hea : e ≤ a) :
    Safe text a e (propertyRest inner b key computed canBeShorthand) e' := by
  refine .calm fun _ => .ite ?_ (.calm fun _ => .ite ?_ .fail)
  · exact h.assignment.bind fun value => .finishWith hb ha (he'.trans hea)
  · refine (safe_shorthandDefault h hb ha hea (Nat.le_refl e)).bind fun value => ?_
    exact .finishWith hb he he'

theorem eats_objectMember : Eats text (objectMember inner) where
  safe a e := by
    refine .calm fun _ => .ite ((eats_spreadOrAssignment h).safe a e) ?_
    refine .start fun b hab _ hb => .calm fun flags => .calm fun flags => .calm fun t => .when ?_
    refine .calm fun _ => (eats_propertyName h).bind ?_
    rintro ⟨key, computed⟩
    refine .calm fun _ => .ite ?_ (.ite .fail ?_)
    · exact (eats_methodFunction h _).bind fun value => .finishWith hb (Nat.le_refl b) hab
    · exact safe_propertyRest h hb (Nat.le_refl b) (Nat.le_refl b) hab (Nat.le_refl b)

theorem eats_objectLiteral : Eats text (objectLiteral inner) where
  safe a e := by
    refine .start fun b hab _ hb => .eat fun _ => ?_
    refine (eats_objectMember h).withReader.commaTerminated.bind fun properties => ?_
    exact .calm fun _ => .calm fun slot => .finish hb (Nat.le_refl b) hab

theorem eats_primary {heritage : Parser NodeId} (hheritage : Eats text heritage) :
    Eats text (primary inner heritage) where
  safe a e := by
    refine .start fun b hab _ hb => .mono (m := b) (.calm fun t => ?_) hab
    split
    · exact .eat fun _ => .finish hb (Nat.le_refl b) (Nat.le_refl b)
    · exact Eats.safe b e
    · exact Eats.safe b e
    · exact Eats.safe b e
    · exact Eats.safe b e
    · exact Eats.safe b e
    · exact .calm fun _ => Eats.safe b e
    · exact .calm fun _ => Eats.safe b e
    · exact (eats_templateLiteral h).safe b e
    · exact (eats_templateLiteral h).safe b e
    · exact (eats_parenthesizedExpression h).safe b e
    · exact (eats_arrayLiteral h).safe b e
    · exact (eats_objectLiteral h).safe b e
    · exact safe_function h _ true hb (Nat.le_refl b)
    · exact .calm fun _ => .ite (safe_function h _ true hb (Nat.le_refl b)) (Eats.safe b e)
    · exact safe_classOf h hheritage _ true hb (Nat.le_refl b)
    · exact .fail
    · exact .calm fun _ => .ite (Eats.safe b e) .fail

/-! ### Member access and calls -/

theorem eats_arguments : Eats text (arguments inner) where
  safe a e := by
    refine .calm fun start => .eat fun _ => ?_
    refine (eats_spreadOrAssignment h).withReader.commaTerminated.bind fun nodes => ?_
    exact .calm fun _ => Calm.safe a a

theorem safe_accessesAndCalls {allowCall : Bool} {expression₀ : NodeId} (hb : Boundary text b)
    (hle : b ≤ e) : Safe text a e (accessesAndCalls inner b allowCall expression₀) e := by
  have hfinish : ∀ kind slots details, Safe text a e (do
      let id ← finishWith kind b slots details
      return some id) e := fun kind slots details =>
    (Safe.finishWith hb hle (Nat.le_refl e)).bind fun id => .pure (Nat.le_refl e)
  refine .iterate (fun object => .calm fun t => ?_) _
  split
  · exact .calm fun _ => (Eats.calm inferInstance).bind fun property => hfinish _ _ _
  · refine .calm fun _ => (eats_expression h).withReader.calm.bind fun property => ?_
    exact .calm fun _ => hfinish _ _ _
  · refine .ite ((eats_arguments h).calm.bind fun arguments => ?_) (.pure (Nat.le_refl e))
    exact hfinish _ _ _
  · exact (eats_templateLiteral h).calm.bind fun quasi => hfinish _ _ _
  · exact (eats_templateLiteral h).calm.bind fun quasi => hfinish _ _ _
  · exact .pure (Nat.le_refl e)

theorem eats_newExpression {operand : Parser NodeId} (hoperand : Eats text operand) :
    Eats text (newExpression inner operand) where
  safe a e := by
    refine .start fun b hab _ hb => .eat fun _ => .start fun b₁ hb₁ _ hcallee => .calm fun _ => ?_
    refine .join (h.construction.safe b₁ b) (hoperand.safe b₁ b) fun callee => ?_
    refine (safe_accessesAndCalls h hcallee (Nat.le_refl b₁)).bind fun callee => .calm fun _ => ?_
    refine .join ((eats_arguments h).safe b₁ b₁) (.pure (Nat.le_refl b₁)) fun arguments => ?_
    exact .finish hb hb₁ (hab.trans hb₁)

theorem eats_leftHandSideWithin (bound : Nat) : Eats text (leftHandSideWithin inner bound) := by
  induction bound with
  | zero => exact ⟨fun _ _ => .fail (p := failUnexpected)⟩
  | succ bound ih =>
      have hoperand := eats_primary h ih
      refine ⟨fun a e => .start fun b hab _ hb => .mono (m := b) (.calm fun t => ?_) hab⟩
      extract_lets rest
      have hrest : ∀ id, Safe text b b (rest id) b :=
        fun id => safe_accessesAndCalls h hb (Nat.le_refl b)
      split
      · exact (eats_newExpression h hoperand).bind hrest
      · exact .eat fun _ => (Safe.finish hb (Nat.le_refl b) (Nat.le_refl b)).bind hrest
      · exact hoperand.bind hrest

theorem eats_leftHandSide : Eats text (leftHandSide inner) :=
  ⟨fun a e => .calm fun _ => (eats_leftHandSideWithin h _).safe a e⟩

theorem eats_construction : Eats text (construction inner) :=
  eats_newExpression h (eats_primary h (eats_leftHandSide h))

/-! ### Operators -/

theorem eats_postfixExpression : Eats text (postfixExpression inner) where
  safe a e := by
    refine .start fun b hab _ hb => (eats_leftHandSide h).bind fun operand => .calm fun t => ?_
    refine .calm fun _ => .ite (.calm fun _ => ?_) (.pure hab)
    exact .finishWith hb (Nat.le_refl b) hab

theorem eats_prefixOperation (kind : NodeKind) : Eats text (prefixOperation inner kind) where
  safe a e := by
    refine .start fun b hab _ hb => .calm fun t => .eat fun _ => h.unary.bind fun argument => ?_
    exact .finishWith hb (Nat.le_refl b) hab

theorem eats_unary : Eats text (unary inner) where
  safe a e := by
    refine .calm fun t => ?_
    split
    · exact (eats_prefixOperation h _).safe a e
    · exact (eats_prefixOperation h _).safe a e
    · exact (eats_prefixOperation h _).safe a e
    · exact (eats_prefixOperation h _).safe a e
    · exact (eats_prefixOperation h _).safe a e
    · exact (eats_prefixOperation h _).safe a e
    · exact (eats_prefixOperation h _).safe a e
    · exact (eats_prefixOperation h _).safe a e
    · exact (eats_prefixOperation h _).safe a e
    · refine .calm fun _ => .ite ?_ ((eats_postfixExpression h).safe a e)
      refine .start fun b hab _ hb => .eat fun _ => h.unary.bind fun argument => ?_
      exact .finish hb (Nat.le_refl b) hab
    · exact (eats_postfixExpression h).safe a e

theorem eats_binary (precedence : Nat) : Eats text (binary inner precedence) where
  safe a e := by
    refine .start fun b hab _ hb => (eats_unary h).bind fun first => ?_
    refine .mono (.iterate (fun left => .calm fun _ => ?_) first) hab
    refine .calm fun t => .calm fun next => ?_
    refine .ite (.pure (Nat.le_refl b)) (.calm fun _ => (h.binary next).bind fun right => ?_)
    exact (Safe.finishWith hb (Nat.le_refl b) (Nat.le_refl b)).bind fun id => .pure (Nat.le_refl b)

theorem eats_conditional (tail : Bool) : Eats text (conditional inner tail) where
  safe a e := by
    refine .start fun b hab _ hb => (eats_binary h 0).bind fun test => .calm fun _ => ?_
    refine .ite (.pure hab) (.calm fun _ => ?_)
    refine h.assignment.withReader.withReader.bind fun consequent => .calm fun _ => ?_
    exact h.assignment.withReader.bind fun alternate => .finish hb (Nat.le_refl b) hab

/-! ### Arrow functions -/

omit h in
instance calm_arrowToken : Calm text arrowToken := by
  unfold arrowToken; infer_instance

omit h in
instance eats_singleParameterHead (isAsync : Bool) : Eats text (singleParameterHead isAsync) where
  safe a e := by
    refine .calm fun start => .eat fun param => .calm fun params => .calm fun _ => ?_
    exact .pure (Nat.le_refl a)

theorem eats_parameterListHead (isAsync : Bool) : Eats text (parameterListHead inner isAsync) where
  safe a e := by
    refine (calm_typeParameters? h).bind fun typeParameters => ?_
    refine (eats_parameterList h).withReader.bind fun params => ?_
    exact (calm_ascription? h).bind fun returnType => .calm fun _ => .pure (Nat.le_refl a)

theorem eats_arrowHead : Eats text (arrowHead inner) where
  safe a e := by
    refine .calm fun _ => .ite (Eats.safe a e) (.calm fun _ => .either fun isAsync => ?_)
    refine .ite (.calm fun _ => .calm fun _ => ?_) ((eats_parameterListHead h false).safe a e)
    exact .ite (Eats.safe a e) ((eats_parameterListHead h true).safe a e)

theorem calm_tryArrowHead (tail : Bool) : Calm text (tryArrowHead inner tail) where
  safe a e := by
    refine .attempt (fun base => keeps_arrowHeadBefore (h.keeping base) tail) ?_
    exact (eats_arrowHead h).calm.bind fun head => .when (.pure (Nat.le_refl e))

theorem eats_arrowBody (isAsync tail : Bool) : Eats text (arrowBody inner isAsync tail) where
  safe a e := by
    refine .calm fun _ => .ite ((eats_functionBody h isAsync false).safe a e) ?_
    exact h.assignment.withReader.withReader.safe a e

/-- What comes after an arrow function comes after a token. If there is none, nothing has been
read. -/
theorem safe_arrowFunction? {β : Type} {tail : Bool} {f : Option NodeId → Parser β}
    (hsome : ∀ arrow b, a ≤ b → Safe text b b (f (some arrow)) e')
    (hnone : ∀ b, a ≤ b → Safe text b e (f none) e') :
    Safe text a e (arrowFunction? inner tail >>= f) e' := by
  unfold arrowFunction?
  rw [bind_assoc]
  refine .calm fun starts => ?_
  cases starts with
  | false => exact hnone a (Nat.le_refl a)
  | true =>
      simp only [Bool.not_true, Bool.false_eq_true, if_false, bind_assoc]
      refine .start fun b hab heb hb => (calm_tryArrowHead h tail).bind fun head => ?_
      cases head with
      | none => exact hnone b hab
      | some head =>
          simp only [bind_assoc]
          refine .calm fun _ => (eats_arrowBody h head.isAsync tail).bind fun body => ?_
          refine (Safe.finishWith hb (Nat.le_refl b) (Nat.le_refl b)).bind fun arrow => ?_
          exact hsome arrow b hab

/-! ### Assignments -/

theorem eats_yieldExpression : Eats text (yieldExpression inner) where
  safe a e := by
    refine .start fun b hab _ hb => .eat fun _ => .calm fun _ => ?_
    have hfinish : ∀ slots details,
        Safe text b b (finishWith .yieldExpression b slots details) a :=
      fun _ _ => .finishWith hb (Nat.le_refl b) hab
    refine .ite (hfinish _ _) (.calm fun _ => .ite ?_ (.calm fun _ => .ite (hfinish _ _) ?_))
    · exact h.assignment.bind fun argument => hfinish _ _
    · exact h.assignment.bind fun argument => hfinish _ _

omit h in
instance calm_targetFor (operator : Token) (left : NodeId) :
    Calm text (targetFor operator left) where
  safe a e := by
    refine .ite (Calm.safe a e) (safe_getNode fun node e₁ hle _ _ _ _ => ?_)
    split
    · exact .pure hle
    · exact .pure hle
    · exact .fail

theorem eats_operation (tail : Bool) : Eats text (operation inner tail) where
  safe a e := by
    refine .start fun b hab _ hb => (eats_conditional h tail).bind fun left => .calm fun t => ?_
    refine .ite (.pure hab) (.calm fun target => .calm fun _ => ?_)
    exact h.assignment.withReader.bind fun right => .finishWith hb (Nat.le_refl b) hab

theorem eats_assignment : Eats text (assignment inner) where
  safe a e := by
    refine .calm fun c => .withReader (.calm fun _ => .calm fun _ => ?_)
    refine .ite ((eats_yieldExpression h).safe a e) (safe_arrowFunction? h ?_ ?_)
    · exact fun arrow b hab => .pure hab
    · exact fun b hab => ((eats_operation h _).safe b e).mono hab

end FlowErasure.Grammar
