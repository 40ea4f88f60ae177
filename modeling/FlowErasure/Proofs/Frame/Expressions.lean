import FlowErasure.Grammar.Expressions
import FlowErasure.Proofs.Frame.Types

/-!
# What the rules for expressions keep

An assignment target is made of the children of an expression that has just been read, so the nodes
of a pattern hold new nodes as well.
-/

namespace FlowErasure.Grammar

variable {base : Tree} {inner : Nested} (h : inner.Keeping base)

include h

/-! ## Assignment targets -/

section Targets

omit h

instance quiet_failTarget {α : Type} (id : NodeId) : Quiet (failTarget id : Parser α) := by
  refine .bind inferInstance fun node => ?_
  cases node <;> infer_instance

instance fails_failTarget {α : Type} (id : NodeId) : Fails (failTarget id : Parser α) := by
  refine .after inferInstance fun node => ?_
  cases node <;> infer_instance

theorem keeps_rebuild {node : Node} {kind : NodeKind} {flags : NodeFlags} {slots : List Slot}
    (hslots : base.Later (slots.flatMap Slot.children)) :
    KeepsRule base (rebuild node kind flags slots) := by
  intro c s hs
  let copy : Node := { kind, start := node.start, stop := node.stop, slots, flags }
  have hcopy : base.Later copy.children := hslots
  obtain ⟨hextends, hid⟩ := hs.add hcopy
  exact ⟨hextends, by simpa using hid⟩

theorem keeps_getNode {id : NodeId} (hid : base.size ≤ id) {rest : Node → Parser NodeId}
    (hrest : ∀ node, base.Later node.children → KeepsRule base (rest node)) :
    KeepsRule base (do
      let some node ← getNode? id | failTarget id
      rest node) := by
  refine (Keeps.getNode? hid).bind fun node hnode => ?_
  cases node with
  | none => exact .fail
  | some node => exact hrest node (by simpa using hnode)

theorem keeps_mapM_elements {convert : NodeId → Parser NodeId} {hole : Parser (Option NodeId)}
    (hconvert : ∀ id, base.size ≤ id → KeepsRule base (convert id))
    (hhole : Keeps base hole Option.toList) {nodes : List (Option NodeId)}
    (hnodes : base.Later (nodes.filterMap id)) :
    Keeps base (nodes.mapM fun
      | none => hole
      | some element => some <$> convert element) fun nodes => nodes.filterMap id := by
  refine (Keeps.mapM Option.toList fun node hnode => ?_).mono fun nodes hnodes => ?_
  · cases node with
    | none => exact hhole
    | some element =>
        have hle : base.size ≤ element := hnodes element (by simpa using hnode)
        exact (hconvert element hle).map (by simp)
  · exact hnodes.of_subset fun id hid => by simpa [List.mem_flatMap] using hid

variable {target : NodeId → Parser NodeId}

theorem keeps_patternElement (htarget : ∀ id, base.size ≤ id → KeepsRule base (target id))
    {id : NodeId} (hid : base.size ≤ id) : KeepsRule base (patternElement target id) := by
  refine keeps_getNode hid fun node hnode => ?_
  split
  · split
    · rename_i argument hargument
      refine (htarget argument (hnode.of_node? hargument)).bind fun argument hargument => ?_
      exact keeps_rebuild (by simpa using hargument)
    · exact .fail
  · exact .ite (keeps_rebuild hnode) (htarget id hid)
  · exact .pure (by simpa using hid)
  · exact htarget id hid

theorem keeps_patternProperty (htarget : ∀ id, base.size ≤ id → KeepsRule base (target id))
    {id : NodeId} (hid : base.size ≤ id) : KeepsRule base (patternProperty target id) := by
  refine keeps_getNode hid fun node hnode => ?_
  split
  · exact keeps_patternElement htarget hid
  · refine .when ?_
    split
    · rename_i value hvalue
      refine (keeps_patternElement htarget (hnode.of_node? hvalue)).bind fun value hvalue => ?_
      refine keeps_rebuild ?_
      have hkey : base.Later ((node.slot? .key).getD .absent).children := by
        cases hslot : node.slot? .key with
        | none => simp
        | some slot => exact hnode.of_slot? hslot
      simp_all
    · exact .fail
  · exact .fail

theorem keeps_assignmentTargetWithin (bound : Nat) {id : NodeId} (hid : base.size ≤ id) :
    KeepsRule base (assignmentTargetWithin bound id) := by
  induction bound generalizing id with
  | zero => exact .fail (p := failTarget id)
  | succ bound ih =>
      refine keeps_getNode hid fun node hnode => ?_
      have htarget : ∀ id, base.size ≤ id → KeepsRule base (assignmentTargetWithin bound id) :=
        fun id hid => ih hid
      split
      · exact .pure (by simpa using hid)
      · exact .pure (by simpa using hid)
      · exact .pure (by simpa using hid)
      · exact .pure (by simpa using hid)
      · split
        · rename_i items hitems
          refine (keeps_mapM_elements (fun id => keeps_patternProperty htarget) .fail
            (hnode.of_list? hitems)).bind fun nodes hnodes => keeps_rebuild (by simpa using hnodes)
        · exact .fail
      · split
        · rename_i items hitems
          refine (keeps_mapM_elements (fun id => keeps_patternElement htarget)
            (.pure (by simp)) (hnode.of_list? hitems)).bind fun nodes hnodes => ?_
          exact keeps_rebuild (by simpa using hnodes)
        · exact .fail
      · exact .fail

theorem keeps_assignmentTarget {id : NodeId} (hid : base.size ≤ id) :
    KeepsRule base (assignmentTarget id) :=
  keeps_assignmentTargetWithin _ hid

end Targets

/-! ## Expressions -/

theorem keeps_expression : KeepsRule base (expression inner) := by
  refine .quiet fun start => h.assignment.bind fun first hfirst => ?_
  refine (Keeps.afterComma h.assignment).bind fun more hmore => .ite (.pure hfirst) ?_
  have hall : base.Later (first :: more) := by simp_all
  exact (Keeps.listFrom hall).bind fun slot hslot => .finish (by simpa using hslot)

theorem keeps_spreadOrAssignment : KeepsRule base (spreadOrAssignment inner) := by
  refine .quiet fun _ => .ite ?_ h.assignment
  refine .quiet fun start => .quiet fun _ => h.assignment.bind fun argument hargument => ?_
  exact .finish (by simpa using hargument)

/-! ### Literals -/

theorem keeps_parenthesizedExpression : KeepsRule base (parenthesizedExpression inner) := by
  refine .quiet fun _ => (keeps_expression h).withReader.bind fun expression hexpression => ?_
  exact .quiet fun _ => .when (.quiet fun _ => .pure hexpression)

theorem keeps_templateRest {quasi : NodeId} (hquasi : base.size ≤ quasi) :
    Keeps base (templateRest inner quasi) fun parts => parts.1 ++ parts.2 := by
  refine (Keeps.iterate (fun parts => parts.1 ++ parts.2.1) (by simpa using hquasi) ?_).bind ?_
  · rintro ⟨quasis, expressions, ended⟩ hparts
    refine .ite (.pure (by simp)) ?_
    refine (keeps_expression h).withReader.bind fun expression hexpression => ?_
    refine .quiet fun _ => .when (.quiet fun _ => .quiet fun _ => .quiet fun start => ?_)
    refine .quiet fun _ => (Keeps.finish (by simp)).bind fun quasi hquasi => .pure ?_
    simp_all
  · rintro ⟨quasis, expressions, ended⟩ hparts
    exact .pure (by simp_all)

theorem keeps_templateLiteral : KeepsRule base (templateLiteral inner) := by
  refine .quiet fun start => .quiet fun head => .quiet fun _ => ?_
  refine (Keeps.finish (by simp)).bind fun quasi hquasi => ?_
  have hle : base.size ≤ quasi := by simpa using hquasi
  refine .join (fun parts => parts.1 ++ parts.2) (keeps_templateRest h hle) (.pure ?_) ?_
  · simpa using hle
  · rintro ⟨quasis, expressions⟩ hparts
    rw [Tree.later_append] at hparts
    refine (Keeps.listFrom hparts.1).bind fun slot hslot => ?_
    refine (Keeps.listFrom hparts.2).bind fun slot' hslot' => .finish ?_
    simp_all

theorem keeps_arrayLiteral : KeepsRule base (arrayLiteral inner) := by
  refine .quiet fun start => .quiet fun _ => ?_
  refine (keeps_elements (keeps_spreadOrAssignment h).withReader).bind fun nodes hnodes => ?_
  exact .quiet fun _ => .quiet fun stop => .finish (by simpa using hnodes)

theorem keeps_propertyRest (start : Nat) {key : NodeId} (hkey : base.size ≤ key)
    (computed canBeShorthand : Bool) :
    KeepsRule base (propertyRest inner start key computed canBeShorthand) := by
  refine .quiet fun _ => .ite ?_ (.quiet fun _ => .ite ?_ .fail)
  · refine h.assignment.bind fun value hvalue => .finishWith ?_
    simp_all
  · refine (keeps_shorthandDefault h hkey).bind fun value hvalue => .finishWith ?_
    simpa using hvalue

theorem keeps_objectMember : KeepsRule base (objectMember inner) := by
  refine .quiet fun _ => .ite (keeps_spreadOrAssignment h) ?_
  refine .quiet fun start => .quiet fun flags => .quiet fun flags => .quiet fun t => .when ?_
  refine .quiet fun _ => (keeps_propertyName h).bind ?_
  rintro ⟨key, computed⟩ hkey
  have hle : base.size ≤ key := by simpa using hkey
  refine .quiet fun _ => .ite ?_ (.ite .fail (keeps_propertyRest h start hle _ _))
  refine (keeps_methodFunction h _).bind fun value hvalue => .finishWith ?_
  simp_all

theorem keeps_objectLiteral : KeepsRule base (objectLiteral inner) := by
  refine .quiet fun start => .quiet fun _ => ?_
  refine (Keeps.commaTerminated (keeps_objectMember h).withReader).bind fun ids hids => ?_
  refine .quiet fun _ => (Keeps.listFrom hids).bind fun slot hslot => .finish ?_
  simpa using hslot

theorem keeps_primary {heritage : Parser NodeId} (hheritage : KeepsRule base heritage) :
    KeepsRule base (primary inner heritage) := by
  refine .quiet fun start => .quiet fun t => ?_
  split
  · exact .quiet fun _ => .finish (by simp)
  · exact .literal
  · exact .literal
  · exact .literal
  · exact .literal
  · exact .literal
  · exact .quiet fun _ => .literal
  · exact .quiet fun _ => .literal
  · exact keeps_templateLiteral h
  · exact keeps_templateLiteral h
  · exact keeps_parenthesizedExpression h
  · exact keeps_arrayLiteral h
  · exact keeps_objectLiteral h
  · exact keeps_function h _ start true
  · exact .quiet fun _ => .ite (keeps_function h _ start true) .identifier
  · exact keeps_classOf h hheritage _ start true
  · exact .fail
  · exact .quiet fun _ => .ite .identifier .fail

/-! ### Member access and calls -/

theorem keeps_arguments : Keeps base (arguments inner) Slot.children := by
  refine .quiet fun start => .quiet fun _ => ?_
  refine (Keeps.commaTerminated (keeps_spreadOrAssignment h).withReader).bind fun ids hids => ?_
  exact .quiet fun _ => .listFrom hids

theorem keeps_accessesAndCalls (start : Nat) (allowCall : Bool) {expression₀ : NodeId}
    (hexpression : base.size ≤ expression₀) :
    KeepsRule base (accessesAndCalls inner start allowCall expression₀) := by
  have hsome : ∀ id : NodeId, base.Later [id] →
      Keeps base (pure (some id)) fun r => r.toList.flatMap fun id => [id] :=
    fun id hid => .pure (by simpa using hid)
  refine .iterate _ (by simpa using hexpression) fun object hobject => .quiet fun t => ?_
  split
  · refine .quiet fun _ => Keeps.identifierName.bind fun property hproperty => ?_
    exact (Keeps.finish (by simp_all)).bind hsome
  · refine .quiet fun _ => (keeps_expression h).withReader.bind fun property hproperty => ?_
    exact .quiet fun _ => (Keeps.finishWith (by simp_all)).bind hsome
  · refine .ite ((keeps_arguments h).bind fun arguments harguments => ?_) (.pure (by simp))
    exact (Keeps.finish (by simp_all)).bind hsome
  · refine (keeps_templateLiteral h).bind fun quasi hquasi => ?_
    exact (Keeps.finish (by simp_all)).bind hsome
  · refine (keeps_templateLiteral h).bind fun quasi hquasi => ?_
    exact (Keeps.finish (by simp_all)).bind hsome
  · exact .pure (by simp)

theorem keeps_newExpression {operand : Parser NodeId} (hoperand : KeepsRule base operand) :
    KeepsRule base (newExpression inner operand) := by
  refine .quiet fun start => .quiet fun _ => .quiet fun calleeStart => .quiet fun _ => ?_
  refine .join (fun id => [id]) h.construction hoperand fun callee hcallee => ?_
  have hle : base.size ≤ callee := by simpa using hcallee
  refine (keeps_accessesAndCalls h calleeStart false hle).bind fun callee hcallee => ?_
  refine .quiet fun _ => .join Slot.children (keeps_arguments h) (.pure (by simp)) ?_
  exact fun arguments harguments => .finish (by simp_all)

theorem keeps_leftHandSideWithin (bound : Nat) : KeepsRule base (leftHandSideWithin inner bound) := by
  induction bound with
  | zero => exact .fail (p := failUnexpected)
  | succ bound ih =>
      have hoperand := keeps_primary h ih
      refine .quiet fun start => .quiet fun t => ?_
      extract_lets rest
      have hrest : ∀ id, base.Later [id] → KeepsRule base (rest id) :=
        fun id hid => keeps_accessesAndCalls h start true (by simpa using hid)
      split
      · exact (keeps_newExpression h hoperand).bind hrest
      · exact .quiet fun _ => (Keeps.finish (by simp)).bind hrest
      · exact hoperand.bind hrest

theorem keeps_leftHandSide : KeepsRule base (leftHandSide inner) :=
  .quiet fun _ => keeps_leftHandSideWithin h _

theorem keeps_construction : KeepsRule base (construction inner) :=
  keeps_newExpression h (keeps_primary h (keeps_leftHandSide h))

/-! ### Operators -/

theorem keeps_postfixExpression : KeepsRule base (postfixExpression inner) := by
  refine .quiet fun start => (keeps_leftHandSide h).bind fun operand hoperand => ?_
  refine .quiet fun t => .quiet fun _ => .ite (.quiet fun _ => ?_) (.pure hoperand)
  exact .finishWith (by simpa using hoperand)

theorem keeps_prefixOperation (kind : NodeKind) : KeepsRule base (prefixOperation inner kind) := by
  refine .quiet fun start => .quiet fun t => .quiet fun _ => ?_
  exact h.unary.bind fun argument hargument => .finishWith (by simpa using hargument)

theorem keeps_unary : KeepsRule base (unary inner) := by
  refine .quiet fun t => ?_
  split
  · exact keeps_prefixOperation h _
  · exact keeps_prefixOperation h _
  · exact keeps_prefixOperation h _
  · exact keeps_prefixOperation h _
  · exact keeps_prefixOperation h _
  · exact keeps_prefixOperation h _
  · exact keeps_prefixOperation h _
  · exact keeps_prefixOperation h _
  · exact keeps_prefixOperation h _
  · refine .quiet fun _ => .ite (.quiet fun start => .quiet fun _ => ?_) (keeps_postfixExpression h)
    exact h.unary.bind fun argument hargument => .finish (by simpa using hargument)
  · exact keeps_postfixExpression h

omit h in
instance looks_precedenceHere (t : Token) : Looks (precedenceHere t) := by
  unfold precedenceHere; infer_instance

theorem keeps_binary (precedence : Nat) : KeepsRule base (binary inner precedence) := by
  refine .quiet fun start => (keeps_unary h).bind fun first hfirst => ?_
  refine .iterate _ hfirst fun left hleft => .quiet fun _ => .quiet fun t => .quiet fun next => ?_
  refine .ite (.pure (by simp)) (.quiet fun _ => (h.binary next).bind fun right hright => ?_)
  refine (Keeps.finishWith ?_).bind fun id hid => .pure (by simpa using hid)
  simp_all

theorem keeps_conditional (tail : Bool) : KeepsRule base (conditional inner tail) := by
  refine .quiet fun start => (keeps_binary h 0).bind fun test htest => .quiet fun _ => ?_
  refine .ite (.pure htest) (.quiet fun _ => ?_)
  refine h.assignment.withReader.withReader.bind fun consequent hconsequent => .quiet fun _ => ?_
  refine h.assignment.withReader.bind fun alternate halternate => .finish ?_
  simp_all

/-! ### Arrow functions -/

omit h in
instance looks_isArrowParameter : Looks isArrowParameter := by
  unfold isArrowParameter; infer_instance

omit h in
instance quiet_arrowToken : Quiet arrowToken := by
  unfold arrowToken; infer_instance

def ArrowHead.nodes (head : ArrowHead) : List NodeId :=
  head.typeParameters.toList ++ head.params.children ++ head.returnType.toList

omit h in
theorem keeps_singleParameterHead (isAsync : Bool) :
    Keeps base (singleParameterHead isAsync) ArrowHead.nodes := by
  refine .quiet fun start => Keeps.identifier.bind fun param hparam => ?_
  refine (Keeps.listFrom hparam).bind fun params hparams => .quiet fun _ => .pure ?_
  simpa [ArrowHead.nodes] using hparams

theorem keeps_parameterListHead (isAsync : Bool) :
    Keeps base (parameterListHead inner isAsync) ArrowHead.nodes := by
  refine (keeps_typeParameters? h).bind fun typeParameters htypeParameters => ?_
  refine (keeps_parameterList h).withReader.bind fun params hparams => ?_
  refine (keeps_ascription? h).bind fun returnType hreturnType => .quiet fun _ => .pure ?_
  simp_all [ArrowHead.nodes]

theorem keeps_arrowHead : Keeps base (arrowHead inner) ArrowHead.nodes := by
  refine .quiet fun _ => .ite (keeps_singleParameterHead false) (.quiet fun _ => ?_)
  refine .either fun isAsync => .ite ?_ (keeps_parameterListHead h false)
  refine .quiet fun _ => .quiet fun _ => ?_
  exact .ite (keeps_singleParameterHead true) (keeps_parameterListHead h true)

omit h in
instance looks_startsArrowFunction (tail : Bool) : Looks (startsArrowFunction tail) := by
  refine .bind inferInstance fun t => ?_
  split
  · refine .bind inferInstance fun s => ?_
    split <;> infer_instance
  · infer_instance
  · infer_instance
  · infer_instance

theorem keeps_arrowHeadBefore (tail : Bool) :
    Keeps base (do
      let head ← arrowHead inner
      if tail && head.returnType.isSome then failExpecting .colon
      return head) ArrowHead.nodes := by
  exact (keeps_arrowHead h).bind fun head hhead => .when (.pure hhead)

theorem keeps_arrowBody (isAsync tail : Bool) : KeepsRule base (arrowBody inner isAsync tail) :=
  .quiet fun _ => .ite (keeps_functionBody h isAsync false) h.assignment.withReader.withReader

theorem keeps_arrowFunction? (tail : Bool) : Keeps base (arrowFunction? inner tail) Option.toList := by
  refine .quiet fun _ => .ite (.pure (by simp)) (.quiet fun start => ?_)
  refine (keeps_arrowHeadBefore h tail).attempt.bind fun head hhead => ?_
  cases head with
  | none => exact .pure (by simp)
  | some head =>
      refine .quiet fun _ => (keeps_arrowBody h head.isAsync tail).bind fun body hbody => ?_
      refine (Keeps.finishWith ?_).map (by simp)
      simp_all [ArrowHead.nodes]

/-! ### Assignments -/

omit h in
instance looks_endsYield : Looks endsYield := by
  unfold endsYield; infer_instance

theorem keeps_yieldExpression : KeepsRule base (yieldExpression inner) := by
  refine .quiet fun start => .quiet fun _ => .quiet fun _ => .ite (.finish (by simp)) ?_
  refine .quiet fun _ => .ite ?_ (.quiet fun _ => .ite (.finish (by simp)) ?_)
  · exact h.assignment.bind fun argument hargument => .finishWith (by simpa using hargument)
  · exact h.assignment.bind fun argument hargument => .finish (by simpa using hargument)

omit h in
theorem keeps_targetFor {operator : Token} {left : NodeId} (hleft : base.size ≤ left) :
    KeepsRule base (targetFor operator left) := by
  refine .ite (keeps_assignmentTarget hleft) (keeps_getNode hleft fun node _ => ?_)
  split
  · exact .pure (by simpa using hleft)
  · exact .pure (by simpa using hleft)
  · exact .fail

theorem keeps_operation (tail : Bool) : KeepsRule base (operation inner tail) := by
  refine .quiet fun start => (keeps_conditional h tail).bind fun left hleft => .quiet fun t => ?_
  refine .ite (.pure hleft) ((keeps_targetFor (by simpa using hleft)).bind fun target htarget => ?_)
  refine .quiet fun _ => h.assignment.withReader.bind fun right hright => .finishWith ?_
  simp_all

theorem keeps_assignment : KeepsRule base (assignment inner) := by
  refine .quiet fun c => .withReader (.quiet fun _ => .quiet fun _ => ?_)
  refine .ite (keeps_yieldExpression h) ((keeps_arrowFunction? h _).bind fun arrow harrow => ?_)
  cases arrow with
  | none => exact keeps_operation h _
  | some arrow => exact .pure (by simpa using harrow)

end FlowErasure.Grammar
