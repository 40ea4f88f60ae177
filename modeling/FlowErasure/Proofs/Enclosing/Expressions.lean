import FlowErasure.Proofs.Enclosing.Types

/-!
# Operators in expressions

Here `await` and `yield` are read, each in a context that has it. The arrow functions set the context
three times, for their parameters, for a body in braces and for a body that is an expression, and each
time as their flags say. Turning an expression into a target makes new nodes of the parts of others,
which are still in the same function.
-/

namespace FlowErasure.Grammar

variable {final : Tree} {c : Context}

/-! ## Assignment targets -/

section Targets

def Carries (final : Tree) (ids ids' : List NodeId) : Prop :=
  ∀ around, final.AllPermit around ids → final.AllPermit around ids'

theorem carries_self {ids : List NodeId} : Carries final ids ids :=
  fun _ h => h

theorem carries_append {as as' bs bs' : List NodeId} (h : Carries final as as')
    (h' : Carries final bs bs') : Carries final (as ++ bs) (as' ++ bs') := by
  intro around hall
  rw [Tree.allPermit_append] at hall ⊢
  exact ⟨h around hall.1, h' around hall.2⟩

variable {i : NodeId} {node : Node}

/-- A neutral node in the place of another one, with parts made of the parts of that one. -/
theorem carries_of_content {t : NodeId} {kind : NodeKind} {slots : List Slot} {flags : NodeFlags}
    (hnode : final.Shows Node.content i node.content) (hold : node.kind.isNeutral)
    (ht : final.Shows Node.content t (kind, Tree.fitSlots kind slots, flags)) (hnew : kind.isNeutral)
    (hparts : Carries final node.children (slots.flatMap Slot.children)) :
    Carries final [i] [t] := by
  intro around hi
  obtain ⟨found, hget, hcontent⟩ := Option.map_eq_some_iff.mp hnode
  obtain ⟨hkind, hslots, hflags⟩ : found.kind = node.kind ∧ found.slots = node.slots ∧
      found.flags = node.flags := by
    simpa [Node.content] using hcontent
  have hchildren : found.children = node.children := by
    rw [Node.children, hslots, Node.children]
  obtain ⟨-, hfound⟩ := ((Tree.allPermit_cons.mp hi).1).of_get? hget
  rw [hkind, (around.of_isNeutral _ hold).2, hchildren] at hfound
  obtain ⟨hadmits, hwithin⟩ := around.of_isNeutral flags hnew
  have hpermits : final.Permits around t := by
    apply Tree.Permits.of_content ht hadmits
    rw [hwithin]
    exact hparts around hfound
  simpa using hpermits

theorem carries_slot? {field : Field} {slot : Slot} (hslot : node.slot? field = some slot) :
    Carries final node.children slot.children := by
  obtain ⟨index, -, hslot⟩ := Option.bind_eq_some_iff.mp hslot
  intro around hall child hchild
  exact hall child (List.mem_flatMap.mpr ⟨slot, List.mem_of_getElem? hslot, hchild⟩)

variable {target : NodeId → Parser NodeId}

theorem carries_mapM {convert : NodeId → Parser NodeId} {hole : Parser (Option NodeId)}
    (hconvert : ∀ id, AnswersIn Node.content final c (convert id) fun t => Carries final [id] [t])
    (hhole : AnswersIn Node.content final c hole fun a => a = none) (nodes : List (Option NodeId)) :
    AnswersIn Node.content final c (nodes.mapM fun
      | none => hole
      | some element => some <$> convert element) fun nodes' =>
        Carries final (nodes.filterMap id) (nodes'.filterMap id) :=
  .mapM_elements carries_self (fun _ _ _ _ => carries_append) hconvert hhole nodes

theorem carries_patternElement
    (htarget : ∀ id, AnswersIn Node.content final c (target id) fun t => Carries final [id] [t])
    (id : NodeId) :
    AnswersIn Node.content final c (patternElement target id) fun t => Carries final [id] [t] := by
  apply AnswersIn.found
  intro node
  split
  · rename_i hkind
    split
    · rename_i argument hargument
      obtain ⟨slot, hslot, hargument⟩ := Option.bind_eq_some_iff.mp hargument
      have hslot : Carries final node.children [argument] := by
        cases slot <;> cases hargument
        exact carries_slot? hslot
      apply (htarget argument).bind
      intro argument'
      apply (AnswersIn.addNode _).mono
      intro t ht hcarries hnode
      apply carries_of_content hnode (by rw [hkind]; rfl) ht rfl
      exact fun around hall => by simpa [Slot.children] using hcarries around (hslot around hall)
    · exact .fail
  · rename_i hkind
    apply AnswersIn.ite
    · apply (AnswersIn.addNode _).mono
      intro t ht hnode
      exact carries_of_content hnode (by rw [hkind]; rfl) ht rfl carries_self
    · exact (htarget id).mono fun t ht _ => ht
  · exact .pure fun _ => carries_self
  · exact (htarget id).mono fun t ht _ => ht

theorem carries_patternProperty
    (htarget : ∀ id, AnswersIn Node.content final c (target id) fun t => Carries final [id] [t])
    (id : NodeId) :
    AnswersIn Node.content final c (patternProperty target id) fun t => Carries final [id] [t] := by
  apply AnswersIn.found
  intro node
  split
  · exact (carries_patternElement htarget id).mono fun t ht _ => ht
  · rename_i hkind
    apply AnswersIn.when
    split
    · rename_i value hvalue
      obtain ⟨slot, hslot, hvalue⟩ := Option.bind_eq_some_iff.mp hvalue
      have hvalue : Carries final node.children [value] := by
        cases slot <;> cases hvalue
        exact carries_slot? hslot
      have hkey : Carries final node.children ((node.slot? .key).getD .absent).children := by
        cases hkey : node.slot? .key with
        | none => exact fun around _ => by simp [Slot.children]
        | some slot => exact carries_slot? hkey
      apply (carries_patternElement htarget value).bind
      intro value'
      apply (AnswersIn.addNode _).mono
      intro t ht hcarries hnode
      apply carries_of_content hnode (by rw [hkind]; rfl) ht rfl
      intro around hall
      have hvalue := hcarries around (hvalue around hall)
      simpa [Slot.children] using ⟨hkey around hall, by simpa using hvalue⟩
    · exact .fail
  · exact .fail

/-- A literal becomes a pattern with the elements it has. -/
theorem carries_literal {kind : NodeKind} {field : Field} {items : NodeList}
    {nodes : List (Option NodeId)} {t : NodeId} {flags : NodeFlags} (hold : node.kind.isNeutral)
    (hnew : kind.isNeutral) (hitems : (node.slot? field).bind Slot.list? = some items)
    (hnode : final.Shows Node.content i node.content)
    (ht : final.Shows Node.content t (kind, Tree.fitSlots kind [.list { items with nodes }], flags))
    (hcarries : Carries final (items.nodes.filterMap id) (nodes.filterMap id)) :
    Carries final [i] [t] := by
  obtain ⟨slot, hslot, hlist⟩ := Option.bind_eq_some_iff.mp hitems
  have hparts : Carries final node.children (items.nodes.filterMap id) := by
    cases slot <;> cases hlist
    exact carries_slot? hslot
  apply carries_of_content hnode hold ht hnew
  exact fun around hall => by simpa [Slot.children] using hcarries around (hparts around hall)

theorem carries_assignmentTargetWithin (bound : Nat) (id : NodeId) :
    AnswersIn Node.content final c (assignmentTargetWithin bound id) fun t =>
      Carries final [id] [t] := by
  induction bound generalizing id with
  | zero => exact .fail (p := failTarget id)
  | succ bound ih =>
      apply AnswersIn.found
      intro node
      split
      · exact .pure fun _ => carries_self
      · exact .pure fun _ => carries_self
      · exact .pure fun _ => carries_self
      · exact .pure fun _ => carries_self
      · rename_i hkind
        split
        · rename_i items hitems
          apply (carries_mapM (carries_patternProperty ih) .fail _).bind
          intro nodes
          apply (AnswersIn.addNode _).mono
          intro t ht hcarries hnode
          exact carries_literal (by rw [hkind]; rfl) rfl hitems hnode ht hcarries
        · exact .fail
      · rename_i hkind
        split
        · rename_i items hitems
          apply (carries_mapM (carries_patternElement ih) (.pure rfl) _).bind
          intro nodes
          apply (AnswersIn.addNode _).mono
          intro t ht hcarries hnode
          exact carries_literal (by rw [hkind]; rfl) rfl hitems hnode ht hcarries
        · exact .fail
      · exact .fail

theorem permits_assignmentTarget (around : Operators) (id : NodeId) :
    AnswersIn Node.content final c (assignmentTarget id) fun t =>
      final.Permits around id → final.Permits around t := by
  apply (carries_assignmentTargetWithin (id + 1) id).mono
  intro t ht hid
  simpa using ht around (by simpa using hid)

end Targets

variable {inner : Nested} (h : inner.Permitting final)

omit h in
theorem permits_inTail {p : Parser NodeId} (tail : Bool) (hp : ∀ c, Permits final c.operators c p) :
    Permits final c.operators c (inTail tail p) :=
  (hp { c with conditionalTail := c.conditionalTail || tail }).withReader

include h

/-! ## Literals -/

theorem permits_expression : Permits final c.operators c (expression inner) := by
  refine .quiet fun start => (h.assignment c).bind fun first => ?_
  apply (h.assignment c).afterComma.bind
  intro more
  refine .ite (.pure fun _ hid => hid) (AnswersIn.listed.bind fun slot => .neutral rfl ?_)
  simp_all [Tree.AllPermit]

theorem permits_spreadOrAssignment : Permits final c.operators c (spreadOrAssignment inner) := by
  refine .quiet fun _ => .ite (.quiet fun start => .quiet fun _ => ?_) (h.assignment c)
  exact (h.assignment c).bind fun argument => .neutral rfl (by simp_all)

theorem permits_parenthesizedExpression :
    Permits final c.operators c (parenthesizedExpression inner) := by
  have hexpression := permits_allowingIn (c := c) fun c => permits_expression h (c := c)
  refine .quiet fun _ => hexpression.bind fun expression => ?_
  exact .quiet fun _ => .when (.quiet fun _ => .pure fun hid => hid)

omit h in
theorem permits_templateElement (around : Operators) (start : Nat) :
    Permits final around c (finish .templateElement start []) :=
  .neutral rfl (by simp_all)

theorem permits_templateRest (quasi : NodeId) :
    AnswersIn Node.content final c (templateRest inner quasi) fun parts =>
      final.Permits c.operators quasi → final.AllPermit c.operators (parts.1 ++ parts.2) := by
  have hexpression := permits_allowingIn (c := c) fun c => permits_expression h (c := c)
  apply (AnswersIn.iterate
    (P := fun parts => final.AllPermit c.operators (parts.1 ++ parts.2.1)) _).bind
  · rintro ⟨quasis, expressions, ended⟩
    exact .pure (by simp_all)
  · rintro ⟨quasis, expressions, ended⟩
    refine .ite (.pure (by simp)) (hexpression.bind fun expression => ?_)
    refine .quiet fun _ => .when (.quiet fun _ => .quiet fun _ => .quiet fun start => ?_)
    apply AnswersIn.quiet
    intro _
    exact (permits_templateElement c.operators _).bind fun quasi => .pure (by simp_all)

theorem permits_templateLiteral : Permits final c.operators c (templateLiteral inner) := by
  refine .quiet fun start => .quiet fun head => .quiet fun _ => ?_
  refine (permits_templateElement c.operators _).bind fun quasi => ?_
  refine .join (fun parts => final.Permits c.operators quasi →
    final.AllPermit c.operators (parts.1 ++ parts.2)) (permits_templateRest h quasi)
    (.pure (by simp)) ?_
  rintro ⟨quasis, expressions⟩
  refine AnswersIn.listed.bind fun slot => AnswersIn.listed.bind fun slot' => .neutral rfl ?_
  simp_all

theorem permits_arrayLiteral : Permits final c.operators c (arrayLiteral inner) := by
  have helement := permits_allowingIn (c := c) fun c => permits_spreadOrAssignment h (c := c)
  refine .quiet fun start => .quiet fun _ => (AnswersIn.allElements helement).bind fun nodes => ?_
  refine .quiet fun _ => .quiet fun stop => .neutral rfl ?_
  simp_all [Slot.children]

theorem permits_propertyRest (start : Nat) (key : NodeId) (computed canBeShorthand : Bool) :
    AnswersIn Node.content final c (propertyRest inner start key computed canBeShorthand) fun id =>
      final.Permits c.operators key → final.Permits c.operators id := by
  refine .quiet fun _ => .ite ?_ (.quiet fun _ => .ite ?_ .fail)
  · exact (h.assignment c).bind fun value => .neutralWith rfl (by simp_all)
  · exact (permits_shorthandDefault h start key).bind fun value => .neutralWith rfl (by simp_all)

theorem permits_objectMember : Permits final c.operators c (objectMember inner) := by
  refine .quiet fun _ => .ite (permits_spreadOrAssignment h) ?_
  refine .quiet fun start => .quiet fun flags => .quiet fun flags => .quiet fun t => .when ?_
  refine .quiet fun _ => (permits_propertyName h).bind ?_
  rintro ⟨key, computed⟩
  refine .quiet fun _ => .ite ?_ (.ite .fail (permits_propertyRest h start key _ _))
  apply (permits_methodFunction c.operators h _).bind
  exact fun value => .neutralWith rfl (by simp_all)

theorem permits_objectLiteral : Permits final c.operators c (objectLiteral inner) := by
  have hmember := permits_allowingIn (c := c) fun c => permits_objectMember h (c := c)
  refine .quiet fun start => .quiet fun _ => hmember.commaTerminated.bind fun ids => ?_
  refine .quiet fun _ => AnswersIn.listed.bind fun slot => .neutral rfl ?_
  simp_all [Tree.AllPermit]

theorem permits_primary {heritage : Parser NodeId} (hheritage : Permits final c.operators c heritage) :
    Permits final c.operators c (primary inner heritage) := by
  have hliteral : Permits final c.operators c literal := permits_literal c.operators
  have hname : Permits final c.operators c identifier := permits_identifier c.operators
  have hfunction : ∀ start,
      Permits final c.operators c (function inner .functionExpression start true) :=
    fun start => permits_function c.operators h rfl (by decide) start true
  refine .quiet fun start => .quiet fun t => ?_
  split
  · exact .quiet fun _ => .neutral rfl (by simp_all)
  · exact hliteral
  · exact hliteral
  · exact hliteral
  · exact hliteral
  · exact hliteral
  · exact .quiet fun _ => hliteral
  · exact .quiet fun _ => hliteral
  · exact permits_templateLiteral h
  · exact permits_templateLiteral h
  · exact permits_parenthesizedExpression h
  · exact permits_arrayLiteral h
  · exact permits_objectLiteral h
  · exact hfunction start
  · exact .quiet fun _ => .ite (hfunction start) hname
  · exact permits_classOf h hheritage rfl start true
  · exact .fail
  · exact .quiet fun _ => .ite hname .fail

/-! ## Member access and calls -/

theorem permits_arguments : AllPermit final c.operators c (arguments inner) Slot.children := by
  have hargument := permits_allowingIn (c := c) fun c => permits_spreadOrAssignment h (c := c)
  refine .quiet fun start => .quiet fun _ => hargument.commaTerminated.bind fun ids => ?_
  exact .quiet fun _ => AnswersIn.listed.mono (by simp_all [Tree.AllPermit])

theorem permits_accessesAndCalls (start : Nat) (allowCall : Bool) (expression₀ : NodeId) :
    AnswersIn Node.content final c (accessesAndCalls inner start allowCall expression₀) fun id =>
      final.Permits c.operators expression₀ → final.Permits c.operators id := by
  have hexpression := permits_allowingIn (c := c) fun c => permits_expression h (c := c)
  -- Each link is a neutral node with the chain so far as its first part.
  have hlink : ∀ (object : NodeId) (kind : NodeKind) slots details, kind.isNeutral →
      AnswersIn Node.content final c
        (some <$> finishWith kind start (.node object :: slots) details) fun r =>
          final.AllPermit c.operators (slots.flatMap Slot.children) →
            final.Permits c.operators object → ∀ id ∈ r, final.Permits c.operators id := by
    intro object kind slots details hneutral
    have hnode : AnswersIn Node.content final c
        (finishWith kind start (.node object :: slots) details) fun id =>
          final.AllPermit c.operators (slots.flatMap Slot.children) →
            final.Permits c.operators object → final.Permits c.operators id :=
      .neutralWith hneutral (by simp_all)
    exact hnode.map fun id hid hslots hobject => by simpa using hid hslots hobject
  apply AnswersIn.iterate
  intro object
  refine .quiet fun t => ?_
  split
  · refine .quiet fun _ => (permits_identifierName c.operators).bind fun property => ?_
    exact (hlink object _ [.node property] {} rfl).mono (by simp_all)
  · refine .quiet fun _ => hexpression.bind fun property => .quiet fun _ => ?_
    exact (hlink object _ [.node property] _ rfl).mono (by simp_all)
  · apply AnswersIn.ite
    · apply (permits_arguments h).bind
      intro arguments
      exact (hlink object _ [arguments] {} rfl).mono (by simp_all)
    · exact .pure (by simp)
  · apply (permits_templateLiteral h).bind
    intro quasi
    exact (hlink object _ [.node quasi] {} rfl).mono (by simp_all)
  · apply (permits_templateLiteral h).bind
    intro quasi
    exact (hlink object _ [.node quasi] {} rfl).mono (by simp_all)
  · exact .pure (by simp)

theorem permits_newExpression {operand : Parser NodeId} (hoperand : Permits final c.operators c operand) :
    Permits final c.operators c (newExpression inner operand) := by
  refine .quiet fun start => .quiet fun _ => .quiet fun calleeStart => .quiet fun _ => ?_
  apply AnswersIn.join (final.Permits c.operators) (h.construction c) hoperand
  intro callee
  apply (permits_accessesAndCalls h calleeStart false callee).bind
  intro callee
  refine .quiet fun _ => .join (fun arguments => final.AllPermit c.operators arguments.children)
    (permits_arguments h) (.pure (by simp [Slot.children])) fun arguments => ?_
  exact .neutral rfl (by simp_all)

theorem permits_leftHandSideWithin (bound : Nat) :
    Permits final c.operators c (leftHandSideWithin inner bound) := by
  induction bound with
  | zero => exact .fail (p := failUnexpected)
  | succ bound ih =>
      have hoperand := permits_primary h ih
      refine .quiet fun start => .quiet fun t => ?_
      extract_lets rest
      have hrest : ∀ id, AnswersIn Node.content final c (rest id) fun id' =>
          final.Permits c.operators id → final.Permits c.operators id' :=
        fun id => permits_accessesAndCalls h start true id
      split
      · exact (permits_newExpression h hoperand).bind hrest
      · have hsuper : Permits final c.operators c (finish .super start []) :=
          .neutral rfl (by simp_all)
        exact .quiet fun _ => hsuper.bind hrest
      · exact hoperand.bind hrest

theorem permits_leftHandSide : Permits final c.operators c (leftHandSide inner) :=
  .quiet fun _ => permits_leftHandSideWithin h _

theorem permits_construction : Permits final c.operators c (construction inner) :=
  permits_newExpression h (permits_primary h (permits_leftHandSide h))

/-! ## Operators -/

theorem permits_postfixExpression : Permits final c.operators c (postfixExpression inner) := by
  refine .quiet fun start => (permits_leftHandSide h).bind fun operand => ?_
  refine .quiet fun t => .quiet fun _ => .ite (.quiet fun _ => ?_) (.pure fun hid => hid)
  exact .neutralWith rfl (by simp_all)

theorem permits_prefixOperation {kind : NodeKind} (hneutral : kind.isNeutral) :
    Permits final c.operators c (prefixOperation inner kind) := by
  refine .quiet fun start => .quiet fun t => .quiet fun _ => ?_
  exact (h.unary c).bind fun argument => .neutralWith hneutral (by simp_all)

theorem permits_await (hasync : c.inAsync) : Permits final c.operators c (do
      let start ← tokenStart
      advance
      let argument ← inner.unary
      finish .awaitExpression start [.node argument]) := by
  refine .quiet fun start => .quiet fun _ => (h.unary c).bind fun argument => ?_
  apply AnswersIn.finishNode
  intro id hid hargument
  exact hid c.operators hasync (by simpa [Operators.within, NodeKind.isFunction, Slot.children])

theorem permits_unary : Permits final c.operators c (unary inner) := by
  refine .quiet fun t => ?_
  split
  · exact permits_prefixOperation h rfl
  · exact permits_prefixOperation h rfl
  · exact permits_prefixOperation h rfl
  · exact permits_prefixOperation h rfl
  · exact permits_prefixOperation h rfl
  · exact permits_prefixOperation h rfl
  · exact permits_prefixOperation h rfl
  · exact permits_prefixOperation h rfl
  · exact permits_prefixOperation h rfl
  · apply AnswersIn.read
    split
    · exact permits_await h ‹_›
    · exact permits_postfixExpression h
  · exact permits_postfixExpression h

theorem permits_binary (precedence : Nat) : Permits final c.operators c (binary inner precedence) := by
  refine .quiet fun start => (permits_unary h).bind fun first => ?_
  apply AnswersIn.iterate
  intro left
  refine .quiet fun _ => .quiet fun t => .quiet fun next => .ite (.pure (by simp)) ?_
  refine .quiet fun _ => (h.binary c next).bind fun right => ?_
  have hoperation : ∀ kind : NodeKind, kind.isNeutral → AnswersIn Node.content final c
      (finishWith kind start [.node left, .node right] { token := t }) fun id =>
        final.Permits c.operators right → final.Permits c.operators left →
          final.Permits c.operators id :=
    fun kind hneutral => .neutralWith hneutral (by simp_all)
  refine (hoperation _ ?_).bind fun id => .pure (by simp_all)
  split
  · rfl
  · rfl

theorem permits_conditional (tail : Bool) :
    Permits final c.operators c (conditional inner tail) := by
  have hconsequent := permits_inTail (c := c) true fun c => permits_allowingIn (c := c) h.assignment
  have halternate := permits_inTail (c := c) tail h.assignment
  refine .quiet fun start => (permits_binary h 0).bind fun test => .quiet fun _ => ?_
  refine .ite (.pure fun hid => hid) (.quiet fun _ => hconsequent.bind fun consequent => ?_)
  refine .quiet fun _ => halternate.bind fun alternate => .neutral rfl ?_
  simp_all

/-! ## Arrow functions -/

omit h in
theorem permits_singleParameterHead (isAsync : Bool) :
    AnswersIn Node.content final c (singleParameterHead isAsync) fun head =>
      final.AllPermit ⟨head.isAsync, false⟩ head.nodes := by
  refine .quiet fun start => (permits_identifier ⟨isAsync, false⟩).bind fun param => ?_
  refine AnswersIn.listed.bind fun params => .quiet fun _ => .pure ?_
  simp_all [ArrowHead.nodes]

theorem permits_parameterListHead (isAsync : Bool) :
    AnswersIn Node.content final c (parameterListHead inner isAsync) fun head =>
      final.AllPermit ⟨head.isAsync, false⟩ head.nodes := by
  have hparams : AllPermit final ⟨isAsync, false⟩ c
      (withReader (Context.ofFunction isAsync false) (parameterList inner)) Slot.children :=
    (permits_parameterList h).withReader
  apply (permits_typeParameters? ⟨isAsync, false⟩ h).bind
  intro typeParameters
  refine hparams.bind fun params => ?_
  apply (permits_ascription? ⟨isAsync, false⟩ h).bind
  intro returnType
  exact .quiet fun _ => .pure (by simp_all [ArrowHead.nodes])

theorem permits_arrowHead : AnswersIn Node.content final c (arrowHead inner) fun head =>
    final.AllPermit ⟨head.isAsync, false⟩ head.nodes := by
  refine .quiet fun _ => .ite (permits_singleParameterHead false) (.quiet fun _ => ?_)
  refine .either fun isAsync => .ite ?_ (permits_parameterListHead h false)
  refine .quiet fun _ => .quiet fun _ => ?_
  exact .ite (permits_singleParameterHead true) (permits_parameterListHead h true)

/-- What a failed attempt has read is gone, so only a head that ends in an arrow matters. -/
theorem permits_tryArrowHead (tail : Bool) :
    AnswersIn Node.content final c (tryArrowHead inner tail) fun head =>
      ∀ head' ∈ head, final.AllPermit ⟨head'.isAsync, false⟩ head'.nodes := by
  apply AnswersIn.attempt fun base => keeps_arrowHeadBefore (h.keeps base) tail
  exact (permits_arrowHead h).bind fun head => .when (.pure fun hhead => hhead)

theorem permits_arrowBody (isAsync tail : Bool) :
    Permits final ⟨isAsync, false⟩ c (arrowBody inner isAsync tail) := by
  refine .quiet fun _ => .ite (permits_functionBody h isAsync false) ?_
  exact (permits_inTail (c := { c with inAsync := isAsync, inGenerator := false }) tail
    h.assignment).withReader

theorem permits_arrowFunction? (tail : Bool) :
    AllPermit final c.operators c (arrowFunction? inner tail) Option.toList := by
  refine .quiet fun _ => .ite (.pure (by simp)) (.quiet fun start => ?_)
  refine (permits_tryArrowHead h tail).bind fun head => ?_
  cases head with
  | none => exact .pure (by simp)
  | some head =>
      refine .quiet fun _ => (permits_arrowBody h head.isAsync tail).bind fun body => ?_
      have harrow : ∀ expressionBody, AnswersIn Node.content final c
          (finishWith .arrowFunctionExpression start
            [.ofOption head.typeParameters, head.params, .ofOption head.returnType, .node body]
            { flags := { async := head.isAsync, expressionBody } }) fun id =>
              final.Permits ⟨head.isAsync, false⟩ body →
                final.AllPermit ⟨head.isAsync, false⟩ head.nodes →
                  final.Permits c.operators id := by
        intro expressionBody
        apply AnswersIn.finishFunction rfl
        intro id hid hbody hhead
        apply hid
        show final.AllPermit ⟨head.isAsync, false⟩ _
        simp_all [ArrowHead.nodes]
      exact (harrow _).map (by simp_all)

/-! ## Assignments -/

theorem permits_yieldExpression (hgenerator : c.inGenerator) :
    Permits final c.operators c (yieldExpression inner) := by
  have hyield : ∀ (start : Nat) (argument : Slot) (details : Details), AnswersIn Node.content final c
      (finishWith .yieldExpression start [argument] details) fun id =>
        final.AllPermit c.operators argument.children → final.Permits c.operators id := by
    intro start argument details
    apply AnswersIn.finishNode
    intro id hid hargument
    exact hid c.operators hgenerator (by simpa [Operators.within, NodeKind.isFunction])
  have hnone : ∀ start, Permits final c.operators c (finish .yieldExpression start [.absent]) :=
    fun start => (hyield start .absent {}).mono (by simp [Slot.children])
  refine .quiet fun start => .quiet fun _ => .quiet fun _ => .ite (hnone start) ?_
  refine .quiet fun _ => .ite ?_ (.quiet fun _ => .ite (hnone start) ?_)
  · apply (h.assignment c).bind
    exact fun argument => (hyield start (.node argument) _).mono (by simp_all [Slot.children])
  · apply (h.assignment c).bind
    exact fun argument => (hyield start (.node argument) {}).mono (by simp_all [Slot.children])

omit h in
theorem permits_targetFor (around : Operators) (operator : Token) (left : NodeId) :
    AnswersIn Node.content final c (targetFor operator left) fun t =>
      final.Permits around left → final.Permits around t := by
  refine .ite (permits_assignmentTarget around left) (.found fun node => ?_)
  split
  · exact .pure fun _ hleft => hleft
  · exact .pure fun _ hleft => hleft
  · exact .fail

theorem permits_operation (tail : Bool) : Permits final c.operators c (operation inner tail) := by
  have hvalue := permits_inTail (c := c) tail h.assignment
  refine .quiet fun start => (permits_conditional h tail).bind fun left => .quiet fun t => ?_
  refine .ite (.pure fun hid => hid) ?_
  refine (permits_targetFor c.operators t left).bind fun target => .quiet fun _ => ?_
  exact hvalue.bind fun right => .neutralWith rfl (by simp_all)

theorem permits_assignment : Permits final c.operators c (assignment inner) := by
  apply AnswersIn.read
  apply AnswersIn.withReader
  apply AnswersIn.quiet
  intro isYield
  apply AnswersIn.read
  split
  · rename_i hyield
    exact permits_yieldExpression h (Bool.and_eq_true_iff.mp hyield).2
  · apply (permits_arrowFunction? h _).bind
    intro arrow
    cases arrow with
    | none => exact (permits_operation h _).mono fun id hid _ => hid
    | some arrow => exact .pure fun harrow => (Tree.allPermit_cons.mp harrow).1

end FlowErasure.Grammar
