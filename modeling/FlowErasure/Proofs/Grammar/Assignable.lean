import FlowErasure.Proofs.Frame.Speculation
import FlowErasure.Proofs.Grammar.Conversion
import FlowErasure.Proofs.Grammar.Running

/-!
# Expressions that may be assigned to

What the rules for expressions answer is an expression, as far as a target may be made of it: they
never answer with a pattern, a property or a spread, and what stands on the left of an assignment has
become a target already. The rules that only hand on what other rules answer, and those whose answers
are of kinds that no target is made of, take the greater part.
-/

namespace FlowErasure

/-- An expression that may stand wherever a target may. -/
def Tree.IsWhole (tree : Tree) (id : NodeId) : Prop :=
  ∀ place, place.allowsTarget → tree.IsExpression place id

/-- A name, which is a target as well as an expression. -/
def Tree.IsName (tree : Tree) (id : NodeId) : Prop :=
  tree.IsPattern .target id ∧ tree.IsWhole id

def NodeKind.isOther (kind : NodeKind) : Bool :=
  kind.pattern?.isNone && !kind.isPattern

namespace Grammar

variable {β : Type} {final : Tree} {c : Context} {inner : Nested}

abbrev ReadsWhole (final : Tree) (c : Context) (p : Parser NodeId) : Prop :=
  AnswersIn Node.unheld final c p final.IsWhole

namespace AnswersIn

variable {kind : NodeKind} {start : Nat} {slots : List Slot} {details : Details}

/-- What is in the table in the end for a node that has been finished. -/
theorem finished {R : NodeId → Prop}
    (himp : ∀ id stop parent, final.get? id = some
      { kind, start, stop, parent, slots := Tree.fitSlots kind slots
        flags := details.flags, token := details.token, name := details.name } → R id) :
    AnswersIn Node.unheld final c (finishWith kind start slots details) R := by
  apply shown.mono
  rintro id ⟨stop, hshows⟩
  obtain ⟨parent, hget⟩ := hshows.get?
  exact himp id stop parent hget

theorem finishOther (hkind : kind.isOther) :
    ReadsWhole final c (finishWith kind start slots details) := by
  apply finished
  intro id stop parent hget place hallowed
  simp only [NodeKind.isOther, Bool.and_eq_true, Option.isNone_iff_eq_none, Bool.not_eq_true'] at hkind
  exact .other hallowed hget hkind

theorem skip {α : Type} {p : Parser α} {f : α → Parser β} {Q : β → Prop} {nodes : α → List NodeId}
    (hkeeps : ∀ base, Keeps base p nodes) (hf : ∀ a, AnswersIn Node.unheld final c (f a) Q) :
    AnswersIn Node.unheld final c (p >>= f) Q :=
  (of_keeps hkeeps).bind fun a => (hf a).mono fun _ hb _ => hb

theorem identifierName : AnswersIn Node.unheld final c identifierName final.IsName := by
  refine .quiet fun t => .when (.quiet fun start => .skip (fun _ => Keeps.tokenAtom) fun name => ?_)
  apply quiet
  intro _
  apply finished
  intro id stop parent hget
  exact ⟨.name rfl hget (.inl rfl), fun place hallowed => .other hallowed hget ⟨rfl, rfl⟩⟩

theorem identifier : ReadsWhole final c identifier :=
  .quiet fun _ => .ite (identifierName.mono fun _ hid => hid.2) .fail

theorem literal : ReadsWhole final c literal :=
  .quiet fun _ => .quiet fun _ => .quiet fun _ => .finishOther rfl

end AnswersIn

structure Nested.Assignable (final : Tree) (inner : Nested) : Prop where
  keeps : ∀ base, inner.Keeping base
  assignment : ∀ c, ReadsWhole final c inner.assignment

variable (h : inner.Assignable final)

include h

/-! ## Literals -/

theorem whole_expression : ReadsWhole final c (expression inner) := by
  refine .quiet fun start => (h.assignment c).bind fun first => ?_
  apply AnswersIn.skip fun base => Keeps.afterComma (h.keeps base).assignment
  intro more
  apply AnswersIn.ite
  · exact .pure fun hfirst => hfirst
  · apply AnswersIn.quiet
    intro slot
    exact (AnswersIn.finishOther rfl).mono fun id hid _ => hid

theorem expression_spread : AnswersIn Node.unheld final c (do
      let start ← tokenStart
      advance
      let argument ← inner.assignment
      finish .spreadElement start [.node argument]) fun id =>
        ∀ place, place.allowsRest → final.IsExpression place id := by
  refine .quiet fun start => .quiet fun _ => (h.assignment c).bind fun argument => ?_
  apply AnswersIn.finished
  intro id stop parent hget hargument place hallowed
  exact .spread hallowed hget rfl rfl (hargument _ rfl)

theorem expression_spreadOrAssignment :
    AnswersIn Node.unheld final c (spreadOrAssignment inner) (final.IsExpression .element) := by
  refine .quiet fun _ => .ite ?_ ?_
  · exact (expression_spread h).mono fun id hid => hid .element rfl
  · exact (h.assignment c).mono fun id hid => hid _ rfl

theorem whole_parenthesizedExpression : ReadsWhole final c (parenthesizedExpression inner) := by
  refine .quiet fun _ => (whole_expression h).withReader.bind fun id => ?_
  exact .quiet fun _ => .when (.quiet fun _ => .pure fun hid => hid)

theorem whole_templateLiteral : ReadsWhole final c (templateLiteral inner) := by
  have hrest : ∀ quasi, AnswersIn Node.unheld final c (templateRest inner quasi) fun _ => True := by
    intro quasi
    apply (AnswersIn.iterate (P := fun _ => True) ?_).bind
    · rintro ⟨quasis, expressions, _⟩
      exact .pure fun _ => trivial
    · rintro ⟨quasis, expressions, ended⟩
      refine .ite (.pure (by simp)) ?_
      refine .skip (fun base => (keeps_expression (h.keeps base)).withReader) fun expression => ?_
      refine .quiet fun _ => .when (.quiet fun _ => .quiet fun _ => .quiet fun start => ?_)
      refine .quiet fun _ => .skip (fun base => Keeps.finish (by simp)) fun quasi => ?_
      exact .pure (by simp)
  refine .quiet fun start => .quiet fun head => .quiet fun _ => ?_
  refine .skip (fun base => Keeps.finish (by simp)) fun quasi => ?_
  refine .join (fun _ => True) (hrest quasi) (.pure trivial) ?_
  rintro ⟨quasis, expressions⟩
  refine .quiet fun slot => .quiet fun slot' => ?_
  exact (AnswersIn.finishOther rfl).mono fun id hid _ => hid

theorem whole_arrayLiteral : ReadsWhole final c (arrayLiteral inner) := by
  refine .quiet fun start => .quiet fun _ => ?_
  apply (AnswersIn.elements (expression_spreadOrAssignment h).withReader).bind
  intro nodes
  refine .quiet fun _ => .quiet fun stop => ?_
  apply AnswersIn.finished
  intro id stop parent hget hnodes place hallowed
  exact .array hallowed hget rfl rfl hnodes

omit h in
theorem isName_propertyName {s s' : State} {b : Bool} {name : NodeId × Bool}
    (hb : isIdentifier c s = .ok b s) (hname : propertyName inner c s = .ok name s')
    (hgrows : Tree.GrowsIn Node.unheld s'.tree final) (htrue : b = true) :
    final.IsName name.1 := by
  have hword : s.lexer.token ≠ .openBracket ∧ s.lexer.token ≠ .string ∧ s.lexer.token ≠ .number := by
    have hlook : Run isIdentifier c s fun b _ => b = true → s.lexer.token ≠ .openBracket ∧
        s.lexer.token ≠ .string ∧ s.lexer.token ≠ .number := by
      simp only [isIdentifier, run_bind, run_steps]
      split
      · rename_i ht
        exact run_pure.mpr fun _ => by simp [ht]
      · rename_i ht
        exact run_pure.mpr fun _ => by simp [ht]
      · rename_i ht
        refine run_pure.mpr fun hisName => ⟨?_, ?_, ?_⟩ <;>
          exact fun ht => absurd (ht ▸ hisName) (by decide)
    exact hlook b s hb htrue
  obtain ⟨hbracket, hstring, hnumber⟩ := hword
  have hkey : propertyName inner c s = (do return (← identifierName, false)) c s := by
    have htoken : token c s = .ok s.lexer.token s := rfl
    unfold propertyName
    rw [bind_ok htoken]
    refine congrFun (congrFun ?_ c) s
    split
    · exact absurd ‹_› hbracket
    · exact absurd ‹_› hstring
    · exact absurd ‹_› hnumber
    · rfl
  rw [hkey] at hname
  have hread : AnswersIn Node.unheld final c (do return (← identifierName, false)) fun name =>
      final.IsName name.1 :=
    AnswersIn.identifierName.bind fun key => .pure fun hkey => hkey
  exact (hread s name s' hname hgrows).2

/-- Whether a name stands first is asked before the key is read. Then the key is this name. -/
theorem AnswersIn.shorthand {f : Bool → NodeId × Bool → Parser β} {Q : β → Prop}
    (hf : ∀ b name, AnswersIn Node.unheld final c (f b name) fun r =>
      (b = true → final.IsName name.1) → Q r) :
    AnswersIn Node.unheld final c (do
      let b ← isIdentifier
      let name ← propertyName inner
      f b name) Q := by
  intro s r s' hrun hgrows
  obtain ⟨b, s₁, hb, hrun⟩ := of_bind_ok hrun
  obtain ⟨name, s₂, hname, hrest⟩ := of_bind_ok hrun
  obtain ⟨b', hlook⟩ := looks_isIdentifier.ok c s
  obtain ⟨rfl, rfl⟩ : b' = b ∧ s = s₁ := by simpa [hlook] using hb
  obtain ⟨hgrows, hr⟩ := hf b' name s₂ r s' hrest hgrows
  have hkeeps : AnswersIn Node.unheld final c (propertyName inner) fun _ => True :=
    .of_keeps fun base => keeps_propertyName (h.keeps base)
  exact ⟨(hkeeps s name s₂ hname hgrows).1, hr (isName_propertyName hb hname hgrows)⟩

/-- The value of a property that is a name, perhaps with a default. -/
theorem expression_shorthandDefault (start : Nat) (name : NodeId) :
    AnswersIn Node.unheld final c (shorthandDefault inner start name) fun id =>
      final.IsName name → final.IsExpression .value id := by
  refine .quiet fun _ => .ite ?_ (.pure fun hname => hname.2 _ rfl)
  refine .skip (fun base => (h.keeps base).assignment) fun value => ?_
  apply AnswersIn.finished
  intro id stop parent hget hname
  exact .default rfl hget rfl rfl hname.1

theorem expression_propertyRest (start : Nat) (key : NodeId) (computed canBeShorthand : Bool) :
    AnswersIn Node.unheld final c (propertyRest inner start key computed canBeShorthand) fun id =>
      (canBeShorthand = true → final.IsName key) → final.IsExpression .property id := by
  refine .quiet fun colon => .ite ?_ (.quiet fun here => ?_)
  · refine (h.assignment c).bind fun value => ?_
    apply AnswersIn.finished
    intro id stop parent hget hvalue _
    exact .property hget rfl rfl (hvalue _ rfl)
  · split
    · rename_i hshorthand
      simp only [Bool.and_eq_true] at hshorthand
      refine (expression_shorthandDefault h start key).bind fun value => ?_
      apply AnswersIn.finished
      intro id stop parent hget hvalue hkey
      exact .property hget rfl rfl (hvalue (hkey hshorthand.1))
    · exact .fail

omit h in
theorem isAt_isAt {α : Type} (t : Token) (f : Bool → Parser α) (p : Parser α) :
    (isAt t >>= fun b => if b then isAt t >>= f else p) =
      isAt t >>= fun b => if b then f true else p := by
  funext c s
  have hlook : isAt t c s = .ok (s.lexer.token == t) s := rfl
  rw [bind_ok hlook, bind_ok hlook]
  split
  · rename_i ht
    rw [bind_ok hlook, ht]
  · rfl

omit h in
theorem whole_function {inner : Nested} (hkeeps : ∀ base, inner.Keeping base) {kind : NodeKind}
    (hkind : kind.isOther) (start : Nat) (allowAnonymous : Bool) :
    ReadsWhole final c (function inner kind start allowAnonymous) := by
  refine .quiet fun async => .quiet fun _ => .quiet fun generator => .quiet fun present => ?_
  refine .skip (fun base => keeps_declaredName present allowAnonymous) fun id => ?_
  refine .skip (fun base => keeps_functionRest (hkeeps base) async generator) fun rest => ?_
  exact .finishOther hkind

theorem whole_methodFunction (flags : NodeFlags) :
    ReadsWhole final c (methodFunction inner flags) := by
  refine .quiet fun start => ?_
  refine .skip (fun base => keeps_functionRest (h.keeps base) _ _) fun rest => ?_
  exact .finishOther rfl

theorem expression_objectMember :
    AnswersIn Node.unheld final c (objectMember inner) (final.IsExpression .property) := by
  unfold objectMember spreadOrAssignment
  rw [isAt_isAt]
  refine .quiet fun _ => .ite ((expression_spread h).mono fun id hid => hid .property rfl) ?_
  refine .quiet fun start => .quiet fun flags => .quiet fun flags => .quiet fun t => .when ?_
  refine .shorthand h fun isName name => ?_
  obtain ⟨key, computed⟩ := name
  refine .quiet fun _ => .ite ?_ (.ite .fail ?_)
  · refine (whole_methodFunction h _).bind fun value => ?_
    apply AnswersIn.finished
    intro id stop parent hget hvalue _
    exact .property hget rfl rfl (hvalue _ rfl)
  · apply (expression_propertyRest h start key _ _).mono
    intro id hid hname
    apply hid
    intro hshorthand
    exact hname (Bool.and_eq_true_iff.mp hshorthand).2

theorem whole_objectLiteral : ReadsWhole final c (objectLiteral inner) := by
  refine .quiet fun start => .quiet fun _ => ?_
  apply (AnswersIn.commaTerminated (expression_objectMember h).withReader).bind
  intro ids
  apply AnswersIn.quiet
  intro _
  refine (AnswersIn.listFrom (Q := fun slot => ∃ stop, slot = .list ⟨ids.map some, start, stop⟩)
    fun stop => ⟨stop, rfl⟩).bind fun slot => ?_
  apply AnswersIn.finished
  rintro id stop parent hget ⟨stop', rfl⟩ hids place hallowed
  apply Tree.IsExpression.object hallowed hget rfl rfl
  intro property hproperty
  obtain ⟨id, hid, heq⟩ := List.mem_map.mp hproperty
  obtain rfl := Option.some.inj heq
  exact hids _ hid

theorem whole_classOf {heritage : Parser NodeId} (hheritage : ∀ base, KeepsRule base heritage)
    {kind : NodeKind} (hkind : kind.isOther) (start : Nat) (allowAnonymous : Bool) :
    ReadsWhole final c (classOf inner heritage kind start allowAnonymous) := by
  refine .quiet fun _ => .quiet fun _ => .quiet fun _ => ?_
  refine .skip (fun base => keeps_declaredName _ allowAnonymous) fun id => ?_
  refine .skip (fun base => keeps_typeParameters? (h.keeps base)) fun typeParameters => ?_
  refine .quiet fun _ => ?_
  extract_lets rest
  have hrest : ∀ bases, ReadsWhole final c (rest bases) := by
    rintro ⟨superClass, superArguments⟩
    refine .skip (fun base => keeps_implementsClause (h.keeps base)) fun implemented => ?_
    exact .skip (fun base => keeps_classBody (h.keeps base)) fun body => .finishOther hkind
  apply AnswersIn.ite
  · apply AnswersIn.skip hheritage
    intro superClass
    apply AnswersIn.skip fun base => keeps_typeArguments? (h.keeps base)
    intro superArguments
    exact hrest (some superClass, superArguments)
  · exact hrest (none, none)

theorem whole_primary {heritage : Parser NodeId} (hheritage : ∀ base, KeepsRule base heritage) :
    ReadsWhole final c (primary inner heritage) := by
  have hfunction : ∀ start, ReadsWhole final c (function inner .functionExpression start true) :=
    fun start => whole_function h.keeps rfl start true
  refine .quiet fun start => .quiet fun t => ?_
  split
  · exact .quiet fun _ => .finishOther rfl
  · exact .literal
  · exact .literal
  · exact .literal
  · exact .literal
  · exact .literal
  · exact .quiet fun _ => .literal
  · exact .quiet fun _ => .literal
  · exact whole_templateLiteral h
  · exact whole_templateLiteral h
  · exact whole_parenthesizedExpression h
  · exact whole_arrayLiteral h
  · exact whole_objectLiteral h
  · exact hfunction start
  · exact .quiet fun _ => .ite (hfunction start) .identifier
  · exact whole_classOf h hheritage rfl start true
  · exact .fail
  · exact .quiet fun _ => .ite .identifier .fail

/-! ## Member access and calls -/

theorem whole_accessesAndCalls (start : Nat) (allowCall : Bool) (expression₀ : NodeId) :
    AnswersIn Node.unheld final c (accessesAndCalls inner start allowCall expression₀) fun id =>
      final.IsWhole expression₀ → final.IsWhole id := by
  -- Each link is a node of a kind that no target is made of but itself.
  have hlink : ∀ (object : NodeId) (kind : NodeKind) slots details, kind.isOther →
      AnswersIn Node.unheld final c (some <$> finishWith kind start slots details) fun r =>
        final.IsWhole object → ∀ id ∈ r, final.IsWhole id :=
    fun object kind slots details hkind =>
      (AnswersIn.finishOther hkind).map fun id hid _ => by simpa using hid
  refine .iterate fun object => .quiet fun t => ?_
  split
  · refine .quiet fun _ => .skip (fun base => Keeps.identifierName) fun property => ?_
    exact hlink object _ _ {} rfl
  · refine .quiet fun _ => ?_
    refine .skip (fun base => (keeps_expression (h.keeps base)).withReader) fun property => ?_
    exact .quiet fun _ => hlink object _ _ _ rfl
  · refine .ite (.skip (fun base => keeps_arguments (h.keeps base)) fun arguments => ?_)
      (.pure (by simp))
    exact hlink object _ _ {} rfl
  · exact .skip (fun base => keeps_templateLiteral (h.keeps base)) fun quasi =>
      hlink object _ _ {} rfl
  · exact .skip (fun base => keeps_templateLiteral (h.keeps base)) fun quasi =>
      hlink object _ _ {} rfl
  · exact .pure (by simp)

theorem whole_newExpression {operand : Parser NodeId} (hoperand : ∀ base, KeepsRule base operand) :
    ReadsWhole final c (newExpression inner operand) := by
  refine .quiet fun start => .quiet fun _ => .quiet fun calleeStart => .quiet fun _ => ?_
  refine .join (fun _ => True) (.of_keeps fun base => (h.keeps base).construction)
    (.of_keeps hoperand) fun callee => ?_
  refine (whole_accessesAndCalls h calleeStart false callee).bind fun callee => .quiet fun _ => ?_
  refine .join (fun _ => True) (.of_keeps fun base => keeps_arguments (h.keeps base))
    (.pure trivial) fun arguments => ?_
  exact (AnswersIn.finishOther rfl).mono fun id hid _ _ _ => hid

theorem whole_leftHandSideWithin (bound : Nat) :
    ReadsWhole final c (leftHandSideWithin inner bound) := by
  cases bound with
  | zero => exact .fail (p := failUnexpected)
  | succ bound =>
      have hheritage : ∀ base, KeepsRule base (leftHandSideWithin inner bound) :=
        fun base => keeps_leftHandSideWithin (h.keeps base) bound
      refine .quiet fun start => .quiet fun t => ?_
      extract_lets rest
      have hrest : ∀ id, AnswersIn Node.unheld final c (rest id) fun id' =>
          final.IsWhole id → final.IsWhole id' :=
        fun id => whole_accessesAndCalls h start true id
      split
      · exact (whole_newExpression h fun base => keeps_primary (h.keeps base) (hheritage base)).bind
          hrest
      · exact .quiet fun _ => (AnswersIn.finishOther rfl).bind hrest
      · exact (whole_primary h hheritage).bind hrest

theorem whole_leftHandSide : ReadsWhole final c (leftHandSide inner) :=
  .quiet fun _ => whole_leftHandSideWithin h _

/-! ## Operators -/

theorem whole_postfixExpression : ReadsWhole final c (postfixExpression inner) := by
  refine .quiet fun start => (whole_leftHandSide h).bind fun operand => .quiet fun t => ?_
  refine .quiet fun _ => .ite (.quiet fun _ => ?_) (.pure fun hid => hid)
  exact (AnswersIn.finishOther rfl).mono fun id hid _ => hid

theorem whole_prefixOperation {kind : NodeKind} (hkind : kind.isOther) :
    ReadsWhole final c (prefixOperation inner kind) := by
  refine .quiet fun start => .quiet fun t => .quiet fun _ => ?_
  exact .skip (fun base => (h.keeps base).unary) fun argument => .finishOther hkind

theorem whole_unary : ReadsWhole final c (unary inner) := by
  have hoperation : ReadsWhole final c (prefixOperation inner .unaryExpression) :=
    whole_prefixOperation h rfl
  have hupdate : ReadsWhole final c (prefixOperation inner .updateExpression) :=
    whole_prefixOperation h rfl
  refine .quiet fun t => ?_
  split
  · exact hoperation
  · exact hoperation
  · exact hoperation
  · exact hoperation
  · exact hoperation
  · exact hoperation
  · exact hoperation
  · exact hupdate
  · exact hupdate
  · refine .quiet fun _ => .ite (.quiet fun start => .quiet fun _ => ?_) (whole_postfixExpression h)
    exact .skip (fun base => (h.keeps base).unary) fun argument => .finishOther rfl
  · exact whole_postfixExpression h

theorem whole_binary (precedence : Nat) : ReadsWhole final c (binary inner precedence) := by
  refine .quiet fun start => (whole_unary h).bind fun first => ?_
  refine .iterate fun left => .quiet fun _ => .quiet fun t => .quiet fun next => ?_
  refine .ite (.pure (by simp)) (.quiet fun _ => ?_)
  refine .skip (fun base => (h.keeps base).binary next) fun right => ?_
  have hkind : (if t.isLogical then NodeKind.logicalExpression else .binaryExpression).isOther := by
    split <;> rfl
  exact (AnswersIn.finishOther hkind).bind fun id => .pure (by simp_all)

theorem whole_conditional (tail : Bool) : ReadsWhole final c (conditional inner tail) := by
  refine .quiet fun start => (whole_binary h 0).bind fun test => .quiet fun _ => ?_
  refine .ite (.pure fun hid => hid) (.quiet fun _ => ?_)
  refine .skip (fun base => (h.keeps base).assignment.withReader.withReader) fun consequent => ?_
  refine .quiet fun _ => .skip (fun base => (h.keeps base).assignment.withReader) fun alternate => ?_
  exact (AnswersIn.finishOther rfl).mono fun id hid _ => hid

/-! ## Arrow functions and assignments -/

theorem whole_arrowFunction? (tail : Bool) :
    AnswersIn Node.unheld final c (arrowFunction? inner tail) fun arrow =>
      ∀ id ∈ arrow, final.IsWhole id := by
  refine .quiet fun _ => .ite (.pure (by simp)) (.quiet fun start => ?_)
  refine .skip (fun base => (keeps_arrowHeadBefore (h.keeps base) tail).attempt) fun head => ?_
  cases head with
  | none => exact .pure (by simp)
  | some head =>
      refine .quiet fun _ => .skip (fun base => keeps_arrowBody (h.keeps base) _ _) fun body => ?_
      exact (AnswersIn.finishOther rfl).map (by simp)

theorem whole_yieldExpression : ReadsWhole final c (yieldExpression inner) := by
  refine .quiet fun start => .quiet fun _ => .quiet fun _ => .ite (.finishOther rfl) ?_
  refine .quiet fun _ => .ite ?_ (.quiet fun _ => .ite (.finishOther rfl) ?_)
  · exact .skip (fun base => (h.keeps base).assignment) fun argument => .finishOther rfl
  · exact .skip (fun base => (h.keeps base).assignment) fun argument => .finishOther rfl

omit h in
theorem pattern_targetFor (operator : Token) (left : NodeId) :
    AnswersIn Node.unheld final c (targetFor operator left) fun target =>
      final.IsWhole left → operator = .equals → final.IsPattern .target target := by
  unfold targetFor
  split
  · apply (turns_assignmentTarget left).mono
    intro target hturns hleft _
    exact (hturns .target (hleft _ rfl)).1
  · rename_i hother
    apply AnswersIn.node
    intro node parent
    split
    · exact .pure fun _ _ hequals => absurd (beq_iff_eq.mpr hequals) hother
    · exact .pure fun _ _ hequals => absurd (beq_iff_eq.mpr hequals) hother
    · exact .fail

theorem whole_operation (tail : Bool) : ReadsWhole final c (operation inner tail) := by
  refine .quiet fun start => (whole_conditional h tail).bind fun left => .quiet fun t => ?_
  refine .ite (.pure fun hleft => hleft) ((pattern_targetFor t left).bind fun target => ?_)
  apply AnswersIn.quiet
  intro _
  refine .skip (fun base => (h.keeps base).assignment.withReader) fun right => ?_
  apply AnswersIn.finished
  intro id stop parent hget htarget hleft place hallowed
  exact .assignment hallowed hget rfl rfl (htarget hleft)

theorem whole_assignment : ReadsWhole final c (assignment inner) := by
  refine .quiet fun _ => .withReader (.quiet fun _ => .quiet fun _ => ?_)
  refine .ite (whole_yieldExpression h) ((whole_arrowFunction? h _).bind fun arrow => ?_)
  cases arrow with
  | none => exact (whole_operation h _).mono fun id hid _ => hid
  | some arrow => exact .pure fun harrow => harrow arrow rfl

inductive ExpressionRule (inner : Nested) : Parser NodeId → Prop
  | expression : ExpressionRule inner (expression inner)
  | assignment : ExpressionRule inner (assignment inner)
  | operation (tail : Bool) : ExpressionRule inner (operation inner tail)
  | conditional (tail : Bool) : ExpressionRule inner (conditional inner tail)
  | binary (precedence : Nat) : ExpressionRule inner (binary inner precedence)
  | unary : ExpressionRule inner (unary inner)
  | leftHandSide : ExpressionRule inner (leftHandSide inner)

theorem whole_expressionRule {p : Parser NodeId} (hp : ExpressionRule inner p) :
    ReadsWhole final c p := by
  cases hp with
  | expression => exact whole_expression h
  | assignment => exact whole_assignment h
  | operation tail => exact whole_operation h tail
  | conditional tail => exact whole_conditional h tail
  | binary precedence => exact whole_binary h precedence
  | unary => exact whole_unary h
  | leftHandSide => exact whole_leftHandSide h

omit h in
/-- On every level the rules for expressions answer with expressions. -/
theorem assignable_within (final : Tree) (depth : Nat) :
    (Nested.within depth).Assignable final := by
  induction depth with
  | zero => exact ⟨fun base => keeps_within base 0, fun c => .fail (p := failTooDeep)⟩
  | succ depth ih =>
      exact ⟨fun base => keeps_within base (depth + 1), fun c => whole_assignment ih⟩

omit h in
/-- Where an expression can be turned into a target, the target is a pattern all the way down with the
range of the expression, and level by level it is what the expression was. Nothing else has changed:
the target has been appended, and the expression is still there. -/
theorem becomes_of_assignmentTarget {depth : Nat} {p : Parser NodeId}
    (hp : ExpressionRule (.within depth) p) {c c' : Context} {s s₁ s₂ : State} {id target : NodeId}
    (hread : p c s = .ok id s₁) (hconvert : assignmentTarget id c' s₁ = .ok target s₂) :
    s₂.tree.range? target = s₁.tree.range? id ∧ s₂.tree.IsPattern .target target ∧
      s₂.tree.Becomes id target ∧ Tree.GrowsIn Node.unheld s₁.tree s₂.tree := by
  have hrules : ∀ final, ReadsWhole final c p :=
    fun final => whole_expressionRule (assignable_within final depth) hp
  obtain ⟨hgrows, hturns⟩ := turns_assignmentTarget id s₁ target s₂ hconvert (.refl _ s₂.tree)
  have hwhole : s₂.tree.IsWhole id := (hrules s₂.tree s id s₁ hread hgrows).2
  obtain ⟨hpattern, hbecomes⟩ := hturns .target (hwhole .target rfl)
  -- The expression was there before the target.
  obtain ⟨node, hget⟩ : ∃ node, s₁.tree.get? id = some node := by
    have hbefore : s₁.tree.IsWhole id := (hrules s₁.tree s id s₁ hread (.refl _ s₁.tree)).2
    have hexpression := hbefore .target rfl
    exact hexpression.exists_get?
  obtain ⟨parent, hget'⟩ := (hgrows id node.unheld (Tree.shows_of_get? hget)).get?
  have hrange : s₂.tree.range? id = s₁.tree.range? id := by
    simp [Tree.range?, Tree.face?, hget, hget', Node.face]
  exact ⟨hbecomes.range?.trans hrange, hpattern, hbecomes, hgrows⟩

omit h in
/-- A pattern in a pattern, with a hole, defaults and rest elements. -/
theorem becomes_of_assignmentTarget_nested : ∃ id s₁ target s₂,
    conditional (.within 3) false {} (.atStart "[a, , {b: c = 1, ...d.e}]".toList) =
        .ok id s₁ ∧ assignmentTarget id {} s₁ = .ok target s₂ ∧
      s₂.tree.IsPattern .target target ∧ s₂.tree.Becomes id target := by
  let text := "[a, , {b: c = 1, ...d.e}]".toList
  have hanswers : ((do assignmentTarget (← conditional (.within 3) false) : Parser NodeId) {}
      |>.run' (.atStart text)).isSome := by
    decide +kernel
  unfold EStateM.run' EStateM.run at hanswers
  cases hread : conditional (.within 3) false {} (.atStart text) with
  | error e s₁ =>
      rw [bind_error hread] at hanswers
      cases hanswers
  | ok id s₁ =>
      rw [bind_ok hread] at hanswers
      cases hconvert : assignmentTarget id {} s₁ with
      | error e s₂ =>
          rw [hconvert] at hanswers
          cases hanswers
      | ok target s₂ =>
          obtain ⟨-, hpattern, hbecomes, -⟩ :=
            becomes_of_assignmentTarget (.conditional false) hread hconvert
          exact ⟨id, s₁, target, s₂, rfl, hconvert, hpattern, hbecomes⟩

end Grammar

end FlowErasure
