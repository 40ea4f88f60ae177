import FlowErasure.Grammar.Expressions
import FlowErasure.Proofs.Grammar.Functions
import FlowErasure.Proofs.Grammar.Targets

/-!
# Expressions

No expression is a type. The rules that go on from what has been read to their left start at the
state in which that was begun.
-/

namespace FlowErasure.Grammar

variable {text : List Char} {inner : Nested} {c : Context} {s s₀ : State}

section

variable (hinner : inner.Sound text)

include hinner

theorem expression_rule : Rule text true (expression inner) := by
  intro c s hs
  simp only [expression, finish, listFrom, run_bind, run_steps, run_ite, run_pure]
  refine (hinner.assignment c s hs).mono fun first s₁ h₁ => ?_
  refine (run_collect_afterComma h₁.good fun s hs => hinner.assignment c s hs).mono
    fun more s₂ h₂ => ?_
  split
  · rename_i hmore
    obtain rfl : more = [] := List.isEmpty_iff.mp hmore
    exact h₁.andThen h₂
  · have hall := h₁.trans h₂
    exact run_finishWhole (hall.reads first (by simp)) (by simp) rfl (by decide)

theorem spreadOrAssignment_rule : Rule text true (spreadOrAssignment inner) := by
  intro c s hs
  simp only [spreadOrAssignment, finish, run_bind, run_steps, run_ite]
  split
  · rename_i ht
    refine (run_advance hs (by simp_all)).mono
      fun _ s₁ h₁ => ?_
    refine (hinner.assignment c s₁ h₁.good).mono fun argument s₂ h₂ => ?_
    exact run_finish (h₁.trans h₂) rfl (by simp) rfl (by decide)
  · exact hinner.assignment c s hs

/-! ## Literals -/

theorem parenthesizedExpression_rule : Rule text true (parenthesizedExpression inner) := by
  intro c s hs
  simp only [parenthesizedExpression, allowingIn, run_bind, run_steps, run_ite, run_pure]
  refine (run_expect hs (by decide)).mono fun _ s₁ h₁ => ?_
  refine (expression_rule hinner _ s₁ h₁.good).mono fun expression s₂ h₂ => ?_
  split
  · trivial
  · refine (run_expect h₂.good (by decide)).mono fun _ s₃ h₃ => ?_
    exact h₁.toYields.before (h₂.andThen h₃.toYields)

structure ReadsTemplate (text : List Char) (s₀ : State) (quasis expressions : List NodeId)
    (s : State) : Prop extends Yields text true s₀ (turns quasis expressions) s where
  length : quasis.length = expressions.length + 1

theorem run_templateRest {quasi : NodeId} (h : Yields text true s₀ [quasi] s) :
    Run (templateRest inner quasi) c s fun r s' => ReadsTemplate text s₀ r.1 r.2 s' := by
  simp only [templateRest, allowingIn, finish, run_bind, run_pure]
  refine run_iterate (fun a s' => ReadsTemplate text s₀ a.1.reverse a.2.1.reverse s') ⟨h, rfl⟩ ?_
  rintro ⟨quasis, expressions, ended⟩ s₁ ⟨h₁, hlength⟩
  simp only [run_bind, run_steps, run_ite, run_pure]
  split
  · exact ⟨h₁, hlength⟩
  · refine (expression_rule hinner _ s₁ h₁.good).mono fun expression s₂ h₂ => ?_
    split
    · trivial
    · rename_i hbrace
      have hbrace : s₂.lexer.token = .closeBrace := by simpa using hbrace
      refine (run_rereadBrace h₂.good).mono fun _ s₃ h₃ => ?_
      have ht : s₃.lexer.token ≠ .endOfFile := h₃.2 ▸ Lexer.token_rereadBrace hbrace
      refine (run_advance h₃.1.good ht).mono fun _ s₄ h₄ => ?_
      refine (run_finish (v := true) h₄ rfl rfl rfl (by decide)).mono
        fun quasi s₅ h₅ => ?_
      have hread := h₁.trans (h₂.trans (h₃.1.before h₅))
      refine ⟨?_, by simpa using hlength⟩
      rw [List.reverse_cons, List.reverse_cons, turns_concat _ _ quasi expression hlength]
      exact hread

theorem run_templateLiteral (hs : Good text s) (ht : s.lexer.token ≠ .endOfFile) :
    Run (templateLiteral inner) c s fun id s' => Yields text true s [id] s' := by
  simp only [templateLiteral, finish, listFrom, run_bind, run_steps, run_ite, run_pure]
  refine (run_advance hs ht).mono fun _ s₁ h₁ => ?_
  refine (run_finish (v := true) h₁ rfl rfl rfl (by decide)).mono fun quasi s₂ h₂ => ?_
  have hend : ∀ quasis expressions s₃, ReadsTemplate text s quasis expressions s₃ →
      Run (finishWith .templateLiteral s.lexer.start
        [.list ⟨quasis.map some, s.lexer.start, s₃.lastEnd⟩,
          .list ⟨expressions.map some, s.lexer.start, s₃.lastEnd⟩] {}) c s₃
        fun id s' => Yields text true s [id] s' := by
    intro quasis expressions s₃ h₃
    have hperm := turns_perm quasis expressions
    have hpos : 0 < quasis.length := h₃.length ▸ Nat.succ_pos _
    obtain ⟨first, hfirst⟩ := List.exists_mem_of_length_pos hpos
    have hread := h₃.reads first (hperm.mem_iff.mpr (List.mem_append_left _ hfirst))
    have hreading : NodeKind.templateLiteral.reading
        [.list ⟨quasis.map some, s.lexer.start, s₃.lastEnd⟩,
          .list ⟨expressions.map some, s.lexer.start, s₃.lastEnd⟩] = turns quasis expressions := by
      simp [NodeKind.reading]
    refine (run_finishFilled hread rfl hreading
      ⟨rfl, hreading.symm ▸ h₃.laid, fun _ => by simpa using h₃.length, ?_, fun hkind => absurd rfl hkind,
        ?_, by simp [NodeKind.embedded, NodeKind.childrenWhere, NodeKind.schema, NodeKind.embeds],
        .of_isBlockless rfl, Tree.slotsKeepColon_of_ne (by decide) _⟩ (.of_not rfl)).mono
      fun id s' h' => h'.yields rfl
    · have hquasis := hread.within (quasis.map some) fun id hid =>
        hperm.mem_iff.mpr (List.mem_append_left _ (by simpa using hid))
      have hexpressions := hread.within (expressions.map some) fun id hid =>
        hperm.mem_iff.mpr (List.mem_append_right _ (by simpa using hid))
      simpa using ⟨hquasis, hexpressions⟩
    · intro child hchild
      refine h₃.values rfl child (hperm.mem_iff.mpr ?_)
      simpa using NodeKind.mem_of_mem_needed hchild
  split
  · exact (run_templateRest hinner h₂).mono fun r s₃ h₃ => hend r.1 r.2 s₃ h₃
  · exact hend [quasi] [] s₂ ⟨h₂, rfl⟩

theorem arrayLiteral_rule : Rule text true (arrayLiteral inner) := by
  intro c s hs
  simp only [arrayLiteral, allowingIn, finish, run_bind, run_steps]
  refine (run_expect hs (by decide)).mono fun _ s₁ h₁ => ?_
  refine (run_elements h₁.good fun s hs => ?_).mono fun nodes s₂ h₂ => ?_
  · simp only [run_steps]
    exact spreadOrAssignment_rule hinner _ s hs
  · refine (run_expect h₂.good (by decide)).mono fun _ s₃ h₃ => ?_
    exact run_finishWhole (h₁.trans (h₂.andThen h₃.toYields)) rfl rfl (by decide)

theorem run_propertyRest {start : Nat} {key : NodeId} {computed canBeShorthand : Bool}
    (h : Yields text true s₀ [key] s) (hstart : start = s₀.lexer.start) :
    Run (propertyRest inner start key computed canBeShorthand) c s fun id s' =>
      Yields text true s₀ [id] s' := by
  simp only [propertyRest, run_bind, run_steps, run_ite]
  refine (run_accept h.good (by decide)).mono fun b s₁ h₁ => ?_
  split
  · refine (hinner.assignment c s₁ h₁.1.good).mono fun value s₂ h₂ => ?_
    have hread := ((h.andThen h₁.1).trans h₂).reads key (by simp)
    exact run_finish hread hstart (by simp) rfl (by decide)
  · split
    · refine (run_shorthandDefault hinner (h.andThen h₁.1) hstart).mono fun value s₂ h₂ => ?_
      exact run_finish (h₂.reads value (by simp)) hstart (by simp) rfl
        (by decide)
    · trivial

theorem objectMember_rule : Rule text true (objectMember inner) := by
  intro c s hs
  simp only [objectMember, run_bind, run_steps, run_ite]
  split
  · exact spreadOrAssignment_rule hinner c s hs
  · refine (run_functionFlags hs).mono fun flags s₁ h₁ => ?_
    refine (run_accessorFlags h₁.good).mono fun flags s₂ h₂ => ?_
    split
    · trivial
    · refine run_isIdentifier fun named _ => ?_
      refine (run_propertyName hinner h₂.good).mono fun r s₃ h₃ => ?_
      have hkey := (h₁.andThen h₂).before h₃
      split
      · refine (run_methodFunction hinner h₃.good).mono fun value s₄ h₄ => ?_
        have hread := (hkey.trans h₄).reads r.1 (by simp)
        exact run_finish hread rfl (by simp) rfl (by decide)
      · split
        · trivial
        · exact run_propertyRest hinner hkey rfl

theorem objectLiteral_rule : Rule text true (objectLiteral inner) := by
  intro c s hs
  simp only [objectLiteral, allowingIn, finish, listFrom, run_bind, run_steps, run_pure]
  refine (run_expect hs (by decide)).mono fun _ s₁ h₁ => ?_
  refine (run_commaTerminated (v := true) h₁.good fun s hs => ?_).mono fun properties s₂ h₂ => ?_
  · simp only [run_steps]
    exact objectMember_rule hinner _ s hs
  · refine (run_expect h₂.good (by decide)).mono fun _ s₃ h₃ => ?_
    exact run_finishWhole (h₁.trans (h₂.andThen h₃.toYields)) (by simp) rfl (by decide)

/-! ## Operands -/

theorem primary_rule {heritage : Parser NodeId} (hheritage : Rule text true heritage) :
    Rule text true (primary inner heritage) := by
  intro c s hs
  simp only [primary, finish, run_bind, run_steps]
  split
  · rename_i ht
    simp only [run_bind]
    refine (run_advance hs (by simp [ht])).mono fun _ s₁ h₁ => ?_
    exact run_finish h₁ rfl rfl rfl (by decide)
  -- Tokens that are literals on their own.
  iterate 5
    · rename_i ht
      exact run_literal hs (by simp [ht])
  iterate 2
    · rename_i ht
      rw [run_bind]
      refine (run_rereadSlash hs).mono fun _ s₁ h₁ => ?_
      have hregex : s₁.lexer.token = .regex := h₁.2 ▸ Lexer.token_rereadSlash (by simp [ht])
      refine (run_literal h₁.1.good (by simp [hregex])).mono fun id s₂ h₂ => h₁.1.before h₂
  iterate 2
    · rename_i ht
      exact run_templateLiteral hinner hs (by simp [ht])
  · exact parenthesizedExpression_rule hinner c s hs
  · exact arrayLiteral_rule hinner c s hs
  · exact objectLiteral_rule hinner c s hs
  · exact run_function hinner hs (.inr rfl)
  · simp only [startsAsyncFunction, run_bind, run_steps, run_ite]
    split
    · exact run_function hinner hs (.inr rfl)
    · exact identifier_rule c s hs
  · exact run_classOf hinner hheritage hs (.inr rfl)
  · exact run_failUnexpected.mpr trivial
  · rw [run_bind]
    refine run_isIdentifier fun named _ => ?_
    split
    · exact identifier_rule c s hs
    · simp only [run_steps]

theorem run_arguments (hs : Good text s) :
    Run (arguments inner) c s fun arguments s' => ReadsList text true s arguments s' := by
  simp only [arguments, allowingIn, listFrom, run_bind, run_steps, run_pure]
  refine (run_expect hs (by decide)).mono fun _ s₁ h₁ => ?_
  refine (run_commaTerminated (v := true) h₁.good fun s hs => ?_).mono fun nodes s₂ h₂ => ?_
  · simp only [run_steps]
    exact spreadOrAssignment_rule hinner _ s hs
  · refine (run_expect h₂.good (by decide)).mono fun _ s₃ h₃ => ?_
    exact (h₁.trans (h₂.andThen h₃.toYields)).list _ (by simp)

omit hinner in
theorem run_finishCall {kind : NodeKind} {callee : NodeId} {arguments : Slot} {s₁ : State}
    (h : Yields text true s₀ [callee] s) (h' : ReadsList text true s arguments s₁)
    (hkind : kind = .callExpression ∨ kind = .newExpression) :
    Run (finishWith kind s₀.lexer.start [.node callee, arguments] {}) c s₁ fun id s' =>
      Yields text true s₀ [id] s' := by
  obtain ⟨items, rfl⟩ := h'.isList
  have hlist := h'.within.mono h.start (Nat.le_refl _)
  refine run_finishList (h.transReads h'.toReads) rfl (by simp) ?_ (by simpa using hlist) ?_
  all_goals rcases hkind with rfl | rfl <;> rfl

theorem run_accessesAndCalls {allowCall : Bool} {object : NodeId}
    (h : Yields text true s₀ [object] s) :
    Run (accessesAndCalls inner s₀.lexer.start allowCall object) c s fun id s' =>
      Yields text true s₀ [id] s' := by
  unfold accessesAndCalls
  refine run_iterate (fun object s' => Yields text true s₀ [object] s') h ?_
  intro object s₁ h₁
  simp only [finish, run_bind, run_steps]
  have hreads : ∀ {s₂ : State} {ids : List NodeId}, Yields text true s₁ ids s₂ →
      Reads text true s₀ ([object] ++ ids) s₂ := fun h₂ => (h₁.trans h₂).reads object (by simp)
  split
  · rename_i ht
    simp only [run_bind, run_pure]
    refine (run_advance h₁.good (by simp [ht])).mono fun _ s₂ h₂ => ?_
    refine (identifierName_rule c s₂ h₂.good).mono fun property s₃ h₃ => ?_
    exact run_finish (hreads (h₂.toYields.before h₃)) rfl rfl rfl (by decide)
  · rename_i ht
    simp only [allowingIn, run_bind, run_steps, run_pure]
    refine (run_advance h₁.good (by simp [ht])).mono fun _ s₂ h₂ => ?_
    refine (expression_rule hinner _ s₂ h₂.good).mono fun property s₃ h₃ => ?_
    refine (run_expect h₃.good (by decide)).mono fun _ s₄ h₄ => ?_
    have hproperty := (h₂.toYields.before h₃).andThen h₄.toYields
    exact run_finish (hreads hproperty) rfl rfl rfl (by decide)
  · simp only [run_ite, run_bind, run_pure]
    split
    · exact (run_arguments hinner h₁.good).mono fun arguments s₂ h₂ => run_finishCall h₁ h₂ (.inl rfl)
    · exact h₁
  iterate 2
    · rename_i ht
      simp only [run_bind, run_pure]
      refine (run_templateLiteral hinner h₁.good (by simp [ht])).mono fun quasi s₂ h₂ => ?_
      exact run_finish (hreads h₂) rfl rfl rfl (by decide)
  · exact run_pure.mpr h₁

theorem newExpression_rule {operand : Parser NodeId} (hoperand : Rule text true operand) :
    TokenRule text true (newExpression inner operand) := by
  intro c s hs ht
  simp only [newExpression, finish, run_bind, run_steps, run_ite, run_pure]
  refine (run_advance hs ht).mono fun _ s₁ h₁ => ?_
  have hrest : ∀ callee s₂, Yields text true s₁ [callee] s₂ →
      Run (accessesAndCalls inner s₁.lexer.start false callee) c s₂ fun callee s' =>
        if (s'.lexer.token == .openParen) = true then
          Run (arguments inner) c s' fun arguments s' =>
            Run (finishWith .newExpression s.lexer.start [.node callee, arguments] {}) c s' fun id s' =>
              Yields text true s [id] s'
        else
          Run (finishWith .newExpression s.lexer.start [.node callee, .absent] {}) c s' fun id s' =>
            Yields text true s [id] s' := by
    intro callee s₂ h₂
    refine (run_accessesAndCalls hinner h₂).mono fun callee s₃ h₃ => ?_
    have hcallee := h₁.trans h₃
    split
    · refine (run_arguments hinner h₃.good).mono fun arguments s₄ h₄ => ?_
      exact run_finishCall hcallee.toYields h₄ (.inr rfl)
    · exact run_finishList hcallee rfl rfl rfl (by simp) (by decide)
  split
  · rename_i hnew
    exact (hinner.construction c s₁ h₁.good fun heq => by simp [heq] at hnew).mono hrest
  · exact (hoperand c s₁ h₁.good).mono hrest

theorem leftHandSideWithin_rule (bound : Nat) : Rule text true (leftHandSideWithin inner bound) := by
  induction bound with
  | zero =>
      intro c s _
      exact run_failUnexpected.mpr trivial
  | succ bound ih =>
      intro c s hs
      have hoperand := primary_rule hinner ih
      have hrest : ∀ expression s₁, Yields text true s [expression] s₁ →
          Run (accessesAndCalls inner s.lexer.start true expression) c s₁ fun id s' =>
            Yields text true s [id] s' :=
        fun expression s₁ h₁ => run_accessesAndCalls hinner h₁
      simp only [leftHandSideWithin, finish, run_bind, run_steps]
      split
      · rename_i ht
        rw [run_bind]
        exact (newExpression_rule hinner hoperand c s hs (by simp [ht])).mono hrest
      · rename_i ht
        simp only [run_bind]
        refine (run_advance hs (by simp [ht])).mono fun _ s₁ h₁ => ?_
        exact (run_finish h₁ rfl rfl rfl (by decide)).mono hrest
      · rw [run_bind]
        exact (hoperand c s hs).mono hrest

theorem leftHandSide_rule : Rule text true (leftHandSide inner) := by
  intro c s hs
  simp only [leftHandSide, run_bind, run_steps]
  exact leftHandSideWithin_rule hinner _ c s hs

theorem construction_rule : TokenRule text true (construction inner) :=
  newExpression_rule hinner (primary_rule hinner (leftHandSide_rule hinner))

/-! ## Operators -/

theorem postfixExpression_rule : Rule text true (postfixExpression inner) := by
  intro c s hs
  simp only [postfixExpression, run_bind, run_steps, run_ite, run_pure]
  refine (leftHandSide_rule hinner c s hs).mono fun operand s₁ h₁ => ?_
  split
  · rename_i hoperator
    have ht : s₁.lexer.token ≠ .endOfFile := fun heq => by simp [heq] at hoperator
    refine (run_advance h₁.good ht).mono fun _ s₂ h₂ => ?_
    exact run_finish ((h₁.andThen h₂.toYields).reads operand (by simp)) rfl rfl rfl (by decide)
  · exact h₁

theorem prefixOperation_rule {kind : NodeKind}
    (hkind : kind = .unaryExpression ∨ kind = .updateExpression) :
    TokenRule text true (prefixOperation inner kind) := by
  intro c s hs ht
  simp only [prefixOperation, run_bind, run_steps]
  refine (run_advance hs ht).mono fun _ s₁ h₁ => ?_
  refine (hinner.unary c s₁ h₁.good).mono fun argument s₂ h₂ => ?_
  refine run_finish (h₁.trans h₂) rfl rfl ?_ ?_
  all_goals rcases hkind with rfl | rfl <;> rfl

theorem unary_rule : Rule text true (unary inner) := by
  intro c s hs
  simp only [unary, run_bind, run_steps]
  split
  iterate 7
    · rename_i ht
      exact prefixOperation_rule hinner (.inl rfl) c s hs (by simp [ht])
  iterate 2
    · rename_i ht
      exact prefixOperation_rule hinner (.inr rfl) c s hs (by simp [ht])
  · rename_i ht
    simp only [finish, run_bind, run_steps, run_ite]
    split
    · refine (run_advance hs (by simp [ht])).mono fun _ s₁ h₁ => ?_
      refine (hinner.unary c s₁ h₁.good).mono fun argument s₂ h₂ => ?_
      exact run_finish (h₁.trans h₂) rfl rfl rfl (by decide)
    · exact postfixExpression_rule hinner c s hs
  · exact postfixExpression_rule hinner c s hs

end

end FlowErasure.Grammar
