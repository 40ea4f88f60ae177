import FlowErasure.Proofs.Grammar.Expressions

/-!
# Where operands end

What an operator is applied to is read by rules that do not end with an assignment, a conditional or
an arrow function, but for those in parentheses.
-/

namespace FlowErasure.Grammar

variable {α β : Type} {text : List Char} {inner : Nested} {c : Context} {s : State}
  {lo : Nat}

theorem run_last {p : Parser α} {f : α → Parser β} {Q : β → State → Prop}
    (h : ∀ a s', Run (f a) c s' Q) : Run (p >>= f) c s Q :=
  run_bind.mpr fun a s' _ => h a s'

theorem run_expect_token {t : Token} :
    Run (expect t) c s fun _ s' => s.lexer.token = t ∧ s'.tree = s.tree := by
  simp only [expect, run_bind, run_steps, run_ite]
  split
  · rename_i ht
    unfold advance
    rw [run_bind]
    rintro _ _ ⟨⟩
    rw [run_raiseFault]
    exact fun _ => ⟨by simpa using ht, rfl⟩
  · trivial

/-- A round that answers nothing and leaves the state as it is. -/
theorem run_collect_nil {item : Parser (Option α)}
    (hitem : ∀ s, Run item c s fun r s' => r = none → s' = s) :
    Run (collect item) c s fun items s' => items = [] → s' = s := by
  unfold collect
  rw [run_map]
  refine run_iterate (fun items s' => items = [] → s' = s) (fun _ => rfl) ?_
  intro items s₁ hinv
  simp only [run_bind, run_pure]
  refine (hitem s₁).mono fun r s₂ hr => ?_
  cases r with
  | none =>
      intro hnil
      rw [hr rfl]
      exact hinv (List.reverse_eq_nil_iff.mp hnil)
  | some a => simp

/-! ## Operands that are no operators -/

theorem literal_ends : Run literal c s fun id s' => EndsAtom text lo id s' := by
  simp only [literal, run_bind, run_steps]
  exact fun _ _ _ => run_finishAtom rfl

theorem identifierName_ends : Run identifierName c s fun id s' => EndsAtom text lo id s' := by
  simp only [identifierName, run_bind, run_steps, run_ite]
  split
  · trivial
  · exact fun _ _ _ _ _ _ => run_finishAtom rfl

theorem identifier_ends : Run identifier c s fun id s' => EndsAtom text lo id s' := by
  simp only [identifier, run_bind, run_ite, run_steps]
  refine run_isIdentifier fun _ _ => ?_
  split
  · exact identifierName_ends
  · trivial

theorem templateLiteral_ends :
    Run (templateLiteral inner) c s fun id s' => EndsAtom text lo id s' := by
  simp only [templateLiteral, finish, listFrom, run_bind, run_steps, run_ite, run_pure]
  intro _ s₁ _ quasi s₂ _
  split
  · exact fun _ _ _ => run_finishAtom rfl
  · exact run_finishAtom rfl

theorem arrayLiteral_ends : Run (arrayLiteral inner) c s fun id s' => EndsAtom text lo id s' := by
  unfold arrayLiteral
  exact run_last fun _ _ => run_last fun _ _ => run_last fun _ _ => run_last fun _ _ =>
    run_last fun _ _ => run_finishAtom rfl

theorem objectLiteral_ends : Run (objectLiteral inner) c s fun id s' => EndsAtom text lo id s' := by
  unfold objectLiteral
  exact run_last fun _ _ => run_last fun _ _ => run_last fun _ _ => run_last fun _ _ =>
    run_last fun _ _ => run_finishAtom rfl

theorem function_ends {start : Nat} {allowAnonymous : Bool} :
    Run (function inner .functionExpression start allowAnonymous) c s fun id s' =>
      EndsAtom text lo id s' := by
  unfold function
  exact run_last fun _ _ => run_last fun _ _ => run_last fun _ _ => run_last fun _ _ =>
    run_last fun _ _ => run_last fun _ _ => run_finishAtom rfl

theorem class_ends {heritage : Parser NodeId} {start : Nat} {allowAnonymous : Bool} :
    Run (classOf inner heritage .classExpression start allowAnonymous) c s fun id s' =>
      EndsAtom text lo id s' := by
  have hrest : ∀ (slots : Slot → NodeId → List Slot) s, Run (do
      let implemented ← implementsClause inner
      let body ← classBody inner
      finish .classExpression start (slots implemented body)) c s fun id s' =>
        EndsAtom text lo id s' := fun _ _ =>
    run_last fun _ _ => run_last fun _ _ => run_finishAtom rfl
  unfold classOf
  refine run_last fun _ _ => run_last fun _ _ => run_last fun _ _ => run_last fun _ _ =>
    run_last fun _ _ => run_last fun _ _ => ?_
  simp only
  split
  · exact run_last fun _ _ => run_last fun _ _ => run_last fun _ _ => hrest _ _
  · exact run_last fun _ _ => hrest _ _

theorem accessesAndCalls_ends {start : Nat} {allowCall : Bool} {object : NodeId}
    (h : EndsAtom text lo object s) :
    Run (accessesAndCalls inner start allowCall object) c s fun id s' =>
      EndsAtom text lo id s' := by
  unfold accessesAndCalls
  refine run_iterate (fun object s' => EndsAtom text lo object s') h ?_
  intro object s₁ h₁
  -- Whatever is applied to an object, the whole is an operand again.
  have hround : ∀ {kind slots details s₂} {Q : Option NodeId → State → Prop}, kind.isAtom →
      (∀ id s', EndsAtom text lo id s' → Q (some id) s') →
      Run (finishWith kind start slots details >>= fun id => pure (some id)) c s₂ Q := by
    intro kind slots details s₂ Q hkind hQ
    simp only [run_bind, run_pure]
    exact (run_finishAtom hkind).mono hQ
  simp only [finish, run_bind, run_steps]
  split
  · exact run_last fun _ _ => run_last fun _ _ => hround rfl fun _ _ h => h
  · exact run_last fun _ _ => run_last fun _ _ => run_last fun _ _ => hround rfl fun _ _ h => h
  · split
    · exact run_last fun _ _ => hround rfl fun _ _ h => h
    · exact run_pure.mpr h₁
  iterate 2
    · exact run_last fun _ _ => hround rfl fun _ _ h => h
  · exact run_pure.mpr h₁

theorem newExpression_ends {operand : Parser NodeId} :
    Run (newExpression inner operand) c s fun id s' => EndsAtom text lo id s' := by
  have hrest : ∀ (start calleeStart : Nat) callee s, Run (do
      let callee ← accessesAndCalls inner calleeStart false callee
      let arguments ← if ← isAt .openParen then arguments inner else pure .absent
      finish .newExpression start [.node callee, arguments]) c s fun id s' =>
        EndsAtom text lo id s' := by
    intro start calleeStart callee s
    refine run_last fun _ _ => ?_
    simp only [run_bind, run_steps, run_ite]
    split
    · exact fun _ _ _ => run_finishAtom rfl
    · exact run_pure.mpr (run_finishAtom rfl)
  unfold newExpression
  refine run_last fun _ _ => run_last fun _ _ => run_last fun _ _ => run_last fun _ _ => ?_
  split
  · exact run_last fun _ _ => hrest _ _ _ _
  · exact run_last fun _ _ => hrest _ _ _ _

/-! ## Operands in parentheses -/

section

variable (hinner : inner.Sound text)

include hinner

theorem expression_ends (hs : Good text s) :
    Run (expression inner) c s fun id s' => Ends text false id s' := by
  have hround : ∀ s, Run (do if ← accept .comma then some <$> inner.assignment else return none) c s
      fun r s' => r = none → s' = s := by
    intro s
    simp only [accept, run_bind, run_steps, run_ite, run_map, run_pure]
    split
    · exact fun _ _ _ _ _ _ hnone => absurd hnone (by simp)
    · simp
  simp only [expression, finish, listFrom, run_bind, run_steps, run_ite, run_pure]
  refine (hinner.ends c s hs).mono fun first s₁ hfirst => ?_
  refine (run_collect_nil hround).mono fun more s₂ hmore => ?_
  split
  · rename_i hnil
    rw [hmore (List.isEmpty_iff.mp hnil)]
    exact hfirst.mono (by simp)
  · exact (run_finishOperand rfl).mono fun _ _ h => h.ends false

theorem parenthesizedExpression_ends (hs : Good text s) :
    Run (parenthesizedExpression inner) c s fun id s' => EndsAtom text s.lexer.start id s' := by
  simp only [parenthesizedExpression, allowingIn, run_bind, run_steps, run_ite, run_pure]
  refine (run_expect hs (by decide)).mono fun _ s₁ h₁ => ?_
  refine ((expression_rule hinner _ s₁ h₁.good).and
    (expression_ends hinner h₁.good)).mono fun expression s₂ h₂ => ?_
  split
  · trivial
  · refine (run_expect_token.and (run_expect h₂.1.good (by decide))).mono ?_
    rintro _ s₃ ⟨⟨htoken, htree⟩, h₃⟩ node hget
    rw [htree] at hget
    obtain ⟨face, hface, hge, -, hle, -⟩ := h₂.1.laid
    obtain rfl := Option.some.inj ((Tree.face?_of_get? hget).symm.trans hface)
    refine .inl ⟨h₂.2.closed h₂.1.good htoken hget, ?_, ?_⟩
    · exact Nat.lt_of_lt_of_le h₁.lt (Nat.le_trans h₁.good.order hge)
    · exact Nat.lt_of_le_of_lt (Nat.le_trans hle h₂.1.good.order) h₃.lt

theorem primary_ends {heritage : Parser NodeId} (hs : Good text s) :
    Run (primary inner heritage) c s fun id s' => EndsAtom text s.lexer.start id s' := by
  simp only [primary, finish, run_bind, run_steps]
  split
  · exact run_last fun _ _ => run_finishAtom rfl
  iterate 5
    · exact literal_ends
  iterate 2
    · exact run_last fun _ _ => literal_ends
  iterate 2
    · exact templateLiteral_ends
  · exact parenthesizedExpression_ends hinner hs
  · exact arrayLiteral_ends
  · exact objectLiteral_ends
  · exact function_ends
  · simp only [startsAsyncFunction, run_bind, run_steps, run_ite]
    split
    · exact function_ends
    · exact identifier_ends
  · exact class_ends
  · exact run_failUnexpected.mpr trivial
  · rw [run_bind]
    refine run_isIdentifier fun named _ => ?_
    split
    · exact identifier_ends
    · simp only [run_steps]

theorem leftHandSide_ends (hs : Good text s) :
    Run (leftHandSide inner) c s fun id s' => EndsAtom text s.lexer.start id s' := by
  simp only [leftHandSide, leftHandSideWithin, finish, run_bind, run_steps]
  split
  · exact run_bind.mpr (newExpression_ends.mono fun _ _ => accessesAndCalls_ends)
  · rw [run_bind]
    exact fun _ _ _ => run_bind.mpr ((run_finishAtom rfl).mono fun _ _ => accessesAndCalls_ends)
  · exact run_bind.mpr ((primary_ends hinner hs).mono fun _ _ => accessesAndCalls_ends)

/-! ## Operators -/

theorem postfixExpression_ends (hs : Good text s) :
    Run (postfixExpression inner) c s fun id s' => EndsAtom text s.lexer.start id s' := by
  simp only [postfixExpression, run_bind, run_steps, run_ite, run_pure]
  refine (leftHandSide_ends hinner hs).mono fun operand s₁ h₁ => ?_
  split
  · exact fun _ _ _ => run_finishAtom rfl
  · exact h₁

theorem unary_ends (hs : Good text s) :
    Run (unary inner) c s fun id s' => EndsAtom text s.lexer.start id s' := by
  have hprefix : ∀ kind : NodeKind, kind.isAtom →
      Run (prefixOperation inner kind) c s fun id s' => EndsAtom text s.lexer.start id s' := fun _ hkind =>
    run_last fun _ _ => run_last fun _ _ => run_last fun _ _ => run_last fun _ _ =>
      run_finishAtom hkind
  simp only [unary, run_bind, run_steps]
  split
  iterate 7
    · exact hprefix _ rfl
  iterate 2
    · exact hprefix _ rfl
  · simp only [run_bind, run_steps, run_ite]
    split
    · exact fun _ _ _ _ _ _ => run_finishAtom rfl
    · exact postfixExpression_ends hinner hs
  · exact postfixExpression_ends hinner hs

end

end FlowErasure.Grammar
