import FlowErasure.Proofs.Grammar.Operands

/-!
# Operations

An operand is read up to the first operator that does not bind tighter than the one before it. What
has been read to the left of an operator is never an operation that should have been its right
operand, and the other way round: between two operators that stand next to each other both rules ask
which of them the operand in between belongs to.
-/

namespace FlowErasure.Grammar

variable {text : List Char} {inner : Nested} {c : Context} {s s₀ : State} {precedence : Nat}
  {left right : NodeId} {t : Token}

theorem run_precedenceHere {Q : Nat → State → Prop} :
    Run (precedenceHere t) c s Q ↔ Q (precedenceIn c t) s := by
  simp only [precedenceHere, precedenceIn, run_bind, run_steps, run_ite, run_pure]
  split <;> rfl

theorem run_rereadGreater_iff {Q : Unit → State → Prop} :
    Run rereadGreater c s Q ↔ Q () { s with lexer := s.lexer.rereadGreater } := by
  constructor
  · intro h
    exact h _ _ rfl
  · rintro h _ _ ⟨⟩
    exact h

theorem precedenceIn_eq (h : precedenceIn c t ≠ 0) : precedenceIn c t = t.precedence := by
  unfold precedenceIn at h ⊢
  split
  · rename_i hin
    exact absurd (if_pos hin) h
  · rfl

/-- The test with which the loop over operators ends. -/
theorem halts_iff : (decide (precedenceIn c t = 0) || !decide (if (t == .asteriskAsterisk) = true then
    precedence ≤ precedenceIn c t else precedence < precedenceIn c t)) = true ↔
      Halts c precedence t := by
  by_cases hzero : precedenceIn c t = 0
  · simp [Halts, hzero]
  · have hbinds : (if (t == .asteriskAsterisk) = true then precedence ≤ precedenceIn c t
        else precedence < precedenceIn c t) ↔ t.Binds precedence := by
      simp [Token.Binds, precedenceIn_eq hzero]
    simp only [Halts, hbinds, Bool.or_eq_true, decide_eq_true_eq, Bool.not_eq_true',
      decide_eq_false_iff_not]

/-- Operands with operators between them have been read, up to the state `s`; the node `left` stands
for them. If it is an operation, and not in parentheses, it belongs together, and what comes next
does not belong to its right operand. -/
structure Joins (text : List Char) (c : Context) (precedence : Nat) (s₀ : State) (left : NodeId)
    (s : State) : Prop extends Yields text true s₀ [left] s where
  ends : EndsOperand text left s
  binds : ∀ node, s.tree.get? left = some node → node.kind.isOperation → node.stop = s.lastEnd →
    node.token.Binds precedence
  halts : ∀ node, s.tree.get? left = some node → node.kind.isOperation →
    node.start = s₀.lexer.start → Halts c node.token.precedence s.lexer.rereadGreater.token

/-- The first operand is no operation, unless it is in parentheses. -/
theorem Joins.ofAtom (h : Yields text true s₀ [left] s)
    (hatom : EndsAtom text s₀.lexer.start left s) : Joins text c precedence s₀ left s where
  toYields := h
  ends := hatom.endsOperand
  binds _ hget hkind hstop := absurd hstop (Nat.ne_of_lt (hatom.inside hget hkind).2)
  halts _ hget hkind hstart := absurd hstart.symm (Nat.ne_of_lt (hatom.inside hget hkind).1)

theorem Joins.grouped {kind : NodeKind} {s₁ : State} (h : Joins text c precedence s₀ left s)
    (ht : s.lexer.rereadGreater.token = t) (hnext : precedenceIn c t ≠ 0)
    (hkind : kind = .logicalExpression ∨ kind = .binaryExpression)
    (hframe : s₁.tree.get? left = s.tree.get? left)
    (hright : EndsOperation c t.precedence right s₁) :
    s₁.tree.Grouped
      (finished s₁ kind s₀.lexer.start [.node left, .node right] { token := t }) := by
  set node := finished s₁ kind s₀.lexer.start [.node left, .node right] { token := t }
  have hchildren : node.child? .left = some left ∧ node.child? .right = some right := by
    rcases hkind with rfl | rfl <;> exact ⟨rfl, rfl⟩
  refine ⟨fun _ => ?_, fun _ id operand hchild hget hoperation hstart => ?_,
    fun _ id operand hchild hget hoperation hstop => ?_⟩
  · exact Nat.pos_of_ne_zero (precedenceIn_eq hnext ▸ hnext)
  · obtain rfl := Option.some.inj (hchildren.1.symm.trans hchild)
    rcases h.halts operand (hframe ▸ hget) hoperation hstart with hzero | hbinds
    · exact absurd (ht ▸ hzero) hnext
    · rw [ht] at hbinds
      exact .of_not_binds hbinds
  · obtain rfl := Option.some.inj (hchildren.2.symm.trans hchild)
    exact .of_binds (hright.binds operand hget hoperation hstop)

theorem Joins.run_finish {kind : NodeKind} {s₁ : State} (h : Joins text c precedence s₀ left s)
    (ht : s.lexer.rereadGreater.token = t) (hnext : precedenceIn c t ≠ 0)
    (hbinds : t.Binds precedence) (hkind : kind = .logicalExpression ∨ kind = .binaryExpression)
    (h' : Yields text true s [right] s₁) (hright : EndsOperation c t.precedence right s₁) :
    Run (finishWith kind s₀.lexer.start [.node left, .node right] { token := t }) c s₁
      (Joins text c precedence s₀) := by
  have hread := (h.trans h').reads left (by simp)
  have hframe := h'.frame left (h.lt_size (by simp))
  have hfills : s₁.tree.Fills text kind s₀.lexer.start s₁.lastEnd [.node left, .node right] := by
    have hinOrder : kind.isInOrder := by rcases hkind with rfl | rfl <;> rfl
    have hcolon : kind ≠ .conditionalExpression := by rcases hkind with rfl | rfl <;> decide
    refine .ofInOrder hread.good.tree hinOrder ?_ hread.laid (by simp)
      (hread.toYields.needed rfl rfl) ?_ (.of_isBlockless ?_) (Tree.slotsKeepColon_of_ne hcolon _)
    · rcases hkind with rfl | rfl <;> rfl
    · rcases hkind with rfl | rfl <;>
        simp [NodeKind.embedded, NodeKind.childrenWhere, NodeKind.schema, NodeKind.embeds]
    · rcases hkind with rfl | rfl <;> rfl
  have hreading : kind.reading [.node left, .node right] = [left, right] := by
    rcases hkind with rfl | rfl <;> rfl
  have hoperand : kind.isOperand := by rcases hkind with rfl | rfl <;> rfl
  have hstands : Run (finishWith kind s₀.lexer.start [.node left, .node right] { token := t }) c s₁
      fun id s₂ => EndsOperand text id s₂ :=
    run_finishOperand hoperand
  refine (((run_finishFilled hread rfl hreading hfills
    (h.grouped ht hnext hkind hframe hright)).and hstands).and run_finished).mono ?_
  rintro id s₂ ⟨⟨hfinishes, hends⟩, hget, -, -⟩
  refine ⟨hfinishes.yields (by rcases hkind with rfl | rfl <;> rfl), hends, ?_, ?_⟩
  · intro node hnode _ _
    obtain rfl := Option.some.inj (hget.symm.trans hnode)
    exact hbinds
  · intro node hnode _ _
    obtain rfl := Option.some.inj (hget.symm.trans hnode)
    rw [hfinishes.lexer]
    exact hright.halts

section

variable (hinner : inner.Sound text)

include hinner

theorem run_binary (hs : Good text s) :
    Run (binary inner precedence) c s fun id s' => (Yields text true s [id] s' ∧
      EndsOperand text id s') ∧ EndsOperation c precedence id s' := by
  simp only [binary, run_bind, run_steps]
  refine ((unary_rule hinner c s hs).and (unary_ends hinner hs)).mono fun first s₁ h₁ => ?_
  refine run_iterate (Joins text c precedence s) (.ofAtom h₁.1 h₁.2) ?_
  intro left s₂ h₂
  simp only [run_bind, run_rereadGreater_iff, run_precedenceHere, run_steps, run_ite, run_pure]
  have hreread : Yields text true s₂ [] { s₂ with lexer := s₂.lexer.rereadGreater } :=
    h₂.good.reread h₂.good.lexer.rereadGreater (.rereadGreater .refl)
  generalize ht : s₂.lexer.rereadGreater.token = t
  by_cases hhalts : Halts c precedence t
  · rw [if_pos (halts_iff.mpr hhalts)]
    refine ⟨⟨h₂.andThen hreread, h₂.ends⟩, h₂.binds, ?_⟩
    simpa only [Lexer.token_rereadGreater_rereadGreater, ht] using hhalts
  · rw [if_neg fun htest => hhalts (halts_iff.mp htest)]
    simp only [Halts, not_or, not_not] at hhalts
    obtain ⟨hnext, hbinds⟩ := hhalts
    have hend : s₂.lexer.rereadGreater.token ≠ .endOfFile := by
      rintro hend
      obtain rfl := ht.symm.trans hend
      exact hnext rfl
    refine (run_advance hreread.good hend).mono fun _ s₃ h₃ => ?_
    rw [precedenceIn_eq hnext]
    refine ((hinner.binary t.precedence c s₃ h₃.good).and
      (hinner.operation t.precedence c s₃ h₃.good)).mono fun right s₄ h₄ => ?_
    have hkind : (if t.isLogical then NodeKind.logicalExpression else .binaryExpression) =
        .logicalExpression ∨ (if t.isLogical then NodeKind.logicalExpression
          else .binaryExpression) = .binaryExpression := by
      cases t.isLogical <;> simp
    exact h₂.run_finish ht hnext hbinds hkind (hreread.before (h₃.toYields.before h₄.1)) h₄.2

theorem binary_rule (precedence : Nat) : Rule text true (binary inner precedence) :=
  fun _ _ hs => (run_binary hinner hs).mono fun _ _ h => h.1.1

theorem binary_ends (hs : Good text s) :
    Run (binary inner precedence) c s fun id s' => EndsOperand text id s' :=
  (run_binary hinner hs).mono fun _ _ h => h.1.2

theorem binary_operation (hs : Good text s) :
    Run (binary inner precedence) c s (EndsOperation c precedence) :=
  (run_binary hinner hs).mono fun _ _ h => h.2

end

end FlowErasure.Grammar
