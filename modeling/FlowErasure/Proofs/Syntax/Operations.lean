import FlowErasure.Proofs.Syntax.Tails

/-!
# Operations

An operation is an operator with two operands. Which operations its operands may be, if they are not
in parentheses, is told by the precedence of the two operators. Operators of one precedence associate
to the left, but for `**`, which is the only one of its precedence and associates to the right.
-/

namespace FlowErasure

def NodeKind.isOperation (kind : NodeKind) : Bool :=
  kind == .binaryExpression || kind == .logicalExpression

namespace Token

variable {t u v : Token} {precedence : Nat}

/-- Without parentheses the left operand of `t` may be an operation by `u`. -/
def AllowsLeft (t u : Token) : Prop :=
  t.precedence ≤ u.precedence ∧ t ≠ .asteriskAsterisk

def AllowsRight (t u : Token) : Prop :=
  t.precedence < u.precedence ∨ t = .asteriskAsterisk ∧ u = .asteriskAsterisk

def Binds (t : Token) (precedence : Nat) : Prop :=
  if t = .asteriskAsterisk then precedence ≤ t.precedence else precedence < t.precedence

theorem precedence_le (t : Token) : t.precedence ≤ Token.asteriskAsterisk.precedence := by
  cases t <;> decide

/-- Nothing else binds as tight as `**`. -/
theorem eq_of_precedence (h : t.precedence = Token.asteriskAsterisk.precedence) :
    t = .asteriskAsterisk := by
  revert h
  cases t <;> decide

theorem AllowsLeft.of_not_binds (h : ¬t.Binds u.precedence) : t.AllowsLeft u := by
  unfold Binds at h
  split at h
  · rename_i ht
    exact absurd (ht ▸ u.precedence_le) h
  · rename_i ht
    exact ⟨Nat.le_of_not_lt h, ht⟩

theorem AllowsRight.of_binds (h : u.Binds t.precedence) : t.AllowsRight u := by
  unfold Binds at h
  split at h
  · rename_i hu
    rcases Nat.lt_or_eq_of_le h with hlt | heq
    · exact .inl hlt
    · exact .inr ⟨eq_of_precedence (heq.trans (congrArg precedence hu)), hu⟩
  · exact .inl h

/-- What is allowed below the left operand is allowed at its top. -/
theorem AllowsLeft.trans (h : t.AllowsLeft u) (h' : u.AllowsLeft v ∨ u.AllowsRight v) :
    t.AllowsLeft v := by
  refine ⟨Nat.le_trans h.1 ?_, h.2⟩
  rcases h' with hleft | hlt | ⟨rfl, rfl⟩
  · exact hleft.1
  · exact Nat.le_of_lt hlt
  · exact Nat.le_refl _

theorem AllowsRight.trans (h : t.AllowsRight u) (h' : u.AllowsLeft v ∨ u.AllowsRight v) :
    t.AllowsRight v := by
  rcases h with hlt | ⟨rfl, rfl⟩
  · refine .inl (Nat.lt_of_lt_of_le hlt ?_)
    rcases h' with hleft | hle | ⟨rfl, rfl⟩
    · exact hleft.1
    · exact Nat.le_of_lt hle
    · exact Nat.le_refl _
  · rcases h' with hleft | hright
    · exact absurd rfl hleft.2
    · exact hright

/-- Of two operators at most one may stand on its side of the other. -/
theorem AllowsLeft.not_allowsRight (h : t.AllowsLeft u) : ¬u.AllowsRight t := by
  rintro (hlt | ⟨-, rfl⟩)
  · exact Nat.not_lt_of_le h.1 hlt
  · exact h.2 rfl

end Token

namespace Tree

variable {tree tree' : Tree}

/-- In an operation each operand that is an operation itself is in parentheses or allowed. The left
one is in parentheses if it starts after the operation, the right one if it ends before it. -/
structure Grouped (tree : Tree) (node : Node) : Prop where
  operator : node.kind.isOperation → 0 < node.token.precedence
  left : node.kind.isOperation → ∀ id left, node.child? .left = some id →
    tree.get? id = some left → left.kind.isOperation → left.start = node.start →
      node.token.AllowsLeft left.token
  right : node.kind.isOperation → ∀ id right, node.child? .right = some id →
    tree.get? id = some right → right.kind.isOperation → right.stop = node.stop →
      node.token.AllowsRight right.token

theorem Grouped.of_not {node : Node} (h : node.kind.isOperation = false) : tree.Grouped node :=
  ⟨by simp [h], by simp [h], by simp [h]⟩

theorem SameUpTo.grouped {n : NodeId} (h : SameUpTo tree tree' n) {node : Node}
    (hnode : ∀ c ∈ node.children, c < n) (hgrouped : tree.Grouped node) :
    tree'.Grouped node where
  operator := hgrouped.operator
  left hkind id left' hchild hget' hleft hstart := by
    obtain ⟨left, hget, hsame⟩ := h id (hnode id (Node.mem_children_of_child? hchild)) left' hget'
    rw [hsame] at hleft hstart ⊢
    exact hgrouped.left hkind id left hchild hget hleft hstart
  right hkind id right' hchild hget' hright hstop := by
    obtain ⟨right, hget, hsame⟩ := h id (hnode id (Node.mem_children_of_child? hchild)) right' hget'
    rw [hsame] at hright hstop ⊢
    exact hgrouped.right hkind id right hchild hget hright hstop

end Tree

end FlowErasure
