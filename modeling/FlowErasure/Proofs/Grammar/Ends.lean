import FlowErasure.Proofs.Grammar.Finishing

/-!
# Where expressions end

An expression ends with the last token that was consumed, unless it was read in parentheses: then a
closing parenthesis comes after it. At the end of a conditional's first branch no arrow function that
it ends with has a return type. An operation that was read as an operand binds tighter than the
operator before it, and what comes after it does not.
-/

namespace FlowErasure

/-- An expression of this kind does not end with another one. -/
def NodeKind.isOperand (kind : NodeKind) : Bool :=
  !([.arrowFunctionExpression, .assignmentExpression, .conditionalExpression,
    .yieldExpression] : List NodeKind).contains kind

def NodeKind.isAtom (kind : NodeKind) : Bool :=
  kind.isOperand && !kind.isOperation

theorem Node.last?_of_isOperand {node : Node} (h : node.kind.isOperand) : node.last? = none := by
  unfold Node.last?
  split <;> simp_all [NodeKind.isOperand]

namespace Grammar

variable {text : List Char} {c : Context} {s : State} {kind : NodeKind} {start : Nat}
  {slots : List Slot} {details : Details} {tail : Bool} {id : NodeId}

/-- How an expression ends that has just been read; `tail` if it ends the first branch of a
conditional. -/
def Ends (text : List Char) (tail : Bool) (id : NodeId) (s : State) : Prop :=
  ∀ node, s.tree.get? id = some node → FollowedBy text node.stop ')' ∨
    node.stop = s.lastEnd ∧ (tail = true → s.tree.EndsUntyped NodeKind.HandsOn id)

/-- How an operand ends that has just been read: it does not end with another expression, or that is
in parentheses. -/
def EndsOperand (text : List Char) (id : NodeId) (s : State) : Prop :=
  ∀ node, s.tree.get? id = some node → FollowedBy text node.stop ')' ∨
    node.stop = s.lastEnd ∧ node.kind.isOperand

def EndsAtom (text : List Char) (lo : Nat) (id : NodeId) (s : State) : Prop :=
  ∀ node, s.tree.get? id = some node →
    FollowedBy text node.stop ')' ∧ lo < node.start ∧ node.stop < s.lastEnd ∨
    node.stop = s.lastEnd ∧ node.kind.isAtom

theorem EndsAtom.endsOperand {lo : Nat} (h : EndsAtom text lo id s) : EndsOperand text id s := by
  intro node hget
  refine (h node hget).imp And.left fun hstop => ⟨hstop.1, ?_⟩
  have hatom := hstop.2
  rw [NodeKind.isAtom, Bool.and_eq_true] at hatom
  exact hatom.1

/-- An operation between the parentheses does not reach from one to the other. -/
theorem EndsAtom.inside {lo : Nat} (h : EndsAtom text lo id s) {node : Node}
    (hget : s.tree.get? id = some node) (hkind : node.kind.isOperation) :
    lo < node.start ∧ node.stop < s.lastEnd := by
  rcases h node hget with ⟨-, hinside⟩ | ⟨-, hatom⟩
  · exact hinside
  · simp [NodeKind.isAtom, hkind] at hatom

def precedenceIn (c : Context) (t : Token) : Nat :=
  if t == .inKeyword && c.noIn then 0 else t.precedence

def Halts (c : Context) (precedence : Nat) (t : Token) : Prop :=
  precedenceIn c t = 0 ∨ ¬t.Binds precedence

/-- How an operand ends that was read for an operator of some precedence: if it is an operation
itself, and not in parentheses, it belongs together, and what comes next does not belong to it. -/
structure EndsOperation (c : Context) (precedence : Nat) (id : NodeId) (s : State) : Prop where
  binds : ∀ node, s.tree.get? id = some node → node.kind.isOperation → node.stop = s.lastEnd →
    node.token.Binds precedence
  halts : Halts c precedence s.lexer.rereadGreater.token

/-- Less is asked outside of a conditional's first branch. -/
theorem Ends.mono {tail' : Bool} (h : Ends text tail id s) (himp : tail' = true → tail = true) :
    Ends text tail' id s :=
  fun node hget => (h node hget).imp_right fun hstop => ⟨hstop.1, fun htail => hstop.2 (himp htail)⟩

theorem EndsOperand.ends (h : EndsOperand text id s) (tail : Bool) : Ends text tail id s := by
  intro node hget
  refine (h node hget).imp_right fun hstop => ⟨hstop.1, fun _ x arrow hends hx harrow => ?_⟩
  have hkind := hstop.2
  cases hends with
  | refl =>
      obtain rfl := Option.some.inj (hget.symm.trans hx)
      rw [harrow] at hkind
      exact absurd hkind (by decide)
  | step hget' _ hlast =>
      obtain rfl := Option.some.inj (hget.symm.trans hget')
      rw [Node.last?_of_isOperand hkind] at hlast
      exact absurd hlast (by simp)

/-- A closing parenthesis is the current token, and will be consumed. -/
theorem Ends.closed (h : Ends text tail id s) (hs : Good text s)
    (ht : s.lexer.token = .closeParen) {node : Node} (hget : s.tree.get? id = some node) :
    FollowedBy text node.stop ')' := by
  rcases h node hget with hfollowed | ⟨hstop, -⟩
  · exact hfollowed
  · rw [hstop]
    exact hs.followedBy (ht ▸ by decide)

theorem run_finished :
    Run (finishWith kind start slots details) c s fun id s' =>
      s'.tree.get? id = some (finished s kind start slots details) ∧
        s.tree.SameUpTo s'.tree s.tree.size ∧ s'.lastEnd = s.lastEnd := by
  rintro _ _ ⟨⟩
  exact ⟨Tree.get?_add_self _ _, Tree.sameUpTo_add _ _, rfl⟩

theorem run_finishOperand (hkind : kind.isOperand) :
    Run (finishWith kind start slots details) c s fun id s' => EndsOperand text id s' := by
  refine run_finished.mono fun id s' h node hget => ?_
  obtain ⟨hfinished, -, hlast⟩ := h
  obtain rfl := Option.some.inj (hfinished.symm.trans hget)
  exact .inr ⟨hlast.symm, hkind⟩

theorem run_finishAtom {lo : Nat} (hkind : kind.isAtom) :
    Run (finishWith kind start slots details) c s fun id s' => EndsAtom text lo id s' := by
  refine run_finished.mono fun id s' h node hget => ?_
  obtain ⟨hfinished, -, hlast⟩ := h
  obtain rfl := Option.some.inj (hfinished.symm.trans hget)
  exact .inr ⟨hlast.symm, hkind⟩

/-- A node ends as its last part does, if it hands on that it ends a first branch. -/
theorem run_finishEnds (hs : Good text s)
    (hpart : kind.HandsOn → ∀ part, (finished s kind start slots details).last? = some part →
      part < s.tree.size ∧ Ends text tail part s)
    (hreturn : tail = true → kind = .arrowFunctionExpression →
      (finished s kind start slots details).child? .returnType = none) :
    Run (finishWith kind start slots details) c s fun id s' => Ends text tail id s' := by
  refine run_finished.mono fun id s' h node hget => ?_
  obtain ⟨hfinished, hsame, hlast⟩ := h
  obtain rfl := Option.some.inj (hfinished.symm.trans hget)
  by_cases hfollowed : FollowedBy text (finished s kind start slots details).stop ')'
  · exact .inl hfollowed
  · refine .inr ⟨hlast.symm, fun htail x arrow hends hx harrow => ?_⟩
    cases hends with
    | refl =>
        obtain rfl := Option.some.inj (hfinished.symm.trans hx)
        exact hreturn htail harrow
    | @step _ part _ _ last hget' halong hpart' hchild hstop hrest =>
        obtain rfl := Option.some.inj (hfinished.symm.trans hget')
        obtain ⟨hlt, hends⟩ := hpart halong part hpart'
        obtain ⟨old, hold, hlast⟩ := hsame part hlt last hchild
        rw [hlast] at hstop
        rcases hends old hold with hparen | ⟨-, huntyped⟩
        · exact absurd (hstop ▸ hparen) hfollowed
        · exact hs.tree.endsUntyped hsame hlt (huntyped htail) x arrow hrest hx harrow

end Grammar

end FlowErasure
