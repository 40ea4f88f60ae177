import FlowErasure.Proofs.Nesting.Constructions

/-!
# How deep a source may be nested

The tree of a source has a rank for the last level of nesting, so that no kind occurs on a way down
more often than there are places for it on the levels.
-/

namespace FlowErasure

namespace Grammar

def Refuses (p : Parser NodeId) : Prop :=
  ∀ c s, p c s = .error
    { start := s.lexer.start, length := s.lexer.pos - s.lexer.start
      message := .nestingDepthExceeded, arguments := ["1000"] } s

structure Nested.Refusing (inner : Nested) : Prop where
  statement : Refuses inner.statement
  assignment : Refuses inner.assignment
  binary : ∀ precedence, Refuses (inner.binary precedence)
  unary : Refuses inner.unary
  construction : Refuses inner.construction
  bindingTarget : ∀ allowOptional, Refuses (inner.bindingTarget allowOptional)
  classMember : Refuses inner.classMember
  type : Refuses inner.type
  prefixType : Refuses inner.prefixType
  primaryType : Refuses inner.primaryType
  typeMember : ∀ allowStatic, Refuses (inner.typeMember allowStatic)

theorem refuses_failTooDeep : Refuses failTooDeep := by
  intro c s
  have hlimit : toString nestingLimit = "1000" := by decide
  unfold failTooDeep failAtTokenWith
  rw [hlimit]
  rfl

theorem refusing_exhausted : Nested.exhausted.Refusing where
  statement := refuses_failTooDeep
  assignment := refuses_failTooDeep
  binary _ := refuses_failTooDeep
  unary := refuses_failTooDeep
  construction := refuses_failTooDeep
  bindingTarget _ := refuses_failTooDeep
  classMember := refuses_failTooDeep
  type := refuses_failTooDeep
  prefixType := refuses_failTooDeep
  primaryType := refuses_failTooDeep
  typeMember _ := refuses_failTooDeep

theorem ranks_program (final : Tree) (c : Context) :
    RanksBelow final c (16 * nestingLimit + 16 + 1) program := by
  have hstatement : RanksBelow final c (16 * nestingLimit + 16) rules.statement :=
    (ranks_within final nestingLimit).statement
  have hfits : NodeKind.program.fitsAt (16 * nestingLimit + 16) := by decide
  have hshebang : Quiet (modify fun s => { s with lexer := s.lexer.skipShebang } : Parser Unit) :=
    quiet_modify fun _ => rfl
  refine .quiet fun _ => .quiet fun _ => ?_
  refine (AllRankBelow.collect (n := 16 * nestingLimit + 16) ?_).bind fun statements => ?_
  · exact .quiet fun _ => .ite (.pure (by simp)) (hstatement.map (by simp))
  · refine .quiet fun s => (AnswersIn.addNode _).mono fun root hshape hstatements => ?_
    exact .of_children (Nat.lt_succ_self _) hfits hshape (by simpa using hstatements)

end Grammar

open Grammar

theorem below_root_of_parse {text : List Char} {fileName : Option String} {parsed : Parsed}
    (h : parse text fileName = .ok parsed) :
    parsed.tree.Below (16 * nestingLimit + 16 + 1) parsed.root := by
  simp only [parse, State.readProgram] at h
  cases hrun : program {} (.ofText text) with
  | ok root s =>
      simp only [hrun] at h
      obtain rfl := Except.ok.inj h
      exact (ranks_program s.tree _ _ _ _ hrun fun _ _ hid => hid).2
  | error failure s => simp [hrun] at h

/-- On a way down that goes into no class that is extended and no target of a rest element, a kind is
entered at most once for each level of nesting, and twice if a level has two places for it, other
than along left spines. One level below the last nothing is read. -/
theorem nesting_le_of_parse {text : List Char} {fileName : Option String} {parsed : Parsed}
    (h : parse text fileName = .ok parsed) {above steps : List Step} {a b : NodeId}
    (habove : parsed.tree.Leads parsed.root above a) (hsteps : parsed.tree.Leads a steps b)
    (hguarded : ∀ step ∈ steps, step.isUnguarded = false) (kind : NodeKind) :
    steps.countP (Step.counts kind) ≤ nestingLimit * kind.width ∧
      (Nested.within 0).Refusing := by
  have hbelow := (below_root_of_parse h).of_leads habove
  refine ⟨?_, refusing_exhausted⟩
  calc steps.countP (Step.counts kind)
      ≤ Nat.count (fun rank => kind.fitsAt rank) (16 * nestingLimit + 16) :=
        hbelow.countP_le hsteps hguarded kind
    _ ≤ nestingLimit * kind.width := kind.count_le nestingLimit

theorem nesting_le_of_parse_subscripts : ∃ parsed steps leaf,
    parse "a[b[c]]".toList none = .ok parsed ∧ parsed.tree.Leads parsed.root steps leaf ∧
      steps.countP (Step.counts .memberExpression) = 2 ∧
      steps.countP (Step.counts .memberExpression) ≤
        nestingLimit * NodeKind.memberExpression.width := by
  let steps : List Step :=
    [⟨.program, .body, .expressionStatement⟩, ⟨.expressionStatement, .expression, .memberExpression⟩,
     ⟨.memberExpression, .property, .memberExpression⟩, ⟨.memberExpression, .property, .identifier⟩]
  have hwalk : (parse "a[b[c]]".toList none).toOption.bind (fun parsed =>
      parsed.tree.walk? parsed.root [.body, .expression, .property, .property]) =
        some (steps, 2) := by
    decide +kernel
  obtain ⟨parsed, hparsed, hwalk⟩ := Option.bind_eq_some_iff.mp hwalk
  have hparse : parse "a[b[c]]".toList none = .ok parsed := by
    cases hparse : parse "a[b[c]]".toList none with
    | error e =>
        rw [hparse] at hparsed
        cases hparsed
    | ok other =>
        rw [hparse] at hparsed
        exact congrArg Except.ok (Option.some.inj hparsed)
  have hleads := Tree.leads_of_walk? hwalk
  refine ⟨parsed, steps, 2, hparse, hleads, by decide, ?_⟩
  exact (nesting_le_of_parse hparse (.nil _) hleads (by decide) .memberExpression).1

/-- The levels of nesting alone are no bound: a level has room for two member expressions. -/
theorem exists_nesting_exceeding_limit : ¬∀ (text : List Char) (fileName : Option String)
    (parsed : Parsed), parse text fileName = .ok parsed → ∀ steps b,
      parsed.tree.Leads parsed.root steps b → ∀ kind,
        steps.countP (Step.counts kind) ≤ nestingLimit := by
  intro h
  obtain ⟨parsed, hparse, steps, leaf, hleads, hle⟩ := exists_constructions (n := 501) (by decide)
  have hbound := h (constructions 501) none parsed hparse steps leaf hleads .memberExpression
  have hlimit : nestingLimit = 1000 := rfl
  omega

end FlowErasure
