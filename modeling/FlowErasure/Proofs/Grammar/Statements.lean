import FlowErasure.Proofs.Grammar.Declarations

/-!
# Statements

Every statement means something when the program runs, except for the declarations of types.
-/

namespace FlowErasure.Grammar

variable {text : List Char} {inner : Nested} {c : Context} {s s₀ : State}

theorem run_startsErasedDeclaration {Q : Bool → State → Prop}
    (h : ∀ b, startsErasedDeclaration c s = .ok b s → Q b s) :
    Run startsErasedDeclaration c s Q := by
  have hsame : Run startsErasedDeclaration c s fun _ s' => s' = s := by
    simp only [startsErasedDeclaration, startsTypeDeclaration, startsDeclareDeclaration, run_bind,
      run_steps]
    split
    iterate 3
      · simp only [run_steps]
    · exact run_pure.mpr rfl
  intro b s' hrun
  obtain rfl := hsame b s' hrun
  exact h b hrun

theorem run_startsVariables {Q : Bool → State → Prop}
    (h : ∀ b, (b = true → s.lexer.token ≠ .endOfFile) → Q b s) : Run startsVariables c s Q := by
  simp only [startsVariables, startsLetDeclaration, run_bind, run_steps]
  split
  iterate 2
    · rename_i ht
      exact run_pure.mpr (h _ fun _ => by simp [ht])
  · rename_i ht
    simp only [run_steps]
    exact h _ fun _ => by simp [ht]
  · exact run_pure.mpr (h _ (by simp))

theorem Yields.statement {id : NodeId} (h : Yields text true s₀ [id] s) :
    Yields text false s₀ [id] s ∧
      (startsErasedDeclaration c s₀ = .ok true s₀ ∨ s.tree.IsValue id ∨ s.tree.IsExportedType id) :=
  ⟨h.weaken, .inr (.inl (h.values rfl id (by simp)))⟩

structure ReadsBody (text : List Char) (s₀ : State) (id : NodeId) (s : State) : Prop extends
    Yields text false s₀ [id] s where
  stays : s.tree.IsValue id ∨ s.tree.IsExportedType id

/-- The end of the rule for a statement with another as its body. -/
theorem run_finishBody {w : Bool} {kind : NodeKind} {slots : List Slot} {ids values : List NodeId}
    {body : NodeId} (h : Reads text w s₀ ids s) (hslots : slots.flatMap Slot.children = ids)
    (hadmits : kind.admits slots)
    (hkind : (kind.isOrdinary && kind.isListless && !kind.isTypeOnly) = true)
    (hneeded : kind.needed slots = values) (hembedded : kind.embedded slots = [body])
    (hvalues : ∀ c ∈ values, s.tree.IsValue c)
    (hbody : s.tree.IsValue body ∨ s.tree.IsExportedType body) :
    Run (finishWith kind s₀.lexer.start slots {}) c s fun id s' => Yields text true s₀ [id] s' := by
  simp only [Bool.and_eq_true, Bool.not_eq_true'] at hkind
  refine (run_finishOrdinary h rfl hslots hadmits hkind.1.1
    (NodeKind.within_of_isListless hkind.1.2 hadmits s.tree _ _) ?_ ?_
    (.of_isBlockless (NodeKind.isBlockless_of_isListless hkind.1.2))).mono
    fun _ _ hid => hid.yields hkind.2
  · rwa [hneeded]
  · rw [hembedded]
    simpa using hbody

section

variable (hinner : inner.Sound text)

include hinner

theorem run_embeddedStatement (hs : Good text s) :
    Run (embeddedStatement inner) c s fun id s' => ReadsBody text s id s' := by
  simp only [embeddedStatement, run_bind, run_steps, run_ite]
  refine run_startsErasedDeclaration fun b hb => ?_
  split
  · trivial
  · rename_i hno
    refine (hinner.statement c s hs).mono fun id s' h => ⟨h.1, h.2.resolve_left fun herased => ?_⟩
    obtain rfl : b = true := by
      rw [hb] at herased
      cases herased
      rfl
    exact hno rfl

theorem condition_rule : Rule text true (condition inner) := by
  intro c s hs
  simp only [condition, allowingIn, run_bind, run_steps, run_pure]
  refine (run_expect hs (by decide)).mono fun _ s₁ h₁ => ?_
  refine (expression_rule hinner _ s₁ h₁.good).mono fun test s₂ h₂ => ?_
  refine (run_expect h₂.good (by decide)).mono fun _ s₃ h₃ => ?_
  exact h₁.toYields.before (h₂.andThen h₃.toYields)

/-! ## Branches -/

theorem ifStatement_rule : TokenRule text true (ifStatement inner) := by
  intro c s hs ht
  simp only [ifStatement, finish, run_bind, run_steps, run_ite, run_map, run_pure]
  refine (run_advance hs ht).mono fun _ s₁ h₁ => ?_
  refine (condition_rule hinner c s₁ h₁.good).mono fun test s₂ h₂ => ?_
  refine (run_embeddedStatement hinner h₂.good).mono fun consequent s₃ h₃ => ?_
  have hhead := h₁.trans h₂
  have hend : ∀ (alternate : Option NodeId) s₄, Yields text false s₃ alternate.toList s₄ →
      Run (finishWith .ifStatement s.lexer.start
        [.node test, .node consequent, .ofOption alternate] {}) c s₄ fun id s' =>
          Yields text true s [id] s' := by
    intro alternate s₄ h₄
    have hrest := h₃.toYields.trans h₄
    have htest : ∀ c ∈ [test], s₄.tree.IsValue c :=
      fun id hid => hrest.isValue (hhead.values rfl id hid)
    refine run_finishBody (hhead.trans hrest) (by simp) ?_ (by decide) rfl rfl htest
      (h₄.stays h₃.stays)
    simp [NodeKind.admits, NodeKind.schema]
  refine (run_accept h₃.good (by decide)).mono fun b s₄ h₄ => ?_
  split
  · refine (run_embeddedStatement hinner h₄.1.good).mono fun alternate s₅ h₅ => ?_
    exact hend (some alternate) s₅ (h₄.1.before h₅.toYields)
  · exact hend none s₄ h₄.1.weaken

theorem switchCase_rule : Rule text true (switchCase inner) := by
  intro c s hs
  simp only [switchCase, finish, listFrom, run_bind, run_steps]
  have hrest : ∀ (test : Option NodeId) s₁, Yields text true s test.toList s₁ →
      Run (expect .colon) c s₁ fun _ s' =>
        Run (collect do
          if ← isAtAny [.caseKeyword, .defaultKeyword, .closeBrace, .endOfFile] then return none
          some <$> inner.statement) c s' fun consequent s'' =>
          Run (finishWith .switchCase s.lexer.start
            [.ofOption test, .list ⟨consequent.map some, s'.lastEnd, s''.lastEnd⟩] {}) c s''
            fun id s' => Yields text true s [id] s' := by
    intro test s₁ h₁
    refine (run_expect h₁.good (by decide)).mono fun _ s₂ h₂ => ?_
    refine (run_collect_nodes (v := false) h₂.good fun s hs => ?_).mono fun consequent s₃ h₃ => ?_
    · simp only [run_bind, run_steps, run_ite, run_map, run_pure]
      split
      · exact .refl hs
      · exact (hinner.statement c s hs).mono fun _ _ h => h.1
    · have hhead := h₁.transReads h₂
      have hencloses : NodeKind.switchCase.Encloses text s.lexer.start s₃.lastEnd
          [.ofOption test, .list ⟨consequent.map some, s₂.lastEnd, s₃.lastEnd⟩] := by
        intro spec items hmem _
        have hslot := (List.of_mem_zip hmem).2
        obtain rfl : items = ⟨consequent.map some, s₂.lastEnd, s₃.lastEnd⟩ := by
          cases test <;> simpa [Slot.ofOption] using hslot
        exact ⟨.inr hhead.lt, .inr (.inl rfl)⟩
      refine run_finishBlock (hhead.trans h₃) rfl (by simp) ?_ ?_ hencloses (by decide)
      · simp [NodeKind.admits, NodeKind.schema]
      · have hwithin : s₃.tree.Within s.lexer.start s₃.lastEnd
            (.list ⟨consequent.map some, s₂.lastEnd, s₃.lastEnd⟩) := by
          refine ⟨Nat.le_of_lt hhead.lt, h₃.stop, Nat.le_refl _, fun id hid => ?_⟩
          obtain ⟨face, hface, hge, -, hle⟩ := h₃.laid.face? (by simpa using hid)
          exact ⟨face, hface, Nat.le_trans h₂.good.order hge, hle⟩
        simpa using hwithin
  split
  · rename_i ht
    simp only [run_bind, run_steps, run_map, run_pure]
    refine (run_advance hs (by simp [ht])).mono fun _ s₁ h₁ => ?_
    refine (expression_rule hinner c s₁ h₁.good).mono fun test s₂ h₂ => ?_
    exact hrest (some test) s₂ (h₁.toYields.before h₂)
  · rename_i ht
    simp only [run_bind, run_steps, run_pure]
    exact (run_advance hs (by simp [ht])).mono fun _ s₁ h₁ => hrest none s₁ h₁.toYields
  · simp only [run_bind, run_steps]

theorem switchStatement_rule : TokenRule text true (switchStatement inner) := by
  intro c s hs ht
  simp only [switchStatement, finish, run_bind, run_steps]
  refine (run_advance hs ht).mono fun _ s₁ h₁ => ?_
  refine (condition_rule hinner c s₁ h₁.good).mono fun discriminant s₂ h₂ => ?_
  refine (run_expect h₂.good (by decide)).mono fun _ s₃ h₃ => ?_
  refine (run_collectUntil (v := true) (fun id => [id]) (fun s => s.lexer.token = .closeBrace)
    h₃.good fun s hs => ?_).mono fun cases s₄ h₄ => ?_
  · simp only [run_bind, run_steps, run_ite, run_map, run_pure]
    split
    · rename_i hclose
      exact ⟨.refl hs, by simpa using hclose⟩
    · exact switchCase_rule hinner c s hs
  · obtain ⟨h₄, hclose⟩ := h₄
    refine (run_advance h₄.good (by simp [hclose])).mono fun _ s₅ h₅ => ?_
    have hhead := h₁.trans h₂
    have hlist := ReadsBlock.between (cases.map some) h₃ h₄ h₅ (by simp)
    have hwithin := hlist.within.mono hhead.start (Nat.le_refl _)
    have hencloses : NodeKind.switchStatement.Encloses text s.lexer.start s₅.lastEnd
        [.node discriminant, .list ⟨cases.map some, s₃.lastEnd, s₄.lexer.start⟩] := by
      intro spec items hmem _
      obtain rfl : items = ⟨cases.map some, s₃.lastEnd, s₄.lexer.start⟩ := by
        simpa using (List.of_mem_zip hmem).2
      obtain ⟨hstart, hstop⟩ := hlist.inside _ rfl
      exact ⟨.inr (Nat.lt_of_le_of_lt hhead.start hstart), .inr (.inr hstop)⟩
    exact run_finishBlock (hhead.trans hlist.toYields) rfl (by simp) rfl (by simpa using hwithin)
      hencloses (by decide)

/-! ## Loops -/

theorem doStatement_rule : TokenRule text true (doStatement inner) := by
  intro c s hs ht
  simp only [doStatement, finish, run_bind, run_steps]
  refine (run_advance hs ht).mono fun _ s₁ h₁ => ?_
  refine (run_embeddedStatement hinner h₁.good).mono fun body s₂ h₂ => ?_
  refine (run_expect h₂.good (by decide)).mono fun _ s₃ h₃ => ?_
  refine (condition_rule hinner c s₃ h₃.good).mono fun test s₄ h₄ => ?_
  refine (run_accept h₄.good (by decide)).mono fun _ s₅ h₅ => ?_
  have htest := h₃.toYields.before (h₄.andThen h₅.1)
  exact run_finishBody (h₁.trans (h₂.toYields.trans htest)) rfl rfl (by decide) rfl rfl
    (htest.values rfl) (htest.stays h₂.stays)

theorem run_headedBody {kind : NodeKind} {head : NodeId} (h : Reads text true s₀ [head] s)
    (hkind : kind = .whileStatement ∨ kind = .withStatement ∨ kind = .labeledStatement) :
    Run (embeddedStatement inner) c s fun body s' =>
      Run (finishWith kind s₀.lexer.start [.node head, .node body] {}) c s' fun id s' =>
        Yields text true s₀ [id] s' := by
  refine (run_embeddedStatement hinner h.good).mono fun body s₁ h₁ => ?_
  have hhead := h₁.isValue (h.values rfl head (by simp))
  have hvalues : ∀ c ∈ [head], s₁.tree.IsValue c := by simpa using hhead
  rcases hkind with rfl | rfl | rfl <;>
    exact run_finishBody (h.trans h₁.toYields) rfl rfl (by decide) rfl rfl hvalues h₁.stays

theorem headedStatement_rule {kind : NodeKind}
    (hkind : kind = .whileStatement ∨ kind = .withStatement) :
    TokenRule text true (headedStatement inner kind) := by
  intro c s hs ht
  simp only [headedStatement, finish, run_bind, run_steps]
  refine (run_advance hs ht).mono fun _ s₁ h₁ => ?_
  refine (condition_rule hinner c s₁ h₁.good).mono fun head s₂ h₂ => ?_
  exact run_headedBody hinner (h₁.trans h₂) (hkind.imp_right .inl)

theorem forInit_rule : OptionalRule text true (forInit inner) := by
  intro c s hs
  simp only [forInit, run_bind, run_steps, run_ite, run_pure]
  split
  · exact .refl hs
  · refine run_startsVariables fun b hb => ?_
    split
    · rename_i hstarts
      refine (run_variableDeclaration hinner hs (hb hstarts)).mono ?_
      rintro id s' ⟨s₁, h⟩
      exact h.yields (by decide)
    · exact expression_rule hinner _ s hs

omit hinner in
theorem run_forTarget {init : NodeId} (h : Yields text true s₀ [init] s) :
    Run (forTarget init) c s fun id s' => Yields text true s₀ [id] s' ∧ s'.lexer = s.lexer := by
  simp only [forTarget, run_bind, run_steps, run_ite, run_pure]
  split
  · exact ⟨h, trivial⟩
  · exact run_assignmentTarget h

theorem run_forEachRest {kind : NodeKind} {init : NodeId} (h : Yields text true s₀ [init] s)
    (ht : s.lexer.token ≠ .endOfFile) (hkind : kind = .forInStatement ∨ kind = .forOfStatement) :
    Run (forEachRest inner s₀.lexer.start kind init) c s fun id s' => Yields text true s₀ [id] s' := by
  simp only [forEachRest, allowingIn, finish, run_bind, run_steps]
  refine (run_forTarget h).mono fun left s₁ htarget => ?_
  obtain ⟨h₁, hlexer⟩ := htarget
  rw [← hlexer] at ht
  refine (run_advance h₁.good ht).mono fun _ s₂ h₂ => ?_
  have hrest : ∀ right s₃, Yields text true s₂ [right] s₃ →
      Run (expect .closeParen) c s₃ fun _ s' => Run (embeddedStatement inner) c s' fun body s' =>
        Run (finishWith kind s₀.lexer.start [.node left, .node right, .node body] {}) c s'
          fun id s' => Yields text true s₀ [id] s' := by
    intro right s₃ h₃
    refine (run_expect h₃.good (by decide)).mono fun _ s₄ h₄ => ?_
    refine (run_embeddedStatement hinner h₄.good).mono fun body s₅ h₅ => ?_
    have hhead := h₁.trans (h₂.toYields.before (h₃.andThen h₄.toYields))
    have hread := (hhead.trans h₅.toYields).reads left (by simp)
    have hvalues : ∀ c ∈ [left, right], s₅.tree.IsValue c :=
      fun id hid => h₅.isValue (hhead.values rfl id hid)
    rcases hkind with rfl | rfl <;>
      exact run_finishBody hread rfl rfl (by decide) rfl rfl hvalues h₅.stays
  simp only [run_ite]
  split
  · exact (hinner.assignment _ s₂ h₂.good).mono hrest
  · exact (expression_rule hinner _ s₂ h₂.good).mono hrest

theorem expressionBefore?_rule (close : Token) :
    OptionalRule text true (expressionBefore? inner close) := by
  intro c s hs
  simp only [expressionBefore?, allowingIn, run_bind, run_steps, run_ite, run_pure]
  split
  · exact .refl hs
  · exact expression_rule hinner _ s hs

theorem run_forRest {init : Option NodeId} (h : Yields text true s₀ init.toList s) :
    Run (forRest inner s₀.lexer.start init) c s fun id s' => Yields text true s₀ [id] s' := by
  simp only [forRest, finish, run_bind]
  refine (run_expect h.good (by decide)).mono fun _ s₁ h₁ => ?_
  refine (expressionBefore?_rule hinner .semicolon c s₁ h₁.good).mono fun test s₂ h₂ => ?_
  refine (run_expect h₂.good (by decide)).mono fun _ s₃ h₃ => ?_
  refine (expressionBefore?_rule hinner .closeParen c s₃ h₃.good).mono fun update s₄ h₄ => ?_
  refine (run_expect h₄.good (by decide)).mono fun _ s₅ h₅ => ?_
  refine (run_embeddedStatement hinner h₅.good).mono fun body s₆ h₆ => ?_
  have htest := h.trans (h₁.toYields.before (h₂.andThen h₃.toYields))
  have hupdate := htest.trans (h₄.andThen h₅.toYields)
  have hread := (hupdate.trans h₆.toYields).reads body (by simp)
  refine run_finishBody hread (by simp) ?_ (by decide) rfl rfl ?_ h₆.stays
  · simp [NodeKind.admits, NodeKind.schema]
  · exact List.forall_mem_nil _

theorem forStatement_rule : TokenRule text true (forStatement inner) := by
  intro c s hs ht
  simp only [forStatement, run_bind, run_steps]
  refine (run_advance hs ht).mono fun _ s₁ h₁ => ?_
  refine (run_expect h₁.good (by decide)).mono fun _ s₂ h₂ => ?_
  refine (forInit_rule hinner c s₂ h₂.good).mono fun init s₃ h₃ => ?_
  have hinit := (h₁.toYields.andThen h₂.toYields).before h₃
  split
  · rename_i kind init hkind
    unfold enumeration? at hkind
    refine run_forEachRest hinner hinit ?_ ?_
    · intro heq
      simp [heq] at hkind
    · split at hkind <;> simp_all
  · exact run_forRest hinner hinit

/-! ## Jumps -/

omit hinner in
theorem breakOrContinue_rule {kind : NodeKind}
    (hkind : kind = .breakStatement ∨ kind = .continueStatement) :
    TokenRule text true (breakOrContinue kind) := by
  intro c s hs ht
  simp only [breakOrContinue, finish, run_bind, run_steps, run_ite, run_map, run_pure]
  refine (run_advance hs ht).mono fun _ s₁ h₁ => ?_
  have hend : ∀ (label : Option NodeId) s₂, Yields text true s₁ label.toList s₂ →
      Run endStatement c s₂ fun _ s' => Run (finishWith kind s.lexer.start [.ofOption label] {}) c
        s' fun id s' => Yields text true s [id] s' := by
    intro label s₂ h₂
    refine (run_endStatement h₂.good).mono fun _ s₃ h₃ => ?_
    have hread := h₁.trans (h₂.andThen h₃)
    rcases hkind with rfl | rfl <;>
      exact run_finish hread rfl (by simp) (by simp [NodeKind.admits, NodeKind.schema]) (by decide)
  refine run_canEndStatement fun b => ?_
  split
  · exact hend none s₁ (.refl h₁.good)
  · refine run_isIdentifier fun named _ => ?_
    split
    · exact (identifier_rule c s₁ h₁.good).mono fun label s₂ h₂ => hend (some label) s₂ h₂
    · exact hend none s₁ (.refl h₁.good)

theorem returnStatement_rule : TokenRule text true (returnStatement inner) := by
  intro c s hs ht
  simp only [returnStatement, finish, run_bind, run_steps, run_ite, run_map, run_pure]
  refine (run_advance hs ht).mono fun _ s₁ h₁ => ?_
  refine run_canEndStatement fun b => ?_
  split
  · refine (run_endStatement h₁.good).mono fun _ s₂ h₂ => ?_
    exact run_finish (h₁.andThen h₂) rfl rfl rfl (by decide)
  · refine (expression_rule hinner c s₁ h₁.good).mono fun argument s₂ h₂ => ?_
    refine (run_endStatement h₂.good).mono fun _ s₃ h₃ => ?_
    exact run_finish (h₁.trans (h₂.andThen h₃)) rfl rfl rfl (by decide)

theorem throwStatement_rule : TokenRule text true (throwStatement inner) := by
  intro c s hs ht
  simp only [throwStatement, finish, run_bind, run_steps, run_ite]
  refine (run_advance hs ht).mono fun _ s₁ h₁ => ?_
  split
  · trivial
  · refine (expression_rule hinner c s₁ h₁.good).mono fun argument s₂ h₂ => ?_
    refine (run_endStatement h₂.good).mono fun _ s₃ h₃ => ?_
    exact run_finish (h₁.trans (h₂.andThen h₃)) rfl rfl rfl (by decide)

theorem catchClause_rule : TokenRule text true (catchClause inner) := by
  intro c s hs ht
  simp only [catchClause, finish, run_bind, run_steps]
  refine (run_advance hs ht).mono fun _ s₁ h₁ => ?_
  refine (run_expect h₁.good (by decide)).mono fun _ s₂ h₂ => ?_
  refine (bindingTarget_rule hinner false c s₂ h₂.good).mono fun param s₃ h₃ => ?_
  refine (run_expect h₃.good (by decide)).mono fun _ s₄ h₄ => ?_
  refine (blockStatement_rule hinner c s₄ h₄.good).mono fun body s₅ h₅ => ?_
  have hparam := (h₁.andThen h₂.toYields).trans (h₃.andThen h₄.toYields)
  exact run_finish (hparam.trans h₅) rfl rfl rfl (by decide)

theorem tryStatement_rule : TokenRule text true (tryStatement inner) := by
  intro c s hs ht
  simp only [tryStatement, finish, run_bind, run_steps, run_ite, run_map, run_pure]
  refine (run_advance hs ht).mono fun _ s₁ h₁ => ?_
  refine (blockStatement_rule hinner c s₁ h₁.good).mono fun block s₂ h₂ => ?_
  have hblock := h₁.trans h₂
  have hend : ∀ (handler finalizer : Option NodeId) s₃,
      Yields text true s₂ (handler.toList ++ finalizer.toList) s₃ →
      if (handler.isNone && finalizer.isNone) = true then True
      else Run (finishWith .tryStatement s.lexer.start
        [.node block, .ofOption handler, .ofOption finalizer] {}) c s₃ fun id s' =>
          Yields text true s [id] s' := by
    intro handler finalizer s₃ h₃
    split
    · trivial
    · exact run_finish (hblock.trans h₃) rfl (by simp)
        (by simp [NodeKind.admits, NodeKind.schema]) (by decide)
  have hfinally : ∀ (handler : Option NodeId) s₃, Yields text true s₂ handler.toList s₃ →
      Run (accept .finallyKeyword) c s₃ fun b s' =>
        if b = true then Run (blockStatement inner) c s' fun finalizer s' =>
          if (handler.isNone && (some finalizer).isNone) = true then True
          else Run (finishWith .tryStatement s.lexer.start
            [.node block, .ofOption handler, .ofOption (some finalizer)] {}) c s' fun id s' =>
              Yields text true s [id] s'
        else
          if (handler.isNone && (none : Option NodeId).isNone) = true then True
          else Run (finishWith .tryStatement s.lexer.start
            [.node block, .ofOption handler, .ofOption none] {}) c s' fun id s' =>
              Yields text true s [id] s' := by
    intro handler s₃ h₃
    refine (run_accept h₃.good (by decide)).mono fun b s₄ h₄ => ?_
    split
    · refine (blockStatement_rule hinner c s₄ h₄.1.good).mono fun finalizer s₅ h₅ => ?_
      exact hend handler (some finalizer) s₅ (h₃.trans (h₄.1.before h₅))
    · exact hend handler none s₄ (h₃.trans h₄.1)
  split
  · rename_i ht
    refine (catchClause_rule hinner c s₂ h₂.good fun heq => by simp [heq] at ht).mono ?_
    exact fun handler s₃ h₃ => hfinally (some handler) s₃ h₃
  · exact hfinally none s₂ (.refl h₂.good)

/-! ## Statements -/

omit hinner in
theorem emptyStatement_rule : TokenRule text true emptyStatement := by
  intro c s hs ht
  simp only [emptyStatement, finish, run_bind, run_steps]
  refine (run_advance hs ht).mono fun _ s₁ h₁ => ?_
  exact run_finish h₁ rfl rfl rfl (by decide)

omit hinner in
theorem debuggerStatement_rule : TokenRule text true debuggerStatement := by
  intro c s hs ht
  simp only [debuggerStatement, finish, run_bind, run_steps]
  refine (run_advance hs ht).mono fun _ s₁ h₁ => ?_
  refine (run_endStatement h₁.good).mono fun _ s₂ h₂ => ?_
  exact run_finish (h₁.andThen h₂) rfl rfl rfl (by decide)

theorem expressionOrLabeled_rule : Rule text true (expressionOrLabeled inner) := by
  intro c s hs
  simp only [expressionOrLabeled, finish, run_bind, run_steps, run_ite, run_pure]
  have hexpression : Run (expression inner) c s fun expression s' =>
      Run endStatement c s' fun _ s' =>
        Run (finishWith .expressionStatement s.lexer.start [.node expression] {}) c s' fun id s' =>
          Yields text true s [id] s' := by
    refine (expression_rule hinner c s hs).mono fun expression s₁ h₁ => ?_
    refine (run_endStatement h₁.good).mono fun _ s₂ h₂ => ?_
    have hread := (h₁.andThen h₂).reads expression (by simp)
    exact run_finish hread rfl rfl rfl (by decide)
  refine run_isIdentifier fun named _ => ?_
  split
  · split
    · refine (identifier_rule c s hs).mono fun label s₁ h₁ => ?_
      refine (run_expect h₁.good (by decide)).mono fun _ s₂ h₂ => ?_
      exact run_headedBody hinner ((h₁.andThen h₂.toYields).reads label (by simp)) (.inr (.inr rfl))
    · exact hexpression
  · exact hexpression

theorem erasedDeclaration_rule : TokenRule text false (erasedDeclaration inner) := by
  intro c s hs ht
  simp only [erasedDeclaration, run_bind, run_steps]
  split
  · refine (run_typeAlias hinner (.refl hs)).mono ?_
    rintro id s' ⟨s₁, h⟩
    exact h.yields rfl
  · refine (run_interfaceDeclaration hinner (.refl hs)).mono ?_
    rintro id s' ⟨s₁, h⟩
    exact h.yields rfl
  · exact declareStatement_rule hinner c s hs ht

theorem run_otherStatement (hs : Good text s) (ht : s.lexer.token ≠ .endOfFile) :
    Run (otherStatement inner) c s fun id s' => Yields text false s [id] s' ∧
      (startsErasedDeclaration c s = .ok true s ∨ s'.tree.IsValue id ∨ s'.tree.IsExportedType id) := by
  simp only [otherStatement, run_bind, run_ite]
  refine run_startsVariables fun b _ => ?_
  split
  · exact (variableStatement_rule hinner c s hs ht).mono fun _ _ h => h.statement
  · refine run_startsFunction fun b => ?_
    split
    · exact (functionDeclaration_rule hinner false c s hs).mono fun _ _ h => h.statement
    · refine run_startsErasedDeclaration fun b hb => ?_
      split
      · rename_i herased
        obtain rfl := herased
        exact (erasedDeclaration_rule hinner c s hs ht).mono fun _ _ h => ⟨h, .inl hb⟩
      · exact (expressionOrLabeled_rule hinner c s hs).mono fun _ _ h => h.statement

theorem statement_rule : StatementRule text (statement inner) := by
  intro c s hs
  have hrule : ∀ {p : Parser NodeId}, TokenRule text true p → s.lexer.token ≠ .endOfFile →
      Run p c s fun id s' => Yields text false s [id] s' ∧
        (startsErasedDeclaration c s = .ok true s ∨ s'.tree.IsValue id ∨
          s'.tree.IsExportedType id) :=
    fun hp ht => (hp c s hs ht).mono fun _ _ h => h.statement
  simp only [statement, run_bind, run_steps]
  split
  all_goals rename_i ht
  · exact (blockStatement_rule hinner c s hs).mono fun _ _ h => h.statement
  · exact hrule emptyStatement_rule (by simp [ht])
  · exact (classDeclaration_rule hinner false c s hs).mono fun _ _ h => h.statement
  · exact hrule (ifStatement_rule hinner) (by simp [ht])
  · exact hrule (doStatement_rule hinner) (by simp [ht])
  · exact hrule (headedStatement_rule hinner (.inl rfl)) (by simp [ht])
  · exact hrule (forStatement_rule hinner) (by simp [ht])
  · exact hrule (breakOrContinue_rule (.inr rfl)) (by simp [ht])
  · exact hrule (breakOrContinue_rule (.inl rfl)) (by simp [ht])
  · exact hrule (returnStatement_rule hinner) (by simp [ht])
  · exact hrule (headedStatement_rule hinner (.inr rfl)) (by simp [ht])
  · exact hrule (switchStatement_rule hinner) (by simp [ht])
  · exact hrule (throwStatement_rule hinner) (by simp [ht])
  · exact hrule (tryStatement_rule hinner) (by simp [ht])
  · exact hrule (debuggerStatement_rule) (by simp [ht])
  · exact hrule importDeclaration_rule (by simp [ht])
  · exact (run_exportDeclaration hinner hs (by simp [ht])).mono fun _ _ h => ⟨h.1, .inr h.2⟩
  · simp only [run_steps]
  · exact run_otherStatement hinner hs (by assumption)

end

end FlowErasure.Grammar
