import FlowErasure.Proofs.Grammar.Operations

/-!
# Assignments

Assignments, conditionals and arrow functions end with an assignment themselves. Each rule reads its
nodes as any other does, and for its end it relies on that of its last part.
-/

namespace FlowErasure.Grammar

variable {text : List Char} {inner : Nested} {c : Context} {s s₀ s₁ : State} {tail : Bool}
  {id : NodeId}

structure Assigns (text : List Char) (tail : Bool) (s₀ : State) (id : NodeId) (s : State) : Prop
    extends Yields text true s₀ [id] s where
  ends : Ends text tail id s

theorem Assigns.before (h : Yields text true s₀ [] s₁) (h' : Assigns text tail s₁ id s) :
    Assigns text tail s₀ id s :=
  ⟨h.before h'.toYields, h'.ends⟩

theorem Assigns.lt_size (h : Assigns text tail s₀ id s) : id < s.tree.size :=
  h.toBuilds.lt_size (by simp)

/-- A colon after the first branch of a conditional is not that of a return type. -/
theorem Assigns.slotsKeepColon {test alternate : NodeId} {ids : List NodeId}
    (h : Assigns text true s₀ id s) (h' : Builds text s ids s₁) :
    s₁.tree.SlotsKeepColon text .conditionalExpression [.node test, .node id, .node alternate] := by
  intro node hkind hslots _ branch consequent hbranch hget hcolon
  have hchild : node.child? .consequent = some id := by
    unfold Node.child? Node.slot?
    rw [hkind, hslots]
    rfl
  obtain rfl := Option.some.inj (hchild.symm.trans hbranch)
  rw [h'.frame _ h.lt_size] at hget
  rcases h.ends consequent hget with hparen | ⟨-, huntyped⟩
  · exact absurd (hparen.unique hcolon) (by decide)
  · exact h.good.tree.endsUntyped (.of_get? h'.frame) h.lt_size (huntyped rfl)

theorem Reads.fillsConditional {test consequent alternate : NodeId}
    (h : Reads text true s₀ [test, consequent, alternate] s)
    (hcolon : s.tree.SlotsKeepColon text .conditionalExpression
      [.node test, .node consequent, .node alternate]) :
    s.tree.Fills text .conditionalExpression s₀.lexer.start s.lastEnd
      [.node test, .node consequent, .node alternate] := by
  refine .ofInOrder h.good.tree rfl rfl h.laid ?_ (h.toYields.needed rfl rfl) ?_
    (.of_isBlockless rfl) hcolon
  · simp [Tree.Within]
  · have hembedded : NodeKind.conditionalExpression.embedded
        [.node test, .node consequent, .node alternate] = [] :=
      NodeKind.childrenWhere_eq_nil rfl _
    simp [hembedded]

/-- A node ends as its last part does that has just been read. -/
theorem Assigns.finishEnds {kind : NodeKind} {start : Nat} {slots : List Slot} {details : Details}
    (h : Assigns text tail s₀ id s)
    (hlast : (finished s kind start slots details).last? = some id)
    (hkind : kind ≠ .arrowFunctionExpression) :
    Run (finishWith kind start slots details) c s fun id s' => Ends text tail id s' := by
  refine run_finishEnds h.good (fun _ part hpart => ?_) fun _ harrow => absurd harrow hkind
  obtain rfl := Option.some.inj (hlast.symm.trans hpart)
  exact ⟨h.lt_size, h.ends⟩

section

variable (hinner : inner.Sound text)

include hinner

/-- An assignment that is the last part of what is being read, or of a first branch. -/
theorem run_lastPart (tail : Bool) (hs : Good text s)
    (htail : tail = true → c.conditionalTail = true) :
    Run inner.assignment c s (Assigns text tail s) :=
  ((hinner.assignment c s hs).and (hinner.ends c s hs)).mono
    fun _ _ h => ⟨h.1, h.2.mono htail⟩

theorem run_conditional (hs : Good text s) :
    Run (conditional inner tail) c s (Assigns text tail s) := by
  simp only [conditional, inTail, allowingIn, finish, run_bind, run_steps, run_ite, run_pure]
  refine ((binary_rule hinner 0 c s hs).and (binary_ends hinner hs)).mono fun test s₁ h₁ => ?_
  obtain ⟨h₁, htest⟩ := h₁
  split
  · exact ⟨h₁, htest.ends tail⟩
  · rename_i ht
    refine (run_advance h₁.good (by simp_all)).mono fun _ s₂ h₂ => ?_
    refine (run_lastPart hinner true h₂.good (by simp)).mono fun consequent s₃ h₃ => ?_
    refine (run_expect h₃.good (by decide)).mono fun _ s₄ h₄ => ?_
    refine (run_lastPart hinner tail h₄.good (by simp_all)).mono fun alternate s₅ h₅ => ?_
    have hbranches := ((h₂.toYields.before h₃.toYields).andThen h₄.toYields).trans h₅.toYields
    have hread := (h₁.trans hbranches).reads test (by simp)
    have hcolon : s₅.tree.SlotsKeepColon text .conditionalExpression
        [.node test, .node consequent, .node alternate] :=
      h₃.slotsKeepColon (h₄.toYields.before h₅.toYields).toBuilds
    refine ((run_finishFilled hread rfl rfl (hread.fillsConditional hcolon) (.of_not rfl)).and
      (h₅.finishEnds rfl (by decide))).mono fun _ _ h => ?_
    exact ⟨h.1.yields rfl, h.2⟩

/-! ## Arrow functions -/

def ArrowHead.slots (head : ArrowHead) (body : NodeId) : List Slot :=
  [.ofOption head.typeParameters, head.params, .ofOption head.returnType, .node body]

structure ReadsHead (text : List Char) (s₀ : State) (head : ArrowHead) (s : State) : Prop extends
    Yields text false s₀
      (head.typeParameters.toList ++ head.params.children ++ head.returnType.toList) s where
  params : ∀ id ∈ head.params.children, s.tree.IsValue id
  within : s.tree.Within s₀.lexer.start s.lastEnd head.params
  isList : ∃ items, head.params = .list items

omit hinner in
theorem run_arrowToken (hs : Good text s) :
    Run arrowToken c s fun _ s' => Yields text true s [] s' := by
  simp only [arrowToken, run_bind, run_steps, run_ite]
  split
  · trivial
  · rename_i ht
    split
    · trivial
    · exact (run_advance hs (by simp_all)).mono fun _ s' h' => h'.toYields

omit hinner in
theorem run_singleParameterHead {isAsync : Bool} (hs : Good text s) :
    Run (singleParameterHead isAsync) c s fun head s' => ReadsHead text s head s' := by
  simp only [singleParameterHead, listFrom, run_bind, run_steps, run_pure]
  refine (identifier_rule c s hs).mono fun param s₁ h₁ => ?_
  refine (run_arrowToken h₁.good).mono fun _ s₂ h₂ => ?_
  have hparam := h₁.andThen h₂
  have hlist := (h₁.reads param (by simp)).list [some param] rfl
  exact ⟨by simpa using hparam.weaken, by simpa using hparam.values rfl,
    h₂.keptWithin hlist.within (Nat.le_refl _) h₂.stop, _, rfl⟩

theorem run_parameterListHead {isAsync : Bool} (hs : Good text s) :
    Run (parameterListHead inner isAsync) c s fun head s' => ReadsHead text s head s' := by
  simp only [parameterListHead, run_bind, run_steps, run_pure]
  refine (typeParameters?_rule hinner c s hs).mono fun typeParameters s₁ h₁ => ?_
  refine (run_parameterList hinner h₁.good).mono fun params s₂ h₂ => ?_
  refine (ascription?_rule hinner c s₂ h₂.good).mono fun returnType s₃ h₃ => ?_
  refine (run_arrowToken h₃.good).mono fun _ s₄ h₄ => ?_
  have hreturn := h₃.andThen h₄
  exact ⟨(h₁.trans h₂.toYields).trans hreturn, fun id hid => hreturn.isValue (h₂.values rfl id hid),
    hreturn.keptWithin h₂.within h₁.start hreturn.stop, h₂.isList⟩

omit hinner in
theorem ReadsHead.after {s₁ : State} {head : ArrowHead} (h : Yields text true s₀ [] s₁)
    (h' : ReadsHead text s₁ head s) : ReadsHead text s₀ head s :=
  ⟨h.trans h'.toYields, h'.params, h'.within.mono h.start (Nat.le_refl _), h'.isList⟩

omit hinner in
theorem run_isArrowParameter {Q : Bool → State → Prop} (h : ∀ b, Q b s) :
    Run isArrowParameter c s Q := by
  simp only [isArrowParameter, run_bind, run_steps, run_ite, run_pure]
  refine run_isIdentifier fun b _ => ?_
  split <;> exact h _

theorem run_arrowHead (hs : Good text s) :
    Run (arrowHead inner) c s fun head s' => ReadsHead text s head s' := by
  simp only [arrowHead, run_bind, run_steps, run_ite, run_pure]
  refine run_isArrowParameter fun b => ?_
  split
  · exact run_singleParameterHead hs
  · split
    · rename_i ht
      split
      · refine (run_advance hs fun heq => by simp [heq] at ht).mono fun _ s₁ h₁ => ?_
        refine run_isIdentifier fun named _ => ?_
        split
        · exact (run_singleParameterHead h₁.good).mono fun head s₂ h₂ => .after h₁.toYields h₂
        · exact (run_parameterListHead hinner h₁.good).mono fun head s₂ h₂ => .after h₁.toYields h₂
      · exact run_parameterListHead hinner hs
    · exact run_parameterListHead hinner hs

theorem run_tryArrowHead {tail : Bool} (hs : Good text s) :
    Run (tryArrowHead inner tail) c s fun head s' =>
      match head with
      | some head => ReadsHead text s head s' ∧ (tail = true → head.returnType = none)
      | none => Yields text true s [] s' := by
  have hkeeps := keeps_arrowHeadBefore (hinner.keeps s.tree) tail
  refine run_attempt hkeeps ?_ fun names => hs.renamed names
  simp only [run_bind, run_steps, run_ite, run_pure]
  refine (run_arrowHead hinner hs).mono fun head s₁ h₁ => ?_
  split
  · trivial
  · rename_i hreturn
    refine ⟨h₁, fun htail => ?_⟩
    simpa [htail] using hreturn

theorem run_arrowBody {isAsync tail : Bool} (hs : Good text s) :
    Run (arrowBody inner isAsync tail) c s fun id s' => Yields text true s [id] s' ∧
      (s.lexer.token ≠ .openBrace → Assigns text tail s id s') := by
  simp only [arrowBody, inTail, run_bind, run_steps, run_ite]
  split
  · rename_i hbrace
    have ht : s.lexer.token = .openBrace := by simpa using hbrace
    exact (run_functionBody hinner hs).mono fun _ _ h => ⟨h, absurd ht⟩
  · exact (run_lastPart hinner tail hs (by simp_all)).mono fun _ _ h => ⟨h.toYields, fun _ => h⟩

omit hinner in
theorem run_startsArrowFunction {tail : Bool} {Q : Bool → State → Prop} (h : ∀ b, Q b s) :
    Run (startsArrowFunction tail) c s Q := by
  simp only [startsArrowFunction, run_bind, run_steps]
  split
  · simp only [run_bind, run_steps]
    split <;> exact run_pure.mpr (h _)
  · exact run_pure.mpr (h _)
  · exact run_pure.mpr (h _)
  · exact run_isArrowParameter h

omit hinner in
theorem run_finishArrow {head : ArrowHead} {body : NodeId} {details : Details}
    (h : ReadsHead text s₀ head s) (h' : Yields text true s [body] s₁) :
    Run (finishWith .arrowFunctionExpression s₀.lexer.start (head.slots body) details) c s₁
      fun id s' => Yields text true s₀ [id] s' := by
  obtain ⟨items, hitems⟩ := h.isList
  have hlist := h'.keptWithin h.within (Nat.le_refl _) h'.stop
  have hread := (h.trans h').reads body (by simp)
  have hneeded : ∀ c ∈ head.params.children ++ ([body] ++ []), s₁.tree.IsValue c := by
    intro child hchild
    rcases List.mem_append.mp hchild with hchild | hchild
    · exact h'.isValue (h.params child hchild)
    · exact h'.values rfl child (by simpa using hchild)
  refine (run_finishOrdinary hread rfl (by simp [ArrowHead.slots]) ?_ rfl
    (by simpa [ArrowHead.slots] using hlist) ?_ ?_ (.of_isBlockless rfl)).mono
    fun _ _ hid => hid.yields rfl
  · simp [ArrowHead.slots, NodeKind.admits, NodeKind.schema, hitems]
  · exact hneeded
  · have hplain : NodeKind.arrowFunctionExpression.isPlain := rfl
    simp [NodeKind.embedded_eq_nil hplain]

omit hinner in
theorem run_finishArrowEnds {head : ArrowHead} {body : NodeId} {start : Nat} {details : Details}
    (h : Yields text true s₀ [body] s)
    (hbody : details.flags.expressionBody = true → Assigns text tail s₀ body s)
    (hreturn : tail = true → head.returnType = none) :
    Run (finishWith .arrowFunctionExpression start (head.slots body) details) c s fun id s' =>
      Ends text tail id s' := by
  have hlast : (finished s .arrowFunctionExpression start (head.slots body) details).last? =
      if details.flags.expressionBody then some body else none := rfl
  have htype : (finished s .arrowFunctionExpression start (head.slots body) details).child?
      .returnType = (Slot.ofOption head.returnType).node? := rfl
  refine run_finishEnds h.good (fun _ part hpart => ?_) fun htail _ => ?_
  · rw [hlast, Option.ite_none_right_eq_some] at hpart
    obtain ⟨hflag, hpart⟩ := hpart
    obtain rfl := Option.some.inj hpart
    exact ⟨(hbody hflag).lt_size, (hbody hflag).ends⟩
  · rw [htype, hreturn htail]
    rfl

theorem run_arrowFunction? (hs : Good text s) :
    Run (arrowFunction? inner tail) c s fun arrow s' =>
      match arrow with
      | some arrow => Assigns text tail s arrow s'
      | none => Yields text true s [] s' := by
  simp only [arrowFunction?, run_bind, run_steps, run_ite, run_pure]
  refine run_startsArrowFunction fun b => ?_
  split
  · exact .refl hs
  · refine (run_tryArrowHead hinner hs).mono fun head s₁ h₁ => ?_
    cases head with
    | none => exact run_pure.mpr h₁
    | some head =>
        obtain ⟨h₁, hreturn⟩ := h₁
        simp only [run_bind, run_steps, run_pure]
        refine (run_arrowBody hinner h₁.good).mono fun body s₂ h₂ => ?_
        obtain ⟨h₂, hbody⟩ := h₂
        refine ((run_finishArrow h₁ h₂).and (run_finishArrowEnds h₂ ?_ hreturn)).mono
          fun _ _ h => ⟨h.1, h.2⟩
        intro hflag
        exact hbody (by simpa using hflag)

/-! ## Assignments -/

omit hinner in
theorem run_endsYield {Q : Bool → State → Prop} (h : ∀ b, Q b s) : Run endsYield c s Q := by
  simp only [endsYield, run_bind, run_steps, run_ite, run_pure]
  split <;> exact h _

omit hinner in
/-- A node that is yielded ends where it ends, but what it ends with may have a return type. -/
theorem run_finishYield {slots : List Slot} {details : Details}
    (h : Reads text true s₀ ids s) (hslots : slots.flatMap Slot.children = ids)
    (hadmits : NodeKind.yieldExpression.admits slots) :
    Run (finishWith .yieldExpression s₀.lexer.start slots details) c s (Assigns text tail s₀) :=
  ((run_finish h rfl hslots hadmits (by decide)).and
    (run_finishEnds h.good (fun hhands => absurd rfl hhands) (by simp))).mono
      fun _ _ h => ⟨h.1, h.2⟩

theorem run_yieldExpression (hs : Good text s) (ht : s.lexer.token = .yieldKeyword) :
    Run (yieldExpression inner) c s (Assigns text tail s) := by
  simp only [yieldExpression, finish, run_bind, run_steps, run_ite]
  refine (run_advance hs (by simp [ht])).mono fun _ s₁ h₁ => ?_
  split
  · exact run_finishYield h₁ rfl rfl
  · refine (run_accept h₁.good (by decide)).mono fun b s₂ h₂ => ?_
    have hread := h₁.andThen h₂.1
    split
    · refine (hinner.assignment c s₂ h₂.1.good).mono fun argument s₃ h₃ => ?_
      exact run_finishYield (hread.trans h₃) rfl rfl
    · refine run_endsYield fun b => ?_
      split
      · exact run_finishYield hread rfl rfl
      · refine (hinner.assignment c s₂ h₂.1.good).mono fun argument s₃ h₃ => ?_
        exact run_finishYield (hread.trans h₃) rfl rfl

omit hinner in
theorem run_targetFor {operator : Token} {left : NodeId} (h : Yields text true s₀ [left] s) :
    Run (targetFor operator left) c s fun id s' =>
      Yields text true s₀ [id] s' ∧ s'.lexer = s.lexer := by
  simp only [targetFor, run_bind, run_steps, run_ite]
  split
  · exact run_assignmentTarget h
  · split
    · split
      · exact run_pure.mpr ⟨h, rfl⟩
      · exact run_pure.mpr ⟨h, rfl⟩
      · exact run_failTarget.mpr trivial
    · exact run_failTarget.mpr trivial

theorem run_operation (hs : Good text s) :
    Run (operation inner tail) c s (Assigns text tail s) := by
  simp only [operation, inTail, run_bind, run_steps, run_ite, run_pure]
  refine (run_conditional hinner hs).mono fun left s₁ h₁ => ?_
  split
  · exact h₁
  · rename_i hassign
    have ht : s₁.lexer.token ≠ .endOfFile := by
      intro heq
      rw [heq] at hassign
      exact hassign rfl
    refine (run_targetFor h₁.toYields).mono fun target s₂ ⟨h₂, hlexer⟩ => ?_
    rw [← hlexer] at ht
    refine (run_advance h₂.good ht).mono fun _ s₃ h₃ => ?_
    refine (run_lastPart hinner tail h₃.good (by simp_all)).mono fun right s₄ h₄ => ?_
    have hread := (h₂.trans (h₃.toYields.before h₄.toYields)).reads target (by simp)
    exact ((run_finish hread rfl rfl rfl (by decide)).and (h₄.finishEnds rfl (by decide))).mono
      fun _ _ h => ⟨h.1, h.2⟩

theorem run_assignment (hs : Good text s) :
    Run (assignment inner) c s (Assigns text c.conditionalTail s) := by
  simp only [assignment, run_bind, run_steps, run_ite]
  split
  · rename_i hyield
    refine run_yieldExpression hinner hs ?_
    simp only [Bool.and_eq_true, beq_iff_eq] at hyield
    exact hyield.1
  · refine (run_arrowFunction? hinner hs).mono fun arrow s₁ h₁ => ?_
    cases arrow with
    | some arrow => exact run_pure.mpr h₁
    | none => exact (run_operation hinner h₁.good).mono fun _ _ h₂ => .before h₁ h₂

theorem assignment_rule : Rule text true (assignment inner) :=
  fun _ _ hs => (run_assignment hinner hs).mono fun _ _ h => h.toYields

theorem assignment_ends (hs : Good text s) :
    Run (assignment inner) c s fun id s' => Ends text c.conditionalTail id s' :=
  (run_assignment hinner hs).mono fun _ _ h => h.ends

end

end FlowErasure.Grammar
