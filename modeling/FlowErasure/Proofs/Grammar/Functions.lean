import FlowErasure.Grammar.Classes
import FlowErasure.Proofs.Grammar.Patterns

/-!
# Functions and classes
-/

namespace FlowErasure.Grammar

variable {text : List Char} {inner : Nested} {c : Context} {s s₀ : State}

section

variable (hinner : inner.Sound text)

include hinner

/-! ## Functions -/

structure ReadsBlock (text : List Char) (v : Bool) (s₀ : State) (slot : Slot) (s : State) : Prop
    extends ReadsList text v s₀ slot s where
  inside : ∀ items, slot = .list items → s₀.lexer.start < items.start ∧ items.stop < s.lastEnd

omit hinner in
/-- A list between two tokens spans what is between them. -/
theorem ReadsBlock.between {v : Bool} (nodes : List (Option NodeId)) {ids : List NodeId}
    {s₁ s₂ s₃ : State} (h₁ : Reads text true s [] s₁) (h₂ : Yields text v s₁ ids s₂)
    (h₃ : Reads text true s₂ [] s₃) (hnodes : nodes.filterMap id = ids) :
    ReadsBlock text v s (.list ⟨nodes, s₁.lastEnd, s₂.lexer.start⟩) s₃ := by
  subst hnodes
  refine ⟨⟨(h₁.trans h₂).andThen h₃.toYields,
    ⟨Nat.le_of_lt h₁.lt, ?_, Nat.le_of_lt h₃.lt, ?_⟩, _, rfl⟩, ?_⟩
  · exact Nat.le_trans h₁.good.order h₂.start
  · intro child hchild
    obtain ⟨face, hface, hge, -, hle⟩ := (h₂.kept h₃.toBuilds).face? hchild
    exact ⟨face, hface, Nat.le_trans h₁.good.order hge, Nat.le_trans hle h₂.good.order⟩
  · rintro items ⟨⟩
    exact ⟨h₁.lt, h₃.lt⟩

theorem run_statementBlock (hs : Good text s) :
    Run (statementBlock inner) c s fun body s' => ReadsBlock text false s body s' := by
  simp only [statementBlock, run_bind, run_steps, run_pure]
  refine (run_expect hs (by decide)).mono fun _ s₁ h₁ => ?_
  refine (run_collectUntil (v := false) (fun id => [id]) (fun s => s.lexer.token = .closeBrace)
    h₁.good fun s hs => ?_).mono fun statements s₂ h₂ => ?_
  · simp only [run_bind, run_steps, run_ite, run_map, run_pure]
    split
    · rename_i hclose
      exact ⟨.refl hs, by simpa using hclose⟩
    · split
      · trivial
      · exact (hinner.statement c s hs).mono fun _ _ h => h.1
  · obtain ⟨h₂, hclose⟩ := h₂
    refine (run_advance h₂.good (by simp [hclose])).mono fun _ s₃ h₃ => ?_
    exact .between _ h₁ h₂ h₃ (by simp)

omit hinner in
theorem run_finishBraces {kind : NodeKind} {body : Slot} (h : ReadsBlock text false s₀ body s)
    (hkind : kind = .blockStatement ∨ kind = .classBody) :
    Run (finishWith kind s₀.lexer.start [body] {}) c s fun id s' => Yields text true s₀ [id] s' := by
  obtain ⟨items, rfl⟩ := h.isList
  have hencloses : kind.Encloses text s₀.lexer.start s.lastEnd [.list items] := by
    intro spec other hmem _
    obtain rfl : other = items := by simpa using (List.of_mem_zip hmem).2
    obtain ⟨hstart, hstop⟩ := h.inside other rfl
    exact ⟨.inr hstart, .inr (.inr hstop)⟩
  refine run_finishBlock h.toReads rfl (by simp) ?_ (by simpa using h.within) hencloses ?_
  all_goals rcases hkind with rfl | rfl <;> rfl

theorem blockStatement_rule : Rule text true (blockStatement inner) := by
  intro c s hs
  simp only [blockStatement, finish, run_bind, run_steps]
  refine (run_statementBlock hinner hs).mono fun body s₁ h₁ => ?_
  exact run_finishBraces h₁ (.inl rfl)

theorem run_functionBody {isAsync isGenerator : Bool} (hs : Good text s) :
    Run (functionBody inner isAsync isGenerator) c s fun id s' => Yields text true s [id] s' := by
  simp only [functionBody, run_steps]
  exact blockStatement_rule hinner _ s hs

omit hinner in
structure FunctionSlots (text : List Char) (s₀ : State) (slots : List Slot) (s : State) : Prop
    extends Reads text false s₀ (slots.flatMap Slot.children) s where
  admits : ∀ name, NodeKind.functionExpression.admits (.ofOption name :: slots)
  within : ∀ slot ∈ slots, s.tree.Within s₀.lexer.start s.lastEnd slot
  needed : ∀ name, ∀ c ∈ NodeKind.functionExpression.needed (.ofOption name :: slots), s.tree.IsValue c

theorem run_functionRest {isAsync isGenerator : Bool} (hs : Good text s) :
    Run (functionRest inner isAsync isGenerator) c s (FunctionSlots text s) := by
  simp only [functionRest, run_bind, run_steps, run_pure]
  refine (typeParameters?_rule hinner c s hs).mono fun typeParameters s₁ h₁ => ?_
  refine (run_parameterList hinner h₁.good).mono fun params s₂ h₂ => ?_
  refine (ascription?_rule hinner c s₂ h₂.good).mono fun returnType s₃ h₃ => ?_
  refine (run_functionBody hinner h₃.good).mono fun body s₄ h₄ => ?_
  obtain ⟨items, rfl⟩ := h₂.isList
  have hrest := h₃.trans h₄
  refine ⟨?_, fun _ => by simp [NodeKind.admits, NodeKind.schema], ?_, fun _ => ?_⟩
  · simpa using (h₁.transReads h₂.toReads).trans hrest
  · simpa using hrest.keptWithin h₂.within h₁.start hrest.stop
  · have hneeded : ∀ c ∈ items.nodes.filterMap id ++ [body], s₄.tree.IsValue c := by
      intro child hchild
      rcases List.mem_append.mp hchild with hchild | hchild
      · exact hrest.isValue (h₂.values rfl child hchild)
      · exact h₄.values rfl child hchild
    exact hneeded

omit hinner in
theorem run_finishFunction {kind : NodeKind} {slots : List Slot} {details : Details}
    (name : Option NodeId) {s₁ : State} (h : Yields text true s₀ name.toList s)
    (hslots : FunctionSlots text s slots s₁)
    (hkind : kind = .functionDeclaration ∨ kind = .functionExpression) :
    Run (finishWith kind s₀.lexer.start (.ofOption name :: slots) details) c s₁ fun id s' =>
      Yields text true s₀ [id] s' := by
  have hlists : ∀ slot ∈ Slot.ofOption name :: slots,
      s₁.tree.Within s₀.lexer.start s₁.lastEnd slot := by
    refine List.forall_mem_cons.mpr ⟨by simp, fun slot hslot => ?_⟩
    exact (hslots.within slot hslot).mono h.start (Nat.le_refl _)
  refine (run_finishOrdinary (h.transReads hslots.toReads) rfl (by simp) ?_ ?_ hlists ?_ ?_
    (.of_isBlockless ?_)).mono fun _ _ hid => hid.yields ?_
  · rcases hkind with rfl | rfl <;> exact hslots.admits name
  · rcases hkind with rfl | rfl <;> rfl
  · rcases hkind with rfl | rfl <;> exact hslots.needed name
  · rw [NodeKind.embedded_eq_nil (by rcases hkind with rfl | rfl <;> rfl)]
    simp
  · rcases hkind with rfl | rfl <;> rfl
  · rcases hkind with rfl | rfl <;> rfl

omit hinner in
theorem declaredName_rule (present allowAnonymous : Bool) :
    OptionalRule text true (declaredName present allowAnonymous) := by
  intro c s hs
  simp only [declaredName, run_ite, run_bind, run_steps, run_pure]
  split
  · exact identifier_rule c s hs
  · split
    · exact .refl hs
    · trivial

theorem run_function {kind : NodeKind} {allowAnonymous : Bool} (hs : Good text s)
    (hkind : kind = .functionDeclaration ∨ kind = .functionExpression) :
    Run (function inner kind s.lexer.start allowAnonymous) c s fun id s' =>
      Yields text true s [id] s' := by
  simp only [function, run_bind]
  refine (run_accept hs (by decide)).mono fun async s₁ h₁ => ?_
  refine (run_expect h₁.1.good (by decide)).mono fun _ s₂ h₂ => ?_
  refine (run_accept h₂.good (by decide)).mono fun generator s₃ h₃ => ?_
  refine run_isIdentifier fun named _ => ?_
  refine (declaredName_rule named allowAnonymous c s₃ h₃.1.good).mono fun name s₄ h₄ => ?_
  refine (run_functionRest hinner h₄.good).mono fun rest s₅ h₅ => ?_
  exact run_finishFunction name (((h₁.1.transReads h₂).andThen h₃.1).trans h₄).toYields h₅ hkind

theorem run_methodFunction {flags : NodeFlags} (hs : Good text s) :
    Run (methodFunction inner flags) c s fun id s' => Yields text true s [id] s' := by
  simp only [methodFunction, run_bind, run_steps]
  refine (run_functionRest hinner hs).mono fun rest s₁ h₁ => ?_
  exact run_finishFunction none (.refl hs) h₁ (.inr rfl)

/-! ## Members -/

omit hinner in
theorem run_isMemberModifier {sameLine : Bool} {Q : Bool → State → Prop} (h : ∀ b, Q b s) :
    Run (isMemberModifier sameLine) c s Q := by
  simp only [isMemberModifier, run_ite, run_steps]
  split <;> exact h _

omit hinner in
theorem run_accessorFlags {flags : NodeFlags} (hs : Good text s) :
    Run (accessorFlags flags) c s fun _ s' => Yields text true s [] s' := by
  simp only [accessorFlags, run_bind, run_steps, run_ite, run_pure]
  split
  · rename_i haccessor
    have ht : s.lexer.token ≠ .endOfFile := fun heq => by simp [heq] at haccessor
    refine run_isMemberModifier fun b => ?_
    split
    · exact (run_advance hs ht).mono fun _ s' h' => h'.toYields
    · exact .refl hs
  · exact .refl hs

omit hinner in
theorem run_functionFlags {flags : NodeFlags} (hs : Good text s) :
    Run (functionFlags flags) c s fun _ s' => Yields text true s [] s' := by
  simp only [functionFlags, run_bind, run_steps, run_ite, run_pure]
  have hrest : ∀ s₁, Yields text true s [] s₁ → Run (accept .asterisk) c s₁ fun _ s' =>
      Yields text true s [] s' := fun s₁ h₁ =>
    (run_accept h₁.good (by decide)).mono fun _ s₂ h₂ => h₁.andThen h₂.1
  split
  · rename_i hasync
    have ht : s.lexer.token ≠ .endOfFile := fun heq => by simp [heq] at hasync
    refine run_isMemberModifier fun b => ?_
    split
    · exact (run_advance hs ht).mono fun _ s₁ h₁ => hrest s₁ h₁.toYields
    · exact hrest s (.refl hs)
  · exact hrest s (.refl hs)

theorem run_classPropertyRest {start : Nat} {details : Details} {key : NodeId}
    (h : Yields text true s₀ [key] s) (hstart : start = s₀.lexer.start) :
    Run (classPropertyRest inner start details key) c s fun id s' => Yields text false s₀ [id] s' := by
  simp only [classPropertyRest, run_bind, run_steps, run_ite]
  refine (ascription?_rule hinner c s h.good).mono fun type s₁ h₁ => ?_
  split
  · trivial
  · refine (run_endStatement h₁.good).mono fun _ s₂ h₂ => ?_
    have hread := ((h.trans h₁).andThen h₂).reads key (by simp)
    exact run_finish hread hstart (by simp) (by simp [NodeKind.admits, NodeKind.schema]) (by decide)

theorem run_signedProperty {start : Nat} {flags : NodeFlags} (h : Yields text true s₀ [] s)
    (hstart : start = s₀.lexer.start) :
    Run (signedProperty inner start flags) c s fun id s' => Yields text false s₀ [id] s' := by
  simp only [signedProperty, run_bind]
  refine (run_variance h.good).mono fun sign s₁ h₁ => ?_
  refine (run_propertyName hinner h₁.good).mono fun r s₂ h₂ => ?_
  exact run_classPropertyRest hinner ((h.andThen h₁).before h₂) hstart

theorem classMember_rule : Rule text false (classMember inner) := by
  intro c s hs
  simp -zeta only [classMember, run_bind, run_steps]
  extract_lets withStatic
  have hstatic : ∀ static, (static = true → s.lexer.token ≠ .endOfFile) →
      Run (withStatic static) c s fun id s' => Yields text false s [id] s' := by
    intro static ht
    simp -zeta only [withStatic]
    extract_lets rest
    have hrest : ∀ s₁, Yields text true s [] s₁ →
        Run (rest ()) c s₁ fun id s' => Yields text false s [id] s' := by
      intro s₁ h₁
      simp only [rest, run_bind, run_steps, run_ite, run_failUnexpected]
      split
      · exact run_signedProperty hinner h₁ rfl
      · refine (run_functionFlags h₁.good).mono fun flags s₂ h₂ => ?_
        refine (run_accessorFlags h₂.good).mono fun flags s₃ h₃ => ?_
        split
        · trivial
        · refine (run_propertyName hinner h₃.good).mono fun r s₄ h₄ => ?_
          have hkey := ((h₁.andThen h₂).andThen h₃).before h₄
          split
          · refine (run_methodFunction hinner h₄.good).mono fun value s₅ h₅ => ?_
            have hread := (hkey.trans h₅).reads r.1 (by simp)
            exact run_finish hread rfl (by simp) rfl (by decide)
          · split
            · trivial
            · exact run_classPropertyRest hinner hkey rfl
    simp only [run_ite, run_bind]
    split
    · rename_i hstatic
      exact (run_advance hs (ht hstatic)).mono fun _ s₁ h₁ => hrest s₁ h₁.toYields
    · exact hrest s (.refl hs)
  simp only [run_ite, run_bind, run_pure]
  split
  · rename_i ht
    exact run_isMemberModifier fun static => hstatic static fun _ heq => by simp [heq] at ht
  · exact hstatic false (by simp)

theorem classBody_rule : Rule text true (classBody inner) := by
  intro c s hs
  simp only [classBody, finish, run_bind, run_steps]
  refine (run_expect hs (by decide)).mono fun _ s₁ h₁ => ?_
  refine (run_collectUntil (v := false) Option.toList (fun s => s.lexer.token = .closeBrace)
    h₁.good fun s hs => ?_).mono fun members s₂ h₂ => ?_
  · simp only [run_bind, run_steps]
    split
    · rename_i ht
      exact run_pure.mpr ⟨.refl hs, ht⟩
    · rename_i ht
      rw [run_bind]
      refine (run_advance hs (by simp [ht])).mono fun _ s₁ h₁ => ?_
      exact run_pure.mpr ⟨h₁.toBuilds, by simp⟩
    · simp only [run_steps]
    · rw [run_bind]
      exact (hinner.classMember c s hs).mono fun member s₁ h₁ => run_pure.mpr h₁
  obtain ⟨h₂, hclose⟩ := h₂
  refine (run_advance h₂.good (by simp [hclose])).mono fun _ s₃ h₃ => ?_
  refine run_finishBraces (.between _ h₁ h₂ h₃ ?_) (.inr rfl)
  have hsome : (members.filter Option.isSome).filterMap id = members.filterMap id := by
    rw [List.filterMap_filter]
    exact List.filterMap_congr fun member _ => by cases member <;> rfl
  rw [hsome]
  exact List.filterMap_eq_flatMap_toList _ _

/-! ## Classes -/

structure ReadsClause (text : List Char) (field : Field) (s₀ : State) (slot : Slot) (s : State) : Prop
    extends Yields text false s₀ slot.children s where
  within : s.tree.Within s₀.lexer.start s.lastEnd slot
  accepted : (FieldSpec.maybeMany field).accepts slot

/-- The interfaces of a class, with the range of the whole clause. -/
theorem run_implementsClause (hs : Good text s) :
    Run (implementsClause inner) c s fun slot s' => ReadsClause text .implements s slot s' ∧
      ∀ tree : Tree, Chain text s'.lastEnd s.lexer.start
        (tree.rangesIn (.maybeMany .implements) slot) := by
  simp only [implementsClause, finish, listFrom, run_bind, run_steps, run_ite, run_pure]
  split
  · exact ⟨⟨.refl hs, trivial, rfl⟩, fun _ => trivial⟩
  · rename_i ht
    refine (run_advance hs (by simp_all)).mono fun _ s₁ h₁ => ?_
    refine (run_commaSeparated (v := false) h₁.good fun s hs => ?_).mono fun interfaces s₂ h₂ => ?_
    · simp only [run_bind, run_steps]
      refine (identifier_rule c s hs).mono fun id s₁ h₁ => ?_
      refine (typeArguments?_rule hinner c s₁ h₁.good).mono fun arguments s₂ h₂ => ?_
      exact run_finish ((h₁.trans h₂).reads id (by simp)) rfl (by simp)
        (by simp [NodeKind.admits, NodeKind.schema]) (by decide)
    · have hread := h₁.trans h₂
      have hlist := hread.list (interfaces.map some) (by simp)
      refine ⟨⟨hlist.toYields, hlist.within, rfl⟩, fun tree => ?_⟩
      simp only [Tree.rangesIn, FieldSpec.maybeMany, if_true]
      exact ⟨Nat.le_refl _, hread.lt, Nat.le_refl _, hs.tokenStart, hread.good.stop, trivial⟩

section ClassSlots

variable {kind : NodeKind} (hkind : kind = .classDeclaration ∨ kind = .classExpression)
  (name typeParameters superClass superArguments : Option NodeId) (implemented : Slot)
  (body : NodeId)

include hkind

omit hinner in
/-- The parts of a class in the order in which they are read. -/
theorem reading_class :
    kind.reading [.ofOption name, .ofOption typeParameters, .ofOption superClass,
      .ofOption superArguments, implemented, .node body] =
      name.toList ++ typeParameters.toList ++ (superClass.toList ++ superArguments.toList) ++
        (implemented.children ++ [body]) := by
  have hslots : [Slot.ofOption name, .ofOption typeParameters, .ofOption superClass,
      .ofOption superArguments, implemented, .node body].flatMap Slot.children =
      name.toList ++ typeParameters.toList ++ (superClass.toList ++ superArguments.toList) ++
        (implemented.children ++ [body]) := by
    simp
  rw [← hslots]
  rcases hkind with rfl | rfl <;> exact NodeKind.reading_of_ne (by decide) _

omit hinner in
/-- Their ranges. A clause of interfaces has one of its own. -/
theorem rangesOf_class (tree : Tree) :
    tree.rangesOf kind [.ofOption name, .ofOption typeParameters, .ofOption superClass,
      .ofOption superArguments, implemented, .node body] =
      (name.toList ++ typeParameters.toList ++ (superClass.toList ++
        superArguments.toList)).filterMap tree.range? ++
      (tree.rangesIn (.maybeMany .implements) implemented ++ [body].filterMap tree.range?) := by
  have hoption : ∀ spec (id : Option NodeId),
      tree.rangesIn spec (.ofOption id) = id.toList.filterMap tree.range? :=
    fun _ id => by cases id <;> rfl
  have hschema : kind.schema = NodeKind.classDeclaration.schema := by
    rcases hkind with rfl | rfl <;> rfl
  rw [Tree.rangesOf, hschema]
  simp only [NodeKind.schema, List.zip_cons_cons, List.zip_nil_right, List.flatMap_cons,
    List.flatMap_nil, List.append_nil, hoption, List.filterMap_append, List.append_assoc]
  rfl

end ClassSlots

omit hinner in
/-- A class of its parts, with the clause of interfaces in the last place but one. -/
theorem run_finishClass {kind : NodeKind} {name typeParameters superClass superArguments :
    Option NodeId} {implemented : Slot} {body : NodeId} {s₁ s₂ s₃ : State}
    (h₁ : Reads text false s₀ (name.toList ++ typeParameters.toList ++
      (superClass.toList ++ superArguments.toList)) s₁)
    (h₂ : ReadsClause text .implements s₁ implemented s₂)
    (hclause : ∀ tree : Tree, Chain text s₂.lastEnd s₁.lexer.start
      (tree.rangesIn (.maybeMany .implements) implemented))
    (h₃ : Yields text true s₂ [body] s₃)
    (hkind : kind = .classDeclaration ∨ kind = .classExpression) :
    Run (finishWith kind s₀.lexer.start [.ofOption name, .ofOption typeParameters,
      .ofOption superClass, .ofOption superArguments, implemented, .node body] {}) c s₃
      fun id s' => Yields text true s₀ [id] s' := by
  have hrest := h₂.trans h₃
  have hread := h₁.trans hrest
  have hreading := reading_class hkind name typeParameters superClass superArguments implemented body
  have hfills : s₃.tree.Fills text kind s₀.lexer.start s₃.lastEnd [.ofOption name,
      .ofOption typeParameters, .ofOption superClass, .ofOption superArguments, implemented,
      .node body] := {
    admitted := by
      rcases hkind with rfl | rfl <;> simp [NodeKind.admits, NodeKind.schema, h₂.accepted]
    reading := by
      rw [hreading]
      exact hread.laid
    turns := by rcases hkind with rfl | rfl <;> simp
    lists := by simpa using h₃.keptWithin h₂.within h₁.start h₃.stop
    ranges := fun _ => by
      rw [rangesOf_class hkind]
      have hhead := h₃.good.tree.chain (h₁.kept hrest.toBuilds)
      have hbody := h₃.good.tree.chain h₃.laid
      exact hhead.append ((hclause s₃.tree).append hbody h₂.good.order h₂.start h₃.stop)
        h₁.good.order h₁.start hrest.stop
    needed := by
      have hneeded : ∀ c ∈ [body] ++ [], s₃.tree.IsValue c :=
        fun c hc => h₃.values rfl c (by simpa using hc)
      rcases hkind with rfl | rfl <;> exact hneeded
    embedded := by
      rcases hkind with rfl | rfl <;> simp [NodeKind.embedded, NodeKind.childrenWhere,
        NodeKind.schema, NodeKind.embeds]
    encloses := .of_isBlockless (by rcases hkind with rfl | rfl <;> rfl)
    colon := Tree.slotsKeepColon_of_ne (by rcases hkind with rfl | rfl <;> decide) _ }
  refine (run_finishFilled hread rfl hreading hfills (.of_not ?_)).mono
    fun id s' hid => hid.yields (by rcases hkind with rfl | rfl <;> decide)
  rcases hkind with rfl | rfl <;> rfl

theorem run_classOf {heritage : Parser NodeId} {kind : NodeKind} {allowAnonymous : Bool}
    (hheritage : Rule text true heritage) (hs : Good text s)
    (hkind : kind = .classDeclaration ∨ kind = .classExpression) :
    Run (classOf inner heritage kind s.lexer.start allowAnonymous) c s fun id s' =>
      Yields text true s [id] s' := by
  simp only [classOf, finish, run_bind, run_steps, run_ite, run_pure]
  refine (run_expect hs (by decide)).mono fun _ s₁ h₁ => ?_
  refine run_isIdentifier fun named _ => ?_
  refine (declaredName_rule _ allowAnonymous c s₁ h₁.good).mono fun name s₂ h₂ => ?_
  refine (typeParameters?_rule hinner c s₂ h₂.good).mono fun typeParameters s₃ h₃ => ?_
  have hhead := (h₁.trans h₂).trans h₃
  have hrest : ∀ (superClass superArguments : Option NodeId) s₄,
      Yields text false s₃ (superClass.toList ++ superArguments.toList) s₄ →
      Run (implementsClause inner) c s₄ fun implemented s' =>
        Run (classBody inner) c s' fun body s' =>
          Run (finishWith kind s.lexer.start [.ofOption name, .ofOption typeParameters,
            .ofOption superClass, .ofOption superArguments, implemented, .node body] {}) c s'
            fun id s' => Yields text true s [id] s' := by
    intro superClass superArguments s₄ h₄
    refine (run_implementsClause hinner h₄.good).mono fun implemented s₅ h₅ => ?_
    refine (classBody_rule hinner c s₅ h₅.1.good).mono fun body s₆ h₆ => ?_
    exact run_finishClass (hhead.trans h₄) h₅.1 h₅.2 h₆ hkind
  refine (run_accept h₃.good (by decide)).mono fun b s₄ h₄ => ?_
  split
  · refine (hheritage c s₄ h₄.1.good).mono fun superClass s₅ h₅ => ?_
    refine (typeArguments?_rule hinner c s₅ h₅.good).mono fun superArguments s₆ h₆ => ?_
    refine hrest (some superClass) superArguments s₆ ?_
    simpa using (h₄.1.before h₅).trans h₆
  · exact hrest none none s₄ h₄.1.weaken

end

end FlowErasure.Grammar
