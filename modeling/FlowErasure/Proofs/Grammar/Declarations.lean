import FlowErasure.Grammar.Modules
import FlowErasure.Proofs.Grammar.Assignments

/-!
# Declarations, imports and exports
-/

namespace FlowErasure.Grammar

variable {text : List Char} {inner : Nested} {c : Context} {s s₀ : State}

theorem run_endStatement_tree : Run endStatement c s fun _ s' => s'.tree = s.tree := by
  have hadvance : Run advance c s fun _ s' => s'.tree = s.tree := by
    unfold advance
    rw [run_bind]
    rintro _ _ ⟨⟩
    rw [run_raiseFault]
    exact fun _ => rfl
  simp only [endStatement, run_bind, run_steps, run_ite]
  split
  · exact hadvance
  · refine run_canEndStatement fun b => ?_
    split
    · exact run_pure.mpr rfl
    · trivial

section

variable (hinner : inner.Sound text)

include hinner

/-! ## Values -/

theorem variableDeclarator_rule : Rule text true (variableDeclarator inner) := by
  intro c s hs
  simp only [variableDeclarator, finish, run_bind, run_steps, run_ite, run_map, run_pure]
  refine (bindingTarget_rule hinner false c s hs).mono fun id s₁ h₁ => ?_
  refine (run_accept h₁.good (by decide)).mono fun b s₂ h₂ => ?_
  have htarget := h₁.andThen h₂.1
  split
  · refine (hinner.assignment c s₂ h₂.1.good).mono fun init s₃ h₃ => ?_
    exact run_finish ((htarget.trans h₃).reads id (by simp)) rfl rfl rfl
      (by decide)
  · exact run_finish (htarget.reads id (by simp)) rfl rfl rfl (by decide)

theorem run_variableDeclaration (hs : Good text s) (ht : s.lexer.token ≠ .endOfFile) :
    Run (variableDeclaration inner) c s fun id s' =>
      ∃ s₁, Finishes text s .variableDeclaration false s₁ id s' := by
  simp only [variableDeclaration, listFrom, run_bind, run_steps, run_pure]
  refine (run_advance hs ht).mono fun _ s₁ h₁ => ?_
  refine ((run_commaSeparated h₁.good fun s hs =>
    variableDeclarator_rule hinner c s hs).and run_commaSeparated_ne).mono ?_
  rintro declarators s₂ ⟨h₂, hne⟩
  obtain ⟨first, hfirst⟩ := List.exists_mem_of_ne_nil declarators hne
  have hlist := (h₂.reads first hfirst).list (declarators.map some) (by simp)
  have hwithin := hlist.within.mono h₁.start (Nat.le_refl _)
  exact (run_finishLists (h₁.trans h₂) rfl (by simp) rfl (by simpa using hwithin) (by decide)).mono
    fun id s' h' => ⟨s₂, h'⟩

theorem variableStatement_rule : TokenRule text true (variableStatement inner) := by
  intro c s hs ht
  simp only [variableStatement, run_bind, run_steps, run_pure]
  refine (run_variableDeclaration hinner hs ht).mono ?_
  rintro declaration s₂ ⟨s₁, h⟩
  refine ((run_endStatement h.good).and run_endStatement_tree).mono ?_
  rintro _ s₃ ⟨h₃, htree⟩
  have hface : s₃.tree.face? declaration =
      some ⟨.variableDeclaration, s.lexer.start, s₁.lastEnd, false⟩ := by
    rw [htree]
    exact h.face
  have hall := ((h.yields (v := true) rfl).andThen h₃).toBuilds
  refine (run_stretch hall (htree ▸ h.last) hface ?_ rfl rfl).mono ?_
  · intro node hnode
    have hstart : node.start = s.lexer.start := congrArg Face.start hnode
    simp only [← hstart]
  · rintro _ s₄ ⟨h₄, hface⟩
    refine ⟨h₄, fun _ id hid => ?_⟩
    rw [List.mem_singleton] at hid
    exact hid ▸ ⟨_, hface, rfl⟩

theorem functionDeclaration_rule (allowAnonymous : Bool) :
    Rule text true (functionDeclaration inner allowAnonymous) := by
  intro c s hs
  simp only [functionDeclaration, run_bind, run_steps]
  exact run_function hinner hs (.inl rfl)

theorem classDeclaration_rule (allowAnonymous : Bool) :
    Rule text true (classDeclaration inner allowAnonymous) := by
  intro c s hs
  simp only [classDeclaration, run_bind, run_steps]
  exact run_classOf hinner (leftHandSide_rule hinner) hs (.inl rfl)

/-! ## Types -/

theorem run_typeAlias {flags : NodeFlags} (h : Yields text true s₀ [] s) :
    Run (typeAlias inner s₀.lexer.start flags) c s fun id s' =>
      ∃ s₁, Finishes text s₀ .typeAlias flags.exported s₁ id s' := by
  simp only [typeAlias, run_bind]
  refine (run_expect h.good (by decide)).mono fun _ s₁ h₁ => ?_
  refine (identifier_rule c s₁ h₁.good).mono fun id s₂ h₂ => ?_
  refine (typeParameters?_rule hinner c s₂ h₂.good).mono fun typeParameters s₃ h₃ => ?_
  refine (run_expect h₃.good (by decide)).mono fun _ s₄ h₄ => ?_
  refine (hinner.type c s₄ h₄.good).mono fun right s₅ h₅ => ?_
  refine (run_endStatement h₅.good).mono fun _ s₆ h₆ => ?_
  have hhead := (h.transReads h₁).trans (h₂.trans (h₃.andThen h₄.toYields))
  have hread := hhead.trans (h₅.andThen h₆)
  exact (run_finishWith hread rfl (by simp) (by simp [NodeKind.admits, NodeKind.schema])
    (by decide)).mono fun id s' h' => ⟨s₆, h'⟩

theorem run_extendsClause (hs : Good text s) :
    Run (extendsClause inner) c s (ReadsClause text .heritage s) := by
  simp only [extendsClause, finish, listFrom, run_bind, run_steps, run_ite, run_pure]
  split
  · exact ⟨.refl hs, trivial, rfl⟩
  · rename_i ht
    refine (run_advance hs (by simp_all)).mono fun _ s₁ h₁ => ?_
    refine (run_commaSeparated (v := false) h₁.good fun s hs => ?_).mono fun bases s₂ h₂ => ?_
    · simp only [run_bind, run_steps]
      refine (qualifiedTypeName_rule c s hs).mono fun id s₁ h₁ => ?_
      refine (typeArguments?_rule hinner c s₁ h₁.good).mono fun arguments s₂ h₂ => ?_
      exact run_finish ((h₁.trans h₂).reads id (by simp)) rfl (by simp)
        (by simp [NodeKind.admits, NodeKind.schema]) (by decide)
    · have hlist := (h₁.trans h₂).list (bases.map some) (by simp)
      exact ⟨hlist.toYields, hlist.within, rfl⟩

omit hinner in
structure InterfaceSlots (text : List Char) (s₀ : State) (slots : List Slot) (s : State) : Prop
    extends Reads text false s₀ (slots.flatMap Slot.children) s where
  admits : NodeKind.interfaceDeclaration.admits slots
  within : ∀ slot ∈ slots, s.tree.Within s₀.lexer.start s.lastEnd slot

theorem run_interfaceRest {allowStatic : Bool} (hs : Good text s) :
    Run (interfaceRest inner allowStatic) c s (InterfaceSlots text s) := by
  simp only [interfaceRest, run_bind, run_pure]
  refine (identifier_rule c s hs).mono fun id s₁ h₁ => ?_
  refine (typeParameters?_rule hinner c s₁ h₁.good).mono fun typeParameters s₂ h₂ => ?_
  refine (run_extendsClause hinner h₂.good).mono fun bases s₃ h₃ => ?_
  refine (objectType_rule hinner allowStatic c s₃ h₃.good).mono fun body s₄ h₄ => ?_
  have hhead := h₁.trans h₂
  have hread := (hhead.trans (h₃.trans h₄)).reads id (by simp)
  refine ⟨by simpa using hread, ?_, ?_⟩
  · simpa [NodeKind.admits, NodeKind.schema] using h₃.accepted
  · simpa using h₄.keptWithin h₃.within hhead.start h₄.stop

omit hinner in
/-- The end of the rule for an interface or a declared class. -/
theorem run_finishInterface {kind : NodeKind} {slots : List Slot} {details : Details}
    (h : Yields text true s₀ [] s) {s₁ : State} (h' : InterfaceSlots text s slots s₁)
    (hkind : kind = .interfaceDeclaration ∨ kind = .declareClass) :
    Run (finishWith kind s₀.lexer.start slots details) c s₁
      (Finishes text s₀ kind details.flags.exported s₁) := by
  have hlists : ∀ slot ∈ slots, s₁.tree.Within s₀.lexer.start s₁.lastEnd slot :=
    fun slot hslot => (h'.within slot hslot).mono h.start (Nat.le_refl _)
  refine run_finishLists (h.transReads h'.toReads) rfl rfl ?_ hlists ?_
  · rcases hkind with rfl | rfl <;> exact h'.admits
  · rcases hkind with rfl | rfl <;> rfl

theorem run_interfaceDeclaration {flags : NodeFlags} (h : Yields text true s₀ [] s) :
    Run (interfaceDeclaration inner s₀.lexer.start flags) c s fun id s' =>
      ∃ s₁, Finishes text s₀ .interfaceDeclaration flags.exported s₁ id s' := by
  simp only [interfaceDeclaration, run_bind]
  refine (run_expect h.good (by decide)).mono fun _ s₁ h₁ => ?_
  refine (run_interfaceRest hinner h₁.good).mono fun rest s₂ h₂ => ?_
  exact (run_finishInterface (h.andThen h₁.toYields) h₂ (.inl rfl)).mono fun id s' h' => ⟨s₂, h'⟩

/-! ## Ambient declarations -/

theorem declaredFunctionName_rule : Rule text true (declaredFunctionName inner) := by
  intro c s hs
  simp only [declaredFunctionName, finish, run_bind, run_steps, run_ite]
  refine run_isIdentifier fun b hb => ?_
  split
  · trivial
  · rename_i hname
    have ht : s.lexer.token ≠ .endOfFile := hb (by simpa using hname)
    refine (run_tokenAtom hs).mono fun name s₁ h₁ => ?_
    refine (run_advance h₁.1.good (h₁.2 ▸ ht)).mono fun _ s₂ h₂ => ?_
    refine (methodType_rule hinner c s₂ h₂.good).mono fun type s₃ h₃ => ?_
    refine (run_finish (v := false) (h₃.reads type (by simp)) rfl rfl rfl
      (by decide)).mono fun ascription s₄ h₄ => ?_
    exact run_finish ((h₁.1.transReads h₂).trans h₄) rfl rfl rfl (by decide)

omit hinner in
theorem moduleName_rule : Rule text true moduleName := by
  intro c s hs
  simp only [moduleName, run_bind, run_steps, run_ite]
  split
  · exact stringLiteral_rule c s hs
  · exact identifier_rule c s hs

theorem declareStatement_rule : TokenRule text false (declareStatement inner) := by
  intro c s hs ht
  simp only [declareStatement, finish, run_bind, run_steps]
  refine (run_advance hs ht).mono fun _ s₁ h₁ => ?_
  split
  iterate 3
    · rename_i ht
      simp only [run_bind]
      refine (run_advance h₁.good (by simp [ht])).mono fun _ s₂ h₂ => ?_
      refine (bindingIdentifier_rule hinner false c s₂ h₂.good).mono fun id s₃ h₃ => ?_
      refine (run_endStatement h₃.good).mono fun _ s₄ h₄ => ?_
      have hread := (h₁.andThen h₂.toYields).trans (h₃.andThen h₄)
      exact run_finish hread rfl rfl rfl (by decide)
  · rename_i ht
    simp only [run_bind]
    refine (run_advance h₁.good (by simp [ht])).mono fun _ s₂ h₂ => ?_
    refine (declaredFunctionName_rule hinner c s₂ h₂.good).mono fun id s₃ h₃ => ?_
    refine (run_endStatement h₃.good).mono fun _ s₄ h₄ => ?_
    have hread := (h₁.andThen h₂.toYields).trans (h₃.andThen h₄)
    exact run_finish hread rfl rfl rfl (by decide)
  · rename_i ht
    simp only [run_bind]
    refine (run_advance h₁.good (by simp [ht])).mono fun _ s₂ h₂ => ?_
    refine (run_interfaceRest hinner h₂.good).mono fun rest s₃ h₃ => ?_
    exact (run_finishInterface (h₁.andThen h₂.toYields).toYields h₃ (.inr rfl)).mono
      fun id s' h' => h'.yields rfl
  · rename_i ht
    simp only [run_bind]
    refine (run_advance h₁.good (by simp [ht])).mono fun _ s₂ h₂ => ?_
    refine (moduleName_rule c s₂ h₂.good).mono fun id s₃ h₃ => ?_
    refine (blockStatement_rule hinner c s₃ h₃.good).mono fun body s₄ h₄ => ?_
    have hname := (h₁.andThen h₂.toYields).trans h₃
    exact run_finish (hname.trans h₄) rfl rfl rfl (by decide)
  · refine (run_typeAlias hinner h₁.toYields).mono ?_
    rintro id s' ⟨s₂, h₂⟩
    exact h₂.yields rfl
  · refine (run_interfaceDeclaration hinner h₁.toYields).mono ?_
    rintro id s' ⟨s₂, h₂⟩
    exact h₂.yields rfl
  · exact run_failUnexpected.mpr trivial

/-! ## Imports -/

omit hinner in
theorem importSpecifier_rule : Rule text true importSpecifier := by
  intro c s hs
  simp only [importSpecifier, finish, run_bind, run_steps, run_ite]
  refine (identifierName_rule c s hs).mono fun name s₁ h₁ => ?_
  refine (run_accept h₁.good (by decide)).mono fun b s₂ h₂ => ?_
  have hname := h₁.andThen h₂.1
  split
  · refine (identifier_rule c s₂ h₂.1.good).mono fun localName s₃ h₃ => ?_
    exact run_finish ((hname.trans h₃).reads name (by simp)) rfl rfl rfl
      (by decide)
  · exact run_finish (hname.reads name (by simp)) rfl rfl rfl (by decide)

omit hinner in
theorem run_specifiersInBraces {specifier : Parser NodeId} (hspecifier : Rule text true specifier)
    (hs : Good text s) :
    Run (specifiersInBraces specifier) c s fun ids s' => Reads text true s ids s' := by
  simp only [specifiersInBraces, run_bind, run_pure]
  refine (run_expect hs (by decide)).mono fun _ s₁ h₁ => ?_
  refine (run_commaDelimited h₁.good fun s hs => hspecifier c s hs).mono fun specifiers s₂ h₂ => ?_
  refine (run_expect h₂.good (by decide)).mono fun _ s₃ h₃ => ?_
  exact h₁.trans (h₂.andThen h₃.toYields)

omit hinner in
theorem defaultImport_rule : Rule text true defaultImport := by
  intro c s hs
  simp only [defaultImport, finish, run_bind, run_steps]
  refine (identifier_rule c s hs).mono fun localName s₁ h₁ => ?_
  exact run_finish (h₁.reads localName (by simp)) rfl rfl rfl (by decide)

omit hinner in
theorem run_namespaceOrNamedImports (hs : Good text s) :
    Run namespaceOrNamedImports c s fun ids s' => Reads text true s ids s' := by
  simp only [namespaceOrNamedImports, finish, run_bind, run_steps]
  split
  · rename_i ht
    simp only [run_bind, run_steps, run_pure]
    refine (run_advance hs (by simp [ht])).mono fun _ s₁ h₁ => ?_
    refine (run_expect h₁.good (by decide)).mono fun _ s₂ h₂ => ?_
    refine (identifier_rule c s₂ h₂.good).mono fun localName s₃ h₃ => ?_
    have hread := (h₁.andThen h₂.toYields).trans h₃
    exact (run_finish hread rfl rfl rfl (by decide)).mono fun id s₄ h₄ => h₄.reads id (by simp)
  · exact run_specifiersInBraces importSpecifier_rule hs
  · simp only [run_steps]

omit hinner in
theorem run_importSpecifiers (hs : Good text s) :
    Run importSpecifiers c s fun ids s' => Reads text true s ids s' := by
  simp only [importSpecifiers, run_bind, run_ite, run_pure]
  refine run_isIdentifier fun b _ => ?_
  split
  · refine (defaultImport_rule c s hs).mono fun first s₁ h₁ => ?_
    refine (run_accept h₁.good (by decide)).mono fun b s₂ h₂ => ?_
    have hfirst := h₁.andThen h₂.1
    split
    · refine (run_namespaceOrNamedImports h₂.1.good).mono fun more s₃ h₃ => ?_
      exact hfirst.transReads h₃
    · exact hfirst.reads first (by simp)
  · exact run_namespaceOrNamedImports hs

omit hinner in
theorem importDeclaration_rule : TokenRule text true importDeclaration := by
  intro c s hs ht
  simp only [importDeclaration, startsTypeImport, finish, listFrom, run_bind, run_steps, run_ite,
    run_pure]
  refine (run_advance hs ht).mono fun _ s₁ h₁ => ?_
  have hrest : Run importSpecifiers c s₁ fun specifiers s' =>
      Run (expect .fromKeyword) c s' fun _ s'' => Run stringLiteral c s'' fun source s'' =>
        Run endStatement c s'' fun _ s'' =>
          Run (finishWith .importDeclaration s.lexer.start
            [.list ⟨specifiers.map some, s₁.lexer.start, s'.lastEnd⟩, .node source] {}) c s''
            fun id s'' => Yields text true s [id] s'' := by
    refine (run_importSpecifiers h₁.good).mono fun specifiers s₂ h₂ => ?_
    refine (run_expect h₂.good (by decide)).mono fun _ s₃ h₃ => ?_
    refine (stringLiteral_rule c s₃ h₃.good).mono fun source s₄ h₄ => ?_
    refine (run_endStatement h₄.good).mono fun _ s₅ h₅ => ?_
    have hsource := h₃.toYields.before (h₄.andThen h₅)
    have hlist := h₂.list (specifiers.map some) (by simp)
    have hwithin := hsource.keptWithin hlist.within h₁.start hsource.stop
    have hread := h₁.trans (h₂.toYields.trans hsource)
    exact run_finishList hread rfl (by simp) rfl (by simpa using hwithin) (by decide)
  split
  · refine (stringLiteral_rule c s₁ h₁.good).mono fun source s₂ h₂ => ?_
    refine (run_endStatement h₂.good).mono fun _ s₃ h₃ => ?_
    exact run_finishList (h₁.trans (h₂.andThen h₃)) rfl rfl rfl (by simp) (by decide)
  · split
    · split
      · trivial
      · exact hrest
    · exact hrest

/-! ## Exports -/

omit hinner in
theorem exportSpecifier_rule : Rule text true exportSpecifier := by
  intro c s hs
  simp only [exportSpecifier, finish, run_bind, run_steps, run_ite, run_map, run_pure]
  refine (identifierName_rule c s hs).mono fun localName s₁ h₁ => ?_
  refine (run_accept h₁.good (by decide)).mono fun b s₂ h₂ => ?_
  have hname := h₁.andThen h₂.1
  split
  · refine (identifierName_rule c s₂ h₂.1.good).mono fun exported s₃ h₃ => ?_
    exact run_finish ((hname.trans h₃).reads localName (by simp)) rfl rfl rfl
      (by decide)
  · exact run_finish (hname.reads localName (by simp)) rfl rfl rfl (by decide)

omit hinner in
theorem run_startsFunction {Q : Bool → State → Prop} (h : ∀ b, Q b s) : Run startsFunction c s Q := by
  simp only [startsFunction, startsAsyncFunction, run_bind, run_steps]
  split
  · exact run_pure.mpr (h _)
  · simp only [run_steps]
    exact h _
  · exact run_pure.mpr (h _)

theorem defaultExport_rule : Rule text true (defaultExport inner) := by
  intro c s hs
  simp only [defaultExport, run_bind, run_steps, run_ite, run_pure]
  refine run_startsFunction fun b => ?_
  split
  · exact functionDeclaration_rule hinner true c s hs
  · split
    · exact classDeclaration_rule hinner true c s hs
    · refine (hinner.assignment c s hs).mono fun expression s₁ h₁ => ?_
      exact (run_endStatement h₁.good).mono fun _ s₂ h₂ => h₁.andThen h₂

theorem exportedDeclaration_rule : Rule text true (exportedDeclaration inner) := by
  intro c s hs
  simp only [exportedDeclaration, run_bind, run_steps, run_ite, run_failUnexpected]
  split
  · rename_i ht
    exact variableStatement_rule hinner c s hs fun heq => by simp [heq] at ht
  · refine run_startsFunction fun b => ?_
    split
    · exact functionDeclaration_rule hinner false c s hs
    · split
      · exact classDeclaration_rule hinner false c s hs
      · trivial

theorem run_exportDeclaration (hs : Good text s) (ht : s.lexer.token ≠ .endOfFile) :
    Run (exportDeclaration inner) c s fun id s' => Yields text false s [id] s' ∧
      (s'.tree.IsValue id ∨ s'.tree.IsExportedType id) := by
  have hvalue : ∀ {id s'}, Yields text true s [id] s' → Yields text false s [id] s' ∧
      (s'.tree.IsValue id ∨ s'.tree.IsExportedType id) :=
    fun h => ⟨h.weaken, .inl (h.values rfl _ (by simp))⟩
  simp only [exportDeclaration, finish, listFrom, run_bind, run_steps]
  refine (run_advance hs ht).mono fun _ s₁ h₁ => ?_
  split
  · rename_i ht
    simp only [run_bind]
    refine (run_advance h₁.good (by simp [ht])).mono fun _ s₂ h₂ => ?_
    refine (defaultExport_rule hinner c s₂ h₂.good).mono fun declaration s₃ h₃ => ?_
    have hread := (h₁.andThen h₂.toYields).trans h₃
    exact (run_finish hread rfl rfl rfl (by decide)).mono fun _ _ h => hvalue h
  · rename_i ht
    simp only [run_bind]
    refine (run_advance h₁.good (by simp [ht])).mono fun _ s₂ h₂ => ?_
    refine (run_expect h₂.good (by decide)).mono fun _ s₃ h₃ => ?_
    refine (stringLiteral_rule c s₃ h₃.good).mono fun source s₄ h₄ => ?_
    refine (run_endStatement h₄.good).mono fun _ s₅ h₅ => ?_
    have hhead := (h₁.andThen h₂.toYields).andThen h₃.toYields
    exact (run_finish (hhead.trans (h₄.andThen h₅)) rfl rfl rfl (by decide)).mono
      fun _ _ h => hvalue h
  · simp only [run_bind, run_steps, run_ite, run_map, run_pure]
    refine (run_specifiersInBraces exportSpecifier_rule h₁.good).mono fun specifiers s₂ h₂ => ?_
    have hend : ∀ (source : Option NodeId) s₃, Yields text true s₂ source.toList s₃ →
        Run endStatement c s₃ fun _ s' => Run (finishWith .exportNamedDeclaration s.lexer.start
          [.absent, .list ⟨specifiers.map some, s₁.lexer.start, s₂.lastEnd⟩, .ofOption source] {})
          c s' fun id s' => Yields text false s [id] s' ∧
            (s'.tree.IsValue id ∨ s'.tree.IsExportedType id) := by
      intro source s₃ h₃
      refine (run_endStatement h₃.good).mono fun _ s₄ h₄ => ?_
      have hsource := h₃.andThen h₄
      have hlist := h₂.list (specifiers.map some) (by simp)
      have hwithin := hsource.keptWithin hlist.within h₁.start hsource.stop
      exact (run_finishList (h₁.trans (h₂.toYields.trans hsource)) rfl (by simp)
        (by simp [NodeKind.admits, NodeKind.schema]) (by simpa using hwithin) (by decide)).mono
        fun _ _ h => hvalue h
    refine (run_accept h₂.good (by decide)).mono fun b s₃ h₃ => ?_
    split
    · refine (stringLiteral_rule c s₃ h₃.1.good).mono fun source s₄ h₄ => ?_
      exact hend (some source) s₄ (h₃.1.before h₄)
    · exact hend none s₃ h₃.1
  · refine (run_typeAlias hinner h₁.toYields).mono ?_
    rintro id s' ⟨s₂, h₂⟩
    exact ⟨h₂.yields rfl, .inr (h₂.isExportedType (.inl rfl))⟩
  · refine (run_interfaceDeclaration hinner h₁.toYields).mono ?_
    rintro id s' ⟨s₂, h₂⟩
    exact ⟨h₂.yields rfl, .inr (h₂.isExportedType (.inr rfl))⟩
  · simp only [run_bind]
    refine (exportedDeclaration_rule hinner c s₁ h₁.good).mono fun declaration s₂ h₂ => ?_
    exact (run_finishList (h₁.trans h₂) rfl rfl rfl (by simp) (by decide)).mono
      fun _ _ h => hvalue h

end

end FlowErasure.Grammar
