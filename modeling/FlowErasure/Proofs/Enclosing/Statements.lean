import FlowErasure.Proofs.Enclosing.Expressions
import FlowErasure.Proofs.Frame.Statements

/-!
# Operators in declarations and statements

With these, every rule of every level of nesting answers with a node at which the operators of its
context may stand.
-/

namespace FlowErasure.Grammar

variable {final : Tree} {c : Context} {inner : Nested} (h : inner.Permitting final)

include h

/-! ## Declarations -/

theorem permits_variableDeclarator : Permits final c.operators c (variableDeclarator inner) := by
  refine .quiet fun start => (permits_bindingTarget h false).bind fun id => .quiet fun _ => ?_
  apply AnswersIn.join (fun init => final.AllPermit c.operators init.toList)
  · exact (h.assignment c).map (by simp)
  · exact .pure (by simp)
  · exact fun init => .neutral rfl (by simp_all)

theorem permits_variableDeclaration : Permits final c.operators c (variableDeclaration inner) := by
  refine .quiet fun start => .quiet fun t => .quiet fun _ => .quiet fun listStart => ?_
  apply (permits_variableDeclarator h).commaSeparated.bind
  intro ids
  refine AnswersIn.listed.bind fun slot => .neutralWith rfl ?_
  simp_all [Tree.AllPermit]

/-- The semicolon moves the end of a declaration, which decides nothing here. -/
theorem permits_variableStatement : Permits final c.operators c (variableStatement inner) := by
  refine (permits_variableDeclaration h).bind fun declaration => .quiet fun _ => .quiet fun stop => ?_
  refine (AnswersIn.updateNode ?_).bind fun _ => ?_
  · exact fun node => rfl
  · exact .pure fun _ hdeclaration => hdeclaration

theorem permits_functionDeclaration (allowAnonymous : Bool) :
    Permits final c.operators c (functionDeclaration inner allowAnonymous) :=
  .quiet fun start => permits_function c.operators h rfl (by decide) start allowAnonymous

theorem permits_classDeclaration (allowAnonymous : Bool) :
    Permits final c.operators c (classDeclaration inner allowAnonymous) :=
  .quiet fun start => permits_classOf h (permits_leftHandSide h) rfl start allowAnonymous

/-! ### Types -/

theorem permits_typeAlias (start : Nat) (flags : NodeFlags) :
    Permits final c.operators c (typeAlias inner start flags) := by
  refine .quiet fun _ => (permits_identifier c.operators).bind fun id => ?_
  apply (permits_typeParameters? c.operators h).bind
  intro typeParameters
  refine .quiet fun _ => (h.type c.operators c).bind fun right => .quiet fun _ => ?_
  exact .neutralWith rfl (by simp_all)

theorem permits_extendsClause :
    AllPermit final c.operators c (extendsClause inner) Slot.children := by
  refine .quiet fun _ => .ite (.pure (by simp [Slot.children])) ?_
  refine .quiet fun listStart => .quiet fun _ => ?_
  apply (AnswersIn.commaSeparated (P := final.Permits c.operators) _).bind
  · exact fun bases => AnswersIn.listed.mono (by simp_all [Tree.AllPermit])
  · refine .quiet fun start => (permits_qualifiedTypeName c.operators).bind fun id => ?_
    apply (permits_typeArguments? c.operators h).bind
    exact fun typeArguments => .neutral rfl (by simp_all)

theorem permits_interfaceRest (allowStatic : Bool) :
    AllPermit final c.operators c (interfaceRest inner allowStatic) fun slots =>
      slots.flatMap Slot.children := by
  apply (permits_identifier c.operators).bind
  intro id
  apply (permits_typeParameters? c.operators h).bind
  intro typeParameters
  apply (permits_extendsClause h).bind
  intro bases
  apply (permits_objectType c.operators h allowStatic).bind
  exact fun body => .pure (by simp_all)

theorem permits_interfaceDeclaration (start : Nat) (flags : NodeFlags) :
    Permits final c.operators c (interfaceDeclaration inner start flags) :=
  .quiet fun _ => (permits_interfaceRest h false).bind fun _ => .neutralWith rfl (by simp_all)

theorem permits_declaredFunctionName :
    Permits final c.operators c (declaredFunctionName inner) := by
  refine .quiet fun start => .quiet fun _ => .when ?_
  refine AnswersIn.tokenAtom.bind fun name => .quiet fun _ => .quiet fun typeStart => ?_
  apply (permits_methodType c.operators h).bind
  intro type
  have hascription : AnswersIn Node.content final c (finish .ascription typeStart [.node type])
      fun id => final.Permits c.operators type → final.Permits c.operators id :=
    .neutral rfl (by simp_all)
  exact hascription.bind fun ascription => .neutralWith rfl (by simp_all)

omit h in
theorem permits_source : Permits final c.operators c stringLiteral :=
  .quiet fun _ => .ite (permits_literal c.operators) .fail

omit h in
theorem permits_moduleName : Permits final c.operators c moduleName :=
  .quiet fun _ => .ite permits_source (permits_identifier c.operators)

theorem permits_declareStatement : Permits final c.operators c (declareStatement inner) := by
  have hvariable : ∀ start, Permits final c.operators c (do
      advance
      let id ← bindingIdentifier inner false
      endStatement
      finish .declareVariable start [.node id]) := by
    intro start
    refine .quiet fun _ => (permits_bindingIdentifier c.operators h false).bind fun id => ?_
    exact .quiet fun _ => .neutral rfl (by simp_all)
  refine .quiet fun start => .quiet fun _ => .quiet fun t => ?_
  split
  · exact hvariable start
  · exact hvariable start
  · exact hvariable start
  · refine .quiet fun _ => (permits_declaredFunctionName h).bind fun id => .quiet fun _ => ?_
    exact .neutral rfl (by simp_all)
  · refine .quiet fun _ => (permits_interfaceRest h true).bind fun rest => ?_
    exact .neutral rfl (by simp_all)
  · refine .quiet fun _ => permits_moduleName.bind fun id => ?_
    exact (permits_blockStatement h).bind fun body => .neutral rfl (by simp_all)
  · exact permits_typeAlias h start _
  · exact permits_interfaceDeclaration h start _
  · exact .fail

/-! ### Imports and exports -/

omit h in
theorem permits_importSpecifier : Permits final c.operators c importSpecifier := by
  refine .quiet fun start => (permits_identifierName c.operators).bind fun name => ?_
  refine .quiet fun _ => .ite ?_ (.neutral rfl (by simp_all))
  exact (permits_identifier c.operators).bind fun localName => .neutral rfl (by simp_all)

omit h in
theorem permits_specifiersInBraces {specifier : Parser NodeId}
    (hspecifier : Permits final c.operators c specifier) :
    AllPermit final c.operators c (specifiersInBraces specifier) fun ids => ids :=
  .quiet fun _ => hspecifier.commaDelimited.bind fun _ => .quiet fun _ => .pure fun hids => hids

omit h in
theorem permits_defaultImport : Permits final c.operators c defaultImport :=
  .quiet fun start => (permits_identifier c.operators).bind fun localName =>
    .neutral rfl (by simp_all)

omit h in
theorem permits_namespaceOrNamedImports :
    AllPermit final c.operators c namespaceOrNamedImports fun ids => ids := by
  refine .quiet fun t => ?_
  split
  · refine .quiet fun start => .quiet fun _ => .quiet fun _ => ?_
    refine (permits_identifier c.operators).bind fun localName => ?_
    have hspecifier : AnswersIn Node.content final c
        (finish .importNamespaceSpecifier start [.node localName]) fun id =>
          final.Permits c.operators localName → final.Permits c.operators id :=
      .neutral rfl (by simp_all)
    exact hspecifier.bind fun id => .pure (by simp_all)
  · exact permits_specifiersInBraces permits_importSpecifier
  · exact .fail

omit h in
theorem permits_importSpecifiers :
    AllPermit final c.operators c importSpecifiers fun ids => ids := by
  refine .quiet fun _ => .ite ?_ permits_namespaceOrNamedImports
  refine permits_defaultImport.bind fun first => .quiet fun _ => .ite ?_ (.pure (by simp))
  exact permits_namespaceOrNamedImports.bind fun ids => .pure (by simp_all)

omit h in
theorem permits_importDeclaration : Permits final c.operators c importDeclaration := by
  refine .quiet fun start => .quiet fun _ => .quiet fun _ => .ite ?_ (.quiet fun _ => ?_)
  · exact permits_source.bind fun source => .quiet fun _ => .neutral rfl (by simp_all)
  · extract_lets rest
    have hrest : Permits final c.operators c (rest ()) := by
      refine .quiet fun listStart => permits_importSpecifiers.bind fun ids => ?_
      refine AnswersIn.listed.bind fun slot => .quiet fun _ => ?_
      exact permits_source.bind fun source => .quiet fun _ => .neutral rfl (by simp_all)
    exact .ite (.quiet fun _ => .when hrest) hrest

omit h in
theorem permits_exportSpecifier : Permits final c.operators c exportSpecifier := by
  refine .quiet fun start => (permits_identifierName c.operators).bind fun localName => ?_
  refine .quiet fun _ => .join (fun exported => final.AllPermit c.operators exported.toList)
    ((permits_identifierName c.operators).map (by simp)) (.pure (by simp)) fun exported => ?_
  exact .neutral rfl (by simp_all)

theorem permits_defaultExport : Permits final c.operators c (defaultExport inner) := by
  refine .quiet fun _ => .ite (permits_functionDeclaration h true) (.quiet fun _ => ?_)
  refine .ite (permits_classDeclaration h true) ((h.assignment c).bind fun expression => ?_)
  exact .quiet fun _ => .pure fun hid => hid

theorem permits_exportedDeclaration : Permits final c.operators c (exportedDeclaration inner) := by
  refine .quiet fun _ => .ite (permits_variableStatement h) (.quiet fun _ => ?_)
  refine .ite (permits_functionDeclaration h false) (.quiet fun _ => ?_)
  exact .ite (permits_classDeclaration h false) .fail

theorem permits_exportDeclaration : Permits final c.operators c (exportDeclaration inner) := by
  refine .quiet fun start => .quiet fun _ => .quiet fun t => ?_
  split
  · refine .quiet fun _ => (permits_defaultExport h).bind fun id => ?_
    exact .neutral rfl (by simp_all)
  · refine .quiet fun _ => .quiet fun _ => permits_source.bind fun source => ?_
    exact .quiet fun _ => .neutral rfl (by simp_all)
  · refine .quiet fun listStart => ?_
    apply (permits_specifiersInBraces permits_exportSpecifier).bind
    intro ids
    refine AnswersIn.listed.bind fun slot => .quiet fun _ => ?_
    apply AnswersIn.join (fun source => final.AllPermit c.operators source.toList)
    · exact permits_source.map (by simp)
    · exact .pure (by simp)
    · exact fun source => .quiet fun _ => .neutral rfl (by simp_all)
  · exact permits_typeAlias h start _
  · exact permits_interfaceDeclaration h start _
  · exact (permits_exportedDeclaration h).bind fun declaration => .neutral rfl (by simp_all)

/-! ## Statements -/

theorem permits_embeddedStatement : Permits final c.operators c (embeddedStatement inner) :=
  .quiet fun _ => .ite .fail (h.statement c)

theorem permits_condition : Permits final c.operators c (condition inner) := by
  have hexpression := permits_allowingIn (c := c) fun c => permits_expression h (c := c)
  refine .quiet fun _ => hexpression.bind fun test => ?_
  exact .quiet fun _ => .pure fun hid => hid

theorem permits_ifStatement : Permits final c.operators c (ifStatement inner) := by
  refine .quiet fun start => .quiet fun _ => (permits_condition h).bind fun test => ?_
  refine (permits_embeddedStatement h).bind fun consequent => .quiet fun _ => ?_
  apply AnswersIn.join (fun alternate => final.AllPermit c.operators alternate.toList)
  · exact (permits_embeddedStatement h).map (by simp)
  · exact .pure (by simp)
  · exact fun alternate => .neutral rfl (by simp_all)

theorem permits_switchCase : Permits final c.operators c (switchCase inner) := by
  refine .quiet fun start => .quiet fun t => ?_
  extract_lets rest
  have hrest : ∀ test, AnswersIn Node.content final c (rest test) fun id =>
      final.AllPermit c.operators test.toList → final.Permits c.operators id := by
    intro test
    refine .quiet fun _ => .quiet fun listStart => ?_
    apply (AnswersIn.collect (P := final.Permits c.operators) _).bind
    · intro ids
      refine AnswersIn.listed.bind fun slot => .neutral rfl ?_
      intro id hid hslot hids htest
      have hids : final.AllPermit c.operators ids := hids
      exact hid _ (by simp_all)
    · exact .quiet fun _ => .ite (.pure (by simp)) ((h.statement c).map (by simp))
  split
  · have hsome : AllPermit final c.operators c (some <$> expression inner) Option.toList :=
      (permits_expression h).map (by simp)
    exact .quiet fun _ => hsome.bind hrest
  · exact .quiet fun _ => (hrest none).mono (by simp)
  · exact .bind .fail hrest

theorem permits_switchStatement : Permits final c.operators c (switchStatement inner) := by
  refine .quiet fun start => .quiet fun _ => (permits_condition h).bind fun head => ?_
  refine .quiet fun _ => .quiet fun listStart => ?_
  apply (AnswersIn.collect (P := final.Permits c.operators) _).bind
  · refine fun ids => .quiet fun stop => .quiet fun _ => .neutral rfl ?_
    simp_all [Tree.AllPermit, Slot.children]
  · exact .quiet fun _ => .ite (.pure (by simp)) ((permits_switchCase h).map (by simp))

/-! ### Loops -/

theorem permits_doStatement : Permits final c.operators c (doStatement inner) := by
  refine .quiet fun start => .quiet fun _ => (permits_embeddedStatement h).bind fun body => ?_
  refine .quiet fun _ => (permits_condition h).bind fun test => .quiet fun _ => ?_
  exact .neutral rfl (by simp_all)

theorem permits_headedStatement {kind : NodeKind} (hneutral : kind.isNeutral) :
    Permits final c.operators c (headedStatement inner kind) := by
  refine .quiet fun start => .quiet fun _ => (permits_condition h).bind fun head => ?_
  exact (permits_embeddedStatement h).bind fun body => .neutral hneutral (by simp_all)

theorem permits_forInit : AllPermit final c.operators c (forInit inner) Option.toList := by
  have hvariables : Permits final c.operators { c with noIn := true } (variableDeclaration inner) :=
    permits_variableDeclaration h
  have hexpression : Permits final c.operators { c with noIn := true } (expression inner) :=
    permits_expression h
  refine .quiet fun _ => .ite (.pure (by simp)) (.withReader (.quiet fun _ => .ite ?_ ?_))
  · exact hvariables.map (by simp)
  · exact hexpression.map (by simp)

omit h in
theorem permits_forTarget (around : Operators) (init : NodeId) :
    AnswersIn Node.content final c (forTarget init) fun t =>
      final.Permits around init → final.Permits around t :=
  .quiet fun _ => .ite (.pure fun hid => hid) (permits_assignmentTarget around init)

theorem permits_forEachRest {kind : NodeKind} (hneutral : kind.isNeutral) (start : Nat)
    (init : NodeId) :
    AnswersIn Node.content final c (forEachRest inner start kind init) fun id =>
      final.Permits c.operators init → final.Permits c.operators id := by
  have hright : Permits final c.operators c
      (allowingIn (if kind == .forOfStatement then inner.assignment else expression inner)) :=
    permits_allowingIn fun c => .ite (h.assignment c) (permits_expression h)
  refine (permits_forTarget c.operators init).bind fun left => .quiet fun _ => ?_
  refine hright.bind fun right => .quiet fun _ => ?_
  exact (permits_embeddedStatement h).bind fun body => .neutral hneutral (by simp_all)

theorem permits_expressionBefore? (close : Token) :
    AllPermit final c.operators c (expressionBefore? inner close) Option.toList := by
  have hexpression : Permits final c.operators { c with noIn := false } (expression inner) :=
    permits_expression h
  exact .quiet fun _ => .ite (.pure (by simp)) (hexpression.map (by simp)).withReader

theorem permits_forRest (start : Nat) (init : Option NodeId) :
    AnswersIn Node.content final c (forRest inner start init) fun id =>
      final.AllPermit c.operators init.toList → final.Permits c.operators id := by
  refine .quiet fun _ => (permits_expressionBefore? h _).bind fun test => .quiet fun _ => ?_
  refine (permits_expressionBefore? h _).bind fun update => .quiet fun _ => ?_
  exact (permits_embeddedStatement h).bind fun body => .neutral rfl (by simp_all)

omit h in
theorem isNeutral_of_enumeration? {t : Token} {kind : NodeKind} (hkind : enumeration? t = some kind) :
    kind.isNeutral := by
  unfold enumeration? at hkind
  split at hkind <;> cases hkind <;> rfl

theorem permits_forStatement : Permits final c.operators c (forStatement inner) := by
  refine .quiet fun start => .quiet fun _ => .quiet fun _ => ?_
  refine (permits_forInit h).bind fun init => .quiet fun t => ?_
  split
  · rename_i hkind
    exact (permits_forEachRest h (isNeutral_of_enumeration? hkind) start _).mono (by simp)
  · exact permits_forRest h start _

/-! ### Jumps -/

omit h in
theorem permits_breakOrContinue {kind : NodeKind} (hneutral : kind.isNeutral) :
    Permits final c.operators c (breakOrContinue kind) := by
  refine .quiet fun start => .quiet fun _ => .quiet fun _ => .either fun labelled => ?_
  apply AnswersIn.join (fun label => final.AllPermit c.operators label.toList)
  · exact (permits_identifier c.operators).map (by simp)
  · exact .pure (by simp)
  · exact fun label => .quiet fun _ => .neutral hneutral (by simp_all)

theorem permits_returnStatement : Permits final c.operators c (returnStatement inner) := by
  refine .quiet fun start => .quiet fun _ => .quiet fun _ => ?_
  apply AnswersIn.join (fun argument => final.AllPermit c.operators argument.toList)
  · exact .pure (by simp)
  · exact (permits_expression h).map (by simp)
  · exact fun argument => .quiet fun _ => .neutral rfl (by simp_all)

theorem permits_throwStatement : Permits final c.operators c (throwStatement inner) := by
  refine .quiet fun start => .quiet fun _ => .quiet fun _ => .when ?_
  refine (permits_expression h).bind fun argument => .quiet fun _ => ?_
  exact .neutral rfl (by simp_all)

theorem permits_catchClause : Permits final c.operators c (catchClause inner) := by
  refine .quiet fun start => .quiet fun _ => .quiet fun _ => ?_
  refine (permits_bindingTarget h false).bind fun param => .quiet fun _ => ?_
  exact (permits_blockStatement h).bind fun body => .neutral rfl (by simp_all)

theorem permits_tryStatement : Permits final c.operators c (tryStatement inner) := by
  refine .quiet fun start => .quiet fun _ => (permits_blockStatement h).bind fun block => ?_
  refine .quiet fun _ => .join (fun handler => final.AllPermit c.operators handler.toList)
    ((permits_catchClause h).map (by simp)) (.pure (by simp)) fun handler => ?_
  refine .quiet fun _ => .join (fun finalizer => final.AllPermit c.operators finalizer.toList)
    ((permits_blockStatement h).map (by simp)) (.pure (by simp)) fun finalizer => .when ?_
  exact .neutral rfl (by simp_all)

/-! ### Any statement -/

omit h in
theorem permits_emptyStatement : Permits final c.operators c emptyStatement :=
  .quiet fun start => .quiet fun _ => .neutral rfl (by simp_all)

omit h in
theorem permits_debuggerStatement : Permits final c.operators c debuggerStatement :=
  .quiet fun start => .quiet fun _ => .quiet fun _ => .neutral rfl (by simp_all)

theorem permits_expressionOrLabeled : Permits final c.operators c (expressionOrLabeled inner) := by
  refine .quiet fun start => .quiet fun _ => .either fun labelled => .ite ?_ ?_
  · refine (permits_identifier c.operators).bind fun label => .quiet fun _ => ?_
    exact (permits_embeddedStatement h).bind fun body => .neutral rfl (by simp_all)
  · refine (permits_expression h).bind fun expression => .quiet fun _ => ?_
    exact .neutral rfl (by simp_all)

theorem permits_erasedDeclaration : Permits final c.operators c (erasedDeclaration inner) := by
  refine .quiet fun start => .quiet fun t => ?_
  split
  · exact permits_typeAlias h start _
  · exact permits_interfaceDeclaration h start _
  · exact permits_declareStatement h

theorem permits_otherStatement : Permits final c.operators c (otherStatement inner) := by
  refine .quiet fun _ => .ite (permits_variableStatement h) (.quiet fun _ => ?_)
  refine .ite (permits_functionDeclaration h false) (.quiet fun _ => ?_)
  exact .ite (permits_erasedDeclaration h) (permits_expressionOrLabeled h)

theorem permits_statement : Permits final c.operators c (statement inner) := by
  refine .quiet fun t => ?_
  split
  · exact permits_blockStatement h
  · exact permits_emptyStatement
  · exact permits_classDeclaration h false
  · exact permits_ifStatement h
  · exact permits_doStatement h
  · exact permits_headedStatement h rfl
  · exact permits_forStatement h
  · exact permits_breakOrContinue rfl
  · exact permits_breakOrContinue rfl
  · exact permits_returnStatement h
  · exact permits_headedStatement h rfl
  · exact permits_switchStatement h
  · exact permits_throwStatement h
  · exact permits_tryStatement h
  · exact permits_debuggerStatement
  · exact permits_importDeclaration
  · exact permits_exportDeclaration h
  · exact .fail
  · exact permits_otherStatement h

/-! ## Levels -/

omit h in
theorem permits_failTooDeep (around : Operators) (c : Context) :
    Permits final around c failTooDeep :=
  .fail

omit h in
theorem permits_exhausted : Nested.exhausted.Permitting final where
  keeps _ := keeps_exhausted
  statement _ := permits_failTooDeep _ _
  assignment _ := permits_failTooDeep _ _
  binary _ _ := permits_failTooDeep _ _
  unary _ := permits_failTooDeep _ _
  construction _ := permits_failTooDeep _ _
  bindingTarget _ _ := permits_failTooDeep _ _
  classMember _ := permits_failTooDeep _ _
  type _ _ := permits_failTooDeep _ _
  prefixType _ _ := permits_failTooDeep _ _
  primaryType _ _ := permits_failTooDeep _ _
  typeMember _ _ _ := permits_failTooDeep _ _

omit h in
theorem permits_within (final : Tree) (depth : Nat) : (Nested.within depth).Permitting final := by
  induction depth with
  | zero => exact permits_exhausted
  | succ depth ih =>
      exact {
        keeps := fun base => keeps_within base (depth + 1)
        statement := fun _ => permits_statement ih
        assignment := fun _ => permits_assignment ih
        binary := fun _ precedence => permits_binary ih precedence
        unary := fun _ => permits_unary ih
        construction := fun _ => permits_construction ih
        bindingTarget := fun _ allowOptional => permits_bindingTarget ih allowOptional
        classMember := fun _ => permits_classMember ih
        type := fun around _ => permits_unionType around ih
        prefixType := fun around _ => permits_prefixType around ih
        primaryType := fun around _ => permits_primaryType around ih
        typeMember := fun around _ allowStatic => permits_typeMember around ih allowStatic }

end FlowErasure.Grammar
