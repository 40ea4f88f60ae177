import FlowErasure.Grammar.Program
import FlowErasure.Proofs.Frame.Expressions

/-!
# What the rules for declarations and statements keep

With these, the rules of every level of nesting keep what was there.
-/

namespace FlowErasure.Grammar

variable {base : Tree} {inner : Nested} (h : inner.Keeping base)

include h

/-! ## Declarations -/

theorem keeps_variableDeclarator : KeepsRule base (variableDeclarator inner) := by
  refine .quiet fun start => (keeps_bindingTarget h false).bind fun id hid => .quiet fun _ => ?_
  refine .join Option.toList (h.assignment.map (by simp)) (.pure (by simp)) fun init hinit => ?_
  exact .finish (by simp_all)

theorem keeps_variableDeclaration : KeepsRule base (variableDeclaration inner) := by
  refine .quiet fun start => .quiet fun t => .quiet fun _ => .quiet fun listStart => ?_
  refine (Keeps.commaSeparated (keeps_variableDeclarator h)).bind fun ids hids => ?_
  exact (Keeps.listFrom hids).bind fun slot hslot => .finishWith (by simpa using hslot)

theorem keeps_variableStatement : KeepsRule base (variableStatement inner) := by
  refine (keeps_variableDeclaration h).bind fun declaration hdeclaration => ?_
  have hle : base.size ≤ declaration := by simpa using hdeclaration
  refine .quiet fun _ => .quiet fun stop => (Keeps.updateNode hle ?_).bind fun _ _ => ?_
  · exact fun node => rfl
  · exact .pure hdeclaration

omit h in
instance looks_startsVariables : Looks startsVariables := by
  refine .bind inferInstance fun t => ?_
  split <;> infer_instance

omit h in
instance looks_startsFunction : Looks startsFunction := by
  refine .bind inferInstance fun t => ?_
  split <;> infer_instance

theorem keeps_functionDeclaration (allowAnonymous : Bool) :
    KeepsRule base (functionDeclaration inner allowAnonymous) :=
  .quiet fun start => keeps_function h _ start allowAnonymous

theorem keeps_classDeclaration (allowAnonymous : Bool) :
    KeepsRule base (classDeclaration inner allowAnonymous) :=
  .quiet fun start => keeps_classOf h (keeps_leftHandSide h) _ start allowAnonymous

/-! ### Types -/

theorem keeps_typeAlias (start : Nat) (flags : NodeFlags) :
    KeepsRule base (typeAlias inner start flags) := by
  refine .quiet fun _ => Keeps.identifier.bind fun id hid => ?_
  refine (keeps_typeParameters? h).bind fun typeParameters htypeParameters => .quiet fun _ => ?_
  refine h.type.bind fun right hright => .quiet fun _ => .finishWith ?_
  simp_all

theorem keeps_extendsClause : Keeps base (extendsClause inner) Slot.children := by
  refine .quiet fun _ => .ite (.pure (by simp)) (.quiet fun listStart => .quiet fun _ => ?_)
  refine (Keeps.commaSeparated ?_).bind fun bases hbases => .listFrom hbases
  refine .quiet fun start => keeps_qualifiedTypeName.bind fun id hid => ?_
  refine (keeps_typeArguments? h).bind fun typeArguments htypeArguments => .finish ?_
  simp_all

theorem keeps_interfaceRest (allowStatic : Bool) :
    Keeps base (interfaceRest inner allowStatic) fun slots => slots.flatMap Slot.children := by
  refine Keeps.identifier.bind fun id hid => ?_
  refine (keeps_typeParameters? h).bind fun typeParameters htypeParameters => ?_
  refine (keeps_extendsClause h).bind fun bases hbases => ?_
  refine (keeps_objectType h allowStatic).bind fun body hbody => .pure ?_
  simp_all

theorem keeps_interfaceDeclaration (start : Nat) (flags : NodeFlags) :
    KeepsRule base (interfaceDeclaration inner start flags) :=
  .quiet fun _ => (keeps_interfaceRest h false).bind fun _ hrest => .finishWith hrest

theorem keeps_declaredFunctionName : KeepsRule base (declaredFunctionName inner) := by
  refine .quiet fun start => .quiet fun _ => .when ?_
  refine Keeps.tokenAtom.bind fun name _ => .quiet fun _ => .quiet fun typeStart => ?_
  refine (keeps_methodType h).bind fun type htype => ?_
  refine (Keeps.finish (by simpa using htype)).bind fun ascription hascription => .finishWith ?_
  simpa using hascription

omit h in
theorem keeps_moduleName : KeepsRule base moduleName :=
  .quiet fun _ => .ite .stringLiteral .identifier

theorem keeps_declareStatement : KeepsRule base (declareStatement inner) := by
  have hvariable : ∀ start, KeepsRule base (do
      advance
      let id ← bindingIdentifier inner false
      endStatement
      finish .declareVariable start [.node id]) := by
    refine fun start => .quiet fun _ => (keeps_bindingIdentifier h false).bind fun id hid => ?_
    exact .quiet fun _ => .finish (by simpa using hid)
  refine .quiet fun start => .quiet fun _ => .quiet fun t => ?_
  split
  · exact hvariable start
  · exact hvariable start
  · exact hvariable start
  · refine .quiet fun _ => (keeps_declaredFunctionName h).bind fun id hid => .quiet fun _ => ?_
    exact .finish (by simpa using hid)
  · exact .quiet fun _ => (keeps_interfaceRest h true).bind fun _ hrest => .finish hrest
  · refine .quiet fun _ => keeps_moduleName.bind fun id hid => ?_
    exact (keeps_blockStatement h).bind fun body hbody => .finish (by simp_all)
  · exact keeps_typeAlias h start _
  · exact keeps_interfaceDeclaration h start _
  · exact .fail

/-! ### Imports and exports -/

section Imports

omit h

instance looks_startsTypeImport : Looks startsTypeImport := by
  unfold startsTypeImport; infer_instance

theorem keeps_importSpecifier : KeepsRule base importSpecifier := by
  refine .quiet fun start => Keeps.identifierName.bind fun name hname => .quiet fun _ => ?_
  refine .ite (Keeps.identifier.bind fun localName hlocal => .finish ?_) (.finish ?_)
  · simp_all
  · simpa using hname

theorem keeps_specifiersInBraces {specifier : Parser NodeId} (h : KeepsRule base specifier) :
    Keeps base (specifiersInBraces specifier) fun ids => ids :=
  .quiet fun _ => (Keeps.commaDelimited h).bind fun _ hids => .quiet fun _ => .pure hids

theorem keeps_defaultImport : KeepsRule base defaultImport := by
  refine .quiet fun start => Keeps.identifier.bind fun localName hlocal => .finish ?_
  simpa using hlocal

theorem keeps_namespaceOrNamedImports : Keeps base namespaceOrNamedImports fun ids => ids := by
  refine .quiet fun t => ?_
  split
  · refine .quiet fun start => .quiet fun _ => .quiet fun _ => ?_
    refine Keeps.identifier.bind fun localName hlocal => (Keeps.finish ?_).bind fun id hid => ?_
    · simpa using hlocal
    · exact .pure hid
  · exact keeps_specifiersInBraces keeps_importSpecifier
  · exact .fail

theorem keeps_importSpecifiers : Keeps base importSpecifiers fun ids => ids := by
  refine .quiet fun _ => .ite ?_ keeps_namespaceOrNamedImports
  refine keeps_defaultImport.bind fun first hfirst => .quiet fun _ => .ite ?_ (.pure hfirst)
  exact keeps_namespaceOrNamedImports.bind fun ids hids => .pure (by simp_all)

theorem keeps_importDeclaration : KeepsRule base importDeclaration := by
  refine .quiet fun start => .quiet fun _ => .quiet fun _ => .ite ?_ (.quiet fun _ => ?_)
  · refine Keeps.stringLiteral.bind fun source hsource => .quiet fun _ => .finish ?_
    simpa using hsource
  · extract_lets rest
    have hrest : KeepsRule base (rest ()) := by
      refine .quiet fun listStart => keeps_importSpecifiers.bind fun ids hids => ?_
      refine (Keeps.listFrom hids).bind fun slot hslot => .quiet fun _ => ?_
      refine Keeps.stringLiteral.bind fun source hsource => .quiet fun _ => .finish ?_
      simp_all
    exact .ite (.quiet fun _ => .when hrest) hrest

theorem keeps_exportSpecifier : KeepsRule base exportSpecifier := by
  refine .quiet fun start => Keeps.identifierName.bind fun localName hlocal => .quiet fun _ => ?_
  refine .join Option.toList (Keeps.identifierName.map (by simp)) (.pure (by simp)) ?_
  exact fun exported hexported => .finish (by simp_all)

end Imports

theorem keeps_defaultExport : KeepsRule base (defaultExport inner) := by
  refine .quiet fun _ => .ite (keeps_functionDeclaration h true) (.quiet fun _ => ?_)
  refine .ite (keeps_classDeclaration h true) ?_
  exact h.assignment.bind fun expression hexpression => .quiet fun _ => .pure hexpression

theorem keeps_exportedDeclaration : KeepsRule base (exportedDeclaration inner) := by
  refine .quiet fun _ => .ite (keeps_variableStatement h) (.quiet fun _ => ?_)
  refine .ite (keeps_functionDeclaration h false) (.quiet fun _ => ?_)
  exact .ite (keeps_classDeclaration h false) .fail

theorem keeps_exportDeclaration : KeepsRule base (exportDeclaration inner) := by
  refine .quiet fun start => .quiet fun _ => .quiet fun t => ?_
  split
  · refine .quiet fun _ => (keeps_defaultExport h).bind fun declaration hdeclaration => .finish ?_
    simpa using hdeclaration
  · refine .quiet fun _ => .quiet fun _ => Keeps.stringLiteral.bind fun source hsource => ?_
    exact .quiet fun _ => .finish (by simpa using hsource)
  · refine .quiet fun listStart => ?_
    refine (keeps_specifiersInBraces keeps_exportSpecifier).bind fun ids hids => ?_
    refine (Keeps.listFrom hids).bind fun slot hslot => .quiet fun _ => ?_
    refine .join Option.toList (Keeps.stringLiteral.map (by simp)) (.pure (by simp)) ?_
    exact fun source hsource => .quiet fun _ => .finish (by simp_all)
  · exact keeps_typeAlias h start _
  · exact keeps_interfaceDeclaration h start _
  · refine (keeps_exportedDeclaration h).bind fun declaration hdeclaration => .finish ?_
    simpa using hdeclaration

/-! ## Statements -/

omit h in
instance looks_startsErasedDeclaration : Looks startsErasedDeclaration := by
  refine .bind inferInstance fun t => ?_
  split <;> infer_instance

theorem keeps_embeddedStatement : KeepsRule base (embeddedStatement inner) :=
  .quiet fun _ => .ite .fail h.statement

theorem keeps_condition : KeepsRule base (condition inner) := by
  refine .quiet fun _ => (keeps_expression h).withReader.bind fun test htest => ?_
  exact .quiet fun _ => .pure htest

theorem keeps_ifStatement : KeepsRule base (ifStatement inner) := by
  refine .quiet fun start => .quiet fun _ => (keeps_condition h).bind fun test htest => ?_
  refine (keeps_embeddedStatement h).bind fun consequent hconsequent => .quiet fun _ => ?_
  refine .join Option.toList ((keeps_embeddedStatement h).map (by simp)) (.pure (by simp)) ?_
  exact fun alternate halternate => .finish (by simp_all)

theorem keeps_switchCase : KeepsRule base (switchCase inner) := by
  refine .quiet fun start => .quiet fun t => ?_
  extract_lets rest
  have hrest : ∀ test : Option NodeId, base.Later test.toList → KeepsRule base (rest test) := by
    refine fun test htest => .quiet fun _ => .quiet fun listStart => ?_
    refine (Keeps.collect_nodes ?_).bind fun ids hids => ?_
    · exact .quiet fun _ => .ite (.pure (by simp)) (h.statement.map (by simp))
    · exact (Keeps.listFrom hids).bind fun slot hslot => .finish (by simp_all)
  split
  · have hsome : Keeps base (some <$> expression inner) Option.toList :=
      (keeps_expression h).map (by simp)
    exact .quiet fun _ => hsome.bind hrest
  · exact .quiet fun _ => hrest none (by simp)
  · exact .bind .fail hrest

theorem keeps_switchStatement : KeepsRule base (switchStatement inner) := by
  refine .quiet fun start => .quiet fun _ => (keeps_condition h).bind fun head hhead => ?_
  refine .quiet fun _ => .quiet fun listStart => (Keeps.collect_nodes ?_).bind fun ids hids => ?_
  · exact .quiet fun _ => .ite (.pure (by simp)) ((keeps_switchCase h).map (by simp))
  · exact .quiet fun stop => .quiet fun _ => .finish (by simp_all)

/-! ### Loops -/

theorem keeps_doStatement : KeepsRule base (doStatement inner) := by
  refine .quiet fun start => .quiet fun _ => (keeps_embeddedStatement h).bind fun body hbody => ?_
  refine .quiet fun _ => (keeps_condition h).bind fun test htest => .quiet fun _ => .finish ?_
  simp_all

theorem keeps_headedStatement (kind : NodeKind) : KeepsRule base (headedStatement inner kind) := by
  refine .quiet fun start => .quiet fun _ => (keeps_condition h).bind fun head hhead => ?_
  exact (keeps_embeddedStatement h).bind fun body hbody => .finish (by simp_all)

theorem keeps_forInit : Keeps base (forInit inner) Option.toList := by
  refine .quiet fun _ => .ite (.pure (by simp)) (.withReader (.quiet fun _ => ?_))
  exact .ite ((keeps_variableDeclaration h).map (by simp)) ((keeps_expression h).map (by simp))

omit h in
theorem keeps_forTarget {init : NodeId} (hinit : base.size ≤ init) :
    KeepsRule base (forTarget init) :=
  .quiet fun _ => .ite (.pure (by simpa using hinit)) (keeps_assignmentTarget hinit)

theorem keeps_forEachRest (start : Nat) (kind : NodeKind) {init : NodeId}
    (hinit : base.size ≤ init) : KeepsRule base (forEachRest inner start kind init) := by
  refine (keeps_forTarget hinit).bind fun left hleft => .quiet fun _ => ?_
  refine (Keeps.withReader (.ite h.assignment (keeps_expression h))).bind fun right hright => ?_
  refine .quiet fun _ => (keeps_embeddedStatement h).bind fun body hbody => .finish ?_
  simp_all

theorem keeps_expressionBefore? (close : Token) :
    Keeps base (expressionBefore? inner close) Option.toList :=
  .quiet fun _ => .ite (.pure (by simp)) ((keeps_expression h).withReader.map (by simp))

theorem keeps_forRest (start : Nat) {init : Option NodeId} (hinit : base.Later init.toList) :
    KeepsRule base (forRest inner start init) := by
  refine .quiet fun _ => (keeps_expressionBefore? h _).bind fun test htest => .quiet fun _ => ?_
  refine (keeps_expressionBefore? h _).bind fun update hupdate => .quiet fun _ => ?_
  exact (keeps_embeddedStatement h).bind fun body hbody => .finish (by simp_all)

theorem keeps_forStatement : KeepsRule base (forStatement inner) := by
  refine .quiet fun start => .quiet fun _ => .quiet fun _ => ?_
  refine (keeps_forInit h).bind fun init hinit => .quiet fun t => ?_
  split
  · exact keeps_forEachRest h start _ (by simpa using hinit)
  · exact keeps_forRest h start hinit

/-! ### Jumps -/

omit h in
theorem keeps_breakOrContinue (kind : NodeKind) : KeepsRule base (breakOrContinue kind) := by
  refine .quiet fun start => .quiet fun _ => .quiet fun _ => .either fun labelled => ?_
  refine .join Option.toList (Keeps.identifier.map (by simp)) (.pure (by simp)) ?_
  exact fun label hlabel => .quiet fun _ => .finish (by simpa using hlabel)

theorem keeps_returnStatement : KeepsRule base (returnStatement inner) := by
  refine .quiet fun start => .quiet fun _ => .quiet fun _ => ?_
  refine .join Option.toList (.pure (by simp)) ((keeps_expression h).map (by simp)) ?_
  exact fun argument hargument => .quiet fun _ => .finish (by simpa using hargument)

theorem keeps_throwStatement : KeepsRule base (throwStatement inner) := by
  refine .quiet fun start => .quiet fun _ => .quiet fun _ => .when ?_
  refine (keeps_expression h).bind fun argument hargument => .quiet fun _ => .finish ?_
  simpa using hargument

theorem keeps_catchClause : KeepsRule base (catchClause inner) := by
  refine .quiet fun start => .quiet fun _ => .quiet fun _ => ?_
  refine (keeps_bindingTarget h false).bind fun param hparam => .quiet fun _ => ?_
  exact (keeps_blockStatement h).bind fun body hbody => .finish (by simp_all)

theorem keeps_tryStatement : KeepsRule base (tryStatement inner) := by
  refine .quiet fun start => .quiet fun _ => (keeps_blockStatement h).bind fun block hblock => ?_
  refine .quiet fun _ => .join Option.toList ((keeps_catchClause h).map (by simp))
    (.pure (by simp)) fun handler hhandler => .quiet fun _ => ?_
  refine .join Option.toList ((keeps_blockStatement h).map (by simp)) (.pure (by simp)) ?_
  exact fun finalizer hfinalizer => .when (.finish (by simp_all))

/-! ### All statements -/

omit h in
theorem keeps_emptyStatement : KeepsRule base emptyStatement :=
  .quiet fun start => .quiet fun _ => .finish (by simp)

omit h in
theorem keeps_debuggerStatement : KeepsRule base debuggerStatement :=
  .quiet fun start => .quiet fun _ => .quiet fun _ => .finish (by simp)

theorem keeps_expressionOrLabeled : KeepsRule base (expressionOrLabeled inner) := by
  refine .quiet fun start => .quiet fun _ => .either fun labelled => .ite ?_ ?_
  · refine Keeps.identifier.bind fun label hlabel => .quiet fun _ => ?_
    exact (keeps_embeddedStatement h).bind fun body hbody => .finish (by simp_all)
  · refine (keeps_expression h).bind fun expression hexpression => .quiet fun _ => .finish ?_
    simpa using hexpression

theorem keeps_erasedDeclaration : KeepsRule base (erasedDeclaration inner) := by
  refine .quiet fun start => .quiet fun t => ?_
  split
  · exact keeps_typeAlias h start _
  · exact keeps_interfaceDeclaration h start _
  · exact keeps_declareStatement h

theorem keeps_otherStatement : KeepsRule base (otherStatement inner) := by
  refine .quiet fun _ => .ite (keeps_variableStatement h) (.quiet fun _ => ?_)
  refine .ite (keeps_functionDeclaration h false) (.quiet fun _ => ?_)
  exact .ite (keeps_erasedDeclaration h) (keeps_expressionOrLabeled h)

theorem keeps_statement : KeepsRule base (statement inner) := by
  refine .quiet fun t => ?_
  split
  · exact keeps_blockStatement h
  · exact keeps_emptyStatement
  · exact keeps_classDeclaration h false
  · exact keeps_ifStatement h
  · exact keeps_doStatement h
  · exact keeps_headedStatement h _
  · exact keeps_forStatement h
  · exact keeps_breakOrContinue _
  · exact keeps_breakOrContinue _
  · exact keeps_returnStatement h
  · exact keeps_headedStatement h _
  · exact keeps_switchStatement h
  · exact keeps_throwStatement h
  · exact keeps_tryStatement h
  · exact keeps_debuggerStatement
  · exact keeps_importDeclaration
  · exact keeps_exportDeclaration h
  · exact .fail
  · exact keeps_otherStatement h

omit h

/-! ## All levels -/

instance quiet_failTooDeep : Quiet failTooDeep :=
  quiet_failAtTokenWith _ _

instance fails_failTooDeep : Fails failTooDeep :=
  fails_failAtTokenWith _ _

theorem keeps_failTooDeep : KeepsRule base failTooDeep :=
  .fail

theorem keeps_exhausted : Nested.exhausted.Keeping base where
  statement := keeps_failTooDeep
  assignment := keeps_failTooDeep
  binary _ := keeps_failTooDeep
  unary := keeps_failTooDeep
  construction := keeps_failTooDeep
  bindingTarget _ := keeps_failTooDeep
  classMember := keeps_failTooDeep
  type := keeps_failTooDeep
  prefixType := keeps_failTooDeep
  primaryType := keeps_failTooDeep
  typeMember _ := keeps_failTooDeep

theorem keeps_within (base : Tree) (depth : Nat) : (Nested.within depth).Keeping base := by
  induction depth with
  | zero => exact keeps_exhausted
  | succ depth ih =>
      exact {
        statement := keeps_statement ih
        assignment := keeps_assignment ih
        binary := keeps_binary ih
        unary := keeps_unary ih
        construction := keeps_construction ih
        bindingTarget := keeps_bindingTarget ih
        classMember := keeps_classMember ih
        type := keeps_unionType ih
        prefixType := keeps_prefixType ih
        primaryType := keeps_primaryType ih
        typeMember := keeps_typeMember ih }

end FlowErasure.Grammar
