import FlowErasure.Proofs.Frame.Statements
import FlowErasure.Proofs.Nesting.Expressions

/-!
# Ranks of declarations and statements

With these, the rules of every level of nesting answer with nodes of that level or below.
-/

namespace FlowErasure.Grammar

variable {final : Tree} {c : Context} {b : Nat} {inner : Nested} (h : inner.Ranked final b)

include h

/-! ## Declarations -/

theorem ranks_variableDeclarator : RanksBelow final c (b + 11) (variableDeclarator inner) := by
  have hvalue := h.assignment.le (c := c) (n := b + 10) (by omega)
  refine .quiet fun start => (ranks_bindingTarget h false).bind fun id => .quiet fun _ => ?_
  refine .join (fun init => final.AllBelow (b + 10) init.toList) (hvalue.map (by simp))
    (.pure (by simp)) fun init => ?_
  exact .ranked (h.fits 10 rfl) (by simp_all)

theorem ranks_variableDeclaration : RanksBelow final c (b + 12) (variableDeclaration inner) := by
  refine .quiet fun start => .quiet fun t => .quiet fun _ => .quiet fun listStart => ?_
  refine (RanksBelow.commaSeparated (ranks_variableDeclarator h)).bind fun ids => ?_
  refine AnswersIn.listed.bind fun slot => ?_
  exact .rankedWith (h.fits 11 rfl) (by simp_all)

theorem ranks_variableStatement : RanksBelow final c (b + 12) (variableStatement inner) := by
  refine (ranks_variableDeclaration h).bind fun declaration => .quiet fun _ => .quiet fun stop => ?_
  refine (AnswersIn.updateNode ?_).bind fun _ => ?_
  · exact fun node => rfl
  · exact .pure fun _ hdeclaration => hdeclaration

theorem ranks_functionDeclaration (allowAnonymous : Bool) :
    RanksBelow final c (b + 5) (functionDeclaration inner allowAnonymous) :=
  .quiet fun start => ranks_function h (h.fits 4 rfl) start allowAnonymous

theorem ranks_classDeclaration (allowAnonymous : Bool) :
    RanksBelow final c (b + 5) (classDeclaration inner allowAnonymous) :=
  .quiet fun start =>
    ranks_classOf h ((ranks_leftHandSide h).le (by omega)) (.inl rfl) start allowAnonymous

/-! ### Types -/

theorem ranks_typeAlias (start : Nat) (flags : NodeFlags) :
    RanksBelow final c (b + 5) (typeAlias inner start flags) := by
  have hname := (ranks_name h).le (c := c) (n := b + 4) (by omega)
  have htype := h.type.le (c := c) (n := b + 4) (by omega)
  refine .quiet fun _ => hname.bind fun id => ?_
  refine (ranks_typeParameters? h).bind fun typeParameters => .quiet fun _ => ?_
  exact htype.bind fun right => .quiet fun _ => .rankedWith (h.fits 4 rfl) (by simp_all)

theorem ranks_extendsClause : AllRankBelow final c (b + 4) (extendsClause inner) Slot.children := by
  refine .quiet fun _ => .ite (.pure (by simp)) (.quiet fun listStart => .quiet fun _ => ?_)
  refine (RanksBelow.commaSeparated (n := b + 4) ?_).bind fun bases => .listFrom (by simp_all)
  refine .quiet fun start => (ranks_qualifiedTypeName h).bind fun id => ?_
  refine (ranks_typeArguments? h).bind fun typeArguments => ?_
  exact .ranked (h.fits 3 rfl) (by simp_all)

theorem ranks_interfaceRest (allowStatic : Bool) :
    AllRankBelow final c (b + 4) (interfaceRest inner allowStatic) fun slots =>
      slots.flatMap Slot.children := by
  refine ((ranks_name h).le (n := b + 4) (by omega)).bind fun id => ?_
  refine (ranks_typeParameters? h).bind fun typeParameters => ?_
  refine (ranks_extendsClause h).bind fun bases => ?_
  exact ((ranks_objectType h allowStatic).le (n := b + 4) (by omega)).bind fun body =>
    .pure (by simp_all)

theorem ranks_interfaceDeclaration (start : Nat) (flags : NodeFlags) :
    RanksBelow final c (b + 5) (interfaceDeclaration inner start flags) :=
  .quiet fun _ => (ranks_interfaceRest h false).bind fun _ =>
    .rankedWith (h.fits 4 rfl) (by simp_all)

/-- The type of a declared function stands for the ascription of its name. -/
theorem ranks_declaredFunctionName : RanksBelow final c (b + 10) (declaredFunctionName inner) := by
  refine .quiet fun start => .quiet fun _ => .when ?_
  refine AnswersIn.tokenAtom.bind fun name => .quiet fun _ => .quiet fun typeStart => ?_
  refine (ranks_methodType h).bind fun type => ?_
  have hascription : AnswersIn Node.shape final c (finish .ascription typeStart [.node type]) fun id =>
      final.Below (b + 8) type → final.Below (b + 9) id :=
    .ranked (h.fits 8 rfl) (by simp_all)
  refine hascription.bind fun ascription => ?_
  refine AnswersIn.shaped.mono fun id hshape hascription htype _ => ?_
  have hascription := hascription (htype.1.mono (by omega))
  have hshape : final.shape? id =
      some (.identifier, Tree.fitSlots .identifier [.absent, .ofOption (some ascription)]) := hshape
  exact h.identifier_of_shape hshape (by simp) (by simpa using hascription) fun _ => htype.2

theorem ranks_moduleName : RanksBelow final c (b + 2) moduleName :=
  .quiet fun _ => .ite (.quiet fun _ => .ite (ranks_literal h) .fail) (ranks_name h)

theorem ranks_declareStatement : RanksBelow final c (b + 11) (declareStatement inner) := by
  have hname := ranks_bindingIdentifier (c := c) h false
  have hrest := ranks_interfaceRest (c := c) h true
  have hvariable : ∀ start, RanksBelow final c (b + 11) (do
      advance
      let id ← bindingIdentifier inner false
      endStatement
      finish .declareVariable start [.node id]) := by
    refine fun start => .quiet fun _ => hname.bind fun id => .quiet fun _ => ?_
    exact .ranked (h.fits 10 rfl) (by simp_all)
  refine .quiet fun start => .quiet fun _ => .quiet fun t => ?_
  split
  · exact hvariable start
  · exact hvariable start
  · exact hvariable start
  · refine .quiet fun _ => (ranks_declaredFunctionName h).bind fun id => .quiet fun _ => ?_
    exact .ranked (h.fits 10 rfl) (by simp_all)
  · refine RanksBelow.le (m := b + 5) (.quiet fun _ => hrest.bind fun rest => ?_) (by omega)
    exact .ranked (h.fits 4 rfl) (by simp_all)
  · have hmodule := (ranks_moduleName h).le (c := c) (n := b + 3) (by omega)
    refine RanksBelow.le (m := b + 4) (.quiet fun _ => hmodule.bind fun id => ?_) (by omega)
    exact (ranks_blockStatement h).bind fun body => .ranked (h.fits 3 rfl) (by simp_all)
  · exact (ranks_typeAlias h start _).le (by omega)
  · exact (ranks_interfaceDeclaration h start _).le (by omega)
  · exact .fail

/-! ### Imports and exports -/

theorem ranks_source : RanksBelow final c (b + 2) stringLiteral :=
  .quiet fun _ => .ite (ranks_literal h) .fail

theorem ranks_importSpecifier : RanksBelow final c (b + 3) importSpecifier := by
  refine .quiet fun start => (ranks_word h).bind fun name => .quiet fun _ => .ite ?_ ?_
  · exact (ranks_name h).bind fun localName => .ranked (h.fits 2 rfl) (by simp_all)
  · exact .ranked (h.fits 2 rfl) (by simp_all)

omit h in
theorem ranks_specifiersInBraces {n : Nat} {specifier : Parser NodeId}
    (hspecifier : RanksBelow final c n specifier) :
    AllRankBelow final c n (specifiersInBraces specifier) fun ids => ids :=
  .quiet fun _ => (RanksBelow.commaDelimited hspecifier).bind fun _ => .quiet fun _ =>
    .pure fun hids => hids

theorem ranks_defaultImport : RanksBelow final c (b + 3) defaultImport :=
  .quiet fun start => (ranks_name h).bind fun localName =>
    .ranked (h.fits 2 rfl) (by simp_all)

theorem ranks_namespaceOrNamedImports :
    AllRankBelow final c (b + 3) namespaceOrNamedImports fun ids => ids := by
  refine .quiet fun t => ?_
  split
  · refine .quiet fun start => .quiet fun _ => .quiet fun _ => ?_
    refine (ranks_name h).bind fun localName => ?_
    have hspecifier : AnswersIn Node.shape final c
        (finish .importNamespaceSpecifier start [.node localName]) fun id =>
          final.Below (b + 2) localName → final.Below (b + 3) id :=
      .ranked (h.fits 2 rfl) (by simp_all)
    exact hspecifier.bind fun id => .pure (by simp_all)
  · exact ranks_specifiersInBraces (ranks_importSpecifier h)
  · exact .fail

theorem ranks_importSpecifiers : AllRankBelow final c (b + 3) importSpecifiers fun ids => ids := by
  refine .quiet fun _ => .ite ?_ (ranks_namespaceOrNamedImports h)
  refine (ranks_defaultImport h).bind fun first => .quiet fun _ => .ite ?_ (.pure (by simp))
  exact (ranks_namespaceOrNamedImports h).bind fun ids => .pure (by simp_all)

theorem ranks_importDeclaration : RanksBelow final c (b + 4) importDeclaration := by
  have hsource := (ranks_source h).le (c := c) (n := b + 3) (by omega)
  refine .quiet fun start => .quiet fun _ => .quiet fun _ => .ite ?_ (.quiet fun _ => ?_)
  · exact hsource.bind fun source => .quiet fun _ => .ranked (h.fits 3 rfl) (by simp_all)
  · extract_lets rest
    have hrest : RanksBelow final c (b + 4) (rest ()) := by
      refine .quiet fun listStart => (ranks_importSpecifiers h).bind fun ids => ?_
      refine AnswersIn.listed.bind fun slot => .quiet fun _ => ?_
      exact hsource.bind fun source => .quiet fun _ => .ranked (h.fits 3 rfl) (by simp_all)
    exact .ite (.quiet fun _ => .when hrest) hrest

theorem ranks_exportSpecifier : RanksBelow final c (b + 3) exportSpecifier := by
  refine .quiet fun start => (ranks_word h).bind fun localName => .quiet fun _ => ?_
  refine .join (fun exported => final.AllBelow (b + 2) exported.toList)
    ((ranks_word h).map (by simp)) (.pure (by simp)) fun exported => ?_
  exact .ranked (h.fits 2 rfl) (by simp_all)

theorem ranks_defaultExport : RanksBelow final c (b + 5) (defaultExport inner) := by
  refine .quiet fun _ => .ite (ranks_functionDeclaration h true) (.quiet fun _ => ?_)
  refine .ite (ranks_classDeclaration h true) ?_
  refine (h.assignment.le (n := b + 5) (by omega)).bind fun expression => .quiet fun _ => ?_
  exact .pure fun hid => hid

theorem ranks_exportedDeclaration : RanksBelow final c (b + 12) (exportedDeclaration inner) := by
  refine .quiet fun _ => .ite (ranks_variableStatement h) (.quiet fun _ => ?_)
  refine .ite ((ranks_functionDeclaration h false).le (by omega)) (.quiet fun _ => ?_)
  exact .ite ((ranks_classDeclaration h false).le (by omega)) .fail

theorem ranks_exportDeclaration : RanksBelow final c (b + 13) (exportDeclaration inner) := by
  have hsource := (ranks_source h).le (c := c) (n := b + 12) (by omega)
  have hspecifiers := AllRankBelow.le (c := c) (n := b + 12)
    (ranks_specifiersInBraces (ranks_exportSpecifier h)) (by omega)
  refine .quiet fun start => .quiet fun _ => .quiet fun t => ?_
  split
  · refine RanksBelow.le (m := b + 6)
      (.quiet fun _ => (ranks_defaultExport h).bind fun id => ?_) (by omega)
    exact .ranked (h.fits 5 rfl) (by simp_all)
  · refine RanksBelow.le (m := b + 3) (.quiet fun _ => .quiet fun _ => ?_) (by omega)
    exact (ranks_source h).bind fun source => .quiet fun _ => .ranked (h.fits 2 rfl) (by simp_all)
  · refine .quiet fun listStart => hspecifiers.bind fun ids => ?_
    refine AnswersIn.listed.bind fun slot => .quiet fun _ => ?_
    refine .join (fun source => final.AllBelow (b + 12) source.toList) (hsource.map (by simp))
      (.pure (by simp)) fun source => .quiet fun _ => ?_
    exact .ranked (h.fits 12 rfl) (by simp_all)
  · exact (ranks_typeAlias h start _).le (by omega)
  · exact (ranks_interfaceDeclaration h start _).le (by omega)
  · refine (ranks_exportedDeclaration h).bind fun declaration => ?_
    exact .ranked (h.fits 12 rfl) (by simp_all)

/-! ## Statements -/

theorem ranks_embeddedStatement : RanksBelow final c b (embeddedStatement inner) :=
  .quiet fun _ => .ite .fail h.statement

theorem ranks_condition : RanksBelow final c (b + 3) (condition inner) := by
  refine .quiet fun _ => (ranks_expression h).withReader.bind fun test => ?_
  exact .quiet fun _ => .pure fun hid => hid

theorem ranks_ifStatement : RanksBelow final c (b + 4) (ifStatement inner) := by
  have hbody := (ranks_embeddedStatement h).le (c := c) (n := b + 3) (by omega)
  refine .quiet fun start => .quiet fun _ => (ranks_condition h).bind fun test => ?_
  refine hbody.bind fun consequent => .quiet fun _ => ?_
  refine .join (fun alternate => final.AllBelow (b + 3) alternate.toList) (hbody.map (by simp))
    (.pure (by simp)) fun alternate => ?_
  exact .ranked (h.fits 3 rfl) (by simp_all)

theorem ranks_switchCase : RanksBelow final c (b + 4) (switchCase inner) := by
  have hstatement := h.statement.le (c := c) (n := b + 3) (by omega)
  refine .quiet fun start => .quiet fun t => ?_
  extract_lets rest
  have hrest : ∀ test, AnswersIn Node.shape final c (rest test) fun id =>
      final.AllBelow (b + 3) test.toList → final.Below (b + 4) id := by
    refine fun test => .quiet fun _ => .quiet fun listStart => ?_
    refine (AllRankBelow.collect (n := b + 3) ?_).bind fun ids => ?_
    · exact .quiet fun _ => .ite (.pure (by simp)) (hstatement.map (by simp))
    · refine AnswersIn.listed.bind fun slot => ?_
      exact .ranked (h.fits 3 rfl) (by simp_all)
  split
  · have hsome : AllRankBelow final c (b + 3) (some <$> expression inner) Option.toList :=
      (ranks_expression h).map (by simp)
    exact .quiet fun _ => hsome.bind hrest
  · exact .quiet fun _ => (hrest none).mono (by simp)
  · exact .bind .fail hrest

theorem ranks_switchStatement : RanksBelow final c (b + 5) (switchStatement inner) := by
  have hhead := (ranks_condition h).le (c := c) (n := b + 4) (by omega)
  refine .quiet fun start => .quiet fun _ => hhead.bind fun head => .quiet fun _ => ?_
  refine .quiet fun listStart => (AllRankBelow.collect (n := b + 4) ?_).bind fun ids => ?_
  · exact .quiet fun _ => .ite (.pure (by simp)) ((ranks_switchCase h).map (by simp))
  · exact .quiet fun stop => .quiet fun _ => .ranked (h.fits 4 rfl) (by simp_all)

/-! ### Loops -/

theorem ranks_doStatement : RanksBelow final c (b + 4) (doStatement inner) := by
  have hbody := (ranks_embeddedStatement h).le (c := c) (n := b + 3) (by omega)
  refine .quiet fun start => .quiet fun _ => hbody.bind fun body => .quiet fun _ => ?_
  refine (ranks_condition h).bind fun test => .quiet fun _ => ?_
  exact .ranked (h.fits 3 rfl) (by simp_all)

theorem ranks_headedStatement {kind : NodeKind} (hfits : kind.fitsAt (b + 3)) :
    RanksBelow final c (b + 4) (headedStatement inner kind) := by
  have hbody := (ranks_embeddedStatement h).le (c := c) (n := b + 3) (by omega)
  refine .quiet fun start => .quiet fun _ => (ranks_condition h).bind fun head => ?_
  exact hbody.bind fun body => .ranked hfits (by simp_all)

theorem ranks_forInit : AllRankBelow final c (b + 12) (forInit inner) Option.toList := by
  have hexpression : ∀ c, RanksBelow final c (b + 12) (expression inner) :=
    fun _ => (ranks_expression h).le (by omega)
  refine .quiet fun _ => .ite (.pure (by simp)) (.withReader (.quiet fun _ => .ite ?_ ?_))
  · exact (ranks_variableDeclaration h).map (by simp)
  · exact (hexpression _).map (by simp)

theorem ranks_forTarget (init : NodeId) :
    AnswersIn Node.shape final c (forTarget init) fun t =>
      final.Below (b + 12) init → final.Below (b + 12) t := by
  refine .quiet fun _ => .ite (.pure fun hid => hid) ?_
  refine (converts_assignmentTarget init).mono fun t ht hid => ?_
  have hlevel := h.level
  have hall := ht (b + 12) (by omega) (by omega) (by simpa using hid)
  simpa using hall

theorem ranks_forEachRest {kind : NodeKind} (hfits : kind.fitsAt (b + 12)) (start : Nat)
    (init : NodeId) :
    AnswersIn Node.shape final c (forEachRest inner start kind init) fun id =>
      final.Below (b + 12) init → final.Below (b + 13) id := by
  have hassignment : ∀ c, RanksBelow final c (b + 12) inner.assignment :=
    fun _ => h.assignment.le (by omega)
  have hexpression : ∀ c, RanksBelow final c (b + 12) (expression inner) :=
    fun _ => (ranks_expression h).le (by omega)
  have hbody := (ranks_embeddedStatement h).le (c := c) (n := b + 12) (by omega)
  refine (ranks_forTarget h init).bind fun left => .quiet fun _ => ?_
  refine (AnswersIn.withReader (.ite (hassignment _) (hexpression _))).bind fun right => ?_
  refine .quiet fun _ => hbody.bind fun body => .ranked hfits ?_
  simp_all

theorem ranks_expressionBefore? (close : Token) :
    AllRankBelow final c (b + 12) (expressionBefore? inner close) Option.toList := by
  have hexpression : ∀ c, RanksBelow final c (b + 12) (expression inner) :=
    fun _ => (ranks_expression h).le (by omega)
  exact .quiet fun _ => .ite (.pure (by simp)) ((hexpression _).withReader.map (by simp))

theorem ranks_forRest (start : Nat) (init : Option NodeId) :
    AnswersIn Node.shape final c (forRest inner start init) fun id =>
      final.AllBelow (b + 12) init.toList → final.Below (b + 13) id := by
  have hbody := (ranks_embeddedStatement h).le (c := c) (n := b + 12) (by omega)
  refine .quiet fun _ => (ranks_expressionBefore? h _).bind fun test => .quiet fun _ => ?_
  refine (ranks_expressionBefore? h _).bind fun update => .quiet fun _ => ?_
  exact hbody.bind fun body => .ranked (h.fits 12 rfl) (by simp_all)

theorem fits_of_enumeration? {t : Token} {kind : NodeKind} (hkind : enumeration? t = some kind) :
    kind.fitsAt (b + 12) := by
  unfold enumeration? at hkind
  split at hkind
  · cases hkind
    exact h.fits 12 rfl
  · cases hkind
    exact h.fits 12 rfl
  · cases hkind

theorem ranks_forStatement : RanksBelow final c (b + 13) (forStatement inner) := by
  refine .quiet fun start => .quiet fun _ => .quiet fun _ => ?_
  refine (ranks_forInit h).bind fun init => .quiet fun t => ?_
  split
  · rename_i hkind
    exact (ranks_forEachRest h (fits_of_enumeration? h hkind) start _).mono (by simp)
  · exact ranks_forRest h start _

/-! ### Jumps -/

theorem ranks_breakOrContinue {kind : NodeKind} (hfits : kind.fitsAt (b + 2)) :
    RanksBelow final c (b + 3) (breakOrContinue kind) := by
  refine .quiet fun start => .quiet fun _ => .quiet fun _ => .either fun labelled => ?_
  refine .join (fun label => final.AllBelow (b + 2) label.toList)
    ((ranks_name h).map (by simp)) (.pure (by simp)) fun label => .quiet fun _ => ?_
  exact .ranked hfits (by simp_all)

theorem ranks_returnStatement : RanksBelow final c (b + 4) (returnStatement inner) := by
  refine .quiet fun start => .quiet fun _ => .quiet fun _ => ?_
  refine .join (fun argument => final.AllBelow (b + 3) argument.toList) (.pure (by simp))
    ((ranks_expression h).map (by simp)) fun argument => .quiet fun _ => ?_
  exact .ranked (h.fits 3 rfl) (by simp_all)

theorem ranks_throwStatement : RanksBelow final c (b + 4) (throwStatement inner) := by
  refine .quiet fun start => .quiet fun _ => .quiet fun _ => .when ?_
  refine (ranks_expression h).bind fun argument => .quiet fun _ => ?_
  exact .ranked (h.fits 3 rfl) (by simp_all)

theorem ranks_catchClause : RanksBelow final c (b + 11) (catchClause inner) := by
  have hbody := (ranks_blockStatement h).le (c := c) (n := b + 10) (by omega)
  refine .quiet fun start => .quiet fun _ => .quiet fun _ => ?_
  refine (ranks_bindingTarget h false).bind fun param => .quiet fun _ => ?_
  exact hbody.bind fun body => .ranked (h.fits 10 rfl) (by simp_all)

theorem ranks_tryStatement : RanksBelow final c (b + 12) (tryStatement inner) := by
  have hblock := (ranks_blockStatement h).le (c := c) (n := b + 11) (by omega)
  refine .quiet fun start => .quiet fun _ => hblock.bind fun block => .quiet fun _ => ?_
  refine .join (fun handler => final.AllBelow (b + 11) handler.toList)
    ((ranks_catchClause h).map (by simp)) (.pure (by simp)) fun handler => .quiet fun _ => ?_
  refine .join (fun finalizer => final.AllBelow (b + 11) finalizer.toList)
    (hblock.map (by simp)) (.pure (by simp)) fun finalizer => .when ?_
  exact .ranked (h.fits 11 rfl) (by simp_all)

/-! ### Any statement -/

omit h in
theorem ranks_emptyStatement : RanksBelow final c 17 emptyStatement :=
  .quiet fun start => .quiet fun _ =>
    .ranked (by decide : NodeKind.emptyStatement.fitsAt 16) (by simp_all)

omit h in
theorem ranks_debuggerStatement : RanksBelow final c 17 debuggerStatement :=
  .quiet fun start => .quiet fun _ => .quiet fun _ =>
    .ranked (by decide : NodeKind.debuggerStatement.fitsAt 16) (by simp_all)

theorem ranks_expressionOrLabeled : RanksBelow final c (b + 4) (expressionOrLabeled inner) := by
  have hbody := (ranks_embeddedStatement h).le (c := c) (n := b + 2) (by omega)
  refine .quiet fun start => .quiet fun _ => .either fun labelled => .ite ?_ ?_
  · refine RanksBelow.le (m := b + 3) ((ranks_name h).bind fun label => .quiet fun _ => ?_) (by omega)
    exact hbody.bind fun body => .ranked (h.fits 2 rfl) (by simp_all)
  · refine (ranks_expression h).bind fun expression => .quiet fun _ => ?_
    exact .ranked (h.fits 3 rfl) (by simp_all)

theorem ranks_erasedDeclaration : RanksBelow final c (b + 11) (erasedDeclaration inner) := by
  refine .quiet fun start => .quiet fun t => ?_
  split
  · exact (ranks_typeAlias h start _).le (by omega)
  · exact (ranks_interfaceDeclaration h start _).le (by omega)
  · exact ranks_declareStatement h

theorem ranks_otherStatement : RanksBelow final c (b + 12) (otherStatement inner) := by
  refine .quiet fun _ => .ite (ranks_variableStatement h) (.quiet fun _ => ?_)
  refine .ite ((ranks_functionDeclaration h false).le (by omega)) (.quiet fun _ => ?_)
  exact .ite ((ranks_erasedDeclaration h).le (by omega))
    ((ranks_expressionOrLabeled h).le (by omega))

theorem ranks_statement : RanksBelow final c (b + 13) (statement inner) := by
  have hfirst := h.first
  refine .quiet fun t => ?_
  split
  · exact (ranks_blockStatement h).le (by omega)
  · exact ranks_emptyStatement.le (by omega)
  · exact (ranks_classDeclaration h false).le (by omega)
  · exact (ranks_ifStatement h).le (by omega)
  · exact (ranks_doStatement h).le (by omega)
  · exact (ranks_headedStatement h (h.fits 3 rfl)).le (by omega)
  · exact ranks_forStatement h
  · exact (ranks_breakOrContinue h (h.fits 2 rfl)).le (by omega)
  · exact (ranks_breakOrContinue h (h.fits 2 rfl)).le (by omega)
  · exact (ranks_returnStatement h).le (by omega)
  · exact (ranks_headedStatement h (h.fits 3 rfl)).le (by omega)
  · exact (ranks_switchStatement h).le (by omega)
  · exact (ranks_throwStatement h).le (by omega)
  · exact (ranks_tryStatement h).le (by omega)
  · exact ranks_debuggerStatement.le (by omega)
  · exact (ranks_importDeclaration h).le (by omega)
  · exact ranks_exportDeclaration h
  · exact .fail
  · exact (ranks_otherStatement h).le (by omega)

/-! ## Levels -/

omit h in
theorem ranks_failTooDeep (n : Nat) : RanksBelow final c n failTooDeep :=
  .fail

omit h in
/-- Below the deepest level nothing answers. -/
theorem ranks_exhausted : Nested.exhausted.Ranked final 16 where
  first := Nat.le_refl 16
  level := rfl
  keeps _ := keeps_exhausted
  statement := ranks_failTooDeep _
  assignment := ranks_failTooDeep _
  binary _ := ranks_failTooDeep _
  unary := ranks_failTooDeep _
  construction := ranks_failTooDeep _
  bindingTarget _ := ranks_failTooDeep _
  classMember := ranks_failTooDeep _
  type := ranks_failTooDeep _
  prefixType := ranks_failTooDeep _
  primaryType := ranks_failTooDeep _
  typeMember _ := ranks_failTooDeep _

omit h in
/-- The rules of a level answer with nodes of that level or below. -/
theorem ranks_within (final : Tree) (depth : Nat) :
    (Nested.within depth).Ranked final (16 * depth + 16) := by
  induction depth with
  | zero => exact ranks_exhausted
  | succ depth ih =>
      exact {
        first := Nat.le_add_left _ _
        level := by omega
        keeps := fun base => keeps_within base (depth + 1)
        statement := (ranks_statement ih).le (by omega)
        assignment := (ranks_assignment ih).le (by omega)
        binary := fun precedence => (ranks_binary ih precedence).le (by omega)
        unary := (ranks_unary ih).le (by omega)
        construction := (ranks_construction ih).le (by omega)
        bindingTarget := fun allowOptional => (ranks_bindingTarget ih allowOptional).le (by omega)
        classMember := (ranks_classMember ih).le (by omega)
        type := (ranks_unionType ih).le (by omega)
        prefixType := (ranks_prefixType ih).le (by omega)
        primaryType := (ranks_primaryType ih).le (by omega)
        typeMember := fun allowStatic => (ranks_typeMember ih allowStatic).le (by omega) }

end FlowErasure.Grammar
