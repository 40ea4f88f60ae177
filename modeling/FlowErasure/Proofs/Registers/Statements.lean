import FlowErasure.Proofs.Registers.Types
import FlowErasure.Proofs.Token.Reading
import FlowErasure.Registers.Program

/-!
# Expressions, statements and programs with registers
-/

namespace FlowErasure.Grammar

variable {levels : Nat} (methods : Methods) (inner : Nested) [methods.Mirrors levels inner]

/-! ## Assignment targets -/

instance mirrors_failTarget {α : Type} (id : NodeId) :
    Mirrors levels (Machine.failTarget id : Machine α) (failTarget id) := by
  refine .step fun node => ?_
  cases node <;> infer_instance

instance mirrors_rebuild (node : Node) (kind : NodeKind) (flags : NodeFlags) (slots : List Slot) :
    Mirrors levels (Machine.rebuild node kind flags slots) (rebuild node kind flags slots) := by
  unfold Machine.rebuild rebuild; infer_instance

instance mirrors_patternElement (target : NodeId → Machine NodeId)
    (target' : NodeId → Parser NodeId) [∀ id, Mirrors levels (target id) (target' id)]
    (id : NodeId) :
    Mirrors levels (Machine.patternElement target id) (patternElement target' id) := by
  refine .step fun node => ?_
  cases node with
  | none => infer_instance
  | some node =>
      dsimp only
      cases (node.slot? .argument).bind Slot.node? <;> cases node.kind <;> infer_instance

instance mirrors_patternProperty (target : NodeId → Machine NodeId)
    (target' : NodeId → Parser NodeId) [∀ id, Mirrors levels (target id) (target' id)]
    (id : NodeId) :
    Mirrors levels (Machine.patternProperty target id) (patternProperty target' id) := by
  refine .step fun node => ?_
  cases node with
  | none => infer_instance
  | some node =>
      dsimp only
      cases (node.slot? .value).bind Slot.node? <;> cases node.kind <;> infer_instance

instance mirrors_assignmentTargetWithin (bound : Nat) (id : NodeId) :
    Mirrors levels (Machine.assignmentTargetWithin bound id) (assignmentTargetWithin bound id) := by
  induction bound generalizing id with
  | zero => exact mirrors_failTarget id
  | succ bound ih =>
      have hproperty : ∀ property : Option NodeId, Mirrors levels
          (match property with
            | none => Machine.failTarget id
            | some property =>
              some <$> Machine.patternProperty (Machine.assignmentTargetWithin bound) property)
          (match property with
            | none => failTarget id
            | some property => some <$> patternProperty (assignmentTargetWithin bound) property) := by
        rintro (_ | property) <;> infer_instance
      have helement : ∀ element : Option NodeId, Mirrors levels
          (match element with
            | none => pure none
            | some element =>
              some <$> Machine.patternElement (Machine.assignmentTargetWithin bound) element)
          (match element with
            | none => pure none
            | some element => some <$> patternElement (assignmentTargetWithin bound) element) := by
        rintro (_ | element) <;> infer_instance
      refine .step fun node => ?_
      cases node with
      | none => infer_instance
      | some node =>
          dsimp only
          cases (node.slot? .properties).bind Slot.list? <;>
            cases (node.slot? .elements).bind Slot.list? <;> cases node.kind <;>
              first
              | infer_instance
              | exact (Mirrors.mapM hproperty _).bind fun _ => inferInstance
              | exact (Mirrors.mapM helement _).bind fun _ => inferInstance

instance mirrors_assignmentTarget (id : NodeId) :
    Mirrors levels (Machine.assignmentTarget id) (assignmentTarget id) := by
  unfold Machine.assignmentTarget assignmentTarget; infer_instance

/-! ## Expressions -/

instance mirrors_allowingIn {α : Type} (p : Machine α) (p' : Parser α)
    [Mirrors levels p p'] :
    Mirrors levels (Machine.allowingIn p) (allowingIn p') := by
  unfold Machine.allowingIn allowingIn; infer_instance

instance mirrors_expression : Mirrors levels (Machine.expression methods) (expression inner) := by
  unfold Machine.expression expression; infer_instance

instance mirrors_spreadOrAssignment :
    Mirrors levels (Machine.spreadOrAssignment methods) (spreadOrAssignment inner) := by
  unfold Machine.spreadOrAssignment spreadOrAssignment; infer_instance

instance mirrors_parenthesizedExpression :
    Mirrors levels (Machine.parenthesizedExpression methods) (parenthesizedExpression inner) := by
  unfold Machine.parenthesizedExpression parenthesizedExpression; infer_instance

instance mirrors_templateRest (quasi : NodeId) :
    Mirrors levels (Machine.templateRest methods quasi) (templateRest inner quasi) := by
  refine (Mirrors.iterate (fun read => ?_) _).bind fun read => inferInstance
  refine .ite inferInstance (.step fun expression => .step fun _ => .when fun _ => ?_)
  infer_instance

instance mirrors_templateLiteral :
    Mirrors levels (Machine.templateLiteral methods) (templateLiteral inner) := by
  refine .step fun start => .step fun head => .step fun _ => .step fun quasi => ?_
  exact .either fun pieces => inferInstance

instance mirrors_arrayLiteral :
    Mirrors levels (Machine.arrayLiteral methods) (arrayLiteral inner) := by
  unfold Machine.arrayLiteral arrayLiteral; infer_instance

instance mirrors_propertyRest (start : Nat) (key : NodeId) (computed canBeShorthand : Bool) :
    Mirrors levels (Machine.propertyRest methods start key computed canBeShorthand)
      (propertyRest inner start key computed canBeShorthand) := by
  unfold Machine.propertyRest propertyRest; infer_instance

instance mirrors_objectMember :
    Mirrors levels (Machine.objectMember methods) (objectMember inner) := by
  refine .step fun _ => .ite inferInstance ?_
  refine .step fun start => .step fun flags => .step fun flags => .step fun t => .when fun _ => ?_
  refine .step fun _ => .step fun key => .step fun _ => ?_
  exact .ite inferInstance (.ite inferInstance inferInstance)

instance mirrors_objectLiteral :
    Mirrors levels (Machine.objectLiteral methods) (objectLiteral inner) := by
  unfold Machine.objectLiteral objectLiteral; infer_instance

instance mirrors_primary (heritage : Machine NodeId) (heritage' : Parser NodeId)
    [Mirrors levels heritage heritage'] :
    Mirrors levels (Machine.primary methods heritage) (primary inner heritage') := by
  refine .step fun start => .step fun t => ?_
  cases t <;> infer_instance

instance mirrors_arguments : Mirrors levels (Machine.arguments methods) (arguments inner) := by
  unfold Machine.arguments arguments; infer_instance

instance mirrors_accessesAndCalls (start : Nat) (allowCall : Bool) (expression₀ : NodeId) :
    Mirrors levels (Machine.accessesAndCalls methods start allowCall expression₀)
      (accessesAndCalls inner start allowCall expression₀) := by
  refine .iterate (fun object => .step fun t => ?_) _
  cases t <;> infer_instance

instance mirrors_newExpression (operand : Machine NodeId) (operand' : Parser NodeId)
    [Mirrors levels operand operand'] :
    Mirrors levels (Machine.newExpression methods operand) (newExpression inner operand') := by
  refine .step fun start => .step fun _ => .step fun calleeStart => .step fun _ => ?_
  refine .either fun callee => .step fun callee => .step fun _ => ?_
  exact .either fun arguments => inferInstance

instance mirrors_leftHandSideWithin (bound : Nat) :
    Mirrors levels (Machine.leftHandSideWithin methods bound) (leftHandSideWithin inner bound) := by
  induction bound with
  | zero => exact mirrors_failUnexpected
  | succ bound ih =>
      refine .step fun start => ?_
      extract_lets operand operand'
      refine .step fun t => ?_
      cases t <;> infer_instance

instance mirrors_leftHandSide :
    Mirrors levels (Machine.leftHandSide methods) (leftHandSide inner) :=
  mirrors_bytesLeft.bind fun bound => mirrors_leftHandSideWithin methods inner (bound + 2)

instance mirrors_construction :
    Mirrors levels (Machine.construction methods) (construction inner) := by
  unfold Machine.construction construction; infer_instance

instance mirrors_postfixExpression :
    Mirrors levels (Machine.postfixExpression methods) (postfixExpression inner) := by
  unfold Machine.postfixExpression postfixExpression; infer_instance

instance mirrors_prefixOperation (kind : NodeKind) :
    Mirrors levels (Machine.prefixOperation methods kind) (prefixOperation inner kind) := by
  unfold Machine.prefixOperation prefixOperation; infer_instance

instance mirrors_unary : Mirrors levels (Machine.unary methods) (unary inner) := by
  refine .step fun t => ?_
  cases t <;> infer_instance

instance mirrors_precedenceHere (t : Token) :
    Mirrors levels (Machine.precedenceHere t) (precedenceHere t) := by
  unfold Machine.precedenceHere precedenceHere; infer_instance

instance mirrors_binary (precedence : Nat) :
    Mirrors levels (Machine.binary methods precedence) (binary inner precedence) := by
  refine .step fun start => .step fun first => .iterate (fun operand => ?_) _
  exact .step fun _ => .step fun t => .step fun next => .ite inferInstance inferInstance

instance mirrors_inTail {α : Type} (tail : Bool) (p : Machine α) (p' : Parser α)
    [Mirrors levels p p'] :
    Mirrors levels (Machine.inTail tail p) (inTail tail p') := by
  unfold Machine.inTail inTail; infer_instance

instance mirrors_conditional (tail : Bool) :
    Mirrors levels (Machine.conditional methods tail) (conditional inner tail) := by
  refine .step fun start => .step fun test => .step fun _ => .ite inferInstance ?_
  infer_instance

instance mirrors_isArrowParameter : Mirrors levels Machine.isArrowParameter isArrowParameter := by
  unfold Machine.isArrowParameter isArrowParameter; infer_instance

instance mirrors_arrowToken : Mirrors levels Machine.arrowToken arrowToken := by
  unfold Machine.arrowToken arrowToken; infer_instance

instance mirrors_singleParameterHead (isAsync : Bool) :
    Mirrors levels (Machine.singleParameterHead isAsync) (singleParameterHead isAsync) := by
  unfold Machine.singleParameterHead singleParameterHead; infer_instance

instance mirrors_parameterListHead (isAsync : Bool) :
    Mirrors levels (Machine.parameterListHead methods isAsync)
      (parameterListHead inner isAsync) := by
  unfold Machine.parameterListHead parameterListHead; infer_instance

instance mirrors_arrowHead : Mirrors levels (Machine.arrowHead methods) (arrowHead inner) := by
  refine .step fun _ => .ite inferInstance (.step fun _ => ?_)
  exact .either fun isAsync => inferInstance

instance mirrors_startsArrowFunction (tail : Bool) :
    Mirrors levels (Machine.startsArrowFunction tail) (startsArrowFunction tail) := by
  have hanswer : ∀ follow : ParenFollow, Mirrors levels
      (match follow with
        | .arrow | .unknown => pure true
        | .colon => pure !tail
        | .other => pure false)
      (match follow with
        | .arrow | .unknown => pure true
        | .colon => pure !tail
        | .other => pure false) := by
    rintro (_ | _ | _ | _) <;> infer_instance
  refine .step fun t => ?_
  cases t <;> first | exact mirrors_parenFollow.bind hanswer | infer_instance

instance mirrors_tryArrowHead (tail : Bool) :
    Mirrors levels (Machine.tryArrowHead methods tail) (tryArrowHead inner tail) := by
  unfold Machine.tryArrowHead tryArrowHead; infer_instance

instance mirrors_arrowBody (isAsync tail : Bool) :
    Mirrors levels (Machine.arrowBody methods isAsync tail) (arrowBody inner isAsync tail) := by
  unfold Machine.arrowBody arrowBody; infer_instance

instance mirrors_arrowFunction? (tail : Bool) :
    Mirrors levels (Machine.arrowFunction? methods tail) (arrowFunction? inner tail) := by
  refine .step fun starts => .ite inferInstance (.step fun start => .step fun head => ?_)
  cases head <;> infer_instance

instance mirrors_endsYield : Mirrors levels Machine.endsYield endsYield := by
  unfold Machine.endsYield endsYield; infer_instance

instance mirrors_yieldExpression :
    Mirrors levels (Machine.yieldExpression methods) (yieldExpression inner) := by
  refine .step fun start => .step fun _ => .step fun _ => .ite inferInstance ?_
  exact .step fun _ => .ite inferInstance (.step fun _ => .ite inferInstance inferInstance)

instance mirrors_targetFor (operator : Token) (target : NodeId) :
    Mirrors levels (Machine.targetFor operator target) (targetFor operator target) := by
  refine .ite inferInstance (.step fun node => ?_)
  cases node with
  | none => infer_instance
  | some node =>
      dsimp only
      cases node.kind <;> infer_instance

instance mirrors_operation (tail : Bool) :
    Mirrors levels (Machine.operation methods tail) (operation inner tail) := by
  refine .step fun start => .step fun operand => .step fun t => .ite inferInstance ?_
  infer_instance

instance mirrors_assignment : Mirrors levels (Machine.assignment methods) (assignment inner) := by
  refine .step fun context => .withContext ?_
  refine .step fun _ => .step fun _ => .ite inferInstance (.step fun arrow => ?_)
  cases arrow <;> infer_instance

/-! ## Declarations -/

instance mirrors_variableDeclarator :
    Mirrors levels (Machine.variableDeclarator methods) (variableDeclarator inner) := by
  unfold Machine.variableDeclarator variableDeclarator; infer_instance

instance mirrors_variableDeclaration :
    Mirrors levels (Machine.variableDeclaration methods) (variableDeclaration inner) := by
  unfold Machine.variableDeclaration variableDeclaration; infer_instance

instance mirrors_variableStatement :
    Mirrors levels (Machine.variableStatement methods) (variableStatement inner) := by
  unfold Machine.variableStatement variableStatement; infer_instance

instance mirrors_startsVariables : Mirrors levels Machine.startsVariables startsVariables := by
  refine .step fun t => ?_
  cases t <;> infer_instance

instance mirrors_startsFunction : Mirrors levels Machine.startsFunction startsFunction := by
  refine .step fun t => ?_
  cases t <;> infer_instance

instance mirrors_functionDeclaration (allowAnonymous : Bool) :
    Mirrors levels (Machine.functionDeclaration methods allowAnonymous)
      (functionDeclaration inner allowAnonymous) := by
  unfold Machine.functionDeclaration functionDeclaration; infer_instance

instance mirrors_classDeclaration (allowAnonymous : Bool) :
    Mirrors levels (Machine.classDeclaration methods allowAnonymous)
      (classDeclaration inner allowAnonymous) := by
  unfold Machine.classDeclaration classDeclaration; infer_instance

instance mirrors_typeAlias (start : Nat) (flags : NodeFlags) :
    Mirrors levels (Machine.typeAlias methods start flags) (typeAlias inner start flags) := by
  unfold Machine.typeAlias typeAlias; infer_instance

instance mirrors_extendsClause :
    Mirrors levels (Machine.extendsClause methods) (extendsClause inner) := by
  unfold Machine.extendsClause extendsClause; infer_instance

instance mirrors_interfaceRest (allowStatic : Bool) :
    Mirrors levels (Machine.interfaceRest methods allowStatic)
      (interfaceRest inner allowStatic) := by
  unfold Machine.interfaceRest interfaceRest; infer_instance

instance mirrors_interfaceDeclaration (start : Nat) (flags : NodeFlags) :
    Mirrors levels (Machine.interfaceDeclaration methods start flags)
      (interfaceDeclaration inner start flags) := by
  unfold Machine.interfaceDeclaration interfaceDeclaration; infer_instance

instance mirrors_declaredFunctionName :
    Mirrors levels (Machine.declaredFunctionName methods) (declaredFunctionName inner) := by
  refine .step fun start => .step fun named => .when fun _ => ?_
  infer_instance

instance mirrors_moduleName : Mirrors levels Machine.moduleName moduleName := by
  unfold Machine.moduleName moduleName; infer_instance

instance mirrors_declareStatement :
    Mirrors levels (Machine.declareStatement methods) (declareStatement inner) := by
  refine .step fun start => .step fun _ => .step fun t => ?_
  cases t <;> infer_instance

/-! ## Imports and exports -/

instance mirrors_startsTypeImport : Mirrors levels Machine.startsTypeImport startsTypeImport := by
  unfold Machine.startsTypeImport startsTypeImport; infer_instance

instance mirrors_importSpecifier : Mirrors levels Machine.importSpecifier importSpecifier := by
  unfold Machine.importSpecifier importSpecifier; infer_instance

instance mirrors_specifiersInBraces (specifier : Machine NodeId) (specifier' : Parser NodeId)
    [Mirrors levels specifier specifier'] :
    Mirrors levels (Machine.specifiersInBraces specifier) (specifiersInBraces specifier') := by
  unfold Machine.specifiersInBraces specifiersInBraces; infer_instance

instance mirrors_defaultImport : Mirrors levels Machine.defaultImport defaultImport := by
  unfold Machine.defaultImport defaultImport; infer_instance

instance mirrors_namespaceOrNamedImports :
    Mirrors levels Machine.namespaceOrNamedImports namespaceOrNamedImports := by
  refine .step fun t => ?_
  cases t <;> infer_instance

instance mirrors_importSpecifiers : Mirrors levels Machine.importSpecifiers importSpecifiers := by
  unfold Machine.importSpecifiers importSpecifiers; infer_instance

instance mirrors_importDeclaration :
    Mirrors levels Machine.importDeclaration importDeclaration := by
  refine .step fun start => .step fun _ => .step fun _ => .ite inferInstance (.step fun _ => ?_)
  extract_lets rest rest'
  have hrest : ∀ u, Mirrors levels (rest u) (rest' u) := fun _ => inferInstance
  exact .ite (.step fun _ => .when hrest) (hrest ())

instance mirrors_exportSpecifier : Mirrors levels Machine.exportSpecifier exportSpecifier := by
  unfold Machine.exportSpecifier exportSpecifier; infer_instance

instance mirrors_defaultExport :
    Mirrors levels (Machine.defaultExport methods) (defaultExport inner) := by
  unfold Machine.defaultExport defaultExport; infer_instance

instance mirrors_exportedDeclaration :
    Mirrors levels (Machine.exportedDeclaration methods) (exportedDeclaration inner) := by
  unfold Machine.exportedDeclaration exportedDeclaration; infer_instance

instance mirrors_exportDeclaration :
    Mirrors levels (Machine.exportDeclaration methods) (exportDeclaration inner) := by
  refine .step fun start => .step fun _ => .step fun t => ?_
  cases t with
  | openBrace =>
      refine .step fun listStart => .step fun specifiers => .step fun specifiers => ?_
      exact .step fun _ => .either fun source => inferInstance
  | _ => infer_instance

/-! ## Statements -/

instance mirrors_startsErasedDeclaration :
    Mirrors levels Machine.startsErasedDeclaration startsErasedDeclaration := by
  refine .step fun t => ?_
  cases t <;> infer_instance

instance mirrors_embeddedStatement :
    Mirrors levels (Machine.embeddedStatement methods) (embeddedStatement inner) := by
  unfold Machine.embeddedStatement embeddedStatement; infer_instance

instance mirrors_condition : Mirrors levels (Machine.condition methods) (condition inner) := by
  unfold Machine.condition condition; infer_instance

instance mirrors_ifStatement :
    Mirrors levels (Machine.ifStatement methods) (ifStatement inner) := by
  unfold Machine.ifStatement ifStatement; infer_instance

instance mirrors_switchCase : Mirrors levels (Machine.switchCase methods) (switchCase inner) := by
  refine .step fun start => .step fun t => ?_
  extract_lets rest rest'
  have hrest : ∀ test, Mirrors levels (rest test) (rest' test) := fun _ => inferInstance
  cases t <;> first | exact .step fun _ => .step hrest | exact .step hrest

instance mirrors_switchStatement :
    Mirrors levels (Machine.switchStatement methods) (switchStatement inner) := by
  refine .step fun start => .step fun _ => .step fun discriminant => .step fun _ => ?_
  exact .step fun listStart => .step fun cases => inferInstance

instance mirrors_doStatement :
    Mirrors levels (Machine.doStatement methods) (doStatement inner) := by
  unfold Machine.doStatement doStatement; infer_instance

instance mirrors_headedStatement (kind : NodeKind) :
    Mirrors levels (Machine.headedStatement methods kind) (headedStatement inner kind) := by
  unfold Machine.headedStatement headedStatement; infer_instance

instance mirrors_forInit : Mirrors levels (Machine.forInit methods) (forInit inner) := by
  unfold Machine.forInit forInit; infer_instance

instance mirrors_forTarget (init : NodeId) :
    Mirrors levels (Machine.forTarget init) (forTarget init) := by
  have htarget : ∀ node : Option Node, Mirrors levels
      (if node.map (·.kind) == some .variableDeclaration then pure init
        else Machine.assignmentTarget init)
      (if node.map (·.kind) == some .variableDeclaration then pure init
        else assignmentTarget init) := fun _ => inferInstance
  exact (mirrors_getNode? init).bind htarget

instance mirrors_forEachRest (start : Nat) (kind : NodeKind) (init : NodeId) :
    Mirrors levels (Machine.forEachRest methods start kind init)
      (forEachRest inner start kind init) := by
  unfold Machine.forEachRest forEachRest; infer_instance

instance mirrors_expressionBefore? (close : Token) :
    Mirrors levels (Machine.expressionBefore? methods close) (expressionBefore? inner close) := by
  unfold Machine.expressionBefore? expressionBefore?; infer_instance

instance mirrors_forRest (start : Nat) (init : Option NodeId) :
    Mirrors levels (Machine.forRest methods start init) (forRest inner start init) := by
  unfold Machine.forRest forRest; infer_instance

instance mirrors_forStatement :
    Mirrors levels (Machine.forStatement methods) (forStatement inner) := by
  refine .step fun start => .step fun _ => .step fun _ => .step fun init => .step fun t => ?_
  cases enumeration? t <;> cases init <;> infer_instance

instance mirrors_breakOrContinue (kind : NodeKind) :
    Mirrors levels (Machine.breakOrContinue kind) (breakOrContinue kind) := by
  refine .step fun start => .step fun _ => .step fun _ => .either fun labelled => ?_
  exact .either fun label => inferInstance

instance mirrors_returnStatement :
    Mirrors levels (Machine.returnStatement methods) (returnStatement inner) := by
  unfold Machine.returnStatement returnStatement; infer_instance

instance mirrors_throwStatement :
    Mirrors levels (Machine.throwStatement methods) (throwStatement inner) := by
  unfold Machine.throwStatement throwStatement; infer_instance

instance mirrors_catchClause :
    Mirrors levels (Machine.catchClause methods) (catchClause inner) := by
  unfold Machine.catchClause catchClause; infer_instance

instance mirrors_tryStatement :
    Mirrors levels (Machine.tryStatement methods) (tryStatement inner) := by
  refine .step fun start => .step fun _ => .step fun block => .step fun _ => ?_
  exact .either fun handler => .step fun _ => .either fun finalizer => .when fun _ => inferInstance

instance mirrors_emptyStatement : Mirrors levels Machine.emptyStatement emptyStatement := by
  unfold Machine.emptyStatement emptyStatement; infer_instance

instance mirrors_debuggerStatement :
    Mirrors levels Machine.debuggerStatement debuggerStatement := by
  unfold Machine.debuggerStatement debuggerStatement; infer_instance

instance mirrors_expressionOrLabeled :
    Mirrors levels (Machine.expressionOrLabeled methods) (expressionOrLabeled inner) := by
  refine .step fun start => .step fun _ => .either fun labelled => ?_
  exact .ite inferInstance inferInstance

instance mirrors_erasedDeclaration :
    Mirrors levels (Machine.erasedDeclaration methods) (erasedDeclaration inner) := by
  refine .step fun start => .step fun t => ?_
  cases t <;> infer_instance

instance mirrors_otherStatement :
    Mirrors levels (Machine.otherStatement methods) (otherStatement inner) := by
  unfold Machine.otherStatement otherStatement; infer_instance

instance mirrors_statement : Mirrors levels (Machine.statement methods) (statement inner) := by
  refine .step fun t => ?_
  cases t <;> infer_instance

/-! ## All levels -/

omit [methods.Mirrors levels inner] in
theorem mirrors_exhausted : Methods.exhausted.Mirrors 0 .exhausted where
  statement := mirrors_guarded_failTooDeep
  assignment := mirrors_guarded_failTooDeep
  binary _ := mirrors_guarded_failTooDeep
  unary := mirrors_guarded_failTooDeep
  construction := mirrors_guarded_failTooDeep
  bindingTarget _ := mirrors_guarded_failTooDeep
  classMember := mirrors_guarded_failTooDeep
  type := mirrors_guarded_failTooDeep
  prefixType := mirrors_guarded_failTooDeep
  primaryType := mirrors_guarded_failTooDeep
  typeMember _ := mirrors_guarded_failTooDeep

/-- Each rule opens its level, and goes on with those that have one less. -/
theorem Methods.mirrors_within (levels : Nat) :
    (Methods.within levels).Mirrors levels (.within levels) := by
  induction levels with
  | zero => exact mirrors_exhausted
  | succ levels ih =>
      exact {
        statement := (mirrors_statement _ _).guarded
        assignment := (mirrors_assignment _ _).guarded
        binary := fun precedence => (mirrors_binary _ _ precedence).guarded
        unary := (mirrors_unary _ _).guarded
        construction := (mirrors_construction _ _).guarded
        bindingTarget := fun allowOptional => (mirrors_bindingTarget _ _ allowOptional).guarded
        classMember := (mirrors_classMember _ _).guarded
        type := (mirrors_unionType _ _).guarded
        prefixType := (mirrors_prefixType _ _).guarded
        primaryType := (mirrors_primaryType _ _).guarded
        typeMember := fun allowStatic => (mirrors_typeMember _ _ allowStatic).guarded }

theorem mirrors_program : Mirrors nestingLimit Machine.program program := by
  have hshebang : Mirrors nestingLimit Machine.skipShebang
      (modify fun s => { s with lexer := s.lexer.skipShebang } : Parser PUnit) :=
    mirrors_step
      (.step (fun r => Lexer.token_skipShebang r.lexer) (fun _ => rfl) (fun _ => rfl) fun _ => rfl)
      fun s c depth => by rw [Lexer.token_skipShebang]
  have hsize : Mirrors nestingLimit (do return (← get).lexer.size : Machine Nat)
      (do return (← get).lexer.size : Parser Nat) :=
    mirrors_look fun _ _ => rfl
  have hrules : (Methods.within nestingLimit).Mirrors nestingLimit rules :=
    Methods.mirrors_within nestingLimit
  refine hshebang.bind fun _ => .step fun _ => .step fun statements => ?_
  exact hsize.bind fun stop => mirrors_addNode
    { kind := .program, start := 0, stop, slots := [.list ⟨statements.map some, 0, stop⟩] }

end FlowErasure.Grammar
