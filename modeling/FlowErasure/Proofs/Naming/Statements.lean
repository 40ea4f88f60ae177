import FlowErasure.Proofs.Frame.Statements
import FlowErasure.Proofs.Naming.Types

/-!
# Names in expressions, declarations and statements

With these the rules of every level of nesting name identifiers right. No conversion of an
expression into a pattern makes an identifier, and an identifier that is converted stays as it is.
-/

-- A rule with a long `do` block needs an instance for each of its steps in one search.
set_option synthInstance.maxSize 1000

namespace FlowErasure.Grammar

variable {text : List Char} (inner : Nested) [inner.Naming text]

/-! ## Assignment targets -/

instance naming_failTarget {α : Type} (id : NodeId) :
    Naming text (failTarget id : Parser α) := by
  refine .step fun node => ?_
  split <;> infer_instance

instance naming_rebuild (node : Node) (kind : NodeKind) (flags : NodeFlags) (slots : List Slot)
    [Denied kind.isIdentifier] :
    Naming text (rebuild node kind flags slots) := by
  unfold rebuild; infer_instance

instance naming_patternElement (target : NodeId → Parser NodeId)
    [∀ id, Naming text (target id)] (id : NodeId) :
    Naming text (patternElement target id) := by
  refine .step fun node => ?_
  split
  · split
    · split <;> infer_instance
    · infer_instance
    · infer_instance
    · infer_instance
  · infer_instance

instance naming_patternProperty (target : NodeId → Parser NodeId)
    [∀ id, Naming text (target id)] (id : NodeId) :
    Naming text (patternProperty target id) := by
  refine .step fun node => ?_
  split
  · split
    · infer_instance
    · refine .when fun _ => ?_
      split <;> infer_instance
    · infer_instance
  · infer_instance

instance naming_assignmentTargetWithin (bound : Nat) (id : NodeId) :
    Naming text (assignmentTargetWithin bound id) := by
  induction bound generalizing id with
  | zero => exact naming_failTarget id
  | succ bound ih =>
      refine .step fun node => ?_
      split
      · dsimp only
        split
        · infer_instance
        · infer_instance
        · infer_instance
        · infer_instance
        · split
          · refine (Naming.mapM (fun property => ?_) _).bind fun nodes => inferInstance
            split <;> infer_instance
          · infer_instance
        · split
          · refine (Naming.mapM (fun element => ?_) _).bind fun nodes => inferInstance
            split <;> infer_instance
          · infer_instance
        · infer_instance
      · infer_instance

instance naming_assignmentTarget (id : NodeId) : Naming text (assignmentTarget id) := by
  unfold assignmentTarget; infer_instance

/-! ## Expressions -/

instance naming_allowingIn {α : Type} (p : Parser α) [Naming text p] :
    Naming text (allowingIn p) := by
  unfold allowingIn; infer_instance

instance naming_expression : Naming text (expression inner) := by
  unfold expression; infer_instance

instance naming_spreadOrAssignment : Naming text (spreadOrAssignment inner) := by
  unfold spreadOrAssignment; infer_instance

instance naming_parenthesizedExpression : Naming text (parenthesizedExpression inner) := by
  unfold parenthesizedExpression; infer_instance

instance naming_templateRest (quasi : NodeId) : Naming text (templateRest inner quasi) := by
  refine (Naming.iterate (fun read => ?_) _).bind fun read => inferInstance
  refine .ite inferInstance (.step fun expression => .step fun _ => .when fun _ => ?_)
  infer_instance

instance naming_templateLiteral : Naming text (templateLiteral inner) := by
  refine .step fun start => .step fun head => .step fun _ => .step fun quasi => ?_
  exact .either fun pieces => inferInstance

instance naming_arrayLiteral : Naming text (arrayLiteral inner) := by
  unfold arrayLiteral; infer_instance

instance naming_propertyRest (start : Nat) (key : NodeId) (computed canBeShorthand : Bool) :
    Naming text (propertyRest inner start key computed canBeShorthand) := by
  unfold propertyRest; infer_instance

instance naming_objectMember : Naming text (objectMember inner) := by
  refine .step fun _ => .ite inferInstance ?_
  refine .step fun start => .step fun flags => .step fun flags => .step fun t => .when fun _ => ?_
  refine .step fun _ => .step fun key => .step fun _ => ?_
  exact .ite inferInstance (.ite inferInstance inferInstance)

instance naming_objectLiteral : Naming text (objectLiteral inner) := by
  unfold objectLiteral; infer_instance

instance naming_primary (heritage : Parser NodeId) [Naming text heritage] :
    Naming text (primary inner heritage) := by
  refine .step fun start => .step fun t => ?_
  split <;> infer_instance

instance naming_arguments : Naming text (arguments inner) := by
  unfold arguments; infer_instance

instance naming_accessesAndCalls (start : Nat) (allowCall : Bool) (expression₀ : NodeId) :
    Naming text (accessesAndCalls inner start allowCall expression₀) := by
  refine .iterate (fun object => .step fun t => ?_) _
  split <;> infer_instance

instance naming_newExpression (operand : Parser NodeId) [Naming text operand] :
    Naming text (newExpression inner operand) := by
  refine .step fun start => .step fun _ => .step fun calleeStart => .step fun _ => ?_
  refine .either fun callee => .step fun callee => .step fun _ => ?_
  exact .either fun arguments => inferInstance

instance naming_leftHandSideWithin (bound : Nat) :
    Naming text (leftHandSideWithin inner bound) := by
  induction bound with
  | zero => exact naming_failUnexpected
  | succ bound ih =>
      refine .step fun start => ?_
      extract_lets operand
      refine .step fun t => ?_
      split <;> infer_instance

instance naming_leftHandSide : Naming text (leftHandSide inner) :=
  .step fun _ => inferInstance

instance naming_construction : Naming text (construction inner) := by
  unfold construction; infer_instance

instance naming_postfixExpression : Naming text (postfixExpression inner) := by
  unfold postfixExpression; infer_instance

instance naming_prefixOperation (kind : NodeKind) [Denied kind.isIdentifier] :
    Naming text (prefixOperation inner kind) := by
  unfold prefixOperation; infer_instance

instance naming_unary : Naming text (unary inner) := by
  refine .step fun t => ?_
  split <;> infer_instance

instance naming_binary (precedence : Nat) : Naming text (binary inner precedence) := by
  refine .step fun start => .step fun first => .iterate (fun operand => ?_) _
  exact .step fun _ => .step fun t => .step fun next => .ite inferInstance inferInstance

instance naming_inTail {α : Type} (tail : Bool) (p : Parser α) [Naming text p] :
    Naming text (inTail tail p) := by
  unfold inTail; infer_instance

instance naming_conditional (tail : Bool) : Naming text (conditional inner tail) := by
  refine .step fun start => .step fun test => .step fun _ => .ite inferInstance ?_
  infer_instance

instance naming_arrowToken : Naming text arrowToken := by
  unfold arrowToken; infer_instance

instance naming_singleParameterHead (isAsync : Bool) :
    Naming text (singleParameterHead isAsync) := by
  unfold singleParameterHead; infer_instance

instance naming_parameterListHead (isAsync : Bool) :
    Naming text (parameterListHead inner isAsync) := by
  unfold parameterListHead; infer_instance

instance naming_arrowHead : Naming text (arrowHead inner) := by
  refine .step fun _ => .ite inferInstance (.step fun _ => ?_)
  exact .either fun isAsync => inferInstance

instance naming_tryArrowHead (tail : Bool) : Naming text (tryArrowHead inner tail) := by
  unfold tryArrowHead; infer_instance

instance naming_arrowBody (isAsync tail : Bool) :
    Naming text (arrowBody inner isAsync tail) := by
  unfold arrowBody; infer_instance

instance naming_arrowFunction? (tail : Bool) : Naming text (arrowFunction? inner tail) := by
  refine .step fun starts => .ite inferInstance (.step fun start => .step fun head => ?_)
  split <;> infer_instance

instance naming_yieldExpression : Naming text (yieldExpression inner) := by
  refine .step fun start => .step fun _ => .step fun _ => .ite inferInstance ?_
  exact .step fun _ => .ite inferInstance (.step fun _ => .ite inferInstance inferInstance)

instance naming_targetFor (operator : Token) (target : NodeId) :
    Naming text (targetFor operator target) := by
  refine .ite inferInstance (.step fun node => ?_)
  split
  · split <;> infer_instance
  · infer_instance

instance naming_operation (tail : Bool) : Naming text (operation inner tail) := by
  refine .step fun start => .step fun operand => .step fun t => .ite inferInstance ?_
  infer_instance

instance naming_assignment : Naming text (assignment inner) := by
  refine .step fun context => .withReader ?_
  refine .step fun _ => .step fun _ => .ite inferInstance (.step fun arrow => ?_)
  split <;> infer_instance

/-! ## Declarations -/

instance naming_variableDeclarator : Naming text (variableDeclarator inner) := by
  unfold variableDeclarator; infer_instance

instance naming_variableDeclaration : Naming text (variableDeclaration inner) := by
  unfold variableDeclaration; infer_instance

/-- A semicolon that ends the declaration is no part of its name. -/
instance naming_variableStatement : Naming text (variableStatement inner) := by
  refine .step fun declaration => .step fun _ => .step fun stop => ?_
  have hupdate : Naming text (updateNode declaration ({ · with stop })) :=
    naming_updateNode fun _ => ⟨rfl, rfl, rfl⟩
  infer_instance

instance naming_functionDeclaration (allowAnonymous : Bool) :
    Naming text (functionDeclaration inner allowAnonymous) := by
  unfold functionDeclaration; infer_instance

instance naming_classDeclaration (allowAnonymous : Bool) :
    Naming text (classDeclaration inner allowAnonymous) := by
  unfold classDeclaration; infer_instance

instance naming_typeAlias (start : Nat) (flags : NodeFlags) :
    Naming text (typeAlias inner start flags) := by
  unfold typeAlias; infer_instance

instance naming_extendsClause : Naming text (extendsClause inner) := by
  unfold extendsClause; infer_instance

instance naming_interfaceRest (allowStatic : Bool) :
    Naming text (interfaceRest inner allowStatic) := by
  unfold interfaceRest; infer_instance

instance naming_interfaceDeclaration (start : Nat) (flags : NodeFlags) :
    Naming text (interfaceDeclaration inner start flags) := by
  unfold interfaceDeclaration; infer_instance

instance naming_declaredFunctionName : Naming text (declaredFunctionName inner) := by
  refine naming_introduced fun noted start name => ?_
  refine .step fun _ => .step fun typeStart => .step fun type => .step fun ascription => ?_
  exact namesWith_finishWith (List.mem_cons_self ..)

instance naming_moduleName : Naming text moduleName := by
  unfold moduleName; infer_instance

instance naming_declareStatement : Naming text (declareStatement inner) := by
  refine .step fun start => .step fun _ => .step fun t => ?_
  split <;> infer_instance

/-! ## Imports and exports -/

instance naming_importSpecifier : Naming text importSpecifier := by
  unfold importSpecifier; infer_instance

instance naming_specifiersInBraces (specifier : Parser NodeId) [Naming text specifier] :
    Naming text (specifiersInBraces specifier) := by
  unfold specifiersInBraces; infer_instance

instance naming_defaultImport : Naming text defaultImport := by
  unfold defaultImport; infer_instance

instance naming_namespaceOrNamedImports : Naming text namespaceOrNamedImports := by
  refine .step fun t => ?_
  split <;> infer_instance

instance naming_importSpecifiers : Naming text importSpecifiers := by
  unfold importSpecifiers; infer_instance

instance naming_importDeclaration : Naming text importDeclaration := by
  refine .step fun start => .step fun _ => .step fun _ => .ite inferInstance (.step fun _ => ?_)
  extract_lets rest
  have hrest : ∀ u, Naming text (rest u) := fun _ => inferInstance
  exact .ite (.step fun _ => .when hrest) (hrest ())

instance naming_exportSpecifier : Naming text exportSpecifier := by
  unfold exportSpecifier; infer_instance

instance naming_defaultExport : Naming text (defaultExport inner) := by
  unfold defaultExport; infer_instance

instance naming_exportedDeclaration : Naming text (exportedDeclaration inner) := by
  unfold exportedDeclaration; infer_instance

instance naming_exportDeclaration : Naming text (exportDeclaration inner) := by
  refine .step fun start => .step fun _ => .step fun t => ?_
  split
  · infer_instance
  · infer_instance
  · refine .step fun listStart => .step fun specifiers => .step fun specifiers => .step fun _ => ?_
    exact .either fun source => inferInstance
  · infer_instance
  · infer_instance
  · infer_instance

/-! ## Statements -/

instance naming_embeddedStatement : Naming text (embeddedStatement inner) := by
  unfold embeddedStatement; infer_instance

instance naming_condition : Naming text (condition inner) := by
  unfold condition; infer_instance

instance naming_ifStatement : Naming text (ifStatement inner) := by
  unfold ifStatement; infer_instance

instance naming_switchCase : Naming text (switchCase inner) := by
  refine .step fun start => .step fun t => ?_
  extract_lets rest
  have hrest : ∀ test, Naming text (rest test) := by
    exact fun test => .step fun _ => .step fun listStart => .step fun _ => inferInstance
  split
  · exact .step fun _ => .step hrest
  · exact .step fun _ => .step hrest
  · exact .step hrest

instance naming_switchStatement : Naming text (switchStatement inner) := by
  refine .step fun start => .step fun _ => .step fun discriminant => .step fun _ => ?_
  exact .step fun listStart => .step fun cases => inferInstance

instance naming_doStatement : Naming text (doStatement inner) := by
  unfold doStatement; infer_instance

instance naming_headedStatement (kind : NodeKind) [Denied kind.isIdentifier] :
    Naming text (headedStatement inner kind) := by
  unfold headedStatement; infer_instance

instance naming_forInit : Naming text (forInit inner) := by
  unfold forInit; infer_instance

instance naming_forTarget (init : NodeId) : Naming text (forTarget init) :=
  .step fun _ => inferInstance

instance naming_forEachRest (start : Nat) (kind : NodeKind) (init : NodeId)
    [Denied kind.isIdentifier] :
    Naming text (forEachRest inner start kind init) := by
  unfold forEachRest; infer_instance

instance naming_expressionBefore? (close : Token) :
    Naming text (expressionBefore? inner close) := by
  unfold expressionBefore?; infer_instance

instance naming_forRest (start : Nat) (init : Option NodeId) :
    Naming text (forRest inner start init) := by
  unfold forRest; infer_instance

omit [inner.Naming text] in
theorem isIdentifier_of_enumeration? {t : Token} {kind : NodeKind}
    (h : enumeration? t = some kind) : kind.isIdentifier = false := by
  unfold enumeration? at h
  split at h <;> cases h <;> rfl

instance naming_forStatement : Naming text (forStatement inner) := by
  refine .step fun start => .step fun _ => .step fun _ => .step fun init => .step fun t => ?_
  split
  · rename_i kind init hkind
    have hdenied : Denied kind.isIdentifier := ⟨isIdentifier_of_enumeration? hkind⟩
    infer_instance
  · infer_instance

instance naming_breakOrContinue (kind : NodeKind) [Denied kind.isIdentifier] :
    Naming text (breakOrContinue kind) := by
  refine .step fun start => .step fun _ => .step fun _ => .either fun labelled => ?_
  exact .either fun label => inferInstance

instance naming_returnStatement : Naming text (returnStatement inner) := by
  unfold returnStatement; infer_instance

instance naming_throwStatement : Naming text (throwStatement inner) := by
  unfold throwStatement; infer_instance

instance naming_catchClause : Naming text (catchClause inner) := by
  unfold catchClause; infer_instance

instance naming_tryStatement : Naming text (tryStatement inner) := by
  refine .step fun start => .step fun _ => .step fun block => .step fun _ => ?_
  exact .either fun handler => .step fun _ => .either fun finalizer => .when fun _ => inferInstance

instance naming_emptyStatement : Naming text emptyStatement := by
  unfold emptyStatement; infer_instance

instance naming_debuggerStatement : Naming text debuggerStatement := by
  unfold debuggerStatement; infer_instance

instance naming_expressionOrLabeled : Naming text (expressionOrLabeled inner) := by
  refine .step fun start => .step fun _ => .either fun labelled => ?_
  exact .ite inferInstance inferInstance

instance naming_erasedDeclaration : Naming text (erasedDeclaration inner) := by
  refine .step fun start => .step fun t => ?_
  split <;> infer_instance

instance naming_otherStatement : Naming text (otherStatement inner) := by
  unfold otherStatement; infer_instance

instance naming_statement : Naming text (statement inner) := by
  refine .step fun t => ?_
  split <;> infer_instance

/-! ## All levels -/

omit [inner.Naming text] in
instance naming_failTooDeep : Naming text failTooDeep := by
  unfold failTooDeep; infer_instance

omit [inner.Naming text] in
theorem naming_exhausted : Nested.exhausted.Naming text where
  statement := naming_failTooDeep
  assignment := naming_failTooDeep
  binary _ := naming_failTooDeep
  unary := naming_failTooDeep
  construction := naming_failTooDeep
  bindingTarget _ := naming_failTooDeep
  classMember := naming_failTooDeep
  type := naming_failTooDeep
  prefixType := naming_failTooDeep
  primaryType := naming_failTooDeep
  typeMember _ := naming_failTooDeep

omit [inner.Naming text] in
instance naming_within (levels : Nat) : (Nested.within levels).Naming text := by
  induction levels with
  | zero => exact naming_exhausted
  | succ levels ih =>
      exact {
        statement := naming_statement (.within levels)
        assignment := naming_assignment (.within levels)
        binary := naming_binary (.within levels)
        unary := naming_unary (.within levels)
        construction := naming_construction (.within levels)
        bindingTarget := naming_bindingTarget (.within levels)
        classMember := naming_classMember (.within levels)
        type := naming_unionType (.within levels)
        prefixType := naming_prefixType (.within levels)
        primaryType := naming_primaryType (.within levels)
        typeMember := naming_typeMember (.within levels) }

end FlowErasure.Grammar
