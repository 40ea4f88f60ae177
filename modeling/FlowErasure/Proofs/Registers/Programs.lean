import FlowErasure.Proofs.Frame.Statements
import FlowErasure.Proofs.Refusal.Located
import FlowErasure.Proofs.Registers.Statements

/-!
# What is left after a program

`IsMethod` lists the rules with registers, each beside the rule of the grammar that it stands for. All
of them put the registers back, and so does the rule for whole programs. However often programs are
read with one set of registers, and whether they are accepted or refused, the registers are back where
they were afterwards, and nodes and names only become more.
-/

namespace FlowErasure.Grammar

variable {levels : Nat} {text : List Char}

/-! ## The rules -/

/-- The rules that go on with `methods` one level of nesting deeper, and those of the grammar that go
on with `inner`. -/
inductive IsMethod (methods : Methods) (inner : Nested) :
    {α : Type} → Machine α → Parser α → Prop
  -- Tokens and names
  | raiseFault : IsMethod methods inner Machine.raiseFault raiseFault
  | advance : IsMethod methods inner Machine.advance advance
  | expect (t : Token) : IsMethod methods inner (Machine.expect t) (expect t)
  | accept (t : Token) : IsMethod methods inner (Machine.accept t) (accept t)
  | canEndStatement : IsMethod methods inner Machine.canEndStatement canEndStatement
  | endStatement : IsMethod methods inner Machine.endStatement endStatement
  | rereadSlash : IsMethod methods inner Machine.rereadSlash rereadSlash
  | rereadBrace : IsMethod methods inner Machine.rereadBrace rereadBrace
  | rereadGreater : IsMethod methods inner Machine.rereadGreater rereadGreater
  | lookAhead (accepts : Token → Bool) :
      IsMethod methods inner (Machine.lookAhead accepts) (lookAhead accepts)
  | lookAheadOnLine (accepts : Token → Bool) :
      IsMethod methods inner (Machine.lookAheadOnLine accepts) (lookAheadOnLine accepts)
  | parenFollow :
      IsMethod methods inner Machine.parenFollow (do return Grammar.parenFollow (← get).lexer)
  | isIdentifier : IsMethod methods inner Machine.isIdentifier isIdentifier
  | isMemberModifier (sameLine : Bool) :
      IsMethod methods inner (Machine.isMemberModifier sameLine) (isMemberModifier sameLine)
  | isArrowParameter : IsMethod methods inner Machine.isArrowParameter isArrowParameter
  | endsYield : IsMethod methods inner Machine.endsYield endsYield
  | startsVariables : IsMethod methods inner Machine.startsVariables startsVariables
  | startsFunction : IsMethod methods inner Machine.startsFunction startsFunction
  | startsTypeImport : IsMethod methods inner Machine.startsTypeImport startsTypeImport
  | startsErasedDeclaration :
      IsMethod methods inner Machine.startsErasedDeclaration startsErasedDeclaration
  | identifierName : IsMethod methods inner Machine.identifierName identifierName
  | identifier : IsMethod methods inner Machine.identifier identifier
  | literal : IsMethod methods inner Machine.literal literal
  | stringLiteral : IsMethod methods inner Machine.stringLiteral stringLiteral
  -- One level deeper
  | innerStatement : IsMethod methods inner methods.statement inner.statement
  | innerAssignment : IsMethod methods inner methods.assignment inner.assignment
  | innerBinary (precedence : Nat) :
      IsMethod methods inner (methods.binary precedence) (inner.binary precedence)
  | innerUnary : IsMethod methods inner methods.unary inner.unary
  | innerConstruction : IsMethod methods inner methods.construction inner.construction
  | innerBindingTarget (allowOptional : Bool) :
      IsMethod methods inner (methods.bindingTarget allowOptional)
        (inner.bindingTarget allowOptional)
  | innerClassMember : IsMethod methods inner methods.classMember inner.classMember
  | innerType : IsMethod methods inner methods.type inner.type
  | innerPrefixType : IsMethod methods inner methods.prefixType inner.prefixType
  | innerPrimaryType : IsMethod methods inner methods.primaryType inner.primaryType
  | innerTypeMember (allowStatic : Bool) :
      IsMethod methods inner (methods.typeMember allowStatic) (inner.typeMember allowStatic)
  -- Parts in other surroundings, attempts, and lists
  | withReader {α : Type} {p : Machine α} {p' : Parser α} (change : Context → Context) :
      IsMethod methods inner p p' →
      IsMethod methods inner (Machine.withContext change p) (withReader change p')
  | attempt {α : Type} {p : Machine α} {p' : Parser α} :
      IsMethod methods inner p p' → IsMethod methods inner (Machine.attempt p) (attempt p')
  | commaTerminated {α : Type} {item : Machine α} {item' : Parser α} (close : Token) :
      IsMethod methods inner item item' →
      IsMethod methods inner (Machine.commaTerminated close item) (commaTerminated close item')
  | commaSeparated {α : Type} {item : Machine α} {item' : Parser α} :
      IsMethod methods inner item item' →
      IsMethod methods inner (Machine.commaSeparated item) (commaSeparated item')
  | commaDelimited {α : Type} {item : Machine α} {item' : Parser α} (close : Token) :
      IsMethod methods inner item item' →
      IsMethod methods inner (Machine.commaDelimited close item) (commaDelimited close item')
  -- Types
  | opensTypeParameters : IsMethod methods inner Machine.opensTypeParameters opensTypeParameters
  | ascription? : IsMethod methods inner (Machine.ascription? methods) (ascription? inner)
  | variance : IsMethod methods inner Machine.variance variance
  | typeParameter : IsMethod methods inner (Machine.typeParameter methods) (typeParameter inner)
  | angleList? {item : Machine NodeId} {item' : Parser NodeId} (kind : NodeKind) :
      IsMethod methods inner item item' →
      IsMethod methods inner (Machine.angleList? kind item) (angleList? kind item')
  | typeParameters? :
      IsMethod methods inner (Machine.typeParameters? methods) (typeParameters? inner)
  | typeArguments? : IsMethod methods inner (Machine.typeArguments? methods) (typeArguments? inner)
  | functionTypeParam (start : Nat) :
      IsMethod methods inner (Machine.functionTypeParam methods start)
        (functionTypeParam inner start)
  | functionTypeParams (listStart : Nat) (params : List NodeId) :
      IsMethod methods inner (Machine.functionTypeParams methods listStart params)
        (functionTypeParams inner listStart params)
  | finishFunctionType (start : Nat) (typeParameters : Option NodeId)
      (params : Slot × Option NodeId) (separator : Token) :
      IsMethod methods inner
        (Machine.finishFunctionType methods start typeParameters params separator)
        (finishFunctionType inner start typeParameters params separator)
  | functionType (start : Nat) (separator : Token) :
      IsMethod methods inner (Machine.functionType methods start separator)
        (functionType inner start separator)
  | methodType : IsMethod methods inner (Machine.methodType methods) (methodType inner)
  | parenthesizedType :
      IsMethod methods inner (Machine.parenthesizedType methods) (parenthesizedType inner)
  | typeIndexer (start : Nat) (details : Details) :
      IsMethod methods inner (Machine.typeIndexer methods start details)
        (typeIndexer inner start details)
  | typeProperty (start : Nat) (details : Details) :
      IsMethod methods inner (Machine.typeProperty methods start details)
        (typeProperty inner start details)
  | typeMember (allowStatic : Bool) :
      IsMethod methods inner (Machine.typeMember methods allowStatic) (typeMember inner allowStatic)
  | objectType (allowStatic : Bool) :
      IsMethod methods inner (Machine.objectType methods allowStatic) (objectType inner allowStatic)
  | tokenType (kind : NodeKind) : IsMethod methods inner (Machine.tokenType kind) (tokenType kind)
  | qualifiedTypeName : IsMethod methods inner Machine.qualifiedTypeName qualifiedTypeName
  | genericType : IsMethod methods inner (Machine.genericType methods) (genericType inner)
  | tupleType : IsMethod methods inner (Machine.tupleType methods) (tupleType inner)
  | namedType : IsMethod methods inner (Machine.namedType methods) (namedType inner)
  | negativeNumberType : IsMethod methods inner Machine.negativeNumberType negativeNumberType
  | primaryType : IsMethod methods inner (Machine.primaryType methods) (primaryType inner)
  | postfixType : IsMethod methods inner (Machine.postfixType methods) (postfixType inner)
  | prefixType : IsMethod methods inner (Machine.prefixType methods) (prefixType inner)
  | typeList {member : Machine NodeId} {member' : Parser NodeId} (separator : Token)
      (kind : NodeKind) :
      IsMethod methods inner member member' →
      IsMethod methods inner (Machine.typeList separator kind member)
        (typeList separator kind member')
  | intersectionType :
      IsMethod methods inner (Machine.intersectionType methods) (intersectionType inner)
  | unionType : IsMethod methods inner (Machine.unionType methods) (unionType inner)
  -- Patterns
  | propertyName : IsMethod methods inner (Machine.propertyName methods) (propertyName inner)
  | bindingIdentifier (allowOptional : Bool) :
      IsMethod methods inner (Machine.bindingIdentifier methods allowOptional)
        (bindingIdentifier inner allowOptional)
  | bindingElement (allowOptional : Bool) :
      IsMethod methods inner (Machine.bindingElement methods allowOptional)
        (bindingElement inner allowOptional)
  | shorthandDefault (start : Nat) (name : NodeId) :
      IsMethod methods inner (Machine.shorthandDefault methods start name)
        (shorthandDefault inner start name)
  | bindingProperty :
      IsMethod methods inner (Machine.bindingProperty methods) (bindingProperty inner)
  | restElement {target : Machine NodeId} {target' : Parser NodeId} :
      IsMethod methods inner target target' →
      IsMethod methods inner (Machine.restElement target) (restElement target')
  | objectPattern {rest : Machine NodeId} {rest' : Parser NodeId} :
      IsMethod methods inner rest rest' →
      IsMethod methods inner (Machine.objectPattern methods rest) (objectPattern inner rest')
  | elements {element : Machine NodeId} {element' : Parser NodeId} :
      IsMethod methods inner element element' →
      IsMethod methods inner (Machine.elements element) (elements element')
  | arrayPattern {rest : Machine NodeId} {rest' : Parser NodeId} :
      IsMethod methods inner rest rest' →
      IsMethod methods inner (Machine.arrayPattern methods rest) (arrayPattern inner rest')
  | bindingTarget (allowOptional : Bool) :
      IsMethod methods inner (Machine.bindingTarget methods allowOptional)
        (bindingTarget inner allowOptional)
  | parameterList : IsMethod methods inner (Machine.parameterList methods) (parameterList inner)
  -- Functions and classes
  | statementBlock : IsMethod methods inner (Machine.statementBlock methods) (statementBlock inner)
  | blockStatement : IsMethod methods inner (Machine.blockStatement methods) (blockStatement inner)
  | functionBody (isAsync isGenerator : Bool) :
      IsMethod methods inner (Machine.functionBody methods isAsync isGenerator)
        (functionBody inner isAsync isGenerator)
  | functionRest (isAsync isGenerator : Bool) :
      IsMethod methods inner (Machine.functionRest methods isAsync isGenerator)
        (functionRest inner isAsync isGenerator)
  | declaredName (present allowAnonymous : Bool) :
      IsMethod methods inner (Machine.declaredName present allowAnonymous)
        (declaredName present allowAnonymous)
  | function (kind : NodeKind) (start : Nat) (allowAnonymous : Bool) :
      IsMethod methods inner (Machine.function methods kind start allowAnonymous)
        (function inner kind start allowAnonymous)
  | methodFunction (flags : NodeFlags) :
      IsMethod methods inner (Machine.methodFunction methods flags) (methodFunction inner flags)
  | accessorFlags (flags : NodeFlags) :
      IsMethod methods inner (Machine.accessorFlags flags) (accessorFlags flags)
  | functionFlags (flags : NodeFlags) :
      IsMethod methods inner (Machine.functionFlags flags) (functionFlags flags)
  | classPropertyRest (start : Nat) (details : Details) (key : NodeId) :
      IsMethod methods inner (Machine.classPropertyRest methods start details key)
        (classPropertyRest inner start details key)
  | signedProperty (start : Nat) (flags : NodeFlags) :
      IsMethod methods inner (Machine.signedProperty methods start flags)
        (signedProperty inner start flags)
  | classMember : IsMethod methods inner (Machine.classMember methods) (classMember inner)
  | classBody : IsMethod methods inner (Machine.classBody methods) (classBody inner)
  | implementsClause :
      IsMethod methods inner (Machine.implementsClause methods) (implementsClause inner)
  | classOf {heritage : Machine NodeId} {heritage' : Parser NodeId} (kind : NodeKind)
      (start : Nat) (allowAnonymous : Bool) :
      IsMethod methods inner heritage heritage' →
      IsMethod methods inner (Machine.classOf methods heritage kind start allowAnonymous)
        (classOf inner heritage' kind start allowAnonymous)
  -- Assignment targets
  | patternElement {target : NodeId → Machine NodeId} {target' : NodeId → Parser NodeId}
      (id : NodeId) :
      (∀ id, IsMethod methods inner (target id) (target' id)) →
      IsMethod methods inner (Machine.patternElement target id) (patternElement target' id)
  | patternProperty {target : NodeId → Machine NodeId} {target' : NodeId → Parser NodeId}
      (id : NodeId) :
      (∀ id, IsMethod methods inner (target id) (target' id)) →
      IsMethod methods inner (Machine.patternProperty target id) (patternProperty target' id)
  | assignmentTarget (id : NodeId) :
      IsMethod methods inner (Machine.assignmentTarget id) (assignmentTarget id)
  -- Expressions
  | expression : IsMethod methods inner (Machine.expression methods) (expression inner)
  | spreadOrAssignment :
      IsMethod methods inner (Machine.spreadOrAssignment methods) (spreadOrAssignment inner)
  | parenthesizedExpression :
      IsMethod methods inner (Machine.parenthesizedExpression methods)
        (parenthesizedExpression inner)
  | templateRest (quasi : NodeId) :
      IsMethod methods inner (Machine.templateRest methods quasi) (templateRest inner quasi)
  | templateLiteral :
      IsMethod methods inner (Machine.templateLiteral methods) (templateLiteral inner)
  | arrayLiteral : IsMethod methods inner (Machine.arrayLiteral methods) (arrayLiteral inner)
  | propertyRest (start : Nat) (key : NodeId) (computed canBeShorthand : Bool) :
      IsMethod methods inner (Machine.propertyRest methods start key computed canBeShorthand)
        (propertyRest inner start key computed canBeShorthand)
  | objectMember : IsMethod methods inner (Machine.objectMember methods) (objectMember inner)
  | objectLiteral : IsMethod methods inner (Machine.objectLiteral methods) (objectLiteral inner)
  | primary {heritage : Machine NodeId} {heritage' : Parser NodeId} :
      IsMethod methods inner heritage heritage' →
      IsMethod methods inner (Machine.primary methods heritage) (primary inner heritage')
  | arguments : IsMethod methods inner (Machine.arguments methods) (arguments inner)
  | accessesAndCalls (start : Nat) (allowCall : Bool) (object : NodeId) :
      IsMethod methods inner (Machine.accessesAndCalls methods start allowCall object)
        (accessesAndCalls inner start allowCall object)
  | newExpression {operand : Machine NodeId} {operand' : Parser NodeId} :
      IsMethod methods inner operand operand' →
      IsMethod methods inner (Machine.newExpression methods operand) (newExpression inner operand')
  | leftHandSide : IsMethod methods inner (Machine.leftHandSide methods) (leftHandSide inner)
  | construction : IsMethod methods inner (Machine.construction methods) (construction inner)
  | postfixExpression :
      IsMethod methods inner (Machine.postfixExpression methods) (postfixExpression inner)
  | prefixOperation (kind : NodeKind) :
      IsMethod methods inner (Machine.prefixOperation methods kind) (prefixOperation inner kind)
  | unary : IsMethod methods inner (Machine.unary methods) (unary inner)
  | binary (precedence : Nat) :
      IsMethod methods inner (Machine.binary methods precedence) (binary inner precedence)
  | conditional (tail : Bool) :
      IsMethod methods inner (Machine.conditional methods tail) (conditional inner tail)
  | arrowToken : IsMethod methods inner Machine.arrowToken arrowToken
  | singleParameterHead (isAsync : Bool) :
      IsMethod methods inner (Machine.singleParameterHead isAsync) (singleParameterHead isAsync)
  | parameterListHead (isAsync : Bool) :
      IsMethod methods inner (Machine.parameterListHead methods isAsync)
        (parameterListHead inner isAsync)
  | arrowHead : IsMethod methods inner (Machine.arrowHead methods) (arrowHead inner)
  | startsArrowFunction (tail : Bool) :
      IsMethod methods inner (Machine.startsArrowFunction tail) (startsArrowFunction tail)
  | tryArrowHead (tail : Bool) :
      IsMethod methods inner (Machine.tryArrowHead methods tail) (tryArrowHead inner tail)
  | arrowBody (isAsync tail : Bool) :
      IsMethod methods inner (Machine.arrowBody methods isAsync tail) (arrowBody inner isAsync tail)
  | arrowFunction? (tail : Bool) :
      IsMethod methods inner (Machine.arrowFunction? methods tail) (arrowFunction? inner tail)
  | yieldExpression :
      IsMethod methods inner (Machine.yieldExpression methods) (yieldExpression inner)
  | targetFor (operator : Token) (id : NodeId) :
      IsMethod methods inner (Machine.targetFor operator id) (targetFor operator id)
  | operation (tail : Bool) :
      IsMethod methods inner (Machine.operation methods tail) (operation inner tail)
  | assignment : IsMethod methods inner (Machine.assignment methods) (assignment inner)
  -- Declarations
  | variableDeclarator :
      IsMethod methods inner (Machine.variableDeclarator methods) (variableDeclarator inner)
  | variableDeclaration :
      IsMethod methods inner (Machine.variableDeclaration methods) (variableDeclaration inner)
  | variableStatement :
      IsMethod methods inner (Machine.variableStatement methods) (variableStatement inner)
  | functionDeclaration (allowAnonymous : Bool) :
      IsMethod methods inner (Machine.functionDeclaration methods allowAnonymous)
        (functionDeclaration inner allowAnonymous)
  | classDeclaration (allowAnonymous : Bool) :
      IsMethod methods inner (Machine.classDeclaration methods allowAnonymous)
        (classDeclaration inner allowAnonymous)
  | typeAlias (start : Nat) (flags : NodeFlags) :
      IsMethod methods inner (Machine.typeAlias methods start flags) (typeAlias inner start flags)
  | extendsClause : IsMethod methods inner (Machine.extendsClause methods) (extendsClause inner)
  | interfaceRest (allowStatic : Bool) :
      IsMethod methods inner (Machine.interfaceRest methods allowStatic)
        (interfaceRest inner allowStatic)
  | interfaceDeclaration (start : Nat) (flags : NodeFlags) :
      IsMethod methods inner (Machine.interfaceDeclaration methods start flags)
        (interfaceDeclaration inner start flags)
  | declaredFunctionName :
      IsMethod methods inner (Machine.declaredFunctionName methods) (declaredFunctionName inner)
  | moduleName : IsMethod methods inner Machine.moduleName moduleName
  | declareStatement :
      IsMethod methods inner (Machine.declareStatement methods) (declareStatement inner)
  -- Imports and exports
  | importSpecifier : IsMethod methods inner Machine.importSpecifier importSpecifier
  | specifiersInBraces {specifier : Machine NodeId} {specifier' : Parser NodeId} :
      IsMethod methods inner specifier specifier' →
      IsMethod methods inner (Machine.specifiersInBraces specifier) (specifiersInBraces specifier')
  | defaultImport : IsMethod methods inner Machine.defaultImport defaultImport
  | namespaceOrNamedImports :
      IsMethod methods inner Machine.namespaceOrNamedImports namespaceOrNamedImports
  | importSpecifiers : IsMethod methods inner Machine.importSpecifiers importSpecifiers
  | importDeclaration : IsMethod methods inner Machine.importDeclaration importDeclaration
  | exportSpecifier : IsMethod methods inner Machine.exportSpecifier exportSpecifier
  | defaultExport : IsMethod methods inner (Machine.defaultExport methods) (defaultExport inner)
  | exportedDeclaration :
      IsMethod methods inner (Machine.exportedDeclaration methods) (exportedDeclaration inner)
  | exportDeclaration :
      IsMethod methods inner (Machine.exportDeclaration methods) (exportDeclaration inner)
  -- Statements
  | embeddedStatement :
      IsMethod methods inner (Machine.embeddedStatement methods) (embeddedStatement inner)
  | condition : IsMethod methods inner (Machine.condition methods) (condition inner)
  | ifStatement : IsMethod methods inner (Machine.ifStatement methods) (ifStatement inner)
  | switchCase : IsMethod methods inner (Machine.switchCase methods) (switchCase inner)
  | switchStatement :
      IsMethod methods inner (Machine.switchStatement methods) (switchStatement inner)
  | doStatement : IsMethod methods inner (Machine.doStatement methods) (doStatement inner)
  | headedStatement (kind : NodeKind) :
      IsMethod methods inner (Machine.headedStatement methods kind) (headedStatement inner kind)
  | forInit : IsMethod methods inner (Machine.forInit methods) (forInit inner)
  | forTarget (init : NodeId) : IsMethod methods inner (Machine.forTarget init) (forTarget init)
  | forEachRest (start : Nat) (kind : NodeKind) (init : NodeId) :
      IsMethod methods inner (Machine.forEachRest methods start kind init)
        (forEachRest inner start kind init)
  | expressionBefore? (close : Token) :
      IsMethod methods inner (Machine.expressionBefore? methods close)
        (expressionBefore? inner close)
  | forRest (start : Nat) (init : Option NodeId) :
      IsMethod methods inner (Machine.forRest methods start init) (forRest inner start init)
  | forStatement : IsMethod methods inner (Machine.forStatement methods) (forStatement inner)
  | breakOrContinue (kind : NodeKind) :
      IsMethod methods inner (Machine.breakOrContinue kind) (breakOrContinue kind)
  | returnStatement :
      IsMethod methods inner (Machine.returnStatement methods) (returnStatement inner)
  | throwStatement : IsMethod methods inner (Machine.throwStatement methods) (throwStatement inner)
  | catchClause : IsMethod methods inner (Machine.catchClause methods) (catchClause inner)
  | tryStatement : IsMethod methods inner (Machine.tryStatement methods) (tryStatement inner)
  | emptyStatement : IsMethod methods inner Machine.emptyStatement emptyStatement
  | debuggerStatement : IsMethod methods inner Machine.debuggerStatement debuggerStatement
  | expressionOrLabeled :
      IsMethod methods inner (Machine.expressionOrLabeled methods) (expressionOrLabeled inner)
  | erasedDeclaration :
      IsMethod methods inner (Machine.erasedDeclaration methods) (erasedDeclaration inner)
  | otherStatement : IsMethod methods inner (Machine.otherStatement methods) (otherStatement inner)
  | statement : IsMethod methods inner (Machine.statement methods) (statement inner)

theorem IsMethod.mirrors {methods : Methods} {inner : Nested} [methods.Mirrors levels inner]
    {α : Type} {q : Machine α} {p : Parser α} (h : IsMethod methods inner q p) :
    Mirrors levels q p := by
  induction h <;> infer_instance

/-! ## Nodes and names -/

/-- A program goes on where a table ends, whether it is accepted or refused. -/
theorem keeps_program (base : Tree) : KeepsRule base program := by
  have hshebang : Quiet (modify fun s => { s with lexer := s.lexer.skipShebang } : Parser PUnit) :=
    quiet_modify fun _ => rfl
  have hrules := keeps_within base nestingLimit
  refine .quiet fun _ => .quiet fun _ => (Keeps.collect_nodes ?_).bind fun statements hids => ?_
  · exact .quiet fun ends => .ite (.pure (by simp)) (hrules.statement.map (by simp))
  · refine .quiet fun s c s' hs => ?_
    let node : Node :=
      { kind := .program, start := 0, stop := s.lexer.size
        slots := [.list ⟨statements.map some, 0, s.lexer.size⟩] }
    have hnode : base.Later node.children := by simpa [node, Node.children] using hids
    obtain ⟨hextends, hid⟩ := hs.add hnode
    exact ⟨hextends, by simpa using hid⟩

theorem extends_readProgram {base : Tree} {s : State} (h : base.Extends s.tree) :
    base.Extends s.readProgram.2.tree := by
  have hkeeps := keeps_program base {} s h
  unfold State.readProgram
  split
  · rename_i hrun
    rw [hrun] at hkeeps
    exact hkeeps.1
  · rename_i hrun
    rw [hrun] at hkeeps
    exact hkeeps

theorem afterPrograms_succ (text : List Char) (n : Nat) :
    State.afterPrograms text (n + 1) = (State.afterPrograms text n).readProgram.2 :=
  Function.iterate_succ_apply' _ n _

theorem extends_afterPrograms {n m : Nat} (h : n ≤ m) :
    (State.afterPrograms text n).tree.Extends (State.afterPrograms text m).tree := by
  induction m, h using Nat.le_induction with
  | base => exact .refl _
  | succ m hle ih =>
      rw [afterPrograms_succ]
      exact extends_readProgram ih

/-! ## Registers -/

namespace Registers

def atRest (s : State) : Registers where
  toState := s
  current := s.lexer.token
  context := {}
  depth := 0

/-- After `n` programs have been read with one set of registers or refused. -/
def afterPrograms (text : List Char) (n : Nat) : Registers :=
  readProgram^[n] (.ofText text)

theorem program_atRest (s : State) :
    Machine.program (atRest s) = (atRest s).after (program {} s) :=
  mirrors_program.follows (atRest s) rfl (Nat.zero_add _)

theorem readProgram_atRest (s : State) :
    (atRest s).readProgram = atRest s.readProgram.2 := by
  unfold Registers.readProgram State.readProgram
  rw [program_atRest]
  cases program {} s <;> rfl

theorem afterPrograms_eq (text : List Char) (n : Nat) :
    afterPrograms text n = atRest (.afterPrograms text n) := by
  induction n with
  | zero => rfl
  | succ n ih =>
      have hnext : afterPrograms text (n + 1) = (afterPrograms text n).readProgram :=
        Function.iterate_succ_apply' _ n _
      rw [hnext, ih, readProgram_atRest, ← Grammar.afterPrograms_succ]

end Registers

/-- Programs can be read any number of times with one set of registers. Whether a program is accepted
or refused, surroundings and depth are those of the start afterwards, the current token is the
lexer's, and nodes and names that were there before have not changed. Every rule, and the one for
programs, puts the registers back from wherever it starts, on both ways out, and does what the rule of
the grammar does. -/
theorem restored_after_programs (text : List Char) :
    (∀ n,
      Registers.afterPrograms text n = .atRest (.afterPrograms text n) ∧
      Machine.program (Registers.afterPrograms text n) =
        (Registers.afterPrograms text n).after (program {} (.afterPrograms text n))) ∧
    (∀ n m, n ≤ m →
      (Registers.afterPrograms text n).tree.Extends (Registers.afterPrograms text m).tree) ∧
    Restores Machine.program ∧
    ∀ (levels : Nat) {α : Type} (q : Machine α) (p : Parser α),
      IsMethod (.within levels) (.within levels) q p → Restores q ∧ Follows levels q p := by
  refine ⟨fun n => ⟨Registers.afterPrograms_eq text n, ?_⟩, fun n m hle => ?_,
    mirrors_program.restores, fun levels α q p hmethod => ?_⟩
  · rw [Registers.afterPrograms_eq]
    exact Registers.program_atRest _
  · rw [Registers.afterPrograms_eq, Registers.afterPrograms_eq]
    exact extends_afterPrograms hle
  · have hrules := Methods.mirrors_within levels
    have hmirrors : Mirrors levels q p := hmethod.mirrors
    exact ⟨hmirrors.restores, hmirrors.follows⟩

/-- In `a b` every program is refused. After three of them the registers are those of the start, the
nodes of the first are still there, and a search for an arrow function puts the registers back. -/
theorem restored_after_programs_refused :
    ((Machine.program (.ofText "a b".toList) matches .error ..) ∧
      (Registers.afterPrograms "a b".toList 1).tree.size = 1) ∧
    (Registers.afterPrograms "a b".toList 3).context = {} ∧
    (Registers.afterPrograms "a b".toList 3).depth = 0 ∧
    (Registers.afterPrograms "a b".toList 3).Agrees ∧
    (Registers.afterPrograms "a b".toList 1).tree.Extends
      (Registers.afterPrograms "a b".toList 3).tree ∧
    Restores (Machine.arrowFunction? (.within 2) false) := by
  obtain ⟨hprograms, hextends, -, hmethods⟩ := restored_after_programs "a b".toList
  refine ⟨by decide +kernel, ?_, ?_, ?_, hextends 1 3 (by decide), ?_⟩
  · rw [(hprograms 3).1]
    rfl
  · rw [(hprograms 3).1]
    rfl
  · rw [(hprograms 3).1]
    rfl
  · exact (hmethods 2 _ _ (.arrowFunction? false)).1

end FlowErasure.Grammar
