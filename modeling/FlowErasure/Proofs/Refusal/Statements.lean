import FlowErasure.Proofs.Frame.Statements
import FlowErasure.Proofs.Refusal.Expressions

/-!
# Where the rules for declarations and statements fail

With these, the rules of every level of nesting consume tokens and fail where they should.
-/

namespace FlowErasure.Grammar

open Text (Boundary)

variable {text : List Char} {a b e e' : Nat} {inner : Nested} (h : inner.Eating text)

include h

/-! ## Declarations -/

theorem eats_variableDeclarator : Eats text (variableDeclarator inner) where
  safe a e := by
    refine .start fun b hab _ hb => (eats_bindingTarget h false).bind fun id => .calm fun _ => ?_
    refine .join (h.assignment.calm.safe b b).map (.pure (Nat.le_refl b)) fun init => ?_
    exact .finish hb (Nat.le_refl b) hab

theorem eats_variableDeclaration : Eats text (variableDeclaration inner) where
  safe a e := by
    refine .start fun b hab _ hb => .calm fun t => .eat fun _ => .calm fun listStart => ?_
    refine (eats_variableDeclarator h).commaSeparated.calm.bind fun declarators => ?_
    exact .calm fun slot => .finishWith hb (Nat.le_refl b) hab

theorem eats_variableStatement : Eats text (variableStatement inner) where
  safe a e := by
    refine (eats_variableDeclaration h).bind fun declaration => .calm fun _ => ?_
    exact .updateStop declaration (Nat.le_refl a)

theorem eats_functionDeclaration (allowAnonymous : Bool) :
    Eats text (functionDeclaration inner allowAnonymous) :=
  ⟨fun _ _ => .start fun b hab _ hb =>
    (safe_function h _ allowAnonymous hb (Nat.le_refl b)).mono hab⟩

theorem eats_classDeclaration (allowAnonymous : Bool) :
    Eats text (classDeclaration inner allowAnonymous) :=
  ⟨fun _ _ => .start fun b hab _ hb =>
    (safe_classOf h (eats_leftHandSide h) _ allowAnonymous hb (Nat.le_refl b)).mono hab⟩

/-! ### Types -/

theorem safe_typeAlias {flags : NodeFlags} (hb : Boundary text b) (hle : b ≤ a) :
    Safe text a e (typeAlias inner b flags) a := by
  refine .eat fun _ => .eat fun id => (calm_typeParameters? h).bind fun typeParameters => ?_
  refine .calm fun _ => h.type.bind fun right => .calm fun _ => ?_
  exact .finishWith hb hle (Nat.le_refl a)

theorem calm_extendsClause : Calm text (extendsClause inner) where
  safe a e := by
    have hbase : Eats text (do
        let start ← tokenStart
        let id ← qualifiedTypeName
        let typeArguments ← typeArguments? inner
        finish .interfaceExtends start [.node id, .ofOption typeArguments]) := by
      refine ⟨fun a e => .start fun b hab _ hb => .eat fun id => ?_⟩
      exact (calm_typeArguments? h).bind fun arguments => .finish hb (Nat.le_refl b) hab
    refine .calm fun _ => .ite (.pure (Nat.le_refl e)) (.calm fun listStart => .calm fun _ => ?_)
    exact hbase.commaSeparated.calm.bind fun bases => Calm.safe a e

theorem eats_interfaceRest (allowStatic : Bool) : Eats text (interfaceRest inner allowStatic) where
  safe a e := by
    refine .eat fun id => (calm_typeParameters? h).bind fun typeParameters => ?_
    refine (calm_extendsClause h).bind fun bases => ?_
    exact (eats_objectType h allowStatic).bind fun body => .pure (Nat.le_refl a)

theorem safe_interfaceDeclaration {flags : NodeFlags} (hb : Boundary text b) (hle : b ≤ a) :
    Safe text a e (interfaceDeclaration inner b flags) a :=
  .eat fun _ => (eats_interfaceRest h false).bind fun _ => .finishWith hb hle (Nat.le_refl a)

theorem eats_declaredFunctionName : Eats text (declaredFunctionName inner) where
  safe a e := by
    refine .start fun b hab _ hb => .calm fun _ => .when (.calm fun name => .eat fun _ => ?_)
    refine .start fun b₁ hb₁ _ htype => (eats_methodType h).bind fun type => ?_
    refine (Safe.finish htype (Nat.le_refl b₁) (Nat.le_refl b₁)).bind fun ascription => ?_
    exact .finishWith hb hb₁ (hab.trans hb₁)

omit h in
instance eats_moduleName : Eats text moduleName :=
  ⟨fun a e => .calm fun _ => .ite (Eats.safe a e) (Eats.safe a e)⟩

theorem eats_declareStatement : Eats text (declareStatement inner) where
  safe a e := by
    refine .start fun b hab _ hb => .mono (m := b) (.eat fun _ => .calm fun t => ?_) hab
    have hvariable : Safe text b b (do
        advance
        let id ← bindingIdentifier inner false
        endStatement
        finish .declareVariable b [.node id]) b := by
      refine .eat fun _ => (eats_bindingIdentifier h false).bind fun id => .calm fun _ => ?_
      exact .finish hb (Nat.le_refl b) (Nat.le_refl b)
    split
    · exact hvariable
    · exact hvariable
    · exact hvariable
    · refine .eat fun _ => (eats_declaredFunctionName h).bind fun id => .calm fun _ => ?_
      exact .finish hb (Nat.le_refl b) (Nat.le_refl b)
    · refine .eat fun _ => (eats_interfaceRest h true).bind fun rest => ?_
      exact .finish hb (Nat.le_refl b) (Nat.le_refl b)
    · refine .eat fun _ => .eat fun id => (eats_blockStatement h).bind fun body => ?_
      exact .finish hb (Nat.le_refl b) (Nat.le_refl b)
    · exact safe_typeAlias h hb (Nat.le_refl b)
    · exact safe_interfaceDeclaration h hb (Nat.le_refl b)
    · exact .fail

/-! ### Imports and exports -/

section Imports

omit h

theorem eats_importSpecifier : Eats text importSpecifier where
  safe a e := by
    refine .start fun b hab _ hb => .eat fun name => .calm fun _ => .ite ?_ ?_
    · exact .eat fun localName => .finish hb (Nat.le_refl b) hab
    · exact .finish hb (Nat.le_refl b) hab

theorem eats_specifiersInBraces {specifier : Parser NodeId} (h : Eats text specifier) :
    Eats text (specifiersInBraces specifier) :=
  ⟨fun a _ => .eat fun _ => h.commaDelimited.bind fun _ => .calm fun _ => .pure (Nat.le_refl a)⟩

theorem eats_defaultImport : Eats text defaultImport :=
  ⟨fun _ _ => .start fun b hab _ hb => .eat fun _ => .finish hb (Nat.le_refl b) hab⟩

theorem eats_namespaceOrNamedImports : Eats text namespaceOrNamedImports where
  safe a e := by
    refine .calm fun t => ?_
    split
    · refine .start fun b hab _ hb => .eat fun _ => .calm fun _ => .eat fun localName => ?_
      exact (Safe.finish hb (Nat.le_refl b) hab).bind fun id => .pure (Nat.le_refl a)
    · exact (eats_specifiersInBraces eats_importSpecifier).safe a e
    · exact .fail

theorem eats_importSpecifiers : Eats text importSpecifiers where
  safe a e := by
    refine .calm fun _ => .ite ?_ (eats_namespaceOrNamedImports.safe a e)
    refine eats_defaultImport.bind fun first => .calm fun _ => .ite ?_ (.pure (Nat.le_refl a))
    exact eats_namespaceOrNamedImports.bind fun ids => .pure (Nat.le_refl a)

theorem eats_importDeclaration : Eats text importDeclaration where
  safe a e := by
    refine .start fun b hab _ hb => .eat fun _ => .calm fun _ => .ite ?_ (.calm fun _ => ?_)
    · exact .eat fun source => .calm fun _ => .finish hb (Nat.le_refl b) hab
    · extract_lets rest
      have hrest : Safe text b b (rest ()) a := by
        refine .calm fun listStart => eats_importSpecifiers.bind fun ids => .calm fun slot => ?_
        refine .calm fun _ => .eat fun source => .calm fun _ => ?_
        exact .finish hb (Nat.le_refl b) hab
      exact .ite (.calm fun _ => .when hrest) hrest

theorem eats_exportSpecifier : Eats text exportSpecifier where
  safe a e := by
    refine .start fun b hab _ hb => .eat fun localName => .calm fun _ => ?_
    refine .join (Eats.safe b b).map (.pure (Nat.le_refl b)) fun exported => ?_
    exact .finish hb (Nat.le_refl b) hab

end Imports

theorem eats_defaultExport : Eats text (defaultExport inner) where
  safe a e := by
    refine .calm fun _ => .ite ((eats_functionDeclaration h true).safe a e) (.calm fun _ => ?_)
    refine .ite ((eats_classDeclaration h true).safe a e) ?_
    exact h.assignment.bind fun expression => .calm fun _ => .pure (Nat.le_refl a)

theorem eats_exportedDeclaration : Eats text (exportedDeclaration inner) where
  safe a e := by
    refine .calm fun _ => .ite ((eats_variableStatement h).safe a e) (.calm fun _ => ?_)
    refine .ite ((eats_functionDeclaration h false).safe a e) (.calm fun _ => ?_)
    exact .ite ((eats_classDeclaration h false).safe a e) .fail

theorem eats_exportDeclaration : Eats text (exportDeclaration inner) where
  safe a e := by
    refine .start fun b hab _ hb => .mono (m := b) (.eat fun _ => .calm fun t => ?_) hab
    split
    · refine .eat fun _ => (eats_defaultExport h).bind fun declaration => ?_
      exact .finish hb (Nat.le_refl b) (Nat.le_refl b)
    · refine .eat fun _ => .calm fun _ => .eat fun source => .calm fun _ => ?_
      exact .finish hb (Nat.le_refl b) (Nat.le_refl b)
    · refine .calm fun listStart => ?_
      refine (eats_specifiersInBraces eats_exportSpecifier).bind fun ids => ?_
      refine .calm fun slot => .calm fun _ => ?_
      refine .join (Eats.safe b b).map (.pure (Nat.le_refl b)) fun source => .calm fun _ => ?_
      exact .finish hb (Nat.le_refl b) (Nat.le_refl b)
    · exact safe_typeAlias h hb (Nat.le_refl b)
    · exact safe_interfaceDeclaration h hb (Nat.le_refl b)
    · refine (eats_exportedDeclaration h).bind fun declaration => ?_
      exact .finish hb (Nat.le_refl b) (Nat.le_refl b)

/-! ## Statements -/

theorem eats_embeddedStatement : Eats text (embeddedStatement inner) where
  safe a e := .calm fun _ => .ite .fail (h.statement.safe a e)

theorem eats_condition : Eats text (condition inner) where
  safe a e := by
    refine .eat fun _ => (eats_expression h).withReader.bind fun test => .calm fun _ => ?_
    exact .pure (Nat.le_refl a)

theorem eats_ifStatement : Eats text (ifStatement inner) where
  safe a e := by
    refine .start fun b hab _ hb => .eat fun _ => (eats_condition h).bind fun test => ?_
    refine (eats_embeddedStatement h).bind fun consequent => .calm fun _ => ?_
    refine .join ((eats_embeddedStatement h).safe b b).map (.pure (Nat.le_refl b)) ?_
    exact fun alternate => .finish hb (Nat.le_refl b) hab

theorem eats_switchCase : Eats text (switchCase inner) where
  safe a e := by
    refine .start fun b hab _ hb => .calm fun t => ?_
    extract_lets rest
    have hrest : ∀ test e, Safe text b e (rest test) a := by
      refine fun test e => .eat fun _ => .calm fun listStart => (Safe.collect ?_).bind fun ids => ?_
      · exact .calm fun _ => .ite (.pure (Nat.le_refl b)) (h.statement.calm.safe b b).map
      · exact .calm fun slot => .finish hb (Nat.le_refl b) hab
    split
    · refine .eat fun _ => ?_
      exact Safe.bind ((eats_expression h).safe b b).map fun test => hrest test b
    · exact .eat fun _ => hrest none b
    · exact Safe.bind (m := e) .fail fun test => hrest test e

theorem eats_switchStatement : Eats text (switchStatement inner) where
  safe a e := by
    refine .start fun b hab _ hb => .eat fun _ => (eats_condition h).bind fun head => ?_
    refine .calm fun _ => .calm fun listStart => (Safe.collect ?_).bind fun cases => ?_
    · exact .calm fun _ => .ite (.pure (Nat.le_refl b)) ((eats_switchCase h).safe b b).map
    · exact .calm fun stop => .calm fun _ => .finish hb (Nat.le_refl b) hab

/-! ### Loops -/

theorem eats_doStatement : Eats text (doStatement inner) where
  safe a e := by
    refine .start fun b hab _ hb => .eat fun _ => (eats_embeddedStatement h).bind fun body => ?_
    refine .calm fun _ => (eats_condition h).bind fun test => .calm fun _ => ?_
    exact .finish hb (Nat.le_refl b) hab

theorem eats_headedStatement (kind : NodeKind) : Eats text (headedStatement inner kind) where
  safe a e := by
    refine .start fun b hab _ hb => .eat fun _ => (eats_condition h).bind fun head => ?_
    exact (eats_embeddedStatement h).bind fun body => .finish hb (Nat.le_refl b) hab

theorem calm_forInit : Calm text (forInit inner) where
  safe a e := by
    refine .calm fun _ => .ite (.pure (Nat.le_refl e)) (.withReader (.calm fun _ => ?_))
    refine .ite ((eats_variableDeclaration h).calm.safe a e).map ?_
    exact ((eats_expression h).calm.safe a e).map

omit h in
instance calm_forTarget (init : NodeId) : Calm text (forTarget init) where
  safe a e := .calm fun _ => .ite (.pure (Nat.le_refl e)) (Calm.safe a e)

theorem safe_forEachRest {kind : NodeKind} {init : NodeId} (hb : Boundary text b) (hle : b ≤ a) :
    Safe text a e (forEachRest inner b kind init) a := by
  refine .calm fun left => .eat fun _ => Safe.bind (m := a) (.withReader (.ite ?_ ?_)) ?_
  · exact h.assignment.safe a a
  · exact (eats_expression h).safe a a
  · refine fun right => .calm fun _ => (eats_embeddedStatement h).bind fun body => ?_
    exact .finish hb hle (Nat.le_refl a)

theorem calm_expressionBefore? (close : Token) : Calm text (expressionBefore? inner close) where
  safe a e := by
    refine .calm fun _ => .ite (.pure (Nat.le_refl e)) ?_
    exact ((eats_expression h).withReader.calm.safe a e).map

theorem safe_forRest {init : Option NodeId} (hb : Boundary text b) (hle : b ≤ a) :
    Safe text a e (forRest inner b init) a := by
  refine .eat fun _ => (calm_expressionBefore? h _).bind fun test => .calm fun _ => ?_
  refine (calm_expressionBefore? h _).bind fun update => .calm fun _ => ?_
  exact (eats_embeddedStatement h).bind fun body => .finish hb hle (Nat.le_refl a)

theorem eats_forStatement : Eats text (forStatement inner) where
  safe a e := by
    refine .start fun b hab _ hb => .mono (m := b) (.eat fun _ => .calm fun _ => ?_) hab
    refine (calm_forInit h).bind fun init => .calm fun t => ?_
    split
    · exact safe_forEachRest h hb (Nat.le_refl b)
    · exact safe_forRest h hb (Nat.le_refl b)

/-! ### Jumps -/

omit h in
theorem eats_breakOrContinue (kind : NodeKind) : Eats text (breakOrContinue kind) where
  safe a e := by
    refine .start fun b hab _ hb => .eat fun _ => .calm fun _ => .either fun labelled => ?_
    refine .join (Eats.safe b b).map (.pure (Nat.le_refl b)) fun label => .calm fun _ => ?_
    exact .finish hb (Nat.le_refl b) hab

theorem eats_returnStatement : Eats text (returnStatement inner) where
  safe a e := by
    refine .start fun b hab _ hb => .eat fun _ => .calm fun _ => ?_
    refine .join (.pure (Nat.le_refl b)) ((eats_expression h).safe b b).map fun argument => ?_
    exact .calm fun _ => .finish hb (Nat.le_refl b) hab

theorem eats_throwStatement : Eats text (throwStatement inner) where
  safe a e := by
    refine .start fun b hab _ hb => .eat fun _ => .calm fun _ => .when ?_
    refine (eats_expression h).bind fun argument => .calm fun _ => ?_
    exact .finish hb (Nat.le_refl b) hab

theorem eats_catchClause : Eats text (catchClause inner) where
  safe a e := by
    refine .start fun b hab _ hb => .eat fun _ => .calm fun _ => ?_
    refine (eats_bindingTarget h false).bind fun param => .calm fun _ => ?_
    exact (eats_blockStatement h).bind fun body => .finish hb (Nat.le_refl b) hab

theorem eats_tryStatement : Eats text (tryStatement inner) where
  safe a e := by
    refine .start fun b hab _ hb => .eat fun _ => (eats_blockStatement h).bind fun block => ?_
    refine .calm fun _ => .join ((eats_catchClause h).safe b b).map (.pure (Nat.le_refl b)) ?_
    refine fun handler => .calm fun _ => ?_
    refine .join ((eats_blockStatement h).safe b b).map (.pure (Nat.le_refl b)) fun finalizer => ?_
    exact .when (.finish hb (Nat.le_refl b) hab)

/-! ### All statements -/

omit h in
instance eats_emptyStatement : Eats text emptyStatement :=
  ⟨fun _ _ => .start fun b hab _ hb => .eat fun _ => .finish hb (Nat.le_refl b) hab⟩

omit h in
instance eats_debuggerStatement : Eats text debuggerStatement :=
  ⟨fun _ _ => .start fun b hab _ hb => .eat fun _ => .calm fun _ =>
    .finish hb (Nat.le_refl b) hab⟩

theorem eats_expressionOrLabeled : Eats text (expressionOrLabeled inner) where
  safe a e := by
    refine .start fun b hab _ hb => .calm fun _ => .either fun labelled => .ite ?_ ?_
    · refine .eat fun label => .calm fun _ => (eats_embeddedStatement h).bind fun body => ?_
      exact .finish hb (Nat.le_refl b) hab
    · refine (eats_expression h).bind fun expression => .calm fun _ => ?_
      exact .finish hb (Nat.le_refl b) hab

theorem eats_erasedDeclaration : Eats text (erasedDeclaration inner) where
  safe a e := by
    refine .start fun b hab _ hb => .mono (m := b) (.calm fun t => ?_) hab
    split
    · exact safe_typeAlias h hb (Nat.le_refl b)
    · exact safe_interfaceDeclaration h hb (Nat.le_refl b)
    · exact (eats_declareStatement h).safe b e

theorem eats_otherStatement : Eats text (otherStatement inner) where
  safe a e := by
    refine .calm fun _ => .ite ((eats_variableStatement h).safe a e) (.calm fun _ => ?_)
    refine .ite ((eats_functionDeclaration h false).safe a e) (.calm fun _ => ?_)
    exact .ite ((eats_erasedDeclaration h).safe a e) ((eats_expressionOrLabeled h).safe a e)

theorem eats_statement : Eats text (statement inner) where
  safe a e := by
    refine .calm fun t => ?_
    split
    · exact (eats_blockStatement h).safe a e
    · exact Eats.safe a e
    · exact (eats_classDeclaration h false).safe a e
    · exact (eats_ifStatement h).safe a e
    · exact (eats_doStatement h).safe a e
    · exact (eats_headedStatement h _).safe a e
    · exact (eats_forStatement h).safe a e
    · exact (eats_breakOrContinue _).safe a e
    · exact (eats_breakOrContinue _).safe a e
    · exact (eats_returnStatement h).safe a e
    · exact (eats_headedStatement h _).safe a e
    · exact (eats_switchStatement h).safe a e
    · exact (eats_throwStatement h).safe a e
    · exact (eats_tryStatement h).safe a e
    · exact Eats.safe a e
    · exact eats_importDeclaration.safe a e
    · exact (eats_exportDeclaration h).safe a e
    · exact .fail
    · exact (eats_otherStatement h).safe a e

omit h

/-! ## All levels -/

instance rejects_failTooDeep : Rejects text failTooDeep :=
  rejects_failAtTokenWith _ _

theorem eats_failTooDeep : Eats text failTooDeep :=
  ⟨fun _ _ => .fail⟩

theorem eating_exhausted : Nested.exhausted.Eating text where
  keeping _ := keeps_exhausted
  statement := eats_failTooDeep
  assignment := eats_failTooDeep
  binary _ := eats_failTooDeep
  unary := eats_failTooDeep
  construction := eats_failTooDeep
  bindingTarget _ := eats_failTooDeep
  classMember := eats_failTooDeep
  type := eats_failTooDeep
  prefixType := eats_failTooDeep
  primaryType := eats_failTooDeep
  typeMember _ := eats_failTooDeep

theorem eating_within (text : List Char) (depth : Nat) : (Nested.within depth).Eating text := by
  induction depth with
  | zero => exact eating_exhausted
  | succ depth ih =>
      exact {
        keeping := fun base => keeps_within base (depth + 1)
        statement := eats_statement ih
        assignment := eats_assignment ih
        binary := eats_binary ih
        unary := eats_unary ih
        construction := eats_construction ih
        bindingTarget := eats_bindingTarget ih
        classMember := eats_classMember ih
        type := eats_unionType ih
        prefixType := eats_prefixType ih
        primaryType := eats_primaryType ih
        typeMember := eats_typeMember ih }

end FlowErasure.Grammar
