import FlowErasure.Proofs.Frame.Statements
import FlowErasure.Proofs.Lookahead.Expressions

/-!
# Declarations and statements along a scan

A statement stands in braces, and where it starts, a slash starts a regular expression.
-/

namespace FlowErasure.Grammar

variable {follow : ParenFollow} {b : Bracket} {st : List Bracket} {K : Scan → Prop} {l : Lexer}
  {inner : Nested} (hin : inner.Follows follow)

open Scan

include hin

/-! ## Declarations -/

theorem passes_variableDeclarator : Passes follow (variableDeclarator inner) := by
  intro b st l h
  refine .still fun start => (passes_bindingTarget hin false h).bind fun id l h => ?_
  refine h.accept (by decide) (fun l h => ?_) fun _ => .tell (.stay fun _ => h)
  exact (hin.assignment (.inl (h.fresh rfl))).map.bind fun init l h => .stay fun _ => h.any

theorem moves_variableDeclaration (h : At follow (b :: st) K l) (hl : isOrdinary l.token) :
    Moves (variableDeclaration inner) l fun _ l' => At follow (b :: st) Any l' := by
  refine .still fun start => .tell ((h.consume rfl hl).bind fun _ l h => .still fun listStart => ?_)
  refine (h.any.commaSeparated fun l h => passes_variableDeclarator hin h).bind ?_
  exact fun declarators l h => .still fun slot => .stay fun _ => h

theorem moves_variableStatement (hb : b.token = .openBrace) (h : At follow (b :: st) K l)
    (hl : isOrdinary l.token) :
    Moves (variableStatement inner) l fun _ l' => At follow (b :: st) Fresh l' := by
  refine (moves_variableDeclaration hin h hl).bind fun declaration l h => ?_
  refine (h.endStatement hb).bind fun _ l h => .still fun stop => .still fun _ => .pure h

omit hin in
theorem moves_startsVariables (l : Lexer) :
    Moves startsVariables l fun starts l' => l' = l ∧ (starts = true → isOrdinary l.token) := by
  refine .tell ?_
  split
  · rename_i hl
    exact .pure ⟨rfl, fun _ => by rw [hl]; decide⟩
  · rename_i hl
    exact .pure ⟨rfl, fun _ => by rw [hl]; decide⟩
  · rename_i hl
    exact .stay fun _ => ⟨rfl, fun _ => by rw [hl]; decide⟩
  · exact .pure ⟨rfl, fun hstarts => by cases hstarts⟩

theorem moves_functionDeclaration (h : At follow (b :: st) K l) (allowAnonymous : Bool) :
    Moves (functionDeclaration inner allowAnonymous) l fun _ l' => At follow (b :: st) Fresh l' :=
  .still fun start =>
    (moves_function hin h _ start allowAnonymous).mono fun _ _ h => h.fresh_of_clear

theorem moves_classDeclaration (h : At follow (b :: st) K l) (allowAnonymous : Bool) :
    Moves (classDeclaration inner allowAnonymous) l fun _ l' => At follow (b :: st) Fresh l' :=
  .still fun start =>
    (moves_classOf hin (reads_leftHandSide hin) h _ start allowAnonymous).mono
      fun _ _ h => h.fresh_of_clear

/-! ### Types -/

theorem moves_typeAlias (hb : b.token = .openBrace) (h : At follow (b :: st) K l) (start : Nat)
    (flags : NodeFlags) :
    Moves (typeAlias inner start flags) l fun _ l' => At follow (b :: st) Fresh l' := by
  refine (h.expect (by decide)).bind fun _ l h => h.identifier.bind fun id l h => ?_
  refine (passes_typeParameters? hin h.any).bind fun typeParameters l h => ?_
  refine (h.expect (by decide)).bind fun _ l h => (hin.type h.any).bind fun right l h => ?_
  exact (h.endStatement hb).bind fun _ l h => .stay fun _ => h

theorem passes_extendsClause : Passes follow (extendsClause inner) := by
  intro b st l h
  refine .tell (.ite (fun _ => .pure h) fun hl => .still fun listStart => ?_)
  refine (h.consume (t := .extendsKeyword) (by simpa using hl) (by decide)).bind fun _ l h => ?_
  refine (h.any.commaSeparated fun l h => ?_).bind fun bases l h => .stay fun _ => h
  refine .still fun start => (passes_qualifiedTypeName h).bind fun id l h => ?_
  exact (passes_typeArguments? hin h).bind fun typeArguments l h => .stay fun _ => h

theorem moves_interfaceRest (h : At follow (b :: st) K l) (allowStatic : Bool) :
    Moves (interfaceRest inner allowStatic) l fun _ l' => At follow (b :: st) Fresh l' := by
  refine h.identifier.bind fun id l h => ?_
  refine (passes_typeParameters? hin h.any).bind fun typeParameters l h => ?_
  refine (passes_extendsClause hin h).bind fun bases l h => ?_
  exact (moves_objectType hin h allowStatic).bind fun body l h => .pure h.fresh_of_clear

theorem moves_interfaceDeclaration (h : At follow (b :: st) K l) (start : Nat)
    (flags : NodeFlags) :
    Moves (interfaceDeclaration inner start flags) l fun _ l' => At follow (b :: st) Fresh l' := by
  refine (h.expect (by decide)).bind fun _ l h => ?_
  exact (moves_interfaceRest hin h false).bind fun rest l h => .stay fun _ => h

theorem passes_declaredFunctionName : Passes follow (declaredFunctionName inner) := by
  intro b st l h
  refine .still fun start => .isIdentifier fun named hnamed => .check fun hname => ?_
  have hword : l.token.isWord := isWord_of_isName (hnamed (by simpa using hname))
  refine .still fun name => (h.word hword).bind fun _ l h => .still fun typeStart => ?_
  refine (passes_methodType hin h.any).bind fun type l h => .still fun ascription => ?_
  exact .stay fun _ => h

omit hin in
theorem passes_moduleName : Passes follow moduleName := by
  intro b st l h
  exact .tell (.ite (fun _ => h.stringLiteral) fun _ => h.identifier.mono fun _ _ h => h.any)

theorem moves_declareStatement (hb : b.token = .openBrace) (h : At follow (b :: st) K l)
    (hl : isOrdinary l.token) :
    Moves (declareStatement inner) l fun _ l' => At follow (b :: st) Fresh l' := by
  refine .still fun start => (h.consume rfl hl).bind fun _ l h => .tell ?_
  have hvariable : isOrdinary l.token → Moves (do
      advance
      let id ← bindingIdentifier inner false
      endStatement
      finish .declareVariable start [.node id]) l fun _ l' => At follow (b :: st) Fresh l' := by
    refine fun hl => (h.consume rfl hl).bind fun _ l h => ?_
    refine (passes_bindingIdentifier hin false h.any).bind fun id l h => ?_
    exact (h.endStatement hb).bind fun _ l h => .stay fun _ => h
  split
  · rename_i hl
    exact hvariable (by rw [hl]; decide)
  · rename_i hl
    exact hvariable (by rw [hl]; decide)
  · rename_i hl
    exact hvariable (by rw [hl]; decide)
  · refine (h.consume ‹_› (by decide)).bind fun _ l h => ?_
    refine (passes_declaredFunctionName hin h.any).bind fun id l h => ?_
    exact (h.endStatement hb).bind fun _ l h => .stay fun _ => h
  · refine (h.consume ‹_› (by decide)).bind fun _ l h => ?_
    exact (moves_interfaceRest hin h true).bind fun rest l h => .stay fun _ => h
  · refine (h.consume ‹_› (by decide)).bind fun _ l h => (passes_moduleName h.any).bind fun id l h => ?_
    refine (moves_blockStatement hin h).bind fun body l h => .stay fun _ => h.fresh_of_clear
  · exact moves_typeAlias hin hb h start _
  · exact moves_interfaceDeclaration hin h start _
  · exact .fail

/-! ### Imports and exports -/

section Imports

omit hin

theorem passes_importSpecifier : Passes follow importSpecifier := by
  intro b st l h
  refine .still fun start => h.anyName.bind fun name l h => ?_
  refine h.accept (by decide) (fun l h => ?_) fun _ => ?_
  · exact h.identifier.bind fun localName l h => .stay fun _ => h.any
  · exact .stay (p := finish .importSpecifier start [.absent, .node name]) fun _ => h

theorem passes_specifiersInBraces {specifier : Parser NodeId} (hspecifier : Passes follow specifier) :
    Passes follow (specifiersInBraces specifier) := by
  intro b st l h
  refine (h.expectOpen rfl).bind fun _ l ⟨ofHead, h⟩ => ?_
  refine (h.any.commaDelimited fun l h => hspecifier h).bind fun specifiers l h => ?_
  exact (h.close rfl).bind fun _ l h => .pure h.any

theorem passes_defaultImport : Passes follow defaultImport := by
  intro b st l h
  exact .still fun start => h.identifier.bind fun localName l h => .stay fun _ => h.any

theorem passes_namespaceOrNamedImports : Passes follow namespaceOrNamedImports := by
  intro b st l h
  refine .tell ?_
  split
  · refine .still fun start => (h.consume ‹_› (by decide)).bind fun _ l h => ?_
    refine (h.expect (by decide)).bind fun _ l h => h.identifier.bind fun localName l h => ?_
    exact .still fun specifier => .pure h.any
  · exact passes_specifiersInBraces passes_importSpecifier h
  · exact .fail

theorem passes_importSpecifiers : Passes follow importSpecifiers := by
  intro b st l h
  refine .still fun named => .ite (fun _ => ?_) fun _ => passes_namespaceOrNamedImports h
  refine (passes_defaultImport h).bind fun first l h => ?_
  refine h.accept (by decide) (fun l h => ?_) fun _ => .pure h
  exact (passes_namespaceOrNamedImports h.any).bind fun more l h => .pure h

theorem moves_importDeclaration (hb : b.token = .openBrace) (h : At follow (b :: st) K l)
    (hl : isOrdinary l.token) :
    Moves importDeclaration l fun _ l' => At follow (b :: st) Fresh l' := by
  refine .still fun start => (h.consume rfl hl).bind fun _ l h => .tell (.ite (fun _ => ?_) fun _ => ?_)
  · refine h.stringLiteral.bind fun source l h => (h.endStatement hb).bind fun _ l h => ?_
    exact .stay fun _ => h
  · refine .tell ?_
    extract_lets rest
    have hrest : Moves (rest ()) l fun _ l' => At follow (b :: st) Fresh l' := by
      refine .still fun listStart => (passes_importSpecifiers h.any).bind fun specifiers l h => ?_
      refine .still fun slot => (h.expect (by decide)).bind fun _ l h => ?_
      refine h.stringLiteral.bind fun source l h => (h.endStatement hb).bind fun _ l h => ?_
      exact .stay fun _ => h
    exact .ite (fun _ => .still fun startsType => .check fun _ => hrest) fun _ => hrest

theorem passes_exportSpecifier : Passes follow exportSpecifier := by
  intro b st l h
  refine .still fun start => h.anyName.bind fun localName l h => ?_
  refine h.accept (by decide) (fun l h => ?_) fun _ => .tell (.stay fun _ => h)
  exact h.anyName.map.bind fun exported l h => .stay fun _ => h

end Imports

theorem moves_defaultExport (hb : b.token = .openBrace) (h : At follow (b :: st) Fresh l) :
    Moves (defaultExport inner) l fun _ l' => At follow (b :: st) Fresh l' := by
  refine .still fun _ => .ite (fun _ => moves_functionDeclaration hin h true) fun _ => .tell ?_
  refine .ite (fun _ => moves_classDeclaration hin h true) fun _ => ?_
  refine (hin.assignment (.inl h)).bind fun expression l h => ?_
  exact (h.endStatement hb).bind fun _ l h => .pure h

theorem moves_exportedDeclaration (hb : b.token = .openBrace) (h : At follow (b :: st) K l) :
    Moves (exportedDeclaration inner) l fun _ l' => At follow (b :: st) Fresh l' := by
  refine .tell (.ite (fun hl => moves_variableStatement hin hb h ?_) fun _ => ?_)
  · revert hl
    cases l.token <;> decide
  refine .still fun _ => .ite (fun _ => moves_functionDeclaration hin h false) fun _ => .tell ?_
  exact .ite (fun _ => moves_classDeclaration hin h false) fun _ => .fail

theorem moves_exportDeclaration (hb : b.token = .openBrace) (h : At follow (b :: st) K l)
    (hl : isOrdinary l.token) :
    Moves (exportDeclaration inner) l fun _ l' => At follow (b :: st) Fresh l' := by
  refine .still fun start => (h.consume rfl hl).bind fun _ l h => .tell ?_
  split
  · refine (h.consume ‹_› (by decide)).bind fun _ l h => ?_
    refine (moves_defaultExport hin hb (h.fresh rfl)).bind fun declaration l h => .stay fun _ => h
  · refine (h.consume ‹_› (by decide)).bind fun _ l h => (h.expect (by decide)).bind fun _ l h => ?_
    refine h.stringLiteral.bind fun source l h => (h.endStatement hb).bind fun _ l h => ?_
    exact .stay fun _ => h
  · refine .still fun listStart => ?_
    refine (passes_specifiersInBraces passes_exportSpecifier h.any).bind fun specifiers l h => ?_
    refine .still fun slot => ?_
    have hend : ∀ source l, At follow (b :: st) Any l → Moves (do
        endStatement
        finish .exportNamedDeclaration start [.absent, slot, .ofOption source]) l
          fun _ l' => At follow (b :: st) Fresh l' :=
      fun source l h => (h.endStatement hb).bind fun _ l h => .stay fun _ => h
    refine h.accept (by decide) (fun l h => ?_) fun _ => ?_
    · exact h.stringLiteral.map.bind hend
    · refine .tell ?_
      exact hend none l h
  · exact moves_typeAlias hin hb h start _
  · exact moves_interfaceDeclaration hin h start _
  · exact (moves_exportedDeclaration hin hb h).bind fun declaration l h => .stay fun _ => h

/-! ## Statements -/

omit hin in
theorem moves_startsErasedDeclaration (l : Lexer) :
    Moves startsErasedDeclaration l fun starts l' =>
      l' = l ∧ (starts = true → isOrdinary l.token) := by
  refine .tell ?_
  split
  · rename_i hl
    exact .stay fun _ => ⟨rfl, fun _ => by rw [hl]; decide⟩
  · rename_i hl
    exact .stay fun _ => ⟨rfl, fun _ => by rw [hl]; decide⟩
  · rename_i hl
    exact .stay fun _ => ⟨rfl, fun _ => by rw [hl]; decide⟩
  · exact .pure ⟨rfl, fun hstarts => by cases hstarts⟩

theorem moves_embeddedStatement (hb : b.token = .openBrace) (h : At follow (b :: st) Fresh l) :
    Moves (embeddedStatement inner) l fun _ l' => At follow (b :: st) Fresh l' :=
  .still fun _ => .ite (fun _ => .fail) fun _ => hin.statement hb h

/-- A condition after the token that it belongs to. If that is the head of a statement, no slash
comes after it. -/
theorem moves_condition {t : Token} (h : At follow (b :: st) (After t) l) :
    Moves (condition inner) l fun _ l' =>
      At follow (b :: st) (fun scan => scan.closedHead = startsHead t) l' := by
  refine h.expectHead.bind fun _ l h => ?_
  refine (moves_expression hin (.inl (h.fresh rfl))).withReader.bind fun test l h => ?_
  refine (h.expectClose rfl).bind fun _ l h => .pure ?_
  exact h.mono fun _ _ hscan => hscan.2

theorem moves_head {t : Token} (h : At follow (b :: st) (After t) l) (ht : startsHead t = true) :
    Moves (condition inner) l fun _ l' => At follow (b :: st) Fresh l' := by
  refine (moves_condition hin h).mono fun _ _ h => ?_
  rw [ht] at h
  exact h.clear_of_closedHead.fresh_of_clear

theorem moves_ifStatement (hb : b.token = .openBrace) (h : At follow (b :: st) K l)
    (hl : l.token = .ifKeyword) :
    Moves (ifStatement inner) l fun _ l' => At follow (b :: st) Fresh l' := by
  refine .still fun start => (h.consume hl (by decide)).bind fun _ l h => ?_
  refine (moves_head hin h rfl).bind fun test l h => ?_
  refine (moves_embeddedStatement hin hb h).bind fun consequent l h => ?_
  refine h.accept (by decide) (fun l h => ?_) fun _ => .tell (.stay fun _ => h)
  refine (moves_embeddedStatement hin hb (h.fresh rfl)).map.bind fun alternate l h => ?_
  exact .stay fun _ => h

theorem moves_switchCase (hb : b.token = .openBrace) (h : At follow (b :: st) K l) :
    Moves (switchCase inner) l fun _ l' => At follow (b :: st) Fresh l' := by
  refine .still fun start => .tell ?_
  extract_lets rest
  have hrest : ∀ test l, At follow (b :: st) Any l →
      Moves (rest test) l fun _ l' => At follow (b :: st) Fresh l' := by
    intro test l h
    refine (h.expect (by decide)).bind fun _ l h => .still fun listStart => ?_
    refine (Moves.collect (I := At follow (b :: st) Fresh) (E := At follow (b :: st) Fresh)
      (h.fresh rfl) fun l h => ?_).bind fun consequent l h => .still fun slot => .stay fun _ => h
    refine .tell (.ite (fun _ => .pure h) fun _ => ?_)
    exact (hin.statement hb h).mapTo fun _ _ h => h
  split
  · refine (h.consume ‹_› (by decide)).bind fun _ l h => ?_
    refine (moves_expression hin (.inl (h.fresh rfl))).map.bind fun test l h => ?_
    exact hrest test l h.any
  · refine (h.consume ‹_› (by decide)).bind fun _ l h => .tell ?_
    exact hrest none l h.any
  · exact .bind (Q := fun _ _ => False) .fail fun _ _ h => h.elim

theorem moves_switchStatement (h : At follow (b :: st) K l) (hl : l.token = .switchKeyword) :
    Moves (switchStatement inner) l fun _ l' => At follow (b :: st) Fresh l' := by
  refine .still fun start => (h.consume hl (by decide)).bind fun _ l h => ?_
  refine (moves_condition hin h).bind fun discriminant l h => ?_
  refine (h.expectOpen rfl).bind fun _ l ⟨ofHead, h⟩ => .still fun listStart => ?_
  refine (Moves.collect (I := At follow (⟨.openBrace, ofHead⟩ :: b :: st) Any)
    (E := fun l => At follow (⟨.openBrace, ofHead⟩ :: b :: st) Any l ∧ l.token = .closeBrace)
    h.any fun l h => ?_).bind fun cases l ⟨h, hl⟩ => ?_
  · refine .tell (.ite (fun hl => .pure ⟨h, by simpa using hl⟩) fun _ => ?_)
    exact (moves_switchCase hin rfl h).mapTo fun _ _ h => h.any
  · refine .still fun stop => (h.overBrace hl rfl).bind fun _ l h => ?_
    exact .stay fun _ => h.fresh_of_clear

/-! ### Loops -/

theorem moves_doStatement (hb : b.token = .openBrace) (h : At follow (b :: st) K l)
    (hl : l.token = .doKeyword) :
    Moves (doStatement inner) l fun _ l' => At follow (b :: st) Fresh l' := by
  refine .still fun start => (h.consume hl (by decide)).bind fun _ l h => ?_
  refine (moves_embeddedStatement hin hb (h.fresh rfl)).bind fun body l h => ?_
  refine (h.expect (by decide)).bind fun _ l h => (moves_head hin h rfl).bind fun test l h => ?_
  refine h.accept (by decide) (fun l h => .stay fun _ => h.fresh rfl) fun _ => .stay fun _ => h

theorem moves_headedStatement (hb : b.token = .openBrace) {t : Token} (h : At follow (b :: st) K l)
    (hl : l.token = t) (hordinary : isOrdinary t) (ht : startsHead t = true) (kind : NodeKind) :
    Moves (headedStatement inner kind) l fun _ l' => At follow (b :: st) Fresh l' := by
  refine .still fun start => (h.consume hl hordinary).bind fun _ l h => ?_
  refine (moves_head hin h ht).bind fun head l h => ?_
  exact (moves_embeddedStatement hin hb h).bind fun body l h => .stay fun _ => h

theorem moves_forInit (h : At follow (b :: st) Fresh l) :
    Moves (forInit inner) l fun _ l' => At follow (b :: st) Any l' := by
  refine .tell (.ite (fun _ => .pure h.any) fun _ => .withReader ?_)
  refine (moves_startsVariables l).bind ?_
  rintro starts _ ⟨rfl, hstarts⟩
  refine .ite (fun hvariables => ?_) fun _ => ?_
  · exact (moves_variableDeclaration hin h (hstarts hvariables)).map
  · exact (moves_expression hin (.inl h)).mapTo fun _ _ h => h.any

omit hin in
instance still_forTarget (init : NodeId) : Still (forTarget init) := by
  unfold forTarget; infer_instance

theorem moves_loopBody (hb : b.token = .openBrace) (h : At follow (⟨.openParen, true⟩ :: b :: st) K l)
    {finishLoop : NodeId → Parser NodeId} [∀ body, Still (finishLoop body)] :
    Moves (do
      expect .closeParen
      let body ← embeddedStatement inner
      finishLoop body) l fun _ l' => At follow (b :: st) Fresh l' := by
  refine (h.expectClose rfl).bind fun _ l h => ?_
  have hclosed : At follow (b :: st) (fun scan => scan.closedHead = true) l :=
    h.mono fun _ _ hscan => hscan.2
  refine (moves_embeddedStatement hin hb hclosed.clear_of_closedHead.fresh_of_clear).bind ?_
  exact fun body l h => .stay fun _ => h

theorem moves_forEachRest (hb : b.token = .openBrace)
    (h : At follow (⟨.openParen, true⟩ :: b :: st) Any l) (start : Nat) {kind : NodeKind}
    (hl : enumeration? l.token = some kind) (init : NodeId) :
    Moves (forEachRest inner start kind init) l fun _ l' => At follow (b :: st) Fresh l' := by
  have hover : Moves advance l fun _ l' => At follow (⟨.openParen, true⟩ :: b :: st) Fresh l' := by
    unfold enumeration? at hl
    split at hl
    · exact (h.consume ‹_› (by decide)).mono fun _ _ h => h.fresh rfl
    · refine (h.consume (t := .ofKeyword) ‹_› (by decide)).mono fun _ _ h => ?_
      exact (h.clear_of_after rfl).fresh_of_clear
    · cases hl
  refine .still fun left => hover.bind fun _ l h => ?_
  have hright : Moves (if kind == .forOfStatement then inner.assignment else expression inner) l
      fun _ l' => At follow (⟨.openParen, true⟩ :: b :: st) Ended l' :=
    .ite (fun _ => hin.assignment (.inl h)) fun _ => moves_expression hin (.inl h)
  exact hright.withReader.bind fun right l h => moves_loopBody hin hb h

theorem moves_expressionBefore? (h : At follow (b :: st) Fresh l) (close : Token) :
    Moves (expressionBefore? inner close) l fun _ l' => At follow (b :: st) Any l' := by
  refine .tell (.ite (fun _ => .pure h.any) fun _ => ?_)
  exact (moves_expression hin (.inl h)).withReader.mapTo fun _ _ h => h.any

theorem moves_forRest (hb : b.token = .openBrace)
    (h : At follow (⟨.openParen, true⟩ :: b :: st) Any l) (start : Nat) (init : Option NodeId) :
    Moves (forRest inner start init) l fun _ l' => At follow (b :: st) Fresh l' := by
  refine (h.expect (by decide)).bind fun _ l h => ?_
  refine (moves_expressionBefore? hin (h.fresh rfl) _).bind fun test l h => ?_
  refine (h.expect (by decide)).bind fun _ l h => ?_
  refine (moves_expressionBefore? hin (h.fresh rfl) _).bind fun update l h => ?_
  exact moves_loopBody hin hb h

theorem moves_forStatement (hb : b.token = .openBrace) (h : At follow (b :: st) K l)
    (hl : l.token = .forKeyword) :
    Moves (forStatement inner) l fun _ l' => At follow (b :: st) Fresh l' := by
  refine .still fun start => (h.consume hl (by decide)).bind fun _ l h => ?_
  refine h.expectHead.bind fun _ l h => ?_
  have h : At follow (⟨.openParen, true⟩ :: b :: st) (After .openParen) l := h
  refine (moves_forInit hin (h.fresh rfl)).bind fun init l h => .tell ?_
  split
  · exact moves_forEachRest hin hb h start ‹_› _
  · exact moves_forRest hin hb h start _

/-! ### Jumps -/

omit hin in
theorem moves_breakOrContinue (hb : b.token = .openBrace) {t : Token} (h : At follow (b :: st) K l)
    (hl : l.token = t) (ht : isOrdinary t) (kind : NodeKind) :
    Moves (breakOrContinue kind) l fun _ l' => At follow (b :: st) Fresh l' := by
  refine .still fun start => (h.consume hl ht).bind fun _ l h => .tell ?_
  extract_lets rest withLabelled
  have hrest : ∀ label l, At follow (b :: st) Any l →
      Moves (rest label) l fun _ l' => At follow (b :: st) Fresh l' :=
    fun label l h => (h.endStatement hb).bind fun _ l h => .stay fun _ => h
  have hlabelled : ∀ labelled, Moves (withLabelled labelled) l fun _ l' =>
      At follow (b :: st) Fresh l' := by
    refine fun labelled => .ite (fun _ => ?_) fun _ => .tell ?_
    · exact (h.identifier.mono fun _ _ h => h.any).map.bind hrest
    · exact hrest none l h.any
  exact .ite (fun _ => .tell (hlabelled false)) fun _ => .still hlabelled

theorem moves_returnStatement (hb : b.token = .openBrace) (h : At follow (b :: st) K l)
    (hl : l.token = .returnKeyword) :
    Moves (returnStatement inner) l fun _ l' => At follow (b :: st) Fresh l' := by
  refine .still fun start => (h.consume hl (by decide)).bind fun _ l h => .tell ?_
  have hend : ∀ argument l, At follow (b :: st) Any l → Moves (do
      endStatement
      finish .returnStatement start [.ofOption argument]) l
        fun _ l' => At follow (b :: st) Fresh l' :=
    fun argument l h => (h.endStatement hb).bind fun _ l h => .stay fun _ => h
  refine .ite (fun _ => .tell ?_) fun _ => ?_
  · exact hend none l h.any
  · exact ((moves_expression hin (.inl (h.fresh rfl))).mono fun _ _ h => h.any).map.bind hend

theorem moves_throwStatement (hb : b.token = .openBrace) (h : At follow (b :: st) K l)
    (hl : l.token = .throwKeyword) :
    Moves (throwStatement inner) l fun _ l' => At follow (b :: st) Fresh l' := by
  refine .still fun start => (h.consume hl (by decide)).bind fun _ l h => .tell (.check fun _ => ?_)
  refine (moves_expression hin (.inl (h.fresh rfl))).bind fun argument l h => ?_
  exact (h.endStatement hb).bind fun _ l h => .stay fun _ => h

theorem moves_catchClause (h : At follow (b :: st) K l) (hl : l.token = .catchKeyword) :
    Moves (catchClause inner) l fun _ l' => At follow (b :: st) Clear l' := by
  refine .still fun start => (h.consume hl (by decide)).bind fun _ l h => ?_
  refine (h.expectOpen rfl).bind fun _ l ⟨ofHead, h⟩ => ?_
  refine (passes_bindingTarget hin false h.any).bind fun param l h => ?_
  refine (h.close rfl).bind fun _ l h => (moves_blockStatement hin h).bind fun body l h => ?_
  exact .stay fun _ => h

theorem moves_tryStatement (h : At follow (b :: st) K l) (hl : l.token = .tryKeyword) :
    Moves (tryStatement inner) l fun _ l' => At follow (b :: st) Fresh l' := by
  refine .still fun start => (h.consume hl (by decide)).bind fun _ l h => ?_
  refine (moves_blockStatement hin h).bind fun block l h => .tell ?_
  refine .join (E := At follow (b :: st) Clear) (fun hl => ?_) (fun _ => .pure h)
    fun handler l h => ?_
  · exact (moves_catchClause hin h (by simpa using hl)).map
  refine h.accept (by decide) (fun l h => ?_) fun _ => .tell ?_
  · refine (moves_blockStatement hin h).map.bind fun finalizer l h => .check fun _ => ?_
    exact .stay fun _ => h.fresh_of_clear
  · exact .check fun _ => .stay fun _ => h.fresh_of_clear

/-! ### All statements -/

omit hin in
theorem moves_emptyStatement (h : At follow (b :: st) K l) (hl : l.token = .semicolon) :
    Moves emptyStatement l fun _ l' => At follow (b :: st) Fresh l' :=
  .still fun _ => (h.consume hl (by decide)).bind fun _ _ h => .stay fun _ => h.fresh rfl

omit hin in
theorem moves_debuggerStatement (hb : b.token = .openBrace) (h : At follow (b :: st) K l)
    (hl : l.token = .debuggerKeyword) :
    Moves debuggerStatement l fun _ l' => At follow (b :: st) Fresh l' :=
  .still fun _ => (h.consume hl (by decide)).bind fun _ _ h => (h.endStatement hb).bind fun _ _ h =>
    .stay fun _ => h

theorem moves_expressionOrLabeled (hb : b.token = .openBrace) (h : At follow (b :: st) Fresh l) :
    Moves (expressionOrLabeled inner) l fun _ l' => At follow (b :: st) Fresh l' := by
  refine .still fun start => .still fun named => ?_
  extract_lets rest
  have hrest : ∀ labelled, Moves (rest labelled) l fun _ l' => At follow (b :: st) Fresh l' := by
    refine fun labelled => .ite (fun _ => ?_) fun _ => ?_
    · refine h.identifier.bind fun label l h => (h.expect (by decide)).bind fun _ l h => ?_
      exact (moves_embeddedStatement hin hb (h.fresh rfl)).bind fun body l h => .stay fun _ => h
    · refine (moves_expression hin (.inl h)).bind fun expression l h => ?_
      exact (h.endStatement hb).bind fun _ l h => .stay fun _ => h
  exact .ite (fun _ => .still hrest) fun _ => .tell (hrest false)

theorem moves_erasedDeclaration (hb : b.token = .openBrace) (h : At follow (b :: st) K l)
    (hl : isOrdinary l.token) :
    Moves (erasedDeclaration inner) l fun _ l' => At follow (b :: st) Fresh l' := by
  refine .still fun start => .tell ?_
  split
  · exact moves_typeAlias hin hb h start _
  · exact moves_interfaceDeclaration hin h start _
  · exact moves_declareStatement hin hb h hl

theorem moves_otherStatement (hb : b.token = .openBrace) (h : At follow (b :: st) Fresh l) :
    Moves (otherStatement inner) l fun _ l' => At follow (b :: st) Fresh l' := by
  refine (moves_startsVariables l).bind ?_
  rintro starts _ ⟨rfl, hstarts⟩
  refine .ite (fun hvariables => moves_variableStatement hin hb h (hstarts hvariables)) fun _ => ?_
  refine .still fun _ => .ite (fun _ => moves_functionDeclaration hin h false) fun _ => ?_
  refine (moves_startsErasedDeclaration _).bind ?_
  rintro starts _ ⟨rfl, hstarts⟩
  refine .ite (fun herased => moves_erasedDeclaration hin hb h (hstarts herased)) fun _ => ?_
  exact moves_expressionOrLabeled hin hb h

theorem moves_statement (hb : b.token = .openBrace) (h : At follow (b :: st) Fresh l) :
    Moves (statement inner) l fun _ l' => At follow (b :: st) Fresh l' := by
  refine .tell ?_
  split
  · exact (moves_blockStatement hin h).mono fun _ _ h => h.fresh_of_clear
  · exact moves_emptyStatement h ‹_›
  · exact moves_classDeclaration hin h false
  · exact moves_ifStatement hin hb h ‹_›
  · exact moves_doStatement hin hb h ‹_›
  · exact moves_headedStatement hin hb h ‹_› (by decide) rfl _
  · exact moves_forStatement hin hb h ‹_›
  · exact moves_breakOrContinue hb h ‹_› (by decide) _
  · exact moves_breakOrContinue hb h ‹_› (by decide) _
  · exact moves_returnStatement hin hb h ‹_›
  · exact moves_headedStatement hin hb h ‹_› (by decide) rfl _
  · exact moves_switchStatement hin h ‹_›
  · exact moves_throwStatement hin hb h ‹_›
  · exact moves_tryStatement hin h ‹_›
  · exact moves_debuggerStatement hb h ‹_›
  · rename_i hl
    exact moves_importDeclaration hb h (by rw [hl]; decide)
  · rename_i hl
    exact moves_exportDeclaration hin hb h (by rw [hl]; decide)
  · exact .fail
  · exact moves_otherStatement hin hb h

omit hin

/-! ## The deepest level -/

theorem follows_exhausted (follow : ParenFollow) : Nested.exhausted.Follows follow where
  statement _ _ := .fail (p := failTooDeep)
  assignment _ := .fail (p := failTooDeep)
  binary _ := fun _ => .fail (p := failTooDeep)
  unary _ := .fail (p := failTooDeep)
  construction _ _ := .fail (p := failTooDeep)
  bindingTarget _ := fun _ => .fail (p := failTooDeep)
  classMember _ := .fail (p := failTooDeep)
  type _ := .fail (p := failTooDeep)
  prefixType _ := .fail (p := failTooDeep)
  primaryType _ := .fail (p := failTooDeep)
  typeMember _ := fun _ => .fail (p := failTooDeep)

end FlowErasure.Grammar
