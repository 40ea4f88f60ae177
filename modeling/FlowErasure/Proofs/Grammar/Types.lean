import FlowErasure.Grammar.Statements
import FlowErasure.Proofs.Frame.Expressions
import FlowErasure.Proofs.Grammar.Ends

/-!
# Types

What the rules for types read. `Nested.Sound` is what every rule may assume of the rules one level
of nesting deeper.
-/

namespace FlowErasure.Grammar

/-- A rule that reads a statement. Only a declaration that is erased as a whole may be of a kind that
means nothing when the program runs, unless it declares an exported type. -/
def StatementRule (text : List Char) (p : Parser NodeId) : Prop :=
  ∀ c s, Good text s → Run p c s fun id s' => Yields text false s [id] s' ∧
    (startsErasedDeclaration c s = .ok true s ∨ s'.tree.IsValue id ∨ s'.tree.IsExportedType id)

/-- All rules read nodes as they should and keep those that are there; expressions and patterns are
never types, and assignments and operations end as they should. -/
structure Nested.Sound (text : List Char) (inner : Nested) : Prop where
  statement : StatementRule text inner.statement
  assignment : Rule text true inner.assignment
  binary : ∀ precedence, Rule text true (inner.binary precedence)
  unary : Rule text true inner.unary
  construction : TokenRule text true inner.construction
  bindingTarget : ∀ allowOptional, Rule text true (inner.bindingTarget allowOptional)
  classMember : Rule text false inner.classMember
  type : Rule text false inner.type
  prefixType : Rule text false inner.prefixType
  primaryType : Rule text false inner.primaryType
  typeMember : ∀ allowStatic, Rule text false (inner.typeMember allowStatic)
  ends : ∀ c s, Good text s →
    Run inner.assignment c s fun id s' => Ends text c.conditionalTail id s'
  operation : ∀ precedence c s, Good text s →
    Run (inner.binary precedence) c s (EndsOperation c precedence)
  keeps : ∀ base, inner.Keeping base

variable {text : List Char} {inner : Nested} {c : Context} {s s₀ : State}

theorem run_variance (hs : Good text s) :
    Run variance c s fun _ s' => Yields text true s [] s' := by
  simp only [variance, run_bind, run_steps, run_ite, run_pure]
  split
  · rename_i ht
    have hne : s.lexer.token ≠ .endOfFile := fun heq => by simp [heq] at ht
    exact (run_advance hs hne).mono fun _ _ h => h.toYields
  · exact .refl hs

section

variable (hinner : inner.Sound text)

include hinner

theorem ascription?_rule : OptionalRule text false (ascription? inner) := by
  intro c s hs
  simp only [ascription?, finish, run_bind, run_steps, run_ite, run_pure]
  split
  · exact .refl hs
  · rename_i ht
    refine (run_advance hs (by simp_all)).mono fun _ s₁ h₁ => ?_
    refine (hinner.type c s₁ h₁.good).mono fun type s₂ h₂ => ?_
    exact run_finish (h₁.trans h₂) rfl (by simp) rfl (by decide)

/-! ## Parameters and arguments of types -/

theorem typeParameter_rule : Rule text false (typeParameter inner) := by
  intro c s hs
  simp only [typeParameter, run_bind, run_steps, run_ite, run_map, run_pure]
  refine (run_variance hs).mono fun sign s₁ h₁ => ?_
  refine run_isIdentifier fun b hb => ?_
  split
  · trivial
  · rename_i hname
    have ht : s₁.lexer.token ≠ .endOfFile := hb (by simpa using hname)
    refine (run_tokenAtom h₁.good).mono fun name s₂ h₂ => ?_
    refine (run_advance h₂.1.good (h₂.2 ▸ ht)).mono fun _ s₃ h₃ => ?_
    have hread : Reads text true s [] s₃ := h₁.transReads (h₂.1.transReads h₃)
    refine (ascription?_rule hinner c s₃ h₃.good).mono fun bound s₄ h₄ => ?_
    refine (run_accept h₄.good (by decide)).mono fun b s₅ h₅ => ?_
    split
    · refine (hinner.type c s₅ h₅.1.good).mono fun type s₆ h₆ => ?_
      exact run_finish ((hread.trans h₄).trans (h₅.1.before h₆)) rfl (by simp)
        (by simp [NodeKind.admits, NodeKind.schema]) (by decide)
    · exact run_finish ((hread.trans h₄).andThen h₅.1) rfl (by simp)
        (by simp [NodeKind.admits, NodeKind.schema]) (by decide)

omit hinner in
theorem angleList?_rule {kind : NodeKind} {item : Parser NodeId} (hitem : Rule text false item)
    (hkind : (kind.isPlain && !kind.asks) = true) (hadmits : ∀ items, kind.admits [.list items]) :
    OptionalRule text false (angleList? kind item) := by
  intro c s hs
  simp only [angleList?, finish, listFrom, run_bind, run_steps, run_ite, run_pure]
  split
  · exact .refl hs
  · rename_i ht
    refine (run_advance hs (by simp_all)).mono
      fun _ s₁ h₁ => ?_
    refine (run_commaTerminated h₁.good fun s hs => hitem c s hs).mono fun items s₂ h₂ => ?_
    refine (run_expect h₂.good (by decide)).mono fun _ s₃ h₃ => ?_
    exact run_finishWhole ((h₁.trans h₂).andThen h₃.toYields) (by simp) (hadmits _)
      (by simpa using hkind)

theorem typeParameters?_rule : OptionalRule text false (typeParameters? inner) :=
  angleList?_rule (typeParameter_rule hinner) (by decide) (fun _ => rfl)

theorem typeArguments?_rule : OptionalRule text false (typeArguments? inner) :=
  angleList?_rule hinner.type (by decide) (fun _ => rfl)

/-! ## Function types -/

theorem run_functionTypeParam {start : Nat} (h : Yields text true s₀ [] s)
    (hstart : start = s₀.lexer.start) :
    Run (functionTypeParam inner start) c s fun id s' => Yields text false s₀ [id] s' := by
  simp only [functionTypeParam, isParameterName, finish, run_bind, run_steps, run_ite, run_pure]
  have hunnamed : Run inner.type c s fun type s' =>
      Run (finishWith .functionTypeParam start [.absent, .node type] {}) c s' fun id s' =>
        Yields text false s₀ [id] s' := by
    refine (hinner.type c s h.good).mono fun type s₁ h₁ => ?_
    have hread := (h.trans h₁).reads type (by simp)
    exact run_finish hread hstart (by simp) rfl (by decide)
  split
  · split
    · refine (identifierName_rule c s h.good).mono fun name s₁ h₁ => ?_
      refine (run_accept h₁.good (by decide)).mono fun optional s₂ h₂ => ?_
      refine (run_expect h₂.1.good (by decide)).mono fun _ s₃ h₃ => ?_
      refine (hinner.type c s₃ h₃.good).mono fun type s₄ h₄ => ?_
      have hname := (h.trans h₁).andThen (h₂.1.andThen h₃.toYields)
      have hread := (hname.trans h₄).reads type (by simp)
      exact run_finish hread hstart (by simp) rfl (by decide)
    · exact hunnamed
  · exact hunnamed

theorem run_functionTypeParams {listStart : Nat} {params : List NodeId}
    (h : Reads text false s₀ params s) (hstart : listStart = s₀.lexer.start) :
    Run (functionTypeParams inner listStart params) c s fun r s' =>
      Reads text false s₀ (r.1.children ++ r.2.toList) s' ∧
        s'.tree.Within s₀.lexer.start s'.lastEnd r.1 ∧
        (FieldSpec.many .params).accepts r.1 := by
  subst hstart
  simp only [functionTypeParams, listFrom, run_bind, run_steps, run_pure]
  refine run_iterate (fun a s' => Reads text false s₀ (a.1.reverse ++ a.2.toList) s')
    (by simpa using h) ?_
  rintro ⟨params, rest⟩ s₁ h₁
  simp only [run_bind, run_steps, run_ite, run_pure]
  split
  · refine (run_expect h₁.good (by decide)).mono fun _ s₂ h₂ => ?_
    have hall := h₁.andThen h₂.toYields
    exact ⟨by simpa using hall, hall.within _ (by simp), rfl⟩
  · rename_i hrest
    obtain rfl : rest = none := by
      cases rest
      · rfl
      · simp at hrest
    refine (run_accept h₁.good (by decide)).mono fun b s₂ h₂ => ?_
    split
    · refine (run_functionTypeParam hinner h₂.1 rfl).mono fun param s₃ h₃ => ?_
      refine (run_accept h₃.good (by decide)).mono fun _ s₄ h₄ => ?_
      simpa using h₁.trans (h₃.andThen h₄.1)
    · refine (run_functionTypeParam hinner h₂.1 rfl).mono fun param s₃ h₃ => ?_
      split
      · simpa using h₁.trans h₃
      · refine (run_expect h₃.good (by decide)).mono fun _ s₄ h₄ => ?_
        simpa using h₁.trans (h₃.andThen h₄.toYields)

theorem run_finishFunctionType {start : Nat} {typeParameters : Option NodeId}
    {params : Slot × Option NodeId} {separator : Token}
    (h : Yields text false s₀ (typeParameters.toList ++ (params.1.children ++ params.2.toList)) s)
    (hparams : s.tree.Within s₀.lexer.start s.lastEnd params.1)
    (hadmits : (FieldSpec.many .params).accepts params.1)
    (hstart : start = s₀.lexer.start) (hseparator : separator ≠ .endOfFile) :
    Run (finishFunctionType inner start typeParameters params separator) c s fun id s' =>
      Yields text false s₀ [id] s' := by
  simp only [finishFunctionType, finish, run_bind]
  refine (run_expect h.good hseparator).mono fun _ s₁ h₁ => ?_
  refine (hinner.type c s₁ h₁.good).mono fun type s₂ h₂ => ?_
  have hrest := h₁.toYields.before h₂
  have hread := (h.trans hrest).reads type (by simp)
  refine run_finishList hread hstart (by simp)
    (by simp [NodeKind.admits, NodeKind.schema, hadmits]) ?_ (by decide)
  simpa using hrest.keptWithin hparams (Nat.le_refl _) hrest.stop

theorem run_functionType {start : Nat} {separator : Token} (h : Yields text true s₀ [] s)
    (hstart : start = s₀.lexer.start) (hseparator : separator ≠ .endOfFile) :
    Run (functionType inner start separator) c s fun id s' => Yields text false s₀ [id] s' := by
  simp only [functionType, run_bind, run_steps]
  refine (typeParameters?_rule hinner c s h.good).mono fun typeParameters s₁ h₁ => ?_
  refine (run_expect h₁.good (by decide)).mono fun _ s₂ h₂ => ?_
  have hopen : Reads text false s₁ [] s₂ := ⟨h₂.toYields.weaken, h₂.lt⟩
  refine (run_functionTypeParams hinner hopen rfl).mono fun params s₃ ⟨h₃, hwithin, haccepts⟩ => ?_
  have hhead := h.before h₁
  exact run_finishFunctionType hinner (hhead.trans h₃.toYields)
    (hwithin.mono hhead.start (Nat.le_refl _)) haccepts hstart hseparator

theorem methodType_rule : Rule text false (methodType inner) := by
  intro c s hs
  simp only [methodType, run_bind, run_steps]
  exact run_functionType hinner (.refl hs) rfl (by decide)

omit hinner in
theorem run_opensTypeParameters {Q : Bool → State → Prop} (h : ∀ b, Q b s) :
    Run opensTypeParameters c s Q := by
  simp only [opensTypeParameters, run_bind, run_steps, run_ite, run_pure]
  split
  · exact h _
  · split <;> exact h _

theorem parenthesizedType_rule : Rule text false (parenthesizedType inner) := by
  intro c s hs
  simp -zeta only [parenthesizedType, finish, run_bind, run_steps, run_ite]
  refine run_opensTypeParameters fun b => ?_
  split
  · exact run_functionType hinner (.refl hs) rfl (by decide)
  · refine (run_expect hs (by decide)).mono fun _ s₁ h₁ => ?_
    refine (hinner.type c s₁ h₁.good).mono fun type s₂ h₂ => ?_
    extract_lets rest
    have hrest : ∀ b, Run (rest b) c s₂ fun id s' => Yields text false s [id] s' := by
      intro b
      simp only [rest, run_ite, run_bind, run_pure]
      split
      · have hparam : Run (finishWith .functionTypeParam s₁.lexer.start [.absent, .node type] {}) c
            s₂ fun id s' => Yields text false s₁ [id] s' :=
          run_finish (h₂.reads type (by simp)) rfl (by simp) rfl (by decide)
        refine hparam.mono fun first s₃ h₃ => ?_
        refine (run_accept h₃.good (by decide)).mono fun _ s₄ h₄ => ?_
        have hfirst := (h₁.trans h₃).andThen h₄.1
        refine (run_functionTypeParams hinner hfirst rfl).mono
          fun params s₅ ⟨h₅, hwithin, haccepts⟩ => ?_
        exact run_finishFunctionType hinner h₅.toYields hwithin haccepts rfl (by decide)
      · refine (run_expect h₂.good (by decide)).mono fun _ s₃ h₃ => ?_
        exact h₁.toYields.before (h₂.andThen h₃.toYields)
    simp only [run_ite, run_bind, run_pure, run_steps, hrest, ite_self]

/-! ## Object types -/

theorem run_typeIndexer {start : Nat} {details : Details} (h : Yields text true s₀ [] s)
    (hstart : start = s₀.lexer.start) :
    Run (typeIndexer inner start details) c s fun id s' => Yields text false s₀ [id] s' := by
  simp -zeta only [typeIndexer, run_bind]
  refine (run_expect h.good (by decide)).mono fun _ s₁ h₁ => ?_
  simp -zeta only [run_steps]
  extract_lets rest withNamed
  have hrest : ∀ (name : Option NodeId) s₂, Yields text true s₁ name.toList s₂ →
      Run (rest name) c s₂ fun id s' => Yields text false s₀ [id] s' := by
    intro name s₂ h₂
    simp only [rest, run_bind]
    refine (hinner.type c s₂ h₂.good).mono fun key s₃ h₃ => ?_
    refine (run_expect h₃.good (by decide)).mono fun _ s₄ h₄ => ?_
    refine (run_expect h₄.good (by decide)).mono fun _ s₅ h₅ => ?_
    refine (hinner.type c s₅ h₅.good).mono fun value s₆ h₆ => ?_
    have hkey := (h₂.trans h₃).andThen (h₄.andThen h₅.toYields).toYields
    have hread := (h.transReads h₁).trans (hkey.trans h₆)
    exact run_finish hread hstart (by simp) (by simp [NodeKind.admits, NodeKind.schema])
      (by decide)
  have hnamed : ∀ b, Run (withNamed b) c s₁ fun id s' => Yields text false s₀ [id] s' := by
    intro b
    simp only [withNamed, run_ite, run_bind, run_pure]
    split
    · refine (identifierName_rule c s₁ h₁.good).mono fun name s₂ h₂ => ?_
      refine (run_expect h₂.good (by decide)).mono fun _ s₃ h₃ => ?_
      exact hrest _ _ (h₂.andThen h₃.toYields)
    · exact hrest _ _ (.refl h₁.good)
  simp only [run_ite, run_bind, run_pure, run_steps, hnamed, ite_self]

theorem run_typeProperty {start : Nat} {details : Details} (h : Yields text true s₀ [] s)
    (hstart : start = s₀.lexer.start) :
    Run (typeProperty inner start details) c s fun id s' => Yields text false s₀ [id] s' := by
  simp -zeta only [typeProperty, run_bind, run_steps]
  extract_lets _ rest
  have hrest : ∀ key s₁, Yields text true s [key] s₁ →
      Run (rest key) c s₁ fun id s' => Yields text false s₀ [id] s' := by
    intro key s₁ h₁
    simp only [rest, run_bind, run_ite, run_steps]
    refine (run_accept h₁.good (by decide)).mono fun optional s₂ h₂ => ?_
    have hkey := h.trans (h₁.andThen h₂.1)
    split
    · refine (methodType_rule hinner c s₂ h₂.1.good).mono fun value s₃ h₃ => ?_
      exact run_finish ((hkey.trans h₃).reads key (by simp)) hstart (by simp)
        rfl (by decide)
    · refine (run_expect h₂.1.good (by decide)).mono fun _ s₃ h₃ => ?_
      refine (hinner.type c s₃ h₃.good).mono fun value s₄ h₄ => ?_
      exact run_finish (((hkey.andThen h₃.toYields).trans h₄).reads key (by simp)) hstart
        (by simp) rfl (by decide)
  simp only [run_ite, run_bind]
  split
  · rename_i ht
    have hne : s.lexer.token ≠ .endOfFile :=
      ne_endOfFile ([Token.string, .number].contains ·) ht (by decide)
    exact (run_literal h.good hne).mono hrest
  · exact (identifierName_rule c s h.good).mono hrest

theorem typeMember_rule (allowStatic : Bool) : Rule text false (typeMember inner allowStatic) := by
  intro c s hs
  simp -zeta only [typeMember, run_bind, run_steps]
  extract_lets withStatic
  have hwithStatic : ∀ b, (b = true → s.lexer.token ≠ .endOfFile) →
      Run (withStatic b) c s fun id s' => Yields text false s [id] s' := by
    intro b hstatic
    simp -zeta only [withStatic]
    extract_lets rest
    have hrest : ∀ u s₁, Yields text true s [] s₁ →
        Run (rest u) c s₁ fun id s' => Yields text false s [id] s' := by
      intro u s₁ h₁
      simp only [rest, run_bind, run_steps]
      refine (run_variance h₁.good).mono fun sign s₂ h₂ => ?_
      have hbuilds := h₁.andThen h₂
      have hcall : Run (methodType inner) c s₂ fun value s' =>
          Run (finishWith .objectTypeCallProperty s.lexer.start [.node value]
            { flags := { static := b }, token := sign }) c s' fun id s' =>
              Yields text false s [id] s' := by
        refine (methodType_rule hinner c s₂ h₂.good).mono fun value s₃ h₃ => ?_
        exact run_finish ((hbuilds.trans h₃).reads value (by simp)) rfl (by simp)
          rfl (by decide)
      split
      · exact run_typeIndexer hinner hbuilds rfl
      · exact run_bind.mpr hcall
      · exact run_bind.mpr hcall
      · exact run_typeProperty hinner hbuilds rfl
    simp only [run_ite, run_bind]
    split
    · rename_i hb
      exact (run_advance hs (hstatic hb)).mono fun u s₁ h₁ => hrest u s₁ h₁.toYields
    · exact hrest () _ (.refl hs)
  simp only [run_ite, run_bind, run_pure, run_steps]
  split
  · rename_i hstatic
    exact hwithStatic _ fun _ heq => by simp [heq] at hstatic
  · exact hwithStatic false (by simp)

theorem objectType_rule (allowStatic : Bool) : Rule text false (objectType inner allowStatic) := by
  intro c s hs
  simp -zeta only [objectType, finish, listFrom, run_bind, run_steps]
  refine (run_expect hs (by decide)).mono fun _ s₁ h₁ => ?_
  refine (run_accept h₁.good (by decide)).mono fun exact s₂ h₂ => ?_
  generalize (if exact = true then Token.bar else .closeBrace) = close
  refine (run_collect_nodes (v := false) h₂.1.good fun s hs => ?_).mono fun members s₃ h₃ => ?_
  · simp only [run_bind, run_steps, run_ite, run_pure]
    split
    · exact .refl hs
    · split
      · trivial
      · refine (hinner.typeMember allowStatic c s hs).mono fun member s₁ h₁ => ?_
        refine (run_accept h₁.good (by decide)).mono fun b s₂ h₂ => ?_
        split
        · exact h₁.andThen h₂.1
        · refine (run_accept h₂.1.good (by decide)).mono fun _ s₃ h₃ => ?_
          exact h₁.andThen (h₂.1.andThen h₃.1)
  · extract_lets rest
    have hrest : ∀ u s₄, Yields text true s₃ [] s₄ →
        Run (rest u) c s₄ fun id s' => Yields text false s [id] s' := by
      intro u s₄ h₄
      simp only [rest, run_bind, run_steps, run_pure]
      refine (run_expect h₄.good (by decide)).mono fun _ s₅ h₅ => ?_
      have hread := (h₁.trans (h₂.1.trans h₃)).andThen (h₄.andThen h₅.toYields)
      exact run_finishWhole hread (by simp) rfl (by decide)
    simp only [run_ite, run_bind]
    split
    · exact (run_expect h₃.good (by decide)).mono fun u s₄ h₄ => hrest u s₄ h₄.toYields
    · exact hrest () _ (.refl h₃.good)

/-! ## Types -/

omit hinner in
theorem run_tokenType {kind : NodeKind} (hs : Good text s) (ht : s.lexer.token ≠ .endOfFile)
    (hkind : (kind.isPlain && kind.schema.isEmpty) = true) :
    Run (tokenType kind) c s fun id s' => Yields text false s [id] s' := by
  simp only [tokenType, run_bind, run_steps]
  refine (run_advance hs ht).mono fun _ s₁ h₁ => ?_
  rw [Bool.and_eq_true, List.isEmpty_iff] at hkind
  exact run_finish h₁ rfl rfl (by simp [NodeKind.admits, hkind.2])
    (by simp [NodeKind.isListless, hkind])

omit hinner in
theorem qualifiedTypeName_rule : Rule text false qualifiedTypeName := by
  intro c s hs
  simp only [qualifiedTypeName, finish, run_bind, run_steps]
  refine (identifier_rule c s hs).mono fun first s₁ h₁ => ?_
  refine run_iterate (fun name s' => Yields text false s [name] s') h₁.weaken ?_
  intro name s₂ h₂
  simp only [run_bind, run_ite, run_pure]
  refine (run_accept h₂.good (by decide)).mono fun b s₃ h₃ => ?_
  split
  · refine (identifierName_rule c s₃ h₃.1.good).mono fun id s₄ h₄ => ?_
    have hread := (h₂.trans (h₃.1.before h₄)).reads name (by simp)
    exact run_finish hread rfl (by simp) rfl (by decide)
  · exact h₂.andThen h₃.1

theorem genericType_rule : Rule text false (genericType inner) := by
  intro c s hs
  simp only [genericType, finish, run_bind, run_steps]
  refine (qualifiedTypeName_rule c s hs).mono fun id s₁ h₁ => ?_
  refine (typeArguments?_rule hinner c s₁ h₁.good).mono fun typeArguments s₂ h₂ => ?_
  exact run_finish ((h₁.trans h₂).reads id (by simp)) rfl (by simp)
    (by simp [NodeKind.admits, NodeKind.schema]) (by decide)

theorem tupleType_rule : Rule text false (tupleType inner) := by
  intro c s hs
  simp only [tupleType, finish, listFrom, run_bind, run_steps, run_pure]
  refine (run_expect hs (by decide)).mono fun _ s₁ h₁ => ?_
  refine (run_commaTerminated h₁.good fun s hs => hinner.type c s hs).mono fun types s₂ h₂ => ?_
  refine (run_expect h₂.good (by decide)).mono fun _ s₃ h₃ => ?_
  exact run_finishWhole ((h₁.trans h₂).andThen h₃.toYields) (by simp) rfl (by decide)

omit hinner in
theorem isEmpty_primitiveType? {name : String} {kind : NodeKind}
    (h : primitiveType? name = some kind) : (kind.isPlain && kind.schema.isEmpty) = true := by
  unfold primitiveType? at h
  split at h <;> cases h <;> rfl

theorem run_namedType (hs : Good text s) (ht : s.lexer.token ≠ .endOfFile) :
    Run (namedType inner) c s fun id s' => Yields text false s [id] s' := by
  simp only [namedType, run_bind, run_steps, run_ite]
  split
  · exact genericType_rule hinner c s hs
  · split
    · rename_i hkind
      exact run_tokenType hs ht (isEmpty_primitiveType? hkind)
    · exact genericType_rule hinner c s hs

omit hinner in
theorem run_negativeNumberType (hs : Good text s) (ht : s.lexer.token = .minus)
    (hnumber : s.lexer.next.token = .number) :
    Run negativeNumberType c s fun id s' => Yields text false s [id] s' := by
  simp only [negativeNumberType, tokenType, run_bind, run_steps, run_pure]
  refine ((run_advance hs (by simp [ht])).and run_advance_next).mono fun _ s₁ h₁ => ?_
  have hnumber : s₁.lexer.token = .number := by rw [h₁.2, hnumber]
  refine (run_advance h₁.1.good (by simp [hnumber])).mono fun _ s₂ h₂ => ?_
  refine (run_finishWith h₂ rfl rfl rfl (by decide)).mono fun id s₃ h₃ => ?_
  have hbuilds := h₁.1.toBuilds.trans h₃.toBuilds
  refine (run_stretch hbuilds h₃.last h₃.face ?_ rfl rfl).mono
    fun _ s₄ h₄ => ⟨h₄.1, by simp⟩
  intro node hface
  have hend : node.stop = s₃.lastEnd := (congrArg Face.stop hface).trans h₃.lastEnd.symm
  rw [← hend]

theorem primaryType_rule : Rule text false (primaryType inner) := by
  intro c s hs
  simp only [primaryType, finish, run_bind, run_steps]
  have htoken : ∀ {t : Token} {kind : NodeKind}, s.lexer.token = t → t ≠ .endOfFile →
      (kind.isPlain && kind.schema.isEmpty) = true →
      Run (tokenType kind) c s fun id s' => Yields text false s [id] s' :=
    fun ht hne hkind => run_tokenType hs (ht ▸ hne) hkind
  split
  · exact parenthesizedType_rule hinner c s hs
  · exact run_functionType hinner (.refl hs) rfl (by decide)
  · exact objectType_rule hinner false c s hs
  · exact tupleType_rule hinner c s hs
  · rename_i ht
    rw [run_bind]
    refine (run_advance hs (by simp [ht])).mono fun _ s₁ h₁ => ?_
    rw [run_bind]
    refine (hinner.primaryType c s₁ h₁.good).mono fun argument s₂ h₂ => ?_
    exact run_finish (h₁.trans h₂) rfl (by simp) rfl (by decide)
  · exact htoken ‹_› (by decide) (by decide)
  · exact htoken ‹_› (by decide) (by decide)
  · exact htoken ‹_› (by decide) (by decide)
  · rename_i ht
    simp only [run_bind, run_steps, run_ite]
    split
    · rename_i hnext
      exact run_negativeNumberType hs ht (by simpa using hnext)
    · trivial
  · exact htoken ‹_› (by decide) (by decide)
  · exact htoken ‹_› (by decide) (by decide)
  · exact htoken ‹_› (by decide) (by decide)
  · exact htoken ‹_› (by decide) (by decide)
  · rw [run_ite]
    split
    · rename_i hname
      exact run_namedType hinner hs (ne_endOfFile Token.isName hname (by decide))
    · simp only [run_steps]

theorem postfixType_rule : Rule text false (postfixType inner) := by
  intro c s hs
  simp only [postfixType, finish, run_bind, run_steps]
  refine (primaryType_rule hinner c s hs).mono fun type s₁ h₁ => ?_
  refine run_iterate (fun type s' => Yields text false s [type] s') h₁ ?_
  intro type s₂ h₂
  simp only [run_bind, run_steps, run_ite, run_pure]
  split
  · exact h₂
  · split
    · rename_i hopen hclose
      have hopen : s₂.lexer.token ≠ .endOfFile := fun heq => by simp [heq] at hopen
      refine ((run_advance h₂.good hopen).and run_advance_next).mono fun _ s₃ ⟨h₃, hnext⟩ => ?_
      have hclose : s₃.lexer.token ≠ .endOfFile := fun heq => by simp [← hnext, heq] at hclose
      refine (run_advance h₃.good hclose).mono fun _ s₄ h₄ => ?_
      have hread := (h₂.andThen (h₃.andThen h₄.toYields).toYields).reads type (by simp)
      exact run_finish hread rfl (by simp) rfl (by decide)
    · exact h₂

theorem prefixType_rule : Rule text false (prefixType inner) := by
  intro c s hs
  simp only [prefixType, finish, run_bind, run_steps, run_ite]
  split
  · rename_i ht
    refine (run_advance hs (by simp_all)).mono
      fun _ s₁ h₁ => ?_
    refine (hinner.prefixType c s₁ h₁.good).mono fun type s₂ h₂ => ?_
    exact run_finish (h₁.trans h₂) rfl (by simp) rfl (by decide)
  · exact postfixType_rule hinner c s hs

omit hinner in
theorem typeList_rule {separator : Token} {kind : NodeKind} {member : Parser NodeId}
    (hmember : Rule text false member) (hseparator : separator ≠ .endOfFile)
    (hkind : (kind.isPlain && !kind.asks) = true) (hadmits : ∀ items, kind.admits [.list items]) :
    Rule text false (typeList separator kind member) := by
  intro c s hs
  simp only [typeList, finish, listFrom, run_bind, run_steps, run_ite, run_pure]
  refine (run_accept hs hseparator).mono fun _ s₁ h₁ => ?_
  refine (hmember c s₁ h₁.1.good).mono fun first s₂ h₂ => ?_
  refine (run_collect_nodes (v := false) h₂.good fun s hs => ?_).mono fun more s₃ h₃ => ?_
  · simp only [isSeparator, run_bind, run_steps, run_ite, run_map, run_pure]
    split
    · rename_i ht
      split
      · have hne : s.lexer.token ≠ .endOfFile := by simp_all
        refine (run_advance hs hne).mono fun _ s₁ h₁ => ?_
        exact (hmember c s₁ h₁.good).mono fun id s₂ h₂ => h₁.toYields.before h₂
      · exact .refl hs
    · exact .refl hs
  · split
    · rename_i hempty
      obtain rfl := List.isEmpty_iff.mp hempty
      exact h₁.1.before (h₂.andThen ⟨h₃.toBuilds, by simp⟩)
    · have hread := (h₁.1.trans (h₂.trans h₃)).reads first (by simp)
      exact run_finishWhole hread (by simp) (hadmits _) (by simpa using hkind)

theorem intersectionType_rule : Rule text false (intersectionType inner) :=
  typeList_rule (prefixType_rule hinner) (by decide) (by decide) (fun _ => rfl)

theorem unionType_rule : Rule text false (unionType inner) :=
  typeList_rule (intersectionType_rule hinner) (by decide) (by decide) (fun _ => rfl)

end

end FlowErasure.Grammar
