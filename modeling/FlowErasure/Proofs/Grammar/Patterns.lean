import FlowErasure.Grammar.Patterns
import FlowErasure.Proofs.Grammar.Types

/-!
# Binding patterns

Names, patterns and parameters are never types, though types may hang on them.
-/

namespace FlowErasure.Grammar

variable {text : List Char} {inner : Nested} {c : Context} {s s₀ : State}

section

variable (hinner : inner.Sound text)

include hinner

theorem run_propertyName (hs : Good text s) :
    Run (propertyName inner) c s fun r s' => Yields text true s [r.1] s' := by
  simp only [propertyName, run_bind, run_steps]
  split
  · rename_i ht
    simp only [run_bind, run_steps, run_pure]
    refine (run_advance hs (by simp [ht])).mono fun _ s₁ h₁ => ?_
    refine (hinner.assignment _ s₁ h₁.good).mono fun key s₂ h₂ => ?_
    refine (run_expect h₂.good (by decide)).mono fun _ s₃ h₃ => ?_
    exact h₁.toYields.before (h₂.andThen h₃.toYields)
  · rename_i ht
    simp only [run_bind, run_pure]
    exact run_literal hs (by simp [ht])
  · rename_i ht
    simp only [run_bind, run_pure]
    exact run_literal hs (by simp [ht])
  · simp only [run_bind, run_pure]
    exact identifierName_rule c s hs

theorem bindingIdentifier_rule (allowOptional : Bool) :
    Rule text true (bindingIdentifier inner allowOptional) := by
  intro c s hs
  simp only [bindingIdentifier, finish, run_bind, run_steps, run_ite, run_map, run_pure]
  refine run_isIdentifier fun b hb => ?_
  split
  · trivial
  · rename_i hname
    have ht : s.lexer.token ≠ .endOfFile := hb (by simpa using hname)
    refine (run_tokenAtom hs).mono fun name s₁ h₁ => ?_
    refine (run_advance h₁.1.good (h₁.2 ▸ ht)).mono fun _ s₂ h₂ => ?_
    have hread : Reads text true s [] s₂ := h₁.1.transReads h₂
    have hend : ∀ (optional : Option NodeId) s₃, Yields text false s₂ optional.toList s₃ →
        Run (ascription? inner) c s₃ fun type s' =>
          Run (finishWith .identifier s.lexer.start [.ofOption optional, .ofOption type] { name }) c
            s' fun id s' => Yields text true s [id] s' := by
      intro optional s₃ h₃
      refine (ascription?_rule hinner c s₃ h₃.good).mono fun type s₄ h₄ => ?_
      exact run_finish (hread.trans (h₃.trans h₄)) rfl (by simp)
        (by simp [NodeKind.admits, NodeKind.schema]) (by decide)
    split
    · rename_i hmark
      have hquestion : s₂.lexer.token = .question := by
        simp only [Bool.and_eq_true, beq_iff_eq] at hmark
        exact hmark.2
      refine (run_advance h₂.good (by simp [hquestion])).mono fun _ s₃ h₃ => ?_
      refine (run_finishWith h₃ rfl rfl rfl (by decide)).mono fun mark s₄ h₄ => ?_
      exact hend (some mark) s₄ (h₄.yields rfl)
    · exact hend none s₂ (.refl h₂.good)

theorem bindingElement_rule (allowOptional : Bool) :
    Rule text true (bindingElement inner allowOptional) := by
  intro c s hs
  simp only [bindingElement, finish, run_bind, run_steps, run_ite, run_pure]
  refine (hinner.bindingTarget allowOptional c s hs).mono fun target s₁ h₁ => ?_
  refine (run_accept h₁.good (by decide)).mono fun b s₂ h₂ => ?_
  split
  · refine (hinner.assignment _ s₂ h₂.1.good).mono fun value s₃ h₃ => ?_
    have hread := ((h₁.andThen h₂.1).trans h₃).reads target (by simp)
    exact run_finish hread rfl (by simp) rfl (by decide)
  · exact h₁.andThen h₂.1

theorem run_shorthandDefault {start : Nat} {name : NodeId} (h : Yields text true s₀ [name] s)
    (hstart : start = s₀.lexer.start) :
    Run (shorthandDefault inner start name) c s fun id s' => Yields text true s₀ [id] s' := by
  simp only [shorthandDefault, finish, run_bind, run_ite, run_pure]
  refine (run_accept h.good (by decide)).mono fun b s₁ h₁ => ?_
  split
  · refine (hinner.assignment c s₁ h₁.1.good).mono fun value s₂ h₂ => ?_
    have hread := ((h.andThen h₁.1).trans h₂).reads name (by simp)
    exact run_finish hread hstart (by simp) rfl (by decide)
  · exact h.andThen h₁.1

theorem bindingProperty_rule : Rule text true (bindingProperty inner) := by
  intro c s hs
  simp only [bindingProperty, run_bind, run_steps, run_ite]
  refine run_isIdentifier fun canBeShorthand _ => ?_
  refine (run_propertyName hinner hs).mono fun r s₁ h₁ => ?_
  refine (run_accept h₁.good (by decide)).mono fun b s₂ h₂ => ?_
  split
  · refine (bindingElement_rule hinner false c s₂ h₂.1.good).mono fun value s₃ h₃ => ?_
    have hread := ((h₁.andThen h₂.1).trans h₃).reads r.1 (by simp)
    exact run_finish hread rfl (by simp) rfl (by decide)
  · split
    · refine (run_shorthandDefault hinner (h₁.andThen h₂.1) rfl).mono fun value s₃ h₃ => ?_
      exact run_finish (h₃.reads value (by simp)) rfl (by simp) rfl (by decide)
    · trivial

omit hinner in
theorem restElement_rule {target : Parser NodeId} (htarget : Rule text true target) :
    Rule text true (restElement target) := by
  intro c s hs
  simp only [restElement, finish, run_bind, run_steps]
  refine (run_expect hs (by decide)).mono fun _ s₁ h₁ => ?_
  refine (htarget c s₁ h₁.good).mono fun argument s₂ h₂ => ?_
  exact run_finish (h₁.trans h₂) rfl (by simp) rfl (by decide)

omit hinner in
/-- A pattern of its parts, with the type that may hang on it. -/
theorem run_finishPattern {kind : NodeKind} {nodes : List (Option NodeId)} {ids : List NodeId}
    {type : Option NodeId} {s₁ : State} (h : Reads text true s₀ ids s)
    (hnodes : nodes.filterMap id = ids) (h' : Yields text false s type.toList s₁)
    (hkind : kind = .objectPattern ∨ kind = .arrayPattern) :
    Run (finishWith kind s₀.lexer.start
      [.list ⟨nodes, s₀.lexer.start, s.lastEnd⟩, .ofOption type] {}) c s₁
      fun id s' => Yields text true s₀ [id] s' := by
  subst hnodes
  have hlists := h'.keptWithin (h.within nodes (List.Subset.refl _)) (Nat.le_refl _) h'.stop
  have hneeded : ∀ c ∈ nodes.filterMap id ++ [], s₁.tree.IsValue c := fun c hc =>
    h'.isValue (h.values rfl c (by simpa using hc))
  have hadmits : kind.admits [.list ⟨nodes, s₀.lexer.start, s.lastEnd⟩, .ofOption type] := by
    rcases hkind with rfl | rfl <;> simp [NodeKind.admits, NodeKind.schema]
  have hplain : kind.isPlain := by rcases hkind with rfl | rfl <;> rfl
  refine (run_finishOrdinary (h.trans h') rfl (by simp) hadmits
    (NodeKind.isOrdinary_of_isPlain hplain) (by simpa using hlists) ?_
    (by simp [NodeKind.embedded_eq_nil hplain])
    (.of_isBlockless (NodeKind.isBlockless_of_isPlain hplain))).mono fun _ _ hid => hid.yields ?_
  · rcases hkind with rfl | rfl <;> exact hneeded
  · rcases hkind with rfl | rfl <;> rfl

theorem objectPattern_rule {rest : Parser NodeId} (hrest : Rule text true rest) :
    Rule text true (objectPattern inner rest) := by
  intro c s hs
  simp only [objectPattern, finish, listFrom, run_bind, run_steps, run_pure]
  refine (run_expect hs (by decide)).mono fun _ s₁ h₁ => ?_
  refine (run_commaTerminated (v := true) h₁.good fun s hs => ?_).mono fun properties s₂ h₂ => ?_
  · simp only [run_bind, run_steps, run_ite]
    split
    · exact hrest c s hs
    · exact bindingProperty_rule hinner c s hs
  · refine (run_expect h₂.good (by decide)).mono fun _ s₃ h₃ => ?_
    refine (ascription?_rule hinner c s₃ h₃.good).mono fun type s₄ h₄ => ?_
    exact run_finishPattern ((h₁.trans h₂).andThen h₃.toYields) (by simp) h₄ (.inl rfl)

omit hinner in
theorem run_elements {element : Parser NodeId} (hs : Good text s)
    (helement : ∀ s, Good text s → Run element c s fun id s' => Yields text true s [id] s') :
    Run (elements element) c s fun nodes s' => Yields text true s (nodes.filterMap id) s' := by
  unfold elements
  have hround : ∀ s, Good text s → Run (do
      if ← isAt .closeBracket then return none
      if ← accept .comma then return some none
      let node ← element
      unless ← isAt .closeBracket do expect .comma
      return some (some node)) c s (Round text true Option.toList s) := by
    intro s hs
    simp only [run_bind, run_steps, run_ite, run_pure]
    split
    · exact .refl hs
    · refine (run_accept hs (by decide)).mono fun b s₁ h₁ => ?_
      split
      · exact h₁.1
      · refine (helement s₁ h₁.1.good).mono fun node s₂ h₂ => ?_
        have hnode := h₁.1.before h₂
        split
        · exact hnode
        · exact (run_expect h₂.good (by decide)).mono fun _ s₃ h₃ => hnode.andThen h₃.toYields
  refine (run_collect hs hround).mono fun nodes s' h => ?_
  rwa [← List.filterMap_eq_flatMap_toList] at h

theorem arrayPattern_rule {rest : Parser NodeId} (hrest : Rule text true rest) :
    Rule text true (arrayPattern inner rest) := by
  intro c s hs
  simp only [arrayPattern, finish, run_bind, run_steps]
  refine (run_expect hs (by decide)).mono fun _ s₁ h₁ => ?_
  refine (run_elements h₁.good fun s hs => ?_).mono fun nodes s₂ h₂ => ?_
  · simp only [run_bind, run_steps, run_ite]
    split
    · exact hrest c s hs
    · exact bindingElement_rule hinner false c s hs
  · refine (run_expect h₂.good (by decide)).mono fun _ s₃ h₃ => ?_
    refine (ascription?_rule hinner c s₃ h₃.good).mono fun type s₄ h₄ => ?_
    exact run_finishPattern ((h₁.trans h₂).andThen h₃.toYields) rfl h₄ (.inr rfl)

theorem bindingTargetWithin_rule (bound : Nat) (allowOptional : Bool) :
    Rule text true (bindingTargetWithin inner bound allowOptional) := by
  induction bound generalizing allowOptional with
  | zero =>
      intro c s _
      exact run_failUnexpected.mpr trivial
  | succ bound ih =>
      intro c s hs
      have hrest := restElement_rule (ih false)
      simp only [bindingTargetWithin, run_bind, run_steps]
      split
      · exact objectPattern_rule hinner hrest c s hs
      · exact arrayPattern_rule hinner hrest c s hs
      · exact bindingIdentifier_rule hinner allowOptional c s hs

theorem bindingTarget_rule (allowOptional : Bool) :
    Rule text true (bindingTarget inner allowOptional) := by
  intro c s hs
  simp only [bindingTarget, run_bind, run_steps]
  exact bindingTargetWithin_rule hinner _ allowOptional c s hs

structure ReadsList (text : List Char) (v : Bool) (s₀ : State) (slot : Slot) (s : State) : Prop extends
    Reads text v s₀ slot.children s where
  within : s.tree.Within s₀.lexer.start s.lastEnd slot
  isList : ∃ items, slot = .list items

omit hinner in
theorem Reads.list {v : Bool} {ids : List NodeId} (h : Reads text v s₀ ids s)
    (nodes : List (Option NodeId)) (hnodes : nodes.filterMap id = ids) :
    ReadsList text v s₀ (.list ⟨nodes, s₀.lexer.start, s.lastEnd⟩) s := by
  subst hnodes
  exact ⟨h, h.within nodes (List.Subset.refl _), _, rfl⟩

theorem run_parameterList (hs : Good text s) :
    Run (parameterList inner) c s fun params s' => ReadsList text true s params s' := by
  simp only [parameterList, listFrom, run_bind, run_steps, run_pure]
  refine (run_expect hs (by decide)).mono fun _ s₁ h₁ => ?_
  refine run_iterate (fun a s' => Yields text true s₁ a.1.reverse s') (.refl h₁.good) ?_
  rintro ⟨params, ended⟩ s₂ h₂
  simp only [run_bind, run_steps, run_ite, run_pure]
  split
  · refine (run_expect h₂.good (by decide)).mono fun _ s₃ h₃ => ?_
    exact (h₁.trans (h₂.andThen h₃.toYields)).list _ (by simp)
  · split
    · have hrest := restElement_rule (bindingTarget_rule hinner false)
      refine (hrest c s₂ h₂.good).mono fun param s₃ h₃ => ?_
      split
      · trivial
      · simpa using h₂.trans h₃
    · refine (bindingElement_rule hinner true c s₂ h₂.good).mono fun param s₃ h₃ => ?_
      have hparams : Yields text true s₁ (param :: params).reverse s₃ := by
        simpa using h₂.trans h₃
      split
      · exact hparams
      · exact (run_expect h₃.good (by decide)).mono fun _ s₄ h₄ => hparams.andThen h₄.toYields

end

end FlowErasure.Grammar
