import FlowErasure.Proofs.Frame.Parsers

/-!
# Parsers that answer

`Gives p c s Q` says that the parser `p` does answer from the state `s`, and that `Q` holds of what
it answers. With the rules below a parser is run step by step on a text that is known.
-/

namespace FlowErasure.Grammar

variable {α β : Type} {c : Context} {s : State}

def Gives (p : Parser α) (c : Context) (s : State) (Q : α → State → Prop) : Prop :=
  ∃ a s', p c s = .ok a s' ∧ Q a s'

theorem gives_of_eq {p : Parser α} {a : α} {s' : State} {Q : α → State → Prop}
    (h : p c s = .ok a s') : Gives p c s Q ↔ Q a s' := by
  simp [Gives, h]

theorem gives_bind {p : Parser α} {f : α → Parser β} {Q : β → State → Prop} :
    Gives (p >>= f) c s Q ↔ Gives p c s fun a s' => Gives (f a) c s' Q := by
  constructor
  · rintro ⟨b, s', hrun, hq⟩
    obtain ⟨a, s₁, hfirst, hrest⟩ := of_bind_ok hrun
    exact ⟨a, s₁, hfirst, b, s', hrest, hq⟩
  · rintro ⟨a, s₁, hfirst, b, s', hrest, hq⟩
    exact ⟨b, s', (bind_ok hfirst).trans hrest, hq⟩

theorem gives_pure {a : α} {Q : α → State → Prop} : Gives (pure a) c s Q ↔ Q a s :=
  gives_of_eq rfl

theorem gives_map {p : Parser α} {f : α → β} {Q : β → State → Prop} :
    Gives (f <$> p) c s Q ↔ Gives p c s fun a s' => Q (f a) s' := by
  have hmap : f <$> p = p >>= fun a => pure (f a) := rfl
  rw [hmap, gives_bind]
  simp only [gives_pure]

theorem gives_ite {q : Prop} [Decidable q] {p p' : Parser α} {Q : α → State → Prop} :
    Gives (if q then p else p') c s Q ↔ if q then Gives p c s Q else Gives p' c s Q := by
  split <;> rfl

theorem Gives.mono {p : Parser α} {P Q : α → State → Prop} (h : Gives p c s P)
    (himp : ∀ a s', P a s' → Q a s') : Gives p c s Q := by
  obtain ⟨a, s', hrun, hp⟩ := h
  exact ⟨a, s', hrun, himp a s' hp⟩

theorem gives_steps :
    (∀ {c s} {Q : Token → State → Prop}, Gives token c s Q ↔ Q s.lexer.token s) ∧
    (∀ {c s} {Q : Nat → State → Prop}, Gives tokenStart c s Q ↔ Q s.lexer.start s) ∧
    (∀ {c s t} {Q : Bool → State → Prop}, Gives (isAt t) c s Q ↔ Q (s.lexer.token == t) s) ∧
    (∀ {c s ts} {Q : Bool → State → Prop}, Gives (isAtAny ts) c s Q ↔
      Q (ts.contains s.lexer.token) s) ∧
    (∀ {c s} {Q : Bool → State → Prop}, Gives afterLineBreak c s Q ↔
      Q s.lexer.flags.lineBreakBefore s) ∧
    (∀ {c s} {Q : Nat → State → Prop}, Gives lastEnd c s Q ↔ Q s.lastEnd s) ∧
    (∀ {c s} {Q : State → State → Prop}, Gives get c s Q ↔ Q s s) ∧
    (∀ {c s} {Q : Context → State → Prop}, Gives read c s Q ↔ Q c s) ∧
    (∀ {c s f} {Q : Unit → State → Prop}, Gives (modify f) c s Q ↔ Q () (f s)) ∧
    (∀ {c s node} {Q : NodeId → State → Prop}, Gives (addNode node) c s Q ↔
      Q s.tree.size { s with tree := (s.tree.add node).2 }) ∧
    (∀ {c s} {Q : Atom → State → Prop}, Gives tokenAtom c s Q ↔
      Q (s.tree.names.intern s.lexer.value).1
        { s with tree := { s.tree with names := (s.tree.names.intern s.lexer.value).2 } }) ∧
    (∀ {α : Type} {c s f} {p : Parser α} {Q : α → State → Prop}, Gives (withReader f p) c s Q ↔
      Gives p (f c) s Q) :=
  ⟨gives_of_eq rfl, gives_of_eq rfl, gives_of_eq rfl, gives_of_eq rfl, gives_of_eq rfl,
    gives_of_eq rfl, gives_of_eq rfl, gives_of_eq rfl, gives_of_eq rfl, gives_of_eq rfl,
    gives_of_eq rfl, Iff.rfl⟩

theorem gives_advance {Q : Unit → State → Prop} (h : s.lexer.next.fault = none) :
    Gives advance c s Q ↔ Q () { s with lastEnd := s.lexer.pos, lexer := s.lexer.next } := by
  simp only [advance, raiseFault, gives_bind, gives_steps, h, gives_pure]

theorem gives_expect {t : Token} {Q : Unit → State → Prop} (ht : s.lexer.token = t)
    (h : s.lexer.next.fault = none) :
    Gives (expect t) c s Q ↔ Q () { s with lastEnd := s.lexer.pos, lexer := s.lexer.next } := by
  simp only [expect, gives_bind, gives_steps, gives_ite, ht, beq_self_eq_true, if_true,
    gives_advance h]

variable {step : α → Parser (Option α)} {a : α} {Q : α → State → Prop}

theorem gives_iterate_one (h : Gives (step a) c s fun r s' => r = none ∧ Q a s') :
    Gives (iterate step a) c s Q := by
  simp only [iterate, gives_bind, gives_steps, iterateWithin]
  refine h.mono fun r s' hr => ?_
  simp only [hr.1, gives_pure, hr.2]

theorem gives_iterate_two (h : Gives (step a) c s fun r s' => ∃ b, r = some b ∧
      Gives (step b) c s' fun r s'' => r = none ∧ Q b s'') : Gives (iterate step a) c s Q := by
  simp only [iterate, gives_bind, gives_steps, iterateWithin]
  refine h.mono fun r s' ⟨b, hr, hb⟩ => ?_
  subst hr
  simp only [gives_bind]
  refine hb.mono fun r s'' hr => ?_
  simp only [hr.1, gives_pure, hr.2]

end FlowErasure.Grammar
