import FlowErasure.Grammar.Lookahead
import Mathlib.Order.Basic

/-!
# Logics of parsers

Whatever is shown of the rules of the grammar is shown of each from its parts, and for a choice, a loop
or a list that goes the same way every time. In a `Logic`, `Holds φ p ψ` says that `ψ a` is known where
`p` answers with `a`, if `φ` is known where it starts. From the laws of a logic its rules for what is
made of parts follow here once. What may be known is up to the logic: a proposition about the answers
so far, or where the lexer is. One for an invariant does not ask what is known.
-/

namespace FlowErasure.Grammar

structure Logic (A : Type) [Preorder A] where
  Holds {α : Type} : A → Parser α → (α → A) → Prop
  pure {α : Type} (ψ : α → A) (a : α) : Holds (ψ a) (pure a) ψ
  bind {α β : Type} {φ : A} {p : Parser α} {χ : α → A} {f : α → Parser β} {ψ : β → A} :
    Holds φ p χ → (∀ a, Holds (χ a) (f a) ψ) → Holds φ (p >>= f) ψ
  mono {α : Type} {φ φ' : A} {p : Parser α} {ψ ψ' : α → A} :
    Holds φ p ψ → φ' ≤ φ → (∀ a, ψ a ≤ ψ' a) → Holds φ' p ψ'
  get (φ : A) : Holds φ get fun _ => φ
  /-- The failure that ends a loop which has run for too long. -/
  stuck {α : Type} (φ : A) (ψ : α → A) : Holds φ failUnexpected ψ

namespace Logic

variable {A : Type} [Preorder A] (L : Logic A) {α β γ : Type} {φ : A} {p p' : Parser α}
  {f : α → Parser β} {χ : α → A} {ψ : β → A}

theorem map {g : α → β} (hp : L.Holds φ p fun a => ψ (g a)) : L.Holds φ (g <$> p) ψ :=
  L.bind hp fun a => L.pure ψ (g a)

/-! ## Choices -/

theorem ite {q : Prop} [Decidable q] (h : q → L.Holds φ p χ) (h' : ¬q → L.Holds φ p' χ) :
    L.Holds φ (if q then p else p') χ := by
  split
  · exact h ‹q›
  · exact h' ‹¬q›

/-- A step that is taken on one of two ways to what comes next. -/
theorem when {q : Prop} [Decidable q] {p : Parser Unit} {f : Unit → Parser β}
    (hp : L.Holds φ p fun _ => φ) (hf : L.Holds φ (f ()) ψ) :
    L.Holds φ (if q then p >>= f else f ()) ψ :=
  L.ite (fun _ => L.bind hp fun _ => hf) fun _ => hf

theorem whenNot {q : Prop} [Decidable q] {p : Parser Unit} {f : Unit → Parser β}
    (hp : L.Holds φ p fun _ => φ) (hf : L.Holds φ (f ()) ψ) :
    L.Holds φ (if q then f () else p >>= f) ψ :=
  L.ite (fun _ => hf) fun _ => L.bind hp fun _ => hf

theorem join {q : Prop} [Decidable q] (hp : q → L.Holds φ p χ) (hp' : ¬q → L.Holds φ p' χ)
    (hf : ∀ a, L.Holds (χ a) (f a) ψ) : L.Holds φ (if q then p >>= f else p' >>= f) ψ :=
  L.ite (fun hq => L.bind (hp hq) hf) fun hq => L.bind (hp' hq) hf

/-! ## Loops -/

theorem isAt (t : Token) (φ : A) : L.Holds φ (isAt t) fun _ => φ :=
  L.bind (L.bind (L.get φ) fun _ => L.pure (fun _ => φ) _) fun _ => L.pure (fun _ => φ) _

variable {step : α → Parser (Option α)} {I E : α → A}

theorem iterateWithin (hstep : ∀ a, L.Holds (I a) (step a) fun r => r.elim (E a) I)
    (bound : Nat) (a : α) : L.Holds (I a) (iterateWithin step bound a) E := by
  induction bound generalizing a with
  | zero => exact L.stuck (I a) E
  | succ bound ih =>
      refine L.bind (hstep a) fun r => ?_
      cases r with
      | none => exact L.pure E a
      | some b => exact ih b

/-- What each round of a loop hands on, the loop ends with. -/
theorem iterate (hstep : ∀ a, L.Holds (I a) (step a) fun r => r.elim (E a) I) (a : α) :
    L.Holds (I a) (iterate step a) E :=
  L.bind (L.get (I a)) fun s => L.iterateWithin hstep (s.lexer.bytesLeft + 2) a

/-- What is known may depend on the items that have been run and on what they have answered. -/
theorem mapM {g : γ → Parser α} {items : List γ} {I : List γ → List α → A}
    (h : ∀ item ∈ items, ∀ done read,
      L.Holds (I done read) (g item) fun a => I (done ++ [item]) (read ++ [a])) :
    ∀ done read, L.Holds (I done read) (items.mapM g) fun more => I (done ++ items) (read ++ more) := by
  induction items with
  | nil =>
      intro done read
      rw [List.append_nil]
      simpa using L.pure (fun more => I done (read ++ more)) []
  | cons item items ih =>
      intro done read
      rw [List.mapM_cons]
      refine L.bind (h item (by simp) done read) fun a => ?_
      have hrest := ih (fun item hitem => h item (by simp [hitem])) (done ++ [item]) (read ++ [a])
      refine L.bind hrest fun more => ?_
      simpa using L.pure (fun more => I (done ++ item :: items) (read ++ more)) (a :: more)

/-! ## Lists -/

section

variable {one : Parser α} {close : Token} {I J E : List α → A}

theorem collect {item : Parser (Option α)}
    (hitem : ∀ read, L.Holds (I read) item fun r => r.elim (E read) fun a => I (a :: read)) :
    L.Holds (I []) (collect item) fun items => E items.reverse := by
  refine L.map (L.mono (L.iterate (E := E) (fun read => L.bind (hitem read) fun r => ?_) [])
    le_rfl fun items => by rw [List.reverse_reverse])
  cases r with
  | none => exact L.pure (fun r => r.elim (E read) I) none
  | some a => exact L.pure (fun r => r.elim (E read) I) (some (a :: read))

theorem commaTerminated (hone : ∀ read, L.Holds (I read) one fun a => J (a :: read))
    (hclosed : ∀ read, L.Holds (J read) (Grammar.isAt close) fun closed =>
      if closed then I read else J read)
    (hcomma : ∀ read, L.Holds (J read) (expect .comma) fun _ => I read) :
    L.Holds (I []) (commaTerminated close one) fun items => I items.reverse := by
  refine L.collect fun read => L.bind (L.isAt close (I read)) fun closed => L.ite (fun _ => ?_)
    fun _ => L.bind (hone read) fun a => L.bind (hclosed (a :: read)) fun closed => ?_
  · exact L.pure (fun r : Option α => r.elim (I read) fun a => I (a :: read)) none
  · have hanswer := L.pure (fun r : Option α => r.elim (I read) fun a => I (a :: read)) (some a)
    cases closed with
    | true => exact hanswer
    | false => exact L.bind (hcomma (a :: read)) fun _ => hanswer

theorem afterComma (hone : ∀ read, L.Holds (J read) one fun a => I (a :: read))
    (hcomma : ∀ read, L.Holds (I read) (accept .comma) fun more =>
      if more then J read else I read) :
    L.Holds (I []) (Grammar.collect do if ← accept .comma then some <$> one else return none)
      fun items => I items.reverse := by
  refine L.collect fun read => L.bind (hcomma read) fun more => ?_
  cases more with
  | true => exact L.map (hone read)
  | false => exact L.pure (fun r : Option α => r.elim (I read) fun a => I (a :: read)) none

theorem commaSeparated (hone : ∀ read, L.Holds (J read) one fun a => I (a :: read))
    (hcomma : ∀ read, L.Holds (I read) (accept .comma) fun more =>
      if more then J read else I read) :
    L.Holds (J []) (commaSeparated one) fun items => I items.reverse := by
  refine L.bind (hone []) fun first => ?_
  have hmore := L.afterComma (I := fun read => I (read ++ [first]))
    (J := fun read => J (read ++ [first])) (fun read => hone (read ++ [first]))
    fun read => hcomma (read ++ [first])
  refine L.bind hmore fun more => ?_
  simpa using L.pure (fun items => I items.reverse) (first :: more)

theorem commaDelimited (hone : ∀ read, L.Holds (I read) one fun a => J (a :: read))
    (hcomma : ∀ read, L.Holds (J read) (accept .comma) fun _ => I read) :
    L.Holds (I []) (commaDelimited close one) fun items => I items.reverse := by
  refine L.bind (L.iterate (I := fun a => I a.1) (E := fun a => I a.1) ?_ ([], true)) fun a => ?_
  · rintro ⟨read, more⟩
    refine L.bind (L.isAt close (I read)) fun closed => L.ite (fun _ => ?_) fun _ =>
      L.bind (hone read) fun a => L.bind (hcomma (a :: read)) fun more => ?_
    · exact L.pure (fun r : Option (List α × Bool) => r.elim (I read) fun a => I a.1) none
    · exact L.pure (fun r : Option (List α × Bool) => r.elim (I read) fun a => I a.1)
        (some (a :: read, more))
  · simpa using L.pure (fun items => I items.reverse) a.1.reverse

end

end Logic

/-! ## What answers are -/

/-- Whatever is known before the parser is known after it, too, and its answer has the property. -/
def Logic.Gives {α : Type} (L : Logic Prop) (p : Parser α) (P : α → Prop) : Prop :=
  ∀ φ, L.Holds φ p fun a => φ ∧ P a

namespace Logic.Gives

variable {L : Logic Prop} {α : Type} {one : Parser α} {close : Token} {P : α → Prop}

theorem add (hone : L.Gives one P) (φ : Prop) (read : List α) :
    L.Holds (φ ∧ ∀ a ∈ read, P a) one fun a => φ ∧ ∀ b ∈ a :: read, P b :=
  L.mono (hone _) le_rfl fun _ ⟨⟨hφ, hread⟩, ha⟩ => ⟨hφ, List.forall_mem_cons.mpr ⟨ha, hread⟩⟩

theorem ofReversed {p : Parser (List α)}
    (h : ∀ φ, L.Holds (φ ∧ ∀ a ∈ [], P a) p fun items => φ ∧ ∀ a ∈ items.reverse, P a) :
    L.Gives p fun items => ∀ a ∈ items, P a :=
  fun φ => L.mono (h φ) (fun hφ => ⟨hφ, List.forall_mem_nil P⟩) fun _ ⟨hφ, hitems⟩ =>
    ⟨hφ, fun a ha => hitems a (List.mem_reverse.mpr ha)⟩

theorem collect {item : Parser (Option α)} (hitem : L.Gives item fun r => ∀ a ∈ r, P a) :
    L.Gives (Grammar.collect item) fun items => ∀ a ∈ items, P a := by
  refine .ofReversed fun φ => L.collect (I := fun read => φ ∧ ∀ a ∈ read, P a)
    (E := fun read => φ ∧ ∀ a ∈ read, P a) fun read => ?_
  refine L.mono (hitem _) le_rfl fun r ⟨⟨hφ, hread⟩, hr⟩ => ?_
  cases r with
  | none => exact ⟨hφ, hread⟩
  | some a => exact ⟨hφ, List.forall_mem_cons.mpr ⟨hr a rfl, hread⟩⟩

theorem commaTerminated (hone : L.Gives one P) (hcomma : L.Gives (expect .comma) fun _ => True) :
    L.Gives (Grammar.commaTerminated close one) fun items => ∀ a ∈ items, P a :=
  .ofReversed fun φ => L.commaTerminated (I := fun read => φ ∧ ∀ a ∈ read, P a) (hone.add φ)
    (fun read => L.mono (L.isAt close _) le_rfl fun closed h => by simpa using h)
    fun read => L.mono (hcomma _) le_rfl fun _ h => h.1

theorem afterComma (hone : L.Gives one P) (hcomma : L.Gives (accept .comma) fun _ => True) :
    L.Gives (Grammar.collect do if ← accept .comma then some <$> one else return none) fun items =>
      ∀ a ∈ items, P a :=
  .ofReversed fun φ => L.afterComma (I := fun read => φ ∧ ∀ a ∈ read, P a) (hone.add φ)
    fun read => L.mono (hcomma _) le_rfl fun more h => by simpa using h.1

theorem commaSeparated (hone : L.Gives one P) (hcomma : L.Gives (accept .comma) fun _ => True) :
    L.Gives (Grammar.commaSeparated one) fun items => ∀ a ∈ items, P a :=
  .ofReversed fun φ => L.commaSeparated (I := fun read => φ ∧ ∀ a ∈ read, P a) (hone.add φ)
    fun read => L.mono (hcomma _) le_rfl fun more h => by simpa using h.1

theorem commaDelimited (hone : L.Gives one P) (hcomma : L.Gives (accept .comma) fun _ => True) :
    L.Gives (Grammar.commaDelimited close one) fun items => ∀ a ∈ items, P a :=
  .ofReversed fun φ => L.commaDelimited (I := fun read => φ ∧ ∀ a ∈ read, P a) (hone.add φ)
    fun _ => L.mono (hcomma _) le_rfl fun _ h => h.1

end Logic.Gives

end FlowErasure.Grammar
