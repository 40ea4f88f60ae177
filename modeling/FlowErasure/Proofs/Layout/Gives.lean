import FlowErasure.Layout.Print
import Mathlib.Data.List.Forall2

/-!
# Computations that succeed

A layout is computed step by step, and each step may fail. `Gives` says that a step does not, and
what is known of its result.
-/

namespace FlowErasure

namespace Layout

variable {α β : Type} {x : Except LayoutError α} {P Q : α → Prop}

def Gives (x : Except LayoutError α) (P : α → Prop) : Prop :=
  ∃ a, x = .ok a ∧ P a

theorem Gives.mono (h : Gives x P) (hPQ : ∀ a, P a → Q a) : Gives x Q := by
  obtain ⟨a, ha, hP⟩ := h
  exact ⟨a, ha, hPQ a hP⟩

@[simp] theorem gives_pure {a : α} : Gives (pure a) P ↔ P a := by
  constructor
  · rintro ⟨b, hb, hP⟩
    obtain rfl := Except.ok.inj hb
    exact hP
  · exact fun h => ⟨a, rfl, h⟩

@[simp] theorem gives_bind {f : α → Except LayoutError β} {Q : β → Prop} :
    Gives (x >>= f) Q ↔ Gives x fun a => Gives (f a) Q := by
  constructor
  · rintro ⟨b, hb, hQ⟩
    cases x with
    | error e => exact absurd hb nofun
    | ok a => exact ⟨a, rfl, b, hb, hQ⟩
  · rintro ⟨a, rfl, b, hb, hQ⟩
    exact ⟨b, hb, hQ⟩

theorem gives_mapM {f : α → Except LayoutError β} {R : α → β → Prop} {as : List α}
    (h : ∀ a ∈ as, Gives (f a) (R a)) : Gives (as.mapM f) (List.Forall₂ R as) := by
  induction as with
  | nil =>
      rw [List.mapM_nil]
      exact gives_pure.mpr .nil
  | cons a as ih =>
      rw [List.mapM_cons, gives_bind]
      refine (h a (by simp)).mono fun b hb => ?_
      rw [gives_bind]
      refine (ih fun a ha => h a (List.mem_cons_of_mem _ ha)).mono fun bs hbs => ?_
      exact gives_pure.mpr (.cons hb hbs)

theorem ok_of_toOption {a : α} (h : x.toOption = some a) : x = .ok a := by
  cases x with
  | error e => exact absurd h nofun
  | ok b => exact congrArg Except.ok (Option.some.inj h)

theorem exists_of_bind_ok {f : α → Except LayoutError β} {b : β} (h : x >>= f = .ok b) :
    ∃ a, x = .ok a ∧ f a = .ok b := by
  cases x with
  | error e => exact absurd h nofun
  | ok a => exact ⟨a, rfl, h⟩

theorem exists_of_mapM_ok {f : α → Except LayoutError β} {as : List α} {bs : List β}
    (h : as.mapM f = .ok bs) {a : α} (ha : a ∈ as) : ∃ b ∈ bs, f a = .ok b := by
  induction as generalizing bs with
  | nil => simp at ha
  | cons first as ih =>
      rw [List.mapM_cons] at h
      obtain ⟨b, hb, h⟩ := exists_of_bind_ok h
      obtain ⟨rest, hrest, h⟩ := exists_of_bind_ok h
      obtain rfl := Except.ok.inj h
      rcases List.mem_cons.mp ha with rfl | ha
      · exact ⟨b, List.mem_cons_self, hb⟩
      · obtain ⟨b', hmem, hb'⟩ := ih hrest ha
        exact ⟨b', List.mem_cons_of_mem _ hmem, hb'⟩

theorem exists_of_forall₂ {R : α → β → Prop} {as : List α} {bs : List β}
    (h : List.Forall₂ R as bs) {b : β} (hb : b ∈ bs) : ∃ a ∈ as, R a b := by
  induction h with
  | nil => simp at hb
  | @cons a b' as bs hR _ ih =>
      rcases List.mem_cons.mp hb with rfl | hb
      · exact ⟨a, by simp, hR⟩
      · obtain ⟨a', ha', hR'⟩ := ih hb
        exact ⟨a', List.mem_cons_of_mem _ ha', hR'⟩

end Layout

end FlowErasure
