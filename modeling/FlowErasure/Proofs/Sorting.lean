import FlowErasure.Sorting
import Mathlib.Data.List.Perm.Basic
import Mathlib.Data.List.Pairwise

/-!
# Sorting by a pair of numbers

Insertion sort loses and repeats nothing, puts the entries in the order of their keys, keeps the order
of entries with equal keys, and leaves a list that is in order as it is.
-/

namespace FlowErasure

variable {α : Type} {key : α → Nat × Nat}

theorem perm_insertOn (a : α) (as : List α) : (insertOn key a as).Perm (a :: as) := by
  induction as with
  | nil => exact .refl _
  | cons b bs ih =>
      rw [insertOn]
      split
      · exact .refl _
      · exact (ih.cons b).trans (.swap a b bs)

theorem perm_sortOn (as : List α) : (sortOn key as).Perm as := by
  induction as with
  | nil => exact .refl _
  | cons a as ih => exact (perm_insertOn a (sortOn key as)).trans (ih.cons a)

theorem pairLe_iff {a b : Nat × Nat} : pairLe a b ↔ a.1 < b.1 ∨ a.1 = b.1 ∧ a.2 ≤ b.2 := by
  simp [pairLe]

theorem pairLe_fst {a b : Nat × Nat} (h : pairLe a b) : a.1 ≤ b.1 := by
  rw [pairLe_iff] at h
  omega

theorem pairLe_of_not {a b : Nat × Nat} (h : ¬pairLe a b) : pairLe b a := by
  rw [pairLe_iff] at h ⊢
  omega

theorem pairLe_trans {a b c : Nat × Nat} (hab : pairLe a b) (hbc : pairLe b c) : pairLe a c := by
  rw [pairLe_iff] at hab hbc ⊢
  omega

theorem pairwise_pairLe_insertOn {a : α} {as : List α}
    (h : as.Pairwise fun x y => pairLe (key x) (key y)) :
    (insertOn key a as).Pairwise fun x y => pairLe (key x) (key y) := by
  induction as with
  | nil => simp [insertOn]
  | cons b bs ih =>
      obtain ⟨hb, hbs⟩ := List.pairwise_cons.mp h
      rw [insertOn]
      split
      · rename_i hle
        apply List.Pairwise.cons _ h
        intro x hx
        rcases List.mem_cons.mp hx with rfl | hx
        · exact hle
        · exact pairLe_trans hle (hb x hx)
      · rename_i hle
        apply List.Pairwise.cons _ (ih hbs)
        intro x hx
        rcases List.mem_cons.mp ((perm_insertOn a bs).mem_iff.mp hx) with rfl | hx
        · exact pairLe_of_not hle
        · exact hb x hx

theorem pairwise_pairLe_sortOn (as : List α) :
    (sortOn key as).Pairwise fun x y => pairLe (key x) (key y) := by
  induction as with
  | nil => exact .nil
  | cons a as ih => exact pairwise_pairLe_insertOn ih

theorem pairwise_sortOn (as : List α) :
    (sortOn key as).Pairwise fun x y => (key x).1 ≤ (key y).1 := by
  apply (pairwise_pairLe_sortOn as).imp
  intro x y hle
  exact pairLe_fst hle

theorem filter_insertOn (k : Nat × Nat) (a : α) (as : List α) :
    (insertOn key a as).filter (key · = k) = (a :: as).filter (key · = k) := by
  induction as with
  | nil => rfl
  | cons b bs ih =>
      rw [insertOn]
      split
      · rfl
      · rename_i hle
        have hne : key a ≠ key b := by
          intro heq
          apply hle
          rw [heq, pairLe_iff]
          omega
        by_cases ha : key a = k
        · have hb : key b ≠ k := fun hb => hne (ha.trans hb.symm)
          simp [ih, ha, hb]
        · simp [List.filter_cons, ih, ha]

/-- Entries with the same key keep their order. -/
theorem filter_sortOn (k : Nat × Nat) (as : List α) :
    (sortOn key as).filter (key · = k) = as.filter (key · = k) := by
  induction as with
  | nil => rfl
  | cons a as ih =>
      calc (sortOn key (a :: as)).filter (key · = k)
          = (a :: sortOn key as).filter (key · = k) := filter_insertOn k a (sortOn key as)
        _ = (a :: as).filter (key · = k) := by rw [List.filter_cons, List.filter_cons, ih]

theorem sortOn_eq_self {as : List α} (h : as.Pairwise fun x y => pairLe (key x) (key y)) :
    sortOn key as = as := by
  induction as with
  | nil => rfl
  | cons a as ih =>
      obtain ⟨ha, has⟩ := List.pairwise_cons.mp h
      rw [sortOn, List.foldr_cons, ← sortOn, ih has]
      cases as with
      | nil => rfl
      | cons b bs => rw [insertOn, if_pos (ha b List.mem_cons_self)]

end FlowErasure
