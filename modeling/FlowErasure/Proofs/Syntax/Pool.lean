import FlowErasure.Proofs.Syntax.Extending
import Mathlib.Data.List.Nodup

/-!
# The pool of names

A pool holds every string once. So whatever strings are added to it, a place in it stands for one
string and a string has one place.
-/

namespace FlowErasure.Names

variable {names : Names} {s : String} {a b : Atom}

def Distinct (names : Names) : Prop :=
  names.strings.toList.Nodup

theorem resolve_eq_getElem (h : a < names.strings.size) : names.resolve a = names.strings[a] := by
  simp [resolve, h]

theorem lt_and_resolve_of_find? (h : names.find? s = some a) :
    a < names.size ∧ names.resolve a = s := by
  obtain ⟨place, hplace, rfl⟩ := Option.map_eq_some_iff.mp h
  obtain ⟨hs, -⟩ := Array.finIdxOf?_eq_some_iff.mp hplace
  exact ⟨place.isLt, (resolve_eq_getElem place.isLt).trans hs⟩

theorem not_mem_of_find? (h : names.find? s = none) : s ∉ names.strings :=
  Array.idxOf?_eq_none_iff.mp h

theorem lt_size_intern (names : Names) (s : String) :
    (names.intern s).1 < (names.intern s).2.size := by
  unfold intern
  split
  · exact (lt_and_resolve_of_find? ‹_›).1
  · simp [size]

theorem resolve_intern (names : Names) (s : String) :
    (names.intern s).2.resolve (names.intern s).1 = s := by
  unfold intern
  split
  · exact (lt_and_resolve_of_find? ‹_›).2
  · simp [resolve, size]

namespace Distinct

theorem intern (h : names.Distinct) (s : String) : (names.intern s).2.Distinct := by
  unfold Names.intern
  split
  · exact h
  · rename_i hnone
    have hnew := not_mem_of_find? hnone
    show (names.strings.push s).toList.Nodup
    rw [Array.toList_push, List.nodup_append]
    refine ⟨h, List.nodup_singleton s, fun t ht s' hs' => ?_⟩
    obtain rfl := List.mem_singleton.mp hs'
    rintro rfl
    exact hnew (Array.mem_toList_iff.mp ht)

theorem internAll (h : names.Distinct) (ss : List String) : (names.internAll ss).Distinct := by
  unfold Names.internAll
  induction ss generalizing names with
  | nil => exact h
  | cons s ss ih => exact ih (h.intern s)

/-- Two places are one if they hold the same string. -/
theorem resolve_eq_iff (h : names.Distinct) (ha : a < names.size) (hb : b < names.size) :
    names.resolve a = names.resolve b ↔ a = b := by
  have ha : a < names.strings.toList.length := ha
  have hb : b < names.strings.toList.length := hb
  have hinj : names.strings.toList[a] = names.strings.toList[b] ↔ a = b := h.getElem_inj_iff
  rwa [resolve_eq_getElem ha, resolve_eq_getElem hb]

end Distinct

theorem distinct_common : common.Distinct :=
  Distinct.internAll (by simp [Distinct, empty]) commonStrings

end FlowErasure.Names
