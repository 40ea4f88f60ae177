import FlowErasure.Proofs.Erasure.Gaps
import FlowErasure.Proofs.Grammar.TokenRanges
import FlowErasure.Proofs.Layout.Lines

/-!
# Lines in a node

A node that holds statements or class members starts at a token before them and ends at one after
them, unless it is the program. So whole lines on which some of them stand alone lie in the node. A
case of a switch ends where its last statement does, and there the line of that one reaches further.
-/

namespace FlowErasure

namespace Layout

open Text Erasure

variable {text : List Char} {tree : Tree} {root id : NodeId} {node : Node} {range lines : Nat × Nat}
  (h : tree.ReadFrom text root) (hnode : tree.get? id = some node)
  (hrun : RunAt .standard tree node range)

include h hnode hrun

/-- A run lies in the list that holds it, and its range ends where one of its nodes does. -/
theorem exists_list_of_runAt : ∃ spec items last, (spec, .list items) ∈ node.fields ∧
    spec.shape = .block ∧ items.start ≤ range.1 ∧ range.2 ≤ items.stop ∧ last ≠ root ∧
    ∃ other, tree.get? last = some other ∧ other.stop = range.2 := by
  obtain ⟨spec, items, run, hfield, hshape, ⟨front, back, hnodes, -⟩, hspans⟩ := hrun
  obtain ⟨a, b, first, last, ha, hb, hfirst, hlast, rfl⟩ := hspans
  have hin : ∀ {handle}, handle ∈ run → handle ∈ items.nodes := fun hhandle => by
    simp [hnodes, hhandle]
  have hina := hin (List.mem_of_head? ha)
  have hinb := hin (List.mem_of_getLast? hb)
  obtain ⟨-, -, -, hwithin⟩ := (h.shape hnode).lists _ (List.of_mem_zip hfield).2
  obtain ⟨face, hface, hstart, -⟩ := hwithin a (List.mem_filterMap.mpr ⟨_, hina, rfl⟩)
  obtain ⟨face', hface', -, hstop⟩ := hwithin b (List.mem_filterMap.mpr ⟨_, hinb, rfl⟩)
  obtain rfl := Option.some.inj (hface.symm.trans (Tree.face?_of_get? hfirst))
  obtain rfl := Option.some.inj (hface'.symm.trans (Tree.face?_of_get? hlast))
  have hholds : tree.Holds id b := by
    rw [← Tree.fields_of_get? hnode] at hfield
    exact Tree.holds_of_mem_fields hfield (List.mem_filterMap.mpr ⟨_, hinb, rfl⟩)
  exact ⟨spec, items, b, hfield, hshape, hstart, hstop, h.ne_root_of_holds hholds, last, hlast, rfl⟩

variable (halone : StandsAlone text range lines)

include halone

theorem start_le_lines : node.start ≤ lines.1 := by
  obtain ⟨spec, items, -, hfield, hshape, hstart, -⟩ := exists_list_of_runAt h hnode hrun
  obtain ⟨hzero | hlt, -⟩ := (h.shape hnode).encloses spec items hfield hshape
  · omega
  · by_cases hid : id = root
    · subst hid
      obtain ⟨program, hprogram, -, hzero, -⟩ := h.program
      obtain rfl := Option.some.inj (hnode.symm.trans hprogram)
      omega
    · exact (halone.lt_of_tokenStart (h.sound hnode hid).start (Nat.lt_of_lt_of_le hlt hstart)).le

/-- The lines do not end after the node either, unless it is a case of a switch and the run reaches to
its end. -/
theorem lines_le_stop (hcase : node.kind = .switchCase → range.2 < node.stop) :
    lines.2 ≤ node.stop := by
  obtain ⟨spec, items, last, hfield, hshape, -, hstop, hlast, other, hother, hend⟩ :=
    exists_list_of_runAt h hnode hrun
  have hle : lines.2 ≤ byteLength text := by
    obtain ⟨blanks, mark, -, -, hmark⟩ := halone.after
    obtain ⟨ending, -, hending⟩ := hmark.between
    exact hending.right.le
  by_cases hroot : node.stop = byteLength text
  · omega
  have hid : id ≠ root := by
    rintro rfl
    obtain ⟨program, hprogram, -, -, hall⟩ := h.program
    exact hroot (Option.some.inj (hnode.symm.trans hprogram) ▸ hall)
  have hlt : range.2 < node.stop := by
    rcases ((h.shape hnode).encloses spec items hfield hshape).2 with hall | hkind | hlt
    · exact absurd hall hroot
    · exact hcase hkind
    · omega
  -- The token at the end of the node comes after the one at the end of the run.
  obtain ⟨tokens, htokens, hfaces⟩ := h.tokens
  obtain ⟨-, hin⟩ := hfaces last _ hlast (Tree.face?_of_get? hother)
  obtain ⟨-, hin'⟩ := hfaces id _ hid (Tree.face?_of_get? hnode)
  obtain ⟨token, htoken, heq⟩ := List.mem_map.mp hin
  obtain ⟨token', htoken', heq'⟩ := List.mem_map.mp hin'
  have heq : token.2 = range.2 := heq.trans hend
  have heq' : token'.2 = node.stop := heq'
  have hafter : token.2 ≤ token'.1 := htokens.chain.apart htoken htoken' (by omega)
  obtain ⟨-, hlt', hle', hstart, -⟩ := htokens.chain.of_mem htoken'
  have hlines : lines.2 ≤ token'.1 := halone.le_of_tokenStart hstart (by omega) (by omega)
  omega

end Layout

end FlowErasure
