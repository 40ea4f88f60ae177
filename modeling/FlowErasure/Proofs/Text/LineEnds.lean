import FlowErasure.Proofs.Text.Bytes
import FlowErasure.Proofs.Text.Positions
import Mathlib.Data.List.TakeWhile
import Mathlib.Data.Set.Card

/-!
# Lines counted by their ends

`LineEndAt` says where a line ends in a text: LF, CR, CR LF, U+2028 or U+2029, where a CR LF is one
end and no part of it is another. The table of line starts holds zero and the ends of these. So the
line of an offset is the number of line ends that lie wholly before it, its column counts the UTF-16
units from the last of them, and positions are ordered as offsets are.
-/

namespace FlowErasure

namespace Text

variable {text pre rest : List Char} {a start start' stop : Nat}

/-- A line ends with the characters from `start` to `stop`, which are not part of a CR LF unless they
are all of it. -/
def LineEndAt (text : List Char) (start stop : Nat) : Prop :=
  ∃ pre mark rest, text = pre ++ mark ++ rest ∧ start = byteLength pre ∧
    stop = byteLength (pre ++ mark) ∧ mark ∈ lineEnds ∧
    ¬Divides pre (mark ++ rest) ∧ ¬Divides (pre ++ mark) rest

/-! ## The characters that end lines -/

/-- A line end is one character that ends lines, or CR LF. -/
theorem eq_or_eq_of_mem_lineEnds {mark : List Char} (h : mark ∈ lineEnds) :
    (∃ c, mark = [c] ∧ isLineBreak c) ∨ mark = ['\r', '\n'] := by
  simp only [lineEnds, List.mem_cons, List.not_mem_nil, or_false] at h
  rcases h with rfl | rfl | rfl | rfl | rfl
  · exact .inl ⟨_, rfl, by decide⟩
  · exact .inl ⟨_, rfl, by decide⟩
  · exact .inr rfl
  · exact .inl ⟨_, rfl, by decide⟩
  · exact .inl ⟨_, rfl, by decide⟩

theorem singleton_mem_lineEnds {c : Char} (h : isLineBreak c) : [c] ∈ lineEnds := by
  simp only [isLineBreak, Bool.or_eq_true, beq_iff_eq] at h
  rcases h with ((rfl | rfl) | rfl) | rfl
  all_goals decide

theorem breaks_iff {c : Char} :
    breaks c rest.head? ↔ isLineBreak c ∧ ¬Divides [c] rest := by
  by_cases hpair : c = '\r' ∧ rest.head? = some '\n'
  · obtain ⟨rfl, hhead⟩ := hpair
    simp [breaks, Divides, hhead]
  · rw [breaks_of_not_pair hpair]
    have hdivides : ¬Divides [c] rest := fun h => hpair ⟨Option.some.inj h.1, h.2⟩
    simp [hdivides]

/-- A line ends in front of `rest` exactly if the character before it ends lines there. -/
theorem exists_lineEndAt_iff :
    (∃ start, LineEndAt text start stop) ↔
      ∃ pre c rest, text = pre ++ c :: rest ∧ breaks c rest.head? ∧
        stop = byteLength (pre ++ [c]) := by
  constructor
  · rintro ⟨start, pre, mark, rest, rfl, -, rfl, hmark, -, hafter⟩
    rcases eq_or_eq_of_mem_lineEnds hmark with ⟨c, rfl, hc⟩ | rfl
    · rw [divides_append_left (by simp)] at hafter
      exact ⟨pre, c, rest, by simp, breaks_iff.mpr ⟨hc, hafter⟩, rfl⟩
    · exact ⟨pre ++ ['\r'], '\n', rest, by simp, rfl, by simp⟩
  · rintro ⟨pre, c, rest, rfl, hbreaks, rfl⟩
    obtain ⟨hc, hafter⟩ := breaks_iff.mp hbreaks
    by_cases hdivides : Divides pre (c :: rest)
    -- The character is the second of a CR LF.
    · obtain ⟨hlast, hhead⟩ := hdivides
      obtain ⟨init, rfl⟩ := List.getLast?_eq_some_iff.mp hlast
      obtain rfl : c = '\n' := Option.some.inj hhead
      refine ⟨byteLength init, init, ['\r', '\n'], rest, by simp, rfl, by simp, by decide, ?_, ?_⟩
      · simp [Divides]
      · simp [Divides]
    · refine ⟨byteLength pre, pre, [c], rest, by simp, rfl, rfl, singleton_mem_lineEnds hc, hdivides, ?_⟩
      rwa [divides_append_left (by simp)]

theorem LineEndAt.start_unique (h : LineEndAt text start stop) (h' : LineEndAt text start' stop) :
    start = start' := by
  obtain ⟨pre, mark, rest, htext, rfl, hstop, hmark, hbefore, -⟩ := h
  obtain ⟨pre', mark', rest', htext', rfl, hstop', hmark', hbefore', -⟩ := h'
  have hsame : pre ++ mark = pre' ++ mark' := by
    have htake := take?_append (pre ++ mark) rest
    rw [← htext, ← hstop, htext', hstop', take?_append] at htake
    exact (Option.some.inj htake).symm
  rcases eq_or_eq_of_mem_lineEnds hmark with ⟨c, rfl, -⟩ | rfl
  · rcases eq_or_eq_of_mem_lineEnds hmark' with ⟨c', rfl, -⟩ | rfl
    · rw [(List.append_inj' hsame rfl).1]
    · have hsplit : pre ++ [c] = (pre' ++ ['\r']) ++ ['\n'] := by simpa using hsame
      obtain ⟨rfl, hc⟩ := List.append_inj' hsplit rfl
      cases hc
      exact absurd ⟨by simp, rfl⟩ hbefore
  · rcases eq_or_eq_of_mem_lineEnds hmark' with ⟨c', rfl, -⟩ | rfl
    · have hsplit : (pre ++ ['\r']) ++ ['\n'] = pre' ++ [c'] := by simpa using hsame
      obtain ⟨rfl, hc⟩ := List.append_inj' hsplit rfl
      cases hc
      exact absurd ⟨by simp, rfl⟩ hbefore'
    · rw [(List.append_inj' hsame rfl).1]

/-! ## The table of line starts -/

theorem mem_lineStartsFrom {offset : Nat} :
    stop ∈ lineStartsFrom offset text ↔
      ∃ pre c rest, text = pre ++ c :: rest ∧ breaks c rest.head? ∧
        stop = offset + byteLength (pre ++ [c]) := by
  induction text generalizing offset with
  | nil => simp [lineStartsFrom]
  | cons c cs ih =>
      rw [lineStartsFrom_cons, List.mem_append, ih]
      constructor
      · rintro (h | ⟨pre, d, rest, rfl, hbreaks, rfl⟩)
        · split at h
          · rename_i hbreaks
            obtain rfl := List.mem_singleton.mp h
            exact ⟨[], c, cs, rfl, hbreaks, by simp⟩
          · simp at h
        · exact ⟨c :: pre, d, rest, rfl, hbreaks, by simp; omega⟩
      · rintro ⟨pre, d, rest, heq, hbreaks, rfl⟩
        cases pre with
        | nil =>
            obtain ⟨rfl, rfl⟩ := List.cons.inj heq
            exact .inl (by simp [hbreaks])
        | cons d' pre =>
            obtain ⟨rfl, rfl⟩ := List.cons.inj heq
            exact .inr ⟨pre, d, rest, rfl, hbreaks, by simp; omega⟩

theorem pairwise_lineStartsFrom (offset : Nat) (cs : List Char) :
    (lineStartsFrom offset cs).Pairwise (· < ·) := by
  induction cs generalizing offset with
  | nil => exact .nil
  | cons c cs ih =>
      rw [lineStartsFrom_cons]
      split
      · rw [List.singleton_append, List.pairwise_cons]
        exact ⟨fun start hstart => lt_of_mem_lineStartsFrom hstart, ih _⟩
      · exact ih _

end Text

open Text

namespace Lines

variable {text : List Char} {offset start : Nat}

theorem mem_starts_iff :
    start ∈ (ofText text).starts ↔ start = 0 ∨ ∃ first, LineEndAt text first start := by
  rw [exists_lineEndAt_iff]
  simp only [ofText, List.mem_cons, mem_lineStartsFrom, Nat.zero_add]

theorem pairwise_starts (text : List Char) : (ofText text).starts.Pairwise (· < ·) := by
  refine List.pairwise_cons.mpr ⟨fun start hstart => ?_, pairwise_lineStartsFrom 0 text⟩
  exact lt_of_mem_lineStartsFrom hstart

theorem boundary_of_mem_starts (h : start ∈ (ofText text).starts) : Boundary text start := by
  rcases mem_starts_iff.mp h with rfl | ⟨first, pre, mark, rest, htext, -, hstop, -⟩
  · exact (at_zero text).boundary
  · exact ⟨rest, pre ++ mark, htext, hstop⟩

/-- The line of an offset divides the table into the starts before it, its own start, and those of
later lines. -/
theorem exists_starts_eq (text : List Char) (offset : Nat) :
    ∃ front start back, (ofText text).starts = front ++ start :: back ∧
      front.length = (ofText text).lineOf offset ∧ (∀ x ∈ front, x < start) ∧
      start ≤ offset ∧ ∀ x ∈ back, offset < x := by
  have hsorted := pairwise_starts text
  have hsplit := List.takeWhile_append_dropWhile (p := fun x => decide (x ≤ offset))
    (l := (ofText text).starts)
  have hne : (ofText text).starts.takeWhile (· ≤ offset) ≠ [] := by
    simp [ofText]
  obtain ⟨front, start, hfront⟩ := List.eq_nil_or_concat'
    ((ofText text).starts.takeWhile (· ≤ offset)) |>.resolve_left hne
  have hbefore : ∀ x ∈ front ++ [start], x ≤ offset := by
    intro x hx
    rw [← hfront] at hx
    simpa using List.mem_takeWhile_imp hx
  rw [hfront, List.append_assoc, List.singleton_append] at hsplit
  rw [← hsplit, List.pairwise_append] at hsorted
  obtain ⟨-, hrest, hcross⟩ := hsorted
  refine ⟨front, start, _, hsplit.symm, ?_, ?_, hbefore start (by simp), ?_⟩
  · simp [lineOf, hfront]
  · exact fun x hx => hcross x hx start (by simp)
  · -- The first start that is not passed is beyond the offset, and so are those after it.
    intro x hx
    cases hdrop : (ofText text).starts.dropWhile (· ≤ offset) with
    | nil => simp [hdrop] at hx
    | cons y back =>
        have hy : offset < y := by
          have hhead := List.head_dropWhile_not (p := fun x => decide (x ≤ offset))
            (l := (ofText text).starts) (by simp [hdrop])
          simpa [hdrop] using hhead
        rw [hdrop] at hx hrest
        rcases List.mem_cons.mp hx with rfl | hx
        · exact hy
        · have hlt := (List.pairwise_cons.mp (List.pairwise_cons.mp hrest).2).1 x hx
          omega

theorem encard_lineEnds (text : List Char) (offset : Nat) :
    Set.encard {ends : Nat × Nat | LineEndAt text ends.1 ends.2 ∧ ends.2 ≤ offset} =
      (ofText text).lineOf offset := by
  obtain ⟨front, start, back, hstarts, hlength, hfront, hstart, hback⟩ :=
    exists_starts_eq text offset
  have hinj : Set.InjOn Prod.snd
      {ends : Nat × Nat | LineEndAt text ends.1 ends.2 ∧ ends.2 ≤ offset} := by
    rintro ⟨first, stop⟩ ⟨h, -⟩ ⟨first', stop'⟩ ⟨h', -⟩ heq
    obtain rfl : stop = stop' := heq
    obtain rfl : first = first' := h.start_unique h'
    rfl
  have himage : Prod.snd '' {ends : Nat × Nat | LineEndAt text ends.1 ends.2 ∧ ends.2 ≤ offset} =
      ((lineStartsFrom 0 text).filter (· ≤ offset)).toFinset := by
    ext stop
    have hmem : stop ∈ lineStartsFrom 0 text ↔ ∃ first, LineEndAt text first stop := by
      rw [exists_lineEndAt_iff, mem_lineStartsFrom]
      simp
    simp [hmem]
  have hfilter : (ofText text).starts.filter (· ≤ offset) = front ++ [start] := by
    rw [hstarts, List.filter_append, List.filter_cons_of_pos (by simpa using hstart)]
    rw [List.filter_eq_self.mpr, List.filter_eq_nil_iff.mpr]
    · intro x hx
      have := hback x hx
      simp
      omega
    · intro x hx
      have := hfront x hx
      simp
      omega
  have hcount : ((lineStartsFrom 0 text).filter (· ≤ offset)).length = front.length := by
    have hlengths := congrArg List.length hfilter
    simpa [ofText] using hlengths
  have hnodup : ((lineStartsFrom 0 text).filter (· ≤ offset)).Nodup := by
    apply List.Nodup.filter
    exact (pairwise_lineStartsFrom 0 text).imp Nat.ne_of_lt
  calc Set.encard {ends : Nat × Nat | LineEndAt text ends.1 ends.2 ∧ ends.2 ≤ offset}
      = Set.encard (Prod.snd '' {ends : Nat × Nat | LineEndAt text ends.1 ends.2 ∧
          ends.2 ≤ offset}) := hinj.encard_image.symm
    _ = ((lineStartsFrom 0 text).filter (· ≤ offset)).length := by
        rw [himage, Set.encard_coe_eq_coe_finsetCard, List.toFinset_card_of_nodup hnodup]
    _ = (ofText text).lineOf offset := by rw [hcount, hlength]

/-- The start of the line of an offset is the last line end before it, or zero. -/
theorem exists_start (text : List Char) (offset : Nat) :
    ∃ start, (ofText text).start? ((ofText text).lineOf offset) = some start ∧
      IsGreatest {x | (x = 0 ∨ ∃ first, LineEndAt text first x) ∧ x ≤ offset} start ∧
      ∀ line later, (ofText text).lineOf offset < line → (ofText text).start? line = some later →
        offset < later := by
  obtain ⟨front, start, back, hstarts, hlength, hfront, hstart, hback⟩ :=
    exists_starts_eq text offset
  have hmem : start ∈ (ofText text).starts := by
    rw [hstarts]
    simp
  refine ⟨start, ?_, ⟨⟨mem_starts_iff.mp hmem, hstart⟩, ?_⟩, ?_⟩
  · rw [start?, hstarts, ← hlength]
    simp
  · rintro x ⟨hx, hle⟩
    rw [← mem_starts_iff, hstarts, List.mem_append, List.mem_cons] at hx
    rcases hx with hx | rfl | hx
    · exact (hfront x hx).le
    · exact le_rfl
    · have := hback x hx
      omega
  · intro line later hline hlater
    rw [start?, hstarts, List.getElem?_append_right (by omega)] at hlater
    obtain ⟨n, hn⟩ : ∃ n, line - front.length = n + 1 := ⟨line - front.length - 1, by omega⟩
    rw [hn, List.getElem?_cons_succ] at hlater
    exact hback later (List.mem_of_getElem? hlater)

/-- The column of an offset counts the text from the start of its line. -/
theorem column_eq {cs : List Char}
    (hstart : (ofText text).start? ((ofText text).lineOf offset) = some start)
    (hcs : Between text start cs offset) :
    ((ofText text).position offset).column = unitLength cs := by
  have hclamp : min offset (ofText text).size = offset := Nat.min_eq_left hcs.right.le
  obtain ⟨rest, ⟨pre, rfl, rfl⟩, rfl⟩ := hcs
  simp only [position, hclamp, hstart]
  simp [ofText, drop?_append, unitsBefore?_eq, take?_append]

/-- Later offsets have later positions. -/
theorem position_before {a b : Nat} (ha : Boundary text a) (hb : Boundary text b) (hlt : a < b) :
    ((ofText text).position a).Before ((ofText text).position b) := by
  obtain ⟨mid, hmid⟩ := Between.exists_of_le ha hb hlt.le
  obtain ⟨rest, ⟨pre, rfl, rfl⟩, rfl⟩ := hmid
  have hposition := position_append pre (mid ++ rest)
  have hposition' := position_append (pre ++ mid) rest
  rw [Position.along_append, ← hposition] at hposition'
  rw [List.append_assoc, byteLength_append] at hposition'
  rw [hposition']
  cases mid with
  | nil => simp at hlt
  | cons c mid => exact Position.before_along_cons _ _ _ _

/-- Lines and columns together are no more than the bytes before an offset. -/
theorem position_le {a : Nat} (ha : Boundary text a) :
    ((ofText text).position a).line + ((ofText text).position a).column ≤ a := by
  obtain ⟨rest, pre, rfl, rfl⟩ := ha
  rw [position_append]
  simpa using Position.along_le ⟨0, 0⟩ pre rest

/-- The position of an offset between two characters: as many lines as end before it, and the UTF-16
units from the last line end on. No two of these offsets have one position. For any offset at all
the table has a line, whose start is the last not beyond the offset. In a text of less than 2 ^ 32
bytes all these numbers fit 32 bits. -/
theorem position_counts_lineEnds (text : List Char) (hsize : byteLength text < 2 ^ 32) :
    (∀ a, Boundary text a →
      Set.encard {ends : Nat × Nat | LineEndAt text ends.1 ends.2 ∧ ends.2 ≤ a} =
          ((ofText text).position a).line ∧
        ∃ start cs,
          IsGreatest {x | (x = 0 ∨ ∃ first, LineEndAt text first x) ∧ x ≤ a} start ∧
          Between text start cs a ∧ ((ofText text).position a).column = unitLength cs ∧
          ((ofText text).position a).line < 2 ^ 32 ∧
          ((ofText text).position a).column < 2 ^ 32) ∧
    (∀ a b, Boundary text a → Boundary text b → a < b →
      ((ofText text).position a).Before ((ofText text).position b)) ∧
    (∀ offset, ∃ start, (ofText text).start? ((ofText text).lineOf offset) = some start ∧
      start ≤ offset ∧
      ∀ line later, (ofText text).lineOf offset < line → (ofText text).start? line = some later →
        offset < later) ∧
    ∀ start ∈ (ofText text).starts, start < 2 ^ 32 := by
  refine ⟨?_, fun a b => position_before, ?_, fun start hstart => ?_⟩
  · intro a ha
    have hline : ((ofText text).position a).line = (ofText text).lineOf a := by
      have hclamp : min a (ofText text).size = a := Nat.min_eq_left ha.le
      simp only [position, hclamp]
    obtain ⟨start, hstart, hgreatest, -⟩ := exists_start text a
    have hmem : start ∈ (ofText text).starts := List.mem_of_getElem? hstart
    obtain ⟨cs, hcs⟩ := Between.exists_of_le (boundary_of_mem_starts hmem) ha hgreatest.1.2
    have hfits := position_le ha
    have hlast := ha.le
    constructor
    · rw [hline, encard_lineEnds]
    · exact ⟨start, cs, hgreatest, hcs, column_eq hstart hcs, by omega, by omega⟩
  · intro offset
    obtain ⟨start, hstart, hgreatest, hlater⟩ := exists_start text offset
    exact ⟨start, hstart, hgreatest.1.2, hlater⟩
  · have := (boundary_of_mem_starts hstart).le
    omega

/-- In a text with a CR LF and a character of two units, the offset after the latter is in line 1 at
column 2, and an offset beyond the end has a line too. -/
theorem position_counts_lineEnds_pair :
    byteLength "a\r\n😀b".toList < 2 ^ 32 ∧
      Set.encard {ends : Nat × Nat |
        LineEndAt "a\r\n😀b".toList ends.1 ends.2 ∧ ends.2 ≤ 7} = (1 : Nat) ∧
      (ofText "a\r\n😀b".toList).position 7 = ⟨1, 2⟩ ∧
      ∃ start, (ofText "a\r\n😀b".toList).start? ((ofText "a\r\n😀b".toList).lineOf 100) =
        some start ∧ start ≤ 100 := by
  have hsize : byteLength "a\r\n😀b".toList < 2 ^ 32 := by decide
  have hboundary : Boundary "a\r\n😀b".toList 7 :=
    ⟨['b'], "a\r\n😀".toList, by decide, by decide⟩
  have hposition : (ofText "a\r\n😀b".toList).position 7 = ⟨1, 2⟩ := by decide
  obtain ⟨hline, -⟩ := (position_counts_lineEnds _ hsize).1 7 hboundary
  rw [hposition] at hline
  obtain ⟨start, hstart, hle, -⟩ := (position_counts_lineEnds _ hsize).2.2.1 100
  exact ⟨hsize, hline, hposition, start, hstart, hle⟩

end Lines

end FlowErasure
