import FlowErasure.Proofs.Sorting
import FlowErasure.Proofs.SourceMap.Vlq
import FlowErasure.SourceMap.Basic
import Mathlib.Algebra.Group.Int.Defs
import Mathlib.Algebra.Group.Nat.Defs

/-!
# Reading the mappings of a source map

A reader of the format cuts the text of the mappings at semicolons and commas and adds up the numbers
in between. It gets back the mappings that were written, as long as no number takes more than 31 bits.
-/

namespace FlowErasure

/-! ## Segments -/

namespace SourceMap

def closed (line : Nat) (pending : List Char) : List (Nat × List Char) :=
  if pending.isEmpty then [] else [(line, pending.reverse)]

/-- The texts of the segments, each with its line. A semicolon ends a line and a comma a segment;
`pending` is what has been read of the current one. -/
def segmentsFrom (line : Nat) (pending : List Char) : List Char → List (Nat × List Char)
  | [] => closed line pending
  | ';' :: cs => closed line pending ++ segmentsFrom (line + 1) [] cs
  | ',' :: cs => closed line pending ++ segmentsFrom line [] cs
  | c :: cs => segmentsFrom line (c :: pending) cs

def decodeDelta (previous : Nat) (cs : List Char) : Option (Nat × List Char) := do
  let (delta, length) ← Vlq.decode cs
  let current ← (previous + delta.toInt).toNat?
  return (current, cs.drop length)

/-- A segment has four numbers: there are no mappings without an origin, and none with a name. -/
def decodeSegment (cursor : Cursor) (line : Nat) (cs : List Char) : Option Mapping := do
  let (column, cs) ← decodeDelta cursor.column cs
  let (source, cs) ← decodeDelta cursor.source cs
  let (originLine, cs) ← decodeDelta cursor.originLine cs
  let (originColumn, cs) ← decodeDelta cursor.originColumn cs
  if cs.isEmpty then some ⟨⟨line, column⟩, source, ⟨originLine, originColumn⟩⟩ else none

def decodeSegments (cursor : Cursor) : List (Nat × List Char) → Option (List Mapping)
  | [] => some []
  | (line, cs) :: segments => do
    let here := cursor.toLine line
    let m ← decodeSegment here line cs
    let ms ← decodeSegments (here.after m) segments
    return m :: ms

def decodeMappings (cs : List Char) : Option (List Mapping) :=
  decodeSegments {} (segmentsFrom 0 [] cs)

/-- The numbers of a mapping take at most 31 bits. -/
structure Fits (m : Mapping) : Prop where
  column : m.generated.column < 2 ^ 31
  source : m.source < 2 ^ 31
  originLine : m.origin.line < 2 ^ 31
  originColumn : m.origin.column < 2 ^ 31

structure Cursor.Fits (cursor : Cursor) : Prop where
  column : cursor.column < 2 ^ 31
  source : cursor.source < 2 ^ 31
  originLine : cursor.originLine < 2 ^ 31
  originColumn : cursor.originColumn < 2 ^ 31

theorem Cursor.Fits.toLine {cursor : Cursor} (h : cursor.Fits) (line : Nat) :
    (cursor.toLine line).Fits := by
  unfold Cursor.toLine
  split
  · exact ⟨Nat.two_pow_pos 31, h.source, h.originLine, h.originColumn⟩
  · exact h

theorem Fits.after {m : Mapping} (h : Fits m) (cursor : Cursor) : (cursor.after m).Fits :=
  ⟨h.column, h.source, h.originLine, h.originColumn⟩

theorem decodeDelta_encodeDelta {current previous : Nat} (hcurrent : current < 2 ^ 31)
    (hprevious : previous < 2 ^ 31) (rest : List Char) :
    decodeDelta previous (encodeDelta current previous ++ rest) = some (current, rest) := by
  have hdelta : (Int32.ofInt (current - previous)).toInt = current - previous :=
    Int32.toInt_ofInt_of_le (by omega) (by omega)
  have hsum : (previous : Int) + (current - previous) = current := by omega
  have hdecode := Vlq.decode_encode (by rw [hdelta]; omega) rest
  rw [decodeDelta, encodeDelta, hdecode]
  simp only [Option.bind_eq_bind, Option.bind_some, hdelta, hsum, List.drop_left]
  rfl

theorem decodeSegment_encodeSegment {cursor : Cursor} {m : Mapping} (hcursor : cursor.Fits)
    (hm : Fits m) : decodeSegment cursor m.generated.line (encodeSegment cursor m) = some m := by
  have hlast := decodeDelta_encodeDelta hm.originColumn hcursor.originColumn []
  rw [List.append_nil] at hlast
  simp [decodeSegment, encodeSegment, decodeDelta_encodeDelta hm.column hcursor.column,
    decodeDelta_encodeDelta hm.source hcursor.source,
    decodeDelta_encodeDelta hm.originLine hcursor.originLine, hlast]

theorem encodeSegment_ne_nil (cursor : Cursor) (m : Mapping) : encodeSegment cursor m ≠ [] := by
  simp [encodeSegment, encodeDelta, Vlq.encode_ne_nil]

theorem not_separator_of_mem_encodeSegment {cursor : Cursor} {m : Mapping} {c : Char}
    (h : c ∈ encodeSegment cursor m) : c ≠ ';' ∧ c ≠ ',' := by
  simp only [encodeSegment, List.mem_append] at h
  rcases h with h | h | h | h <;> exact Vlq.not_separator_of_mem h

theorem segmentsFrom_replicate (line n : Nat) (cs : List Char) :
    segmentsFrom line [] (List.replicate n ';' ++ cs) = segmentsFrom (line + n) [] cs := by
  induction n generalizing line with
  | zero => rfl
  | succ n ih =>
      rw [List.replicate_succ, List.cons_append, segmentsFrom, ih, Nat.add_assoc, Nat.add_comm 1]
      rfl

theorem segmentsFrom_append {cs : List Char} (h : ∀ c ∈ cs, c ≠ ';' ∧ c ≠ ',') (line : Nat)
    (pending rest : List Char) :
    segmentsFrom line pending (cs ++ rest) = segmentsFrom line (cs.reverse ++ pending) rest := by
  induction cs generalizing pending with
  | nil => rfl
  | cons c cs ih =>
      obtain ⟨hsemicolon, hcomma⟩ := h c List.mem_cons_self
      rw [List.cons_append, segmentsFrom, ih fun d hd => h d (List.mem_cons_of_mem _ hd)]
      · simp
      · exact hsemicolon
      · exact hcomma

theorem segmentsFrom_encodeFrom {cursor : Cursor} (hbegun : cursor.begun) (line : Nat)
    {pending : List Char} (hpending : pending ≠ []) (ms : List Mapping) :
    segmentsFrom line pending (encodeFrom cursor ms) =
      (line, pending.reverse) :: segmentsFrom line [] (encodeFrom cursor ms) := by
  have hclosed : closed line pending = [(line, pending.reverse)] := by
    simp [closed, hpending]
  have hempty : closed line [] = [] := rfl
  cases ms with
  | nil => simp [encodeFrom, segmentsFrom, hclosed, hempty]
  | cons m ms =>
      rw [encodeFrom]
      by_cases hlt : cursor.line < m.generated.line
      · obtain ⟨n, hn⟩ : ∃ n, m.generated.line - cursor.line = n + 1 :=
          ⟨m.generated.line - cursor.line - 1, by omega⟩
        simp [hn, List.replicate_succ, segmentsFrom, hclosed, hempty]
      · have hzero : m.generated.line - cursor.line = 0 := by omega
        simp [hzero, Cursor.toLine, hlt, hbegun, segmentsFrom, hclosed, hempty]

/-- Mappings in the order of their lines are read back, whatever the cursor. -/
theorem decodeSegments_encodeFrom {cursor : Cursor} (hcursor : cursor.Fits) {ms : List Mapping}
    (hms : ∀ m ∈ ms, Fits m) (hle : ∀ m ∈ ms, cursor.line ≤ m.generated.line)
    (hlines : ms.Pairwise fun m m' => m.generated.line ≤ m'.generated.line) :
    decodeSegments cursor (segmentsFrom cursor.line [] (encodeFrom cursor ms)) = some ms := by
  induction ms generalizing cursor with
  | nil => rfl
  | cons m ms ih =>
      have hm := hms m List.mem_cons_self
      have hline := hle m List.mem_cons_self
      obtain ⟨hfirst, hrest⟩ := List.pairwise_cons.mp hlines
      set here := cursor.toLine m.generated.line with hhere
      have hhereLine : here.line = m.generated.line := by
        rw [hhere, Cursor.toLine]
        split
        · rfl
        · omega
      have hcomma : ∀ cs, segmentsFrom m.generated.line []
          ((if here.begun then [','] else []) ++ cs) = segmentsFrom m.generated.line [] cs := by
        intro cs
        cases here.begun <;> rfl
      have hsegments : segmentsFrom cursor.line [] (encodeFrom cursor (m :: ms)) =
          (m.generated.line, encodeSegment here m) ::
            segmentsFrom m.generated.line [] (encodeFrom (here.after m) ms) := by
        rw [encodeFrom, segmentsFrom_replicate, Nat.add_sub_cancel' hline, ← hhere, hcomma,
          segmentsFrom_append fun c => not_separator_of_mem_encodeSegment, List.append_nil,
          segmentsFrom_encodeFrom rfl _ (by simp [encodeSegment_ne_nil]), List.reverse_reverse]
      have hnext : decodeSegments (here.after m)
          (segmentsFrom m.generated.line [] (encodeFrom (here.after m) ms)) = some ms := by
        have hafter : (here.after m).line = m.generated.line := hhereLine
        rw [← hafter]
        refine ih (hm.after here) (fun m' hm' => hms m' (List.mem_cons_of_mem _ hm'))
          (fun m' hm' => ?_) hrest
        rw [hafter]
        exact hfirst m' hm'
      rw [hsegments, decodeSegments, ← hhere, decodeSegment_encodeSegment (hcursor.toLine _) hm]
      simp [hnext]

/-- The mappings of a map are read back in the order of their generated positions. -/
theorem decodeMappings_encodeMappings {ms : List Mapping} (hms : ∀ m ∈ ms, Fits m) :
    decodeMappings (encodeMappings ms) =
      some (sortOn (fun m => (m.generated.line, m.generated.column)) ms) := by
  have hcursor : Cursor.Fits {} := ⟨by decide, by decide, by decide, by decide⟩
  have hlines : (sortOn (fun m => (m.generated.line, m.generated.column)) ms).Pairwise
      fun m m' => m.generated.line ≤ m'.generated.line :=
    @pairwise_sortOn _ (fun m => (m.generated.line, m.generated.column)) ms
  exact decodeSegments_encodeFrom hcursor (fun m hm => hms m ((perm_sortOn ms).mem_iff.mp hm))
    (fun m _ => Nat.zero_le _) hlines

end SourceMap

end FlowErasure
