import FlowErasure.Proofs.SourceMap.Decoding
import FlowErasure.Proofs.Text.Positions

/-!
# Reading a map by the rules of the format

The format is read from the outside in: the text is cut at its semicolons into lines, a line at its
commas into segments, and a segment has four numbers. Each line has its own column; the other three
numbers go on from one line to the next. What is read from a finished map is what was recorded for it,
in the order of the generated text.
-/

namespace FlowErasure.SourceMap

/-! ## Lines and segments -/

def Cursor.startLine (cursor : Cursor) (line : Nat) : Cursor :=
  { cursor with line, column := 0, begun := false }

/-- The mappings of a line, from the texts between its commas. An empty one has no mapping. -/
def readLine (line : Nat) (cursor : Cursor) : List (List Char) → Option (List Mapping × Cursor)
  | [] => some ([], cursor)
  | cs :: segments =>
    if cs.isEmpty then readLine line cursor segments
    else do
      let m ← decodeSegment cursor line cs
      let (ms, cursor) ← readLine line (cursor.after m) segments
      return (m :: ms, cursor)

def readLines (line : Nat) (cursor : Cursor) : List (List Char) → Option (List Mapping)
  | [] => some []
  | cs :: lines => do
    let (ms, cursor) ← readLine line (cursor.startLine line) (cs.splitOn ',')
    let others ← readLines (line + 1) cursor lines
    return ms ++ others

def readMappings (cs : List Char) : Option (List Mapping) :=
  readLines 0 {} (cs.splitOn ';')

/-! ## Both readers agree -/

def lineSegments (line : Nat) (parts : List (List Char)) : List (Nat × List Char) :=
  (parts.filter fun cs => !cs.isEmpty).map (line, ·)

def segmentsOf (line : Nat) : List (List Char) → List (Nat × List Char)
  | [] => []
  | cs :: lines => lineSegments line (cs.splitOn ',') ++ segmentsOf (line + 1) lines

/-- A text without the separator stays in one part with what comes after it. -/
theorem splitOn_append_of_not_mem {a : Char} {cs : List Char} (h : a ∉ cs) (ds : List Char) :
    (cs ++ ds).splitOn a = (ds.splitOn a).modifyHead (cs ++ ·) := by
  induction cs with
  | nil => cases hsplit : ds.splitOn a <;> simp [hsplit]
  | cons c cs ih =>
      obtain ⟨hc, hcs⟩ := not_or.mp (List.mem_cons.not.mp h)
      have hne : (c == a) = false := beq_eq_false_iff_ne.mpr (Ne.symm hc)
      rw [List.cons_append, List.splitOn_cons_eq_if_modifyHead, hne, ih hcs]
      cases ds.splitOn a <;> rfl

theorem lineSegments_cons (line : Nat) (cs : List Char) (parts : List (List Char)) :
    lineSegments line (cs :: parts) = closed line cs.reverse ++ lineSegments line parts := by
  cases cs <;> simp [lineSegments, closed]

/-- Going over a text gives the segments between its semicolons and commas. -/
theorem segmentsFrom_eq (line : Nat) (pending cs : List Char)
    (h : ∀ c ∈ pending, c ≠ ';' ∧ c ≠ ',') :
    segmentsFrom line pending cs = segmentsOf line ((pending.reverse ++ cs).splitOn ';') := by
  have hsemicolon : ∀ {ps : List Char}, (∀ c ∈ ps, c ≠ ';' ∧ c ≠ ',') → ';' ∉ ps.reverse := by
    intro ps hps hmem
    exact (hps _ (List.mem_reverse.mp hmem)).1 rfl
  have hcomma : ∀ {ps : List Char}, (∀ c ∈ ps, c ≠ ';' ∧ c ≠ ',') → ',' ∉ ps.reverse := by
    intro ps hps hmem
    exact (hps _ (List.mem_reverse.mp hmem)).2 rfl
  have hnil : ∀ c ∈ ([] : List Char), c ≠ ';' ∧ c ≠ ',' := by simp
  fun_induction segmentsFrom line pending cs with
  | case1 line pending =>
      rw [List.append_nil, List.splitOn_eq_singleton (hsemicolon h), segmentsOf,
        List.splitOn_eq_singleton (hcomma h), lineSegments_cons, List.reverse_reverse]
      simp [lineSegments, segmentsOf]
  | case2 line pending cs ih =>
      rw [List.splitOn_append_cons_self_of_not_mem (hsemicolon h), segmentsOf,
        List.splitOn_eq_singleton (hcomma h), lineSegments_cons, List.reverse_reverse, ih hnil]
      simp [lineSegments]
  | case3 line pending cs ih =>
      obtain ⟨first, lines, hsplit⟩ := List.exists_cons_of_ne_nil (List.splitOn_ne_nil ';' cs)
      rw [ih hnil, splitOn_append_of_not_mem (hsemicolon h), List.splitOn_cons_eq_if_modifyHead]
      simp only [hsplit, List.reverse_nil, List.nil_append, Char.reduceBEq, Bool.false_eq_true,
        if_false, List.modifyHead_cons]
      rw [segmentsOf, segmentsOf, List.splitOn_append_cons_self_of_not_mem (hcomma h),
        lineSegments_cons, List.reverse_reverse, List.append_assoc]
  | case4 line pending c cs hc hc' ih =>
      have hpending : ∀ d ∈ c :: pending, d ≠ ';' ∧ d ≠ ',' := by
        intro d hd
        rcases List.mem_cons.mp hd with rfl | hd
        · exact ⟨hc, hc'⟩
        · exact h d hd
      rw [ih hpending]
      simp

theorem toLine_of_line_eq {cursor : Cursor} {line : Nat} (h : cursor.line = line) :
    cursor.toLine line = cursor := by
  unfold Cursor.toLine
  rw [if_neg (by omega)]

theorem lineSegments_of_isEmpty {cs : List Char} (h : cs.isEmpty) (line : Nat)
    (parts : List (List Char)) : lineSegments line (cs :: parts) = lineSegments line parts := by
  simp [lineSegments, h]

/-- The segments of one line. The cursor that reading them leaves is the one the next line starts
with. -/
theorem decodeSegments_lineSegments {cursor : Cursor} {line : Nat} (hline : cursor.line = line)
    (parts : List (List Char)) (later : List (Nat × List Char)) :
    decodeSegments cursor (lineSegments line parts ++ later) =
      (readLine line cursor parts).bind fun read =>
        (decodeSegments read.2 later).map (read.1 ++ ·) := by
  induction parts generalizing cursor with
  | nil => simp [lineSegments, readLine]
  | cons cs parts ih =>
      rw [readLine]
      split
      · rename_i hempty
        rw [lineSegments_of_isEmpty hempty, ih hline]
      · rename_i hempty
        have hsegments : lineSegments line (cs :: parts) = (line, cs) :: lineSegments line parts := by
          simp [lineSegments, hempty]
        rw [hsegments, List.cons_append, decodeSegments, toLine_of_line_eq hline]
        cases hm : decodeSegment cursor line cs with
        | none => simp
        | some m =>
            have hafter : (cursor.after m).line = line := hline
            simp only [Option.bind_eq_bind, Option.bind_some, ih hafter]
            cases readLine line (cursor.after m) parts with
            | none => rfl
            | some read =>
                simp only [Option.bind_some, Option.pure_def]
                cases decodeSegments read.2 later <;> rfl

theorem line_of_readLine {line : Nat} {cursor : Cursor} {parts : List (List Char)}
    {read : List Mapping × Cursor} (h : readLine line cursor parts = some read) :
    read.2.line = cursor.line := by
  induction parts generalizing cursor read with
  | nil =>
      obtain rfl := Option.some.inj h
      rfl
  | cons cs parts ih =>
      rw [readLine] at h
      split at h
      · exact ih h
      · simp only [Option.bind_eq_bind, Option.bind_eq_some_iff] at h
        obtain ⟨m, -, rest, hrest, hread⟩ := h
        obtain rfl := Option.some.inj hread
        have hline : rest.2.line = (cursor.after m).line := ih hrest
        exact hline

theorem le_of_mem_segmentsOf {line : Nat} {lines : List (List Char)} {segment : Nat × List Char}
    (h : segment ∈ segmentsOf line lines) : line ≤ segment.1 := by
  induction lines generalizing line with
  | nil => simp [segmentsOf] at h
  | cons cs lines ih =>
      rcases List.mem_append.mp h with h | h
      · obtain ⟨part, -, rfl⟩ := List.mem_map.mp h
        exact Nat.le_refl _
      · have := ih h
        omega

/-- A cursor on an earlier line goes to the start of the line of the next segment, wherever it is. -/
theorem decodeSegments_startLine {cursor : Cursor} {line : Nat} (h : cursor.line < line)
    {segments : List (Nat × List Char)} (hle : ∀ segment ∈ segments, line ≤ segment.1) :
    decodeSegments (cursor.startLine line) segments = decodeSegments cursor segments := by
  cases segments with
  | nil => rfl
  | cons segment segments =>
      obtain ⟨next, cs⟩ := segment
      have hnext : line ≤ next := hle _ List.mem_cons_self
      have hcursor : cursor.toLine next = cursor.startLine next := if_pos (by omega)
      have hstart : (cursor.startLine line).toLine next = cursor.startLine next := by
        rcases Nat.lt_or_eq_of_le hnext with hlt | rfl
        · exact if_pos hlt
        · exact toLine_of_line_eq rfl
      rw [decodeSegments, decodeSegments, hcursor, hstart]

theorem readLines_eq (line : Nat) (cursor : Cursor) (lines : List (List Char)) :
    readLines line cursor lines =
      decodeSegments (cursor.startLine line) (segmentsOf line lines) := by
  induction lines generalizing line cursor with
  | nil => rfl
  | cons cs lines ih =>
      have hline : (cursor.startLine line).line = line := rfl
      rw [readLines, segmentsOf, decodeSegments_lineSegments hline]
      cases hread : readLine line (cursor.startLine line) (cs.splitOn ',') with
      | none => rfl
      | some read =>
          have hlt : read.2.line < line + 1 := by
            rw [line_of_readLine hread, hline]
            exact Nat.lt_succ_self line
          have hothers : readLines (line + 1) read.2 lines =
              decodeSegments read.2 (segmentsOf (line + 1) lines) := by
            rw [ih, decodeSegments_startLine hlt fun segment => le_of_mem_segmentsOf]
          simp only [Option.bind_eq_bind, Option.bind_some, hothers]
          cases decodeSegments read.2 (segmentsOf (line + 1) lines) <;> rfl

/-- Cutting the text at its separators gives the same mappings as going over it. -/
theorem readMappings_eq (cs : List Char) : readMappings cs = decodeMappings cs := by
  rw [readMappings, readLines_eq, decodeMappings, segmentsFrom_eq 0 [] cs (by simp)]
  rfl

/-! ## What was recorded -/

/-- Of consecutive mappings at the same generated position the last. -/
def collapse : List Mapping → List Mapping
  | [] => []
  | [m] => [m]
  | m :: m' :: ms =>
    if m.generated = m'.generated then collapse (m' :: ms) else m :: collapse (m' :: ms)

theorem mem_of_mem_collapse {m : Mapping} {ms : List Mapping} (h : m ∈ collapse ms) : m ∈ ms := by
  fun_induction collapse ms with
  | case1 => exact h
  | case2 => exact h
  | case3 m' m'' ms _ ih => exact List.mem_cons_of_mem _ (ih h)
  | case4 m' m'' ms _ ih =>
      rcases List.mem_cons.mp h with rfl | h
      · exact List.mem_cons_self
      · exact List.mem_cons_of_mem _ (ih h)

/-- The latest mapping may still be replaced; the earlier ones stay. -/
theorem mappings_foldl_record {recorder : Recorder} {m : Mapping} {earlier : List Mapping}
    (h : recorder.latest = m :: earlier) (ms : List Mapping) :
    (ms.foldl Recorder.record recorder).mappings = earlier.reverse ++ collapse (m :: ms) := by
  induction ms generalizing recorder m earlier with
  | nil => simp [Recorder.mappings, h, collapse]
  | cons m' ms ih =>
      rw [List.foldl_cons, collapse]
      split
      · rename_i heq
        have hrecord : (recorder.record m').latest = m' :: earlier := by
          simp [Recorder.record, h, heq]
        exact ih hrecord
      · rename_i hne
        have hrecord : (recorder.record m').latest = m' :: m :: earlier := by
          simp [Recorder.record, h, hne]
        rw [ih hrecord]
        simp

/-- A new recorder keeps what it was given, with consecutive mappings at one position collapsed. -/
theorem mappings_record_all {recorder : Recorder} (h : recorder.latest = []) (ms : List Mapping) :
    (ms.foldl Recorder.record recorder).mappings = collapse ms := by
  cases ms with
  | nil => simp [Recorder.mappings, h, collapse]
  | cons m ms =>
      have hrecord : (recorder.record m).latest = [m] := by simp [Recorder.record, h]
      exact mappings_foldl_record hrecord ms

/-- The same mappings in the order of the generated text. Those at one position keep their order. -/
structure StablySorted (ms sorted : List Mapping) : Prop where
  ordered : sorted.Pairwise fun m m' => ¬m'.generated.Before m.generated
  perm : sorted.Perm ms
  stable : ∀ p, sorted.filter (·.generated = p) = ms.filter (·.generated = p)

theorem stablySorted_sortOn (ms : List Mapping) :
    StablySorted ms (sortOn (fun m => (m.generated.line, m.generated.column)) ms) where
  ordered := by
    apply (pairwise_pairLe_sortOn ms).imp
    intro m m' hle hbefore
    rw [pairLe_iff] at hle
    unfold Position.Before at hbefore
    omega
  perm := perm_sortOn ms
  stable p := by
    have hkey : ∀ m : Mapping, m.generated = p ↔
        (m.generated.line, m.generated.column) = (p.line, p.column) := by
      intro m
      cases m.generated
      cases p
      simp
    simp only [hkey]
    exact filter_sortOn (p.line, p.column) ms

/-- From a finished map the mappings that were recorded are read back: consecutive ones at the same
generated position collapsed to the last, and stably sorted by generated position. -/
theorem readMappings_finish (file : Option String) (sources : List String) {ms : List Mapping}
    (hms : ∀ m ∈ ms, Fits m) :
    ∃ sorted,
      readMappings (ms.foldl Recorder.record { file, sources }).finish.mappings = some sorted ∧
        StablySorted (collapse ms) sorted := by
  have hcollapse : ∀ m ∈ collapse ms, Fits m := fun m hm => hms m (mem_of_mem_collapse hm)
  have hnew : ({ file, sources } : Recorder).latest = [] := rfl
  have hmappings := mappings_record_all hnew ms
  have hread := decodeMappings_encodeMappings hcollapse
  rw [← readMappings_eq, ← hmappings] at hread
  rw [← hmappings]
  exact ⟨_, hread, stablySorted_sortOn _⟩

/-- Out of order, with an empty line in between and two mappings at one position. -/
theorem readMappings_finish_out_of_order :
    let ms : List Mapping :=
      [⟨⟨2, 7⟩, 1, ⟨5, 3⟩⟩, ⟨⟨0, 4⟩, 0, ⟨9, 1⟩⟩, ⟨⟨0, 4⟩, 1, ⟨2, 70⟩⟩, ⟨⟨2, 0⟩, 0, ⟨0, 0⟩⟩]
    (∀ m ∈ ms, Fits m) ∧
      ∃ sorted,
        readMappings (ms.foldl Recorder.record { file := none, sources := ["a", "b"] }).finish.mappings =
            some sorted ∧
          StablySorted [⟨⟨2, 7⟩, 1, ⟨5, 3⟩⟩, ⟨⟨0, 4⟩, 1, ⟨2, 70⟩⟩, ⟨⟨2, 0⟩, 0, ⟨0, 0⟩⟩] sorted := by
  intro ms
  have hms : ∀ m ∈ ms, Fits m := by
    intro m hm
    simp only [ms, List.mem_cons, List.not_mem_nil, or_false] at hm
    rcases hm with rfl | rfl | rfl | rfl <;> exact ⟨by decide, by decide, by decide, by decide⟩
  exact ⟨hms, readMappings_finish none ["a", "b"] hms⟩

end FlowErasure.SourceMap
