import FlowErasure.Proofs.Refusal.Located
import FlowErasure.Proofs.Text.LineEnds
import FlowErasure.Report

/-!
# Reports of refused sources

A report shows the line of an error with a marker below. Three measures meet there: offsets count
bytes, columns count UTF-16 units, and the marker stands below characters. The blanks before the
marker are counted right, one for each character. The length of the marker is taken from the bytes
of the range, so it is right where bytes and characters are the same, and where the range is not
what bounds the marker.
-/

namespace FlowErasure

namespace Text

variable {text before line ending after as bs : List Char} {offset : Nat}

/-! ## The line of an offset -/

structure HasLine (text before line ending after : List Char) : Prop where
  text_eq : text = before ++ line ++ ending ++ after
  start : before = [] ∨ ∃ first, LineEndAt text first (byteLength before)
  plain : ∀ c ∈ line, isLineBreak c = false
  stop : ending = [] ∧ after = [] ∨
    LineEndAt text (byteLength (before ++ line)) (byteLength (before ++ line ++ ending))

theorem HasLine.between (h : HasLine text before line ending after) :
    Between text (byteLength before) line (byteLength (before ++ line)) :=
  ⟨ending ++ after, ⟨before, by simp [h.text_eq], rfl⟩, byteLength_append _ _⟩

/-- A text without characters that end lines is one line. -/
theorem HasLine.eq_of_plain (h : HasLine text before line ending after)
    (hplain : ∀ c ∈ text, isLineBreak c = false) :
    before = [] ∧ line = text ∧ ending = [] ∧ after = [] := by
  have hnone : ∀ start stop, ¬LineEndAt text start stop := by
    rintro start stop ⟨pre, mark, rest, rfl, -, -, hmark, -⟩
    rcases eq_or_eq_of_mem_lineEnds hmark with ⟨c, rfl, hc⟩ | rfl
    · rw [hplain c (by simp)] at hc
      cases hc
    · exact absurd (hplain '\r' (by simp)) (by decide)
  obtain rfl := h.start.resolve_right fun ⟨first, hends⟩ => hnone _ _ hends
  obtain ⟨rfl, rfl⟩ := h.stop.resolve_right (hnone _ _)
  exact ⟨rfl, by simpa using h.text_eq.symm, rfl, rfl⟩

/-- The starts of lines in two parts of a text, between which no line end is divided. -/
theorem lineStartsFrom_append (h : ¬Divides as bs) :
    lineStartsFrom offset (as ++ bs) =
      lineStartsFrom offset as ++ lineStartsFrom (offset + byteLength as) bs := by
  induction as generalizing offset with
  | nil => rfl
  | cons a as ih =>
      rw [List.cons_append, lineStartsFrom_cons, lineStartsFrom_cons]
      cases as with
      | nil =>
          have hpair : ¬(a = '\r' ∧ bs.head? = some '\n') := fun ⟨ha, hb⟩ => h ⟨by rw [ha]; rfl, hb⟩
          have hpair' : ¬(a = '\r' ∧ ([] : List Char).head? = some '\n') := by simp
          rw [List.nil_append, breaks_of_not_pair hpair, breaks_of_not_pair hpair']
          simp [lineStartsFrom]
      | cons a' as =>
          have hrest : ¬Divides (a' :: as) bs := fun hdivides =>
            h ((divides_append_left (List.cons_ne_nil a' as)).mpr hdivides : Divides ([a] ++ _) bs)
          rw [ih hrest, List.append_assoc, byteLength_cons a, ← Nat.add_assoc]
          rfl

/-- In a part without characters that end lines no line starts. -/
theorem lineStartsFrom_plain (h : ∀ c ∈ as, isLineBreak c = false) :
    lineStartsFrom offset as = [] := by
  induction as generalizing offset with
  | nil => rfl
  | cons a as ih =>
      rw [lineStartsFrom_cons, ih fun c hc => h c (List.mem_cons_of_mem a hc)]
      simp [breaks, h a List.mem_cons_self]

theorem not_divides_plain (h : ∀ c ∈ as, isLineBreak c = false) (bs : List Char) : ¬Divides as bs :=
  not_divides_of_last fun hc => absurd (h _ hc) (by decide)

theorem exists_line_end (cs : List Char) :
    ∃ line ending after, cs = line ++ ending ++ after ∧ (∀ c ∈ line, isLineBreak c = false) ∧
      (ending = [] ∧ after = [] ∨ ending ∈ lineEnds ∧ ¬Divides ending after) := by
  have hsplit := List.takeWhile_append_dropWhile (p := fun c => !isLineBreak c) (l := cs)
  have hplain : ∀ c ∈ cs.takeWhile (fun c => !isLineBreak c), isLineBreak c = false := by
    intro c hc
    simpa using List.mem_takeWhile_imp hc
  cases hrest : cs.dropWhile (fun c => !isLineBreak c) with
  | nil =>
      rw [hrest, List.append_nil] at hsplit
      exact ⟨_, [], [], by simpa using hsplit.symm, hplain, .inl ⟨rfl, rfl⟩⟩
  | cons c rest =>
      have hbreak : isLineBreak c := by
        have hhead := List.head_dropWhile_not (p := fun c => !isLineBreak c) (l := cs)
          (by simp [hrest])
        simpa [hrest] using hhead
      rw [hrest] at hsplit
      by_cases hpair : Divides [c] rest
      · obtain ⟨hc, hhead⟩ := hpair
        obtain rfl : c = '\r' := Option.some.inj hc
        obtain ⟨rest', rfl⟩ := List.head?_eq_some_iff.mp hhead
        refine ⟨_, ['\r', '\n'], rest', by simpa using hsplit.symm, hplain, .inr ⟨by decide, ?_⟩⟩
        simp [Divides]
      · exact ⟨_, [c], rest, by simpa using hsplit.symm, hplain,
          .inr ⟨singleton_mem_lineEnds hbreak, hpair⟩⟩

end Text

open Text

namespace Lines

variable {text : List Char} {offset : Nat}

theorem lineStartsFrom_line {line ending after : List Char}
    (hplain : ∀ c ∈ line, isLineBreak c = false) (hmem : ending ∈ lineEnds)
    (hafter : ¬Divides ending after) :
    lineStartsFrom offset (line ++ ending ++ after) =
      (offset + byteLength (line ++ ending)) ::
        lineStartsFrom (offset + byteLength (line ++ ending)) after := by
  have hne : ending ≠ [] := by
    rintro rfl
    exact absurd hmem (by decide)
  have hending : ∀ o, lineStartsFrom o ending = [o + byteLength ending] := by
    intro o
    simp only [lineEnds, List.mem_cons, List.not_mem_nil, or_false] at hmem
    rcases hmem with rfl | rfl | rfl | rfl | rfl <;> rfl
  rw [lineStartsFrom_append (mt (divides_append_left hne).mp hafter),
    lineStartsFrom_append (not_divides_plain hplain ending), lineStartsFrom_plain hplain, hending,
    byteLength_append, Nat.add_assoc]
  rfl

/-- The lines that start after a line start are those of the rest of the text. -/
theorem exists_starts_rest (text : List Char) (offset : Nat) :
    ∃ before rest front, text = before ++ rest ∧ ¬Divides before rest ∧
      (before = [] ∨ ∃ first, LineEndAt text first (byteLength before)) ∧
      (ofText text).starts =
        front ++ byteLength before :: lineStartsFrom (byteLength before) rest ∧
      front.length = (ofText text).lineOf offset ∧ byteLength before ≤ offset ∧
      ∀ x ∈ lineStartsFrom (byteLength before) rest, offset < x := by
  obtain ⟨front, start, back, hstarts, hlength, hfront, hstart, hback⟩ :=
    exists_starts_eq text offset
  have hmem : start ∈ (ofText text).starts := by
    rw [hstarts]
    simp
  have hbegins := mem_starts_iff.mp hmem
  obtain ⟨rest, before, rfl, rfl⟩ := boundary_of_mem_starts hmem
  have hbegins' : before = [] ∨ ∃ first, LineEndAt (before ++ rest) first (byteLength before) := by
    refine hbegins.imp_left fun hzero => ?_
    cases before with
    | nil => rfl
    | cons c before =>
        have hpos := c.utf8Size_pos
        rw [byteLength_cons] at hzero
        omega
  have hdivides : ¬Divides before rest := by
    rcases hbegins' with rfl | ⟨first, pre, mark, rest', htext, -, hstop, -, -, hafter⟩
    · exact not_divides_nil_left rest
    · obtain rfl : rest = rest' := At.unique ⟨before, rfl, rfl⟩ ⟨pre ++ mark, htext, hstop⟩
      rwa [List.append_cancel_right htext]
  refine ⟨before, rest, front, rfl, hdivides, hbegins', ?_⟩
  suffices hsame : back = lineStartsFrom (byteLength before) rest by
    subst hsame
    exact ⟨hstarts, hlength, hstart, hback⟩
  -- Both are the starts beyond this one.
  have hall : (0 :: (lineStartsFrom 0 before ++ lineStartsFrom (byteLength before) rest)) =
      front ++ byteLength before :: back := by
    rw [← hstarts, ofText, lineStartsFrom_append hdivides, Nat.zero_add]
  have hlater : ∀ x ∈ back, byteLength before < x := fun x hx =>
    Nat.lt_of_le_of_lt hstart (hback x hx)
  have hsooner : ∀ x ∈ lineStartsFrom 0 before, x ≤ byteLength before := by
    intro x hx
    obtain ⟨pre, c, rest', rfl, -, rfl⟩ := mem_lineStartsFrom.mp hx
    simp only [byteLength_append, byteLength_cons, byteLength_nil]
    omega
  calc back = (front ++ byteLength before :: back).filter (byteLength before < ·) := by
        rw [List.filter_append, List.filter_cons_of_neg (by simp),
          List.filter_eq_nil_iff.mpr fun x hx => by simpa using (hfront x hx).le,
          List.filter_eq_self.mpr fun x hx => by simpa using hlater x hx, List.nil_append]
    _ = (0 :: (lineStartsFrom 0 before ++ lineStartsFrom (byteLength before) rest)).filter
          (byteLength before < ·) := by rw [hall]
    _ = lineStartsFrom (byteLength before) rest := by
        rw [List.filter_cons_of_neg (by simp), List.filter_append,
          List.filter_eq_nil_iff.mpr fun x hx => by simpa using hsooner x hx,
          List.filter_eq_self.mpr fun x hx => by simpa using lt_of_mem_lineStartsFrom hx,
          List.nil_append]

/-- Every offset is on a line, whose start and end the table knows. -/
theorem exists_hasLine (text : List Char) (offset : Nat) :
    ∃ before line ending after, HasLine text before line ending after ∧
      byteLength before ≤ offset ∧
      (offset < byteLength (before ++ line ++ ending) ∨ ending = [] ∧ after = []) ∧
      (ofText text).start? ((ofText text).lineOf offset) = some (byteLength before) ∧
      ((ofText text).start? ((ofText text).lineOf offset + 1)).getD (ofText text).size =
        byteLength (before ++ line ++ ending) := by
  obtain ⟨before, rest, front, rfl, hdivides, hbegins, hstarts, hlength, hstart, hlater⟩ :=
    exists_starts_rest text offset
  obtain ⟨line, ending, after, rfl, hplain, hend⟩ := exists_line_end rest
  have hfirst : (ofText (before ++ (line ++ ending ++ after))).start?
      ((ofText (before ++ (line ++ ending ++ after))).lineOf offset) =
        some (byteLength before) := by
    rw [start?, hstarts, ← hlength]
    simp
  have hnext : (ofText (before ++ (line ++ ending ++ after))).start?
      ((ofText (before ++ (line ++ ending ++ after))).lineOf offset + 1) =
      (lineStartsFrom (byteLength before) (line ++ ending ++ after)).head? := by
    rw [start?, hstarts, ← hlength, List.getElem?_append_right (by omega)]
    simp [List.head?_eq_getElem?]
  refine ⟨before, line, ending, after, ⟨by simp, hbegins, hplain, ?_⟩, hstart, ?_, hfirst, ?_⟩
  · refine hend.imp_right fun hbreaks => ?_
    obtain ⟨hmem, hafter⟩ := hbreaks
    have hne : ending ≠ [] := by
      rintro rfl
      exact absurd hmem (by decide)
    refine ⟨before ++ line, ending, after, by simp, rfl, rfl, hmem, ?_, ?_⟩
    · cases hline : line with
      | nil => simpa [hline] using hdivides
      | cons c cs =>
          rw [divides_append_left (List.cons_ne_nil c cs), ← hline]
          exact not_divides_plain hplain _
    · rwa [divides_append_left hne]
  · refine hend.symm.imp_left fun hbreaks => ?_
    obtain ⟨hmem, hafter⟩ := hbreaks
    have hlt := hlater (byteLength before + byteLength (line ++ ending)) (by
      rw [lineStartsFrom_line hplain hmem hafter]
      exact List.mem_cons_self)
    rwa [List.append_assoc, byteLength_append]
  · rw [hnext]
    rcases hend with ⟨rfl, rfl⟩ | ⟨hmem, hafter⟩
    · rw [List.append_nil, List.append_nil, lineStartsFrom_plain hplain, List.append_nil]
      rfl
    · rw [lineStartsFrom_line hplain hmem hafter, List.append_assoc before,
        byteLength_append before]
      rfl

end Lines

namespace Report

variable {text before line ending after as bs : List Char} {a b : Nat}

/-! ## Blanks before the marker -/

/-- What stands below a character in front of the marker. -/
def blank (c : Char) : Char :=
  if c = '\t' then '\t' else ' '

/-- There is one blank for each character up to the column. -/
theorem padding_append (units : Nat) (as bs : List Char) :
    padding (units + unitLength as) units (as ++ bs) = as.map blank := by
  induction as generalizing units with
  | nil => cases bs <;> simp [padding]
  | cons c as ih =>
      have hpos := units_pos c
      have hlt : ¬units + unitLength (c :: as) ≤ units := by
        rw [unitLength_cons]
        omega
      rw [List.cons_append, padding, if_neg hlt, unitLength_cons, ← Nat.add_assoc, ih]
      rfl

/-- Beyond the end of a line there is nothing to count. -/
theorem padding_of_le {column units : Nat} (h : units + unitLength as ≤ column) :
    padding column units as = as.map blank := by
  induction as generalizing units with
  | nil => rfl
  | cons c as ih =>
      have hpos := units_pos c
      rw [unitLength_cons, ← Nat.add_assoc] at h
      rw [padding, if_neg (by omega), ih h]
      rfl

/-! ## Characters in a range -/

def charsIn (start : Nat) (cs : List Char) (lo hi : Nat) : List Char :=
  ((cs.zip (offsetsFrom start cs)).filter
    fun (_, offset) => lo ≤ offset && offset < hi).map Prod.fst

theorem charsIn_append (start lo hi : Nat) (as bs : List Char) :
    charsIn start (as ++ bs) lo hi =
      charsIn start as lo hi ++ charsIn (start + byteLength as) bs lo hi := by
  rw [charsIn, offsetsFrom_append, List.zip_append (by simp), List.filter_append, List.map_append]
  rfl

theorem mem_zip_offsetsFrom {start offset : Nat} {c : Char} {cs : List Char}
    (h : (c, offset) ∈ cs.zip (offsetsFrom start cs)) :
    start ≤ offset ∧ offset < start + byteLength cs := by
  induction cs generalizing start with
  | nil => simp [offsetsFrom] at h
  | cons d cs ih =>
      have hpos := d.utf8Size_pos
      rw [byteLength_cons]
      rcases List.mem_cons.mp h with heq | h
      · obtain ⟨rfl, rfl⟩ := Prod.mk.inj heq
        omega
      · have hrest := ih h
        omega

theorem charsIn_inside {start lo hi : Nat} (hlo : lo ≤ start) (hhi : start + byteLength as ≤ hi) :
    charsIn start as lo hi = as := by
  rw [charsIn, List.filter_eq_self.mpr, List.map_fst_zip (by simp)]
  rintro ⟨c, offset⟩ hmem
  obtain ⟨hge, hlt⟩ := mem_zip_offsetsFrom hmem
  simp only [Bool.and_eq_true, decide_eq_true_eq]
  omega

theorem charsIn_outside {start lo hi : Nat} (h : hi ≤ start ∨ start + byteLength as ≤ lo) :
    charsIn start as lo hi = [] := by
  rw [charsIn, List.filter_eq_nil_iff.mpr, List.map_nil]
  rintro ⟨c, offset⟩ hmem
  obtain ⟨hge, hlt⟩ := mem_zip_offsetsFrom hmem
  simp only [Bool.and_eq_true, decide_eq_true_eq]
  omega

/-! ## The marker -/

theorem length_le_byteLength (cs : List Char) : cs.length ≤ byteLength cs := by
  induction cs with
  | nil => exact Nat.le_refl 0
  | cons c cs ih =>
      have hpos := c.utf8Size_pos
      rw [byteLength_cons, List.length_cons]
      omega

/-- The marker is as long as the characters below which it stands are many, if the range reaches to
the end of the line, or they are one byte each, or they are at least as many as it may be long. -/
theorem markerWidth_eq_iff {length : Nat} {shown hidden : List Char}
    (h : byteLength shown = length ∨ hidden = [] ∧ byteLength shown ≤ length) :
    markerWidth length (shown ++ hidden).length = max 1 (min shown.length markerLimit) ↔
      byteLength (shown ++ hidden) ≤ length ∨ byteLength shown = shown.length ∨
        markerLimit ≤ shown.length := by
  have hshown := length_le_byteLength shown
  have hhidden := length_le_byteLength hidden
  have hlimit : markerLimit = 80 := rfl
  rw [markerWidth, byteLength_append, List.length_append]
  have hempty : ∀ cs : List Char, cs.length = 0 → byteLength cs = 0 := by
    intro cs hlength
    rw [List.length_eq_zero_iff.mp hlength]
    rfl
  rcases h with heq | ⟨rfl, hle⟩
  · have := hempty shown
    have := hempty hidden
    omega
  · rw [byteLength_nil, List.length_nil]
    omega

/-! ## The line -/

theorem trimLineEnd_append (hline : ∀ c ∈ line, isLineBreak c = false)
    (hending : ∀ c ∈ ending, isLineBreak c) : trimLineEnd (line ++ ending) = line := by
  have hstays : line.reverse.dropWhile isLineBreak = line.reverse := by
    rw [List.dropWhile_eq_self_iff]
    intro hlt
    simpa using hline _ (List.mem_reverse.mp (List.getElem_mem hlt))
  rw [trimLineEnd, List.reverse_append, List.dropWhile_append_of_pos (by simpa using hending),
    hstays, List.reverse_reverse]

theorem lineText?_eq {n : Nat} (h : HasLine text before line ending after)
    (hstart : (Lines.ofText text).start? n = some (byteLength before))
    (hstop : ((Lines.ofText text).start? (n + 1)).getD (Lines.ofText text).size =
      byteLength (before ++ line ++ ending)) : lineText? (Lines.ofText text) n = some line := by
  have hbetween : Between text (byteLength before) (line ++ ending)
      (byteLength (before ++ line ++ ending)) :=
    ⟨after, ⟨before, by simp [h.text_eq], rfl⟩, by simp⟩
  have hending : ∀ c ∈ ending, isLineBreak c := by
    intro c hc
    rcases h.stop with ⟨rfl, -⟩ | ⟨pre, mark, rest, htext, hfirst, hlast, hmark, -⟩
    · cases hc
    · have hsame : mark = ending := by
        have hbetween' : Between text (byteLength (before ++ line)) mark
            (byteLength (before ++ line ++ ending)) :=
          ⟨rest, ⟨pre, by simp [htext], hfirst⟩, by rw [hlast, hfirst, byteLength_append]⟩
        exact hbetween'.unique
          ⟨after, ⟨before ++ line, by simp [h.text_eq], rfl⟩, byteLength_append _ _⟩
      subst hsame
      rcases eq_or_eq_of_mem_lineEnds hmark with ⟨d, rfl, hd⟩ | rfl
      · rwa [List.mem_singleton.mp hc]
      · rcases List.mem_cons.mp hc with rfl | hc
        · decide
        · rw [List.mem_singleton.mp hc]
          decide
  have hslice : slice? (Lines.ofText text).text (byteLength before)
      (byteLength (before ++ line ++ ending)) = some (line ++ ending) := hbetween.slice?
  simp only [lineText?, hstart, hstop, hslice, Option.bind_eq_bind, Option.bind_some,
    trimLineEnd_append h.plain hending]
  rfl

section

variable {start length column : Nat} {rest : List Char} (h : HasLine text before line ending after)

include h

/-- The characters of a line before an offset are those with a blank. -/
theorem exists_padding (hstart : Boundary text start) (hle : byteLength before ≤ start)
    (hcolumn : ∀ cs, Between text (byteLength before) cs start → column = 1 + unitLength cs) :
    ∃ as rest, line = as ++ rest ∧ padding column 1 line = as.map blank ∧
      (byteLength before + byteLength as = start ∨
        rest = [] ∧ byteLength before + byteLength as ≤ start) := by
  have hline := h.between
  by_cases hinside : start ≤ byteLength (before ++ line)
  · obtain ⟨as, rest, rfl, has, -⟩ := hline.split hstart hle hinside
    refine ⟨as, rest, rfl, ?_, .inl ?_⟩
    · rw [hcolumn as has, padding_append]
    · obtain ⟨-, -, hstart⟩ := has
      exact hstart.symm
  · -- The offset is in the line end, so all of the line is before it.
    have hbeyond := Nat.le_of_not_le hinside
    obtain ⟨cs, hcs⟩ := Between.exists_of_le hline.left hstart hle
    obtain ⟨ds, es, rfl, hds, -⟩ := hcs.split hline.right hline.le hbeyond
    obtain rfl := hds.unique hline
    refine ⟨ds, [], (List.append_nil ds).symm, padding_of_le ?_, .inr ⟨rfl, ?_⟩⟩
    · rw [hcolumn _ hcs, unitLength_append]
      omega
    · rwa [← byteLength_append]

/-- The characters of a line in a range, among those that come after its start. -/
theorem exists_shown (hline : line = as ++ rest)
    (hrest : byteLength before + byteLength as = start ∨
      rest = [] ∧ byteLength before + byteLength as ≤ start)
    (hstop : Boundary text (start + length)) :
    ∃ shown hidden, rest = shown ++ hidden ∧
      charsIn (byteLength before) line start (start + length) = shown ∧
      (byteLength shown = length ∨ hidden = [] ∧ byteLength shown ≤ length) := by
  subst hline
  have has : charsIn (byteLength before) as start (start + length) = [] :=
    charsIn_outside (.inr (by omega))
  rw [charsIn_append, has, List.nil_append]
  rcases hrest with rfl | ⟨rfl, -⟩
  · have hbetween : Between text (byteLength before + byteLength as) rest
        (byteLength (before ++ (as ++ rest))) :=
      ⟨ending ++ after, ⟨before ++ as, by simp [h.text_eq], (byteLength_append _ _).symm⟩,
        by simp [Nat.add_assoc]⟩
    by_cases hinside : byteLength before + byteLength as + length ≤
        byteLength (before ++ (as ++ rest))
    · obtain ⟨shown, hidden, rfl, hshown, -⟩ :=
        hbetween.split hstop (Nat.le_add_right _ _) hinside
      obtain ⟨-, -, hlength⟩ := hshown
      refine ⟨shown, hidden, rfl, ?_, .inl (Nat.add_left_cancel hlength).symm⟩
      rw [charsIn_append, charsIn_inside (Nat.le_refl _) (Nat.le_of_eq hlength.symm),
        charsIn_outside (.inl (Nat.le_of_eq hlength)), List.append_nil]
    · simp only [byteLength_append] at hinside
      refine ⟨rest, [], (List.append_nil rest).symm, ?_, .inr ⟨rfl, by omega⟩⟩
      exact charsIn_inside (Nat.le_refl _) (by omega)
  · exact ⟨[], [], rfl, rfl, .inr ⟨rfl, Nat.zero_le _⟩⟩

end

def heading (e : ParseError) : String :=
  e.fileName ++ ":" ++ toString e.line ++ ":" ++ toString e.column ++ " - error " ++ "FS" ++
    toString e.code ++ ": " ++ e.text

/-- The report of an error without colour: the line that the error starts on, without its end, and
below it a blank for each character before the error and a marker of `width` characters. -/
structure Shows (e : ParseError) (text before line ending after : List Char) (width : Nat) : Prop
    where
  hasLine : HasLine text before line ending after
  start_le : byteLength before ≤ e.start
  lt_stop : e.start < byteLength (before ++ line ++ ending) ∨ ending = [] ∧ after = []
  report : e.report false text = heading e ++ "\n  " ++ lineNumber e.line ++ "   " ++
    String.ofList line ++ "\n        " ++
    String.ofList ((charsIn (byteLength before) line 0 e.start).map blank) ++
    String.ofList (List.replicate width '~')

def covered (e : ParseError) (before line : List Char) : List Char :=
  charsIn (byteLength before) line e.start (e.start + e.length)

/-- What is reported when the line is known and how much of it is before the error. -/
theorem report_eq {e : ParseError} {text as rest : List Char} (hline : 0 < e.line)
    (htext : lineText? (Lines.ofText text) (e.line - 1) = some (as ++ rest))
    (hpadding : padding e.column 1 (as ++ rest) = as.map blank) :
    e.report false text = heading e ++ "\n  " ++ lineNumber e.line ++ "   " ++
      String.ofList (as ++ rest) ++ "\n        " ++ String.ofList (as.map blank) ++
      String.ofList (List.replicate (markerWidth e.length rest.length) '~') := by
  have hlength : (as ++ rest).length - (as.map blank).length = rest.length := by simp
  rw [ParseError.report, snippet?, if_neg (Nat.ne_of_gt hline), htext]
  simp only [Option.bind_eq_bind, Option.bind_some, hpadding, hlength, paint, heading,
    Bool.false_eq_true, if_false, String.append_assoc]
  rfl

end Report

open Report

namespace ParseError.PointsInto

variable {text before cs : List Char} {e : ParseError} (h : e.PointsInto text)

include h

theorem lineOf_eq : (Lines.ofText text).lineOf e.start = e.line - 1 := by
  have hclamp : min e.start (Lines.ofText text).size = e.start := Nat.min_eq_left h.start.le
  have hposition := congrArg Position.line h.position
  simpa only [Lines.position, hclamp] using hposition

/-- The column counts the units of the line before the error. -/
theorem column_eq (hstart : (Lines.ofText text).start? ((Lines.ofText text).lineOf e.start) =
      some (byteLength before))
    (hcs : Between text (byteLength before) cs e.start) : e.column = 1 + unitLength cs := by
  have hposition := congrArg Position.column h.position
  rw [Lines.column_eq hstart hcs] at hposition
  have hpos := h.column_pos
  simp only at hposition
  omega

end ParseError.PointsInto

theorem pointsInto_of_parse {text : List Char} {fileName : Option String} {e : ParseError}
    (h : parse text fileName = .error e) : e.PointsInto text := by
  unfold parse at h
  split at h
  · cases h
  · rename_i failure s hrun
    obtain rfl := Except.error.inj h
    exact (pointsInto_of_readProgram (n := 0) hrun (fileName.getD defaultFileName)).1

/-- The report of a source that is refused shows the line of the error, without its end, and below
it one blank for each character before the error, a tab for a tab. The marker has at least one
character and at most eighty. It has as many as the line has in the range of the error, within these
limits, exactly if the range reaches to the end of the line, or these characters are one byte each,
or they are at least eighty. -/
theorem report_of_parse {text : List Char} {fileName : Option String} {e : ParseError}
    (hparse : parse text fileName = .error e) :
    ∃ before line ending after width, Shows e text before line ending after width ∧
      1 ≤ width ∧ width ≤ markerLimit ∧
      (width = max 1 (min (covered e before line).length markerLimit) ↔
        byteLength (before ++ line) ≤ e.start + e.length ∨
          byteLength (covered e before line) = (covered e before line).length ∨
          markerLimit ≤ (covered e before line).length) := by
  have h := pointsInto_of_parse hparse
  obtain ⟨before, line, ending, after, hline, hle, hlt, hstart, hstop⟩ :=
    Lines.exists_hasLine text e.start
  obtain ⟨as, rest, rfl, hpadding, hrest⟩ := exists_padding hline h.start hle
    fun cs hcs => h.column_eq hstart hcs
  obtain ⟨shown, hidden, rfl, hshown, hlength⟩ := exists_shown hline rfl hrest h.stop
  rw [h.lineOf_eq] at hstart hstop
  have htext := lineText?_eq hline hstart hstop
  have hblanks : charsIn (byteLength before) (as ++ (shown ++ hidden)) 0 e.start = as := by
    rw [charsIn_append, charsIn_inside (Nat.zero_le _) (by omega)]
    rcases hrest with heq | ⟨hnil, -⟩
    · rw [charsIn_outside (.inl (Nat.le_of_eq heq.symm)), List.append_nil]
    · rw [hnil]
      exact List.append_nil as
  have hlimit : markerLimit = 80 := rfl
  have hcovered : covered e before (as ++ (shown ++ hidden)) = shown := hshown
  refine ⟨before, _, ending, after, markerWidth e.length (shown ++ hidden).length,
    ⟨hline, hle, hlt, ?_⟩, ?_, ?_, ?_⟩
  · rw [hblanks]
    exact report_eq h.line_pos htext hpadding
  · rw [markerWidth]
    omega
  · rw [markerWidth]
    omega
  · rw [hcovered, markerWidth_eq_iff hlength]
    have hreaches : byteLength (shown ++ hidden) ≤ e.length ↔
        byteLength (before ++ (as ++ (shown ++ hidden))) ≤ e.start + e.length := by
      rw [byteLength_append before, byteLength_append as]
      rcases hrest with heq | ⟨hnil, hle⟩
      · omega
      · rw [hnil, byteLength_nil]
        omega
    rw [hreaches]

theorem report_of_parse_name : ∃ e before line ending after width,
    parse "é b".toList none = .error e ∧ Shows e "é b".toList before line ending after width ∧
      width = max 1 (min (covered e before line).length markerLimit) := by
  have hreaches : (match parse "é b".toList none with
      | .ok _ => false
      | .error e => byteLength "é b".toList ≤ e.start + e.length) = true := by
    decide +kernel
  cases hparse : parse "é b".toList none with
  | ok parsed =>
      rw [hparse] at hreaches
      exact absurd hreaches Bool.false_ne_true
  | error e =>
      rw [hparse] at hreaches
      obtain ⟨before, line, ending, after, width, hshows, -, -, hiff⟩ := report_of_parse hparse
      have hle : byteLength (before ++ line) ≤ byteLength "é b".toList := by
        rw [hshows.hasLine.text_eq, List.append_assoc (before ++ line),
          byteLength_append (before ++ line)]
        exact Nat.le_add_right _ _
      exact ⟨e, before, line, ending, after, width, rfl, hshows,
        hiff.mpr (.inl (hle.trans (by simpa using hreaches)))⟩

/-- The second name of this source is one character of two bytes, and so the marker has two. -/
theorem not_report_covered :
    ¬∀ (text : List Char) (fileName : Option String) (e : ParseError),
      parse text fileName = .error e → ∃ before line ending after,
        Shows e text before line ending after
          (max 1 (min (covered e before line).length markerLimit)) := by
  intro h
  have hreport : (match parse "a é b".toList none with
      | .ok _ => false
      | .error e => e.report false "a é b".toList != heading e ++ "\n  " ++ lineNumber e.line ++
          "   " ++ "a é b" ++ "\n        " ++
          String.ofList ((charsIn 0 "a é b".toList 0 e.start).map blank) ++
          String.ofList (List.replicate
            (max 1 (min (covered e [] "a é b".toList).length markerLimit)) '~')) = true := by
    decide +kernel
  cases hparse : parse "a é b".toList none with
  | ok parsed =>
      rw [hparse] at hreport
      exact absurd hreport Bool.false_ne_true
  | error e =>
      rw [hparse] at hreport
      obtain ⟨before, line, ending, after, hshows⟩ := h _ _ e hparse
      have hplain : ("a é b".toList.all fun c => !Text.isLineBreak c) = true := by decide
      obtain ⟨rfl, rfl, rfl, rfl⟩ :=
        hshows.hasLine.eq_of_plain fun c hc => by simpa using List.all_eq_true.mp hplain c hc
      exact absurd hshows.report (by simpa using hreport)

end FlowErasure
