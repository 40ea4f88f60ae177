import FlowErasure.Proofs.Layout.Cuts
import FlowErasure.Proofs.Text.LineEnds
import FlowErasure.Proofs.Token.Closing

/-!
# Whole lines

A region that stands alone on its lines is dropped with these lines. No token ends among the blanks
before it, so what is dropped before the region, and the blanks and the line end after that, end
before its lines.
-/

namespace FlowErasure

namespace Text

variable {text cs : List Char} {floor start stop offset : Nat}

theorem spaceBefore_le_self (bs : List UInt8) (floor offset : Nat) :
    spaceBefore bs floor offset ≤ offset := by
  induction offset with
  | zero => exact Nat.le_refl 0
  | succ offset ih =>
      rw [spaceBefore]
      split
      · exact ih.trans (Nat.le_succ offset)
      · exact Nat.le_refl _

theorem spaceBefore_le {bs : List UInt8} (hfloor : floor ≤ start) (hle : start ≤ offset)
    (hspaces : ∀ i, start ≤ i → i < offset → (bs[i]?).any isSpaceByte) :
    spaceBefore bs floor offset ≤ start := by
  induction offset with
  | zero => exact Nat.zero_le start
  | succ offset ih =>
      rcases Nat.eq_or_lt_of_le hle with rfl | hlt
      · exact spaceBefore_le_self bs floor _
      · have hle : start ≤ offset := Nat.le_of_lt_succ hlt
        have hspace := hspaces offset hle (Nat.lt_succ_self offset)
        rw [spaceBefore, if_pos (by simp [hfloor.trans hle, hspace])]
        exact ih hle fun i hi hlt => hspaces i hi (Nat.lt_succ_of_lt hlt)

theorem isSpaceByte_of_mem_bytes (h : ∀ c ∈ cs, isSpace c) : ∀ b ∈ bytes cs, isSpaceByte b := by
  induction cs with
  | nil => simp
  | cons c cs ih =>
      obtain ⟨b, hencode, hb⟩ := utf8EncodeChar_of_isSpace (h c (by simp))
      rw [bytes_cons, hencode]
      simpa [hb] using ih fun d hd => h d (List.mem_cons_of_mem c hd)

theorem spaceBefore_le_of_between (h : Between text start cs offset) (hspace : ∀ c ∈ cs, isSpace c)
    (hfloor : floor ≤ start) : spaceBefore (bytes text) floor offset ≤ start := by
  refine spaceBefore_le hfloor h.le fun i hi hlt => ?_
  obtain ⟨rest, ⟨pre, rfl, rfl⟩, rfl⟩ := h
  have hindex : i - byteLength pre < (bytes cs).length := by
    rw [length_bytes]
    omega
  have hbyte : (bytes (pre ++ (cs ++ rest)))[i]? = some (bytes cs)[i - byteLength pre] := by
    rw [bytes_append, List.getElem?_append_right (by simpa using hi), length_bytes, bytes_append,
      List.getElem?_append_left hindex, List.getElem?_eq_getElem hindex]
  rw [hbyte]
  exact isSpaceByte_of_mem_bytes hspace _ (List.getElem_mem hindex)

theorem lineEndLength_of_mem {mark rest : List Char} (h : mark ∈ lineEnds)
    (hdivides : ¬Divides mark rest) : lineEndLength (bytes (mark ++ rest)) = byteLength mark := by
  simp only [lineEnds, List.mem_cons, List.not_mem_nil, or_false] at h
  rcases h with rfl | rfl | rfl | rfl | rfl
  · rfl
  · have hbytes : bytes (['\r'] ++ rest) = 0x0D :: bytes rest := rfl
    rw [hbytes]
    cases hrest : bytes rest with
    | nil => rfl
    | cons b bs =>
        have hb : b ≠ 0x0A := by
          rintro rfl
          obtain ⟨rest, rfl, -⟩ := exists_of_bytes_ascii (d := '\n') (by decide) hrest
          exact hdivides ⟨rfl, rfl⟩
        show lineEndLength (0x0D :: b :: bs) = 1
        simp [lineEndLength, hb]
  · rfl
  · rfl
  · rfl

theorem lineEndLength_of_lineEndAt (h : LineEndAt text start stop) :
    start < stop ∧ start + lineEndLength ((bytes text).drop start) = stop := by
  obtain ⟨pre, mark, rest, rfl, rfl, rfl, hmark, -, hdivides⟩ := h
  have hne : mark ≠ [] := by
    rintro rfl
    exact absurd hmark (by decide)
  rw [divides_append_left hne] at hdivides
  have hat : At (pre ++ mark ++ rest) (byteLength pre) (mark ++ rest) := ⟨pre, by simp, rfl⟩
  rw [drop_bytes hat, lineEndLength_of_mem hmark hdivides, byteLength_append]
  refine ⟨?_, rfl⟩
  obtain ⟨c, mark, rfl⟩ := List.exists_cons_of_ne_nil hne
  have hpos := c.utf8Size_pos
  rw [byteLength_cons]
  omega

theorem LineEndAt.between (h : LineEndAt text start stop) :
    ∃ mark ∈ lineEnds, Between text start mark stop := by
  obtain ⟨pre, mark, rest, rfl, rfl, rfl, hmark, -⟩ := h
  exact ⟨mark, hmark, rest, ⟨pre, by simp, rfl⟩, by simp⟩

/-- The character before the start of a line ends the line before it. -/
theorem LineEndAt.charBefore (h : LineEndAt text start stop) :
    ∃ c, CharBefore text stop c ∧ isLineBreak c := by
  obtain ⟨pre, c, rest, htext, hbreaks, hstop⟩ := exists_lineEndAt_iff.mp ⟨start, h⟩
  exact ⟨c, ⟨pre, rest, htext, hstop⟩, (breaks_iff.mp hbreaks).1⟩

theorem LineEndAt.charAfter (h : LineEndAt text start stop) :
    ∃ c cs, At text start (c :: cs) ∧ isLineBreak c := by
  obtain ⟨pre, mark, rest, rfl, rfl, -, hmark, -⟩ := h
  rcases eq_or_eq_of_mem_lineEnds hmark with ⟨c, rfl, hc⟩ | rfl
  · exact ⟨c, rest, ⟨pre, by simp, rfl⟩, hc⟩
  · exact ⟨'\r', '\n' :: rest, ⟨pre, by simp, rfl⟩, by decide⟩

end Text

namespace Layout

open Text

variable {text : List Char} {region lines : Nat × Nat}

/-- Only blanks stand before the region on its first line, and only blanks and the end of the line
after it on its last. -/
structure StandsAlone (text : List Char) (region lines : Nat × Nat) : Prop where
  start : lines.1 = 0 ∨ ∃ first, LineEndAt text first lines.1
  before : ∃ cs, Between text lines.1 cs region.1 ∧ ∀ c ∈ cs, isSpace c
  after : ∃ cs mark, Between text region.2 cs mark ∧ (∀ c ∈ cs, isSpace c) ∧
    LineEndAt text mark lines.2

theorem isLineStart_of {start : Nat} (h : start = 0 ∨ ∃ first, LineEndAt text first start) :
    isLineStart (.ofText text) start := by
  obtain ⟨found, hfound, ⟨⟨-, hle⟩, hgreatest⟩, -⟩ := Lines.exists_start text start
  have hge : start ≤ found := hgreatest ⟨h, Nat.le_refl start⟩
  obtain rfl : found = start := Nat.le_antisymm hle hge
  simp [isLineStart, hfound]

theorem not_isLineBreak_of_isSpace {c : Char} (h : isSpace c) : isLineBreak c = false := by
  simp only [isSpace, Bool.or_eq_true, beq_iff_eq] at h
  rcases h with ((rfl | rfl) | rfl) | rfl <;> decide

/-- No blank stands before the start of a line. -/
theorem eq_of_blanks {a start : Nat} {cs : List Char} (h : Between text a cs start)
    (hspace : ∀ c ∈ cs, isSpace c) (hstart : start = 0 ∨ ∃ first, LineEndAt text first start) :
    a = start := by
  rcases List.eq_nil_or_concat' cs with rfl | ⟨cs, c, rfl⟩
  · obtain ⟨-, -, hsum⟩ := h
    simpa using hsum.symm
  · rcases hstart with rfl | ⟨first, hfirst⟩
    · exact Nat.le_zero.mp h.le
    · obtain ⟨d, hd, hbreak⟩ := hfirst.charBefore
      obtain rfl := h.charBefore.unique hd
      simp [not_isLineBreak_of_isSpace (hspace c (by simp))] at hbreak

namespace StandsAlone

variable (h : StandsAlone text region lines)

include h

/-- A region that stands alone is dropped with its lines, if nothing on them has been written. -/
theorem lineRange_eq {cursor : Nat} (hcursor : Boundary text cursor) (hle : cursor ≤ lines.1) :
    lineRange (.ofText text) cursor region.1 region.2 = lines := by
  obtain ⟨indent, hindent, hspace⟩ := h.before
  obtain ⟨blanks, mark, hblanks, hspace', hmark⟩ := h.after
  have hbefore : spaceBefore (bytes text) cursor region.1 = lines.1 := by
    have hge := spaceBefore_le_of_between hindent hspace hle
    obtain ⟨-, cs, hcs, hcsSpace⟩ := exists_spaceBefore hcursor hindent.right (hle.trans hindent.le)
    obtain ⟨ds, es, rfl, hds, -⟩ := hcs.split hindent.left hge hindent.le
    exact eq_of_blanks hds (fun c hc => hcsSpace c (List.mem_append_left _ hc)) h.start
  obtain ⟨hlt, hlength⟩ := lineEndLength_of_lineEndAt hmark
  have hafter : spaceAfter (bytes text) region.2 = mark := by
    obtain ⟨rest, hat, rfl⟩ := hblanks
    obtain ⟨c, cs, hrest, hbreak⟩ := hmark.charAfter
    obtain rfl := (hat.onward ⟨blanks, rfl, rfl⟩).unique hrest
    have hstays : isSpace c = false := by
      by_contra hc
      simp [not_isLineBreak_of_isSpace (by simpa using hc)] at hbreak
    rw [spaceAfter_eq hat, List.takeWhile_append_of_pos hspace']
    simp [hstays]
  have hends : endsLine (bytes text) mark := by
    have hpos : 0 < lineEndLength ((bytes text).drop mark) := by omega
    simp [endsLine, hpos]
  have hsource : (Source.ofText text).bytes = bytes text := rfl
  have hlines : (Source.ofText text).lines = .ofText text := rfl
  simp only [lineRange, hsource, hlines, hbefore, hafter, hends, isLineStart_of h.start, if_true,
    hlength]

/-- A token that starts before the region starts before its lines. -/
theorem lt_of_tokenStart {x : Nat} (hx : TokenStart text x) (hlt : x < region.1) : x < lines.1 := by
  by_contra hge
  obtain ⟨indent, hindent, hspace⟩ := h.before
  obtain ⟨rest, hat, hclear⟩ := hx
  obtain ⟨c, cs, rfl⟩ := hat.exists_cons (Nat.lt_of_lt_of_le hlt hindent.right.le)
  obtain ⟨-, hblank⟩ := hclear c cs rfl
  have hc := hspace c (hindent.mem_of_at hat (Nat.le_of_not_lt hge) hlt)
  simp [isInlineBlank_of_isSpace hc] at hblank

/-- A token that starts after the region starts after its lines. -/
theorem le_of_tokenStart {x : Nat} (hx : TokenStart text x) (hle : region.2 ≤ x)
    (hlt : x < Text.byteLength text) : lines.2 ≤ x := by
  by_contra hgt
  have hgt : x < lines.2 := Nat.lt_of_not_le hgt
  obtain ⟨blanks, mark, hblanks, hspace, hmark⟩ := h.after
  obtain ⟨rest, hat, hclear⟩ := hx
  obtain ⟨c, cs, rfl⟩ := hat.exists_cons hlt
  obtain ⟨hbreak, hblank⟩ := hclear c cs rfl
  rcases Nat.lt_or_ge x mark with hin | hpast
  · have hc := hspace c (hblanks.mem_of_at hat hle hin)
    simp [isInlineBlank_of_isSpace hc] at hblank
  · obtain ⟨ending, hmem, hending⟩ := hmark.between
    have hc := isLineBreak_of_mem_lineEnds hmem c (hending.mem_of_at hat hpast hgt)
    simp [hbreak] at hc

variable (hstart : TokenStart text region.1) (hlt : region.1 < Text.byteLength text)

include hstart hlt

theorem exists_charAfter {x : Nat} {rest : List Char} (hat : At text x rest) (hge : lines.1 ≤ x)
    (hle : x ≤ region.1) : ∃ c, rest.head? = some c ∧ isLineBreak c = false := by
  obtain ⟨indent, hindent, hspace⟩ := h.before
  obtain ⟨ds, es, rfl, -, hes⟩ := hindent.split hat.boundary hge hle
  obtain ⟨rest', hat', hregion⟩ := hes
  obtain rfl := hat.unique hat'
  cases es with
  | cons c es => exact ⟨c, rfl, not_isLineBreak_of_isSpace (hspace c (by simp))⟩
  | nil =>
      obtain rfl : region.1 = x := by simpa using hregion
      obtain ⟨found, hfound, hclear⟩ := hstart
      obtain rfl := hat.unique hfound
      obtain ⟨c, cs, rfl⟩ := hat.exists_cons hlt
      exact ⟨c, rfl, (hclear c cs rfl).1⟩

/-- A token that ends before the region ends before its lines. -/
theorem lt_of_tokenStop {x : Nat} (hx : TokenStop text x) (hpos : 0 < x) (hle : x ≤ region.1) :
    x < lines.1 := by
  by_contra hge
  have hge : lines.1 ≤ x := Nat.le_of_not_lt hge
  rcases hx with ⟨c, hc, hsolid⟩ | ⟨rest, hat, hcut⟩
  · obtain ⟨indent, hindent, hspace⟩ := h.before
    obtain ⟨pre, rest, htext, hoffset⟩ := id hc
    have hboundary : Boundary text x := ⟨rest, pre ++ [c], by simp [htext], hoffset⟩
    obtain ⟨ds, es, rfl, hds, -⟩ := hindent.split hboundary hge hle
    rcases List.eq_nil_or_concat' ds with rfl | ⟨ds, d, rfl⟩
    · obtain ⟨-, -, hsum⟩ := hds
      obtain rfl : x = lines.1 := by simpa using hsum
      rcases h.start with hzero | ⟨first, hfirst⟩
      · omega
      · obtain ⟨d, hd, hbreak⟩ := hfirst.charBefore
        obtain rfl := hc.unique hd
        simp [hsolid.2] at hbreak
    · obtain rfl := hc.unique hds.charBefore
      have hblank := hspace c (by simp)
      simp [hsolid.1] at hblank
  · obtain ⟨c, hc, hbreak⟩ := h.exists_charAfter hstart hlt hat hge hle
    simp [hcut c hc] at hbreak

/-- What is dropped after such a token ends before the lines too. -/
theorem le_of_tail {x floor : Nat} {cs : List Char} (hx : TokenStop text x) (hpos : 0 < x)
    (hcs : Between text x cs floor) (htail : IsTail cs) (hle : floor ≤ region.1) :
    floor ≤ lines.1 := by
  have hbefore := h.lt_of_tokenStop hstart hlt hx hpos (hcs.le.trans hle)
  by_contra hgt
  obtain ⟨indent, hindent, hspace⟩ := h.before
  obtain ⟨ds, es, rfl, hds, hes⟩ := hcs.split hindent.left hbefore.le (by omega)
  obtain ⟨es', _, rfl, hes', -⟩ := hindent.split hcs.right (by omega) hle
  obtain rfl := hes.unique hes'
  -- The tail ends with blanks of the first line, so it is no line end that it ends with.
  obtain ⟨es, e, rfl⟩ : ∃ es' e, es = es' ++ [e] := by
    rcases List.eq_nil_or_concat' es with rfl | hsome
    · obtain ⟨-, -, hsum⟩ := hes
      simp at hsum
      omega
    · exact hsome
  obtain ⟨blanks, mark, heq, hblanks, hmark⟩ := htail
  have hnil : mark = [] := by
    refine hmark.resolve_right fun hmem => ?_
    have hne : mark ≠ [] := by
      rintro rfl
      exact absurd hmem (by decide)
    have hlast := congrArg List.getLast? heq
    rw [← List.append_assoc, List.getLast?_concat, List.getLast?_append_of_ne_nil _ hne] at hlast
    have hbreak := isLineBreak_of_mem_lineEnds hmem e (List.mem_of_getLast? hlast.symm)
    simp [not_isLineBreak_of_isSpace (hspace e (by simp))] at hbreak
  rw [hnil, List.append_nil] at heq
  have hsame := eq_of_blanks hds (fun c hc => hblanks c (heq ▸ List.mem_append_left _ hc)) h.start
  exact Nat.ne_of_lt hbefore hsame

omit hstart hlt in
/-- The edit of such a region drops its lines, as far as these lie in the node that is laid out, if
everything before the region ends where a token does. -/
theorem extents_eq {edit : Edit} {edits : List Edit} {lo limit cursor floor : Nat}
    {segments : NodeId → List Segment} (hregion : edit.range = region)
    (haction : ∃ semicolon, edit.action = .removeLines semicolon)
    (hchain : Chain text limit lo [edit.range]) (hfloor : IsFloor text cursor edits edit.start floor)
    (hstops : ∀ other ∈ edits, TokenStop text other.stop ∧ 0 < other.stop)
    (hcursor : cursor ≤ lines.1) :
    edit.extents text limit floor segments = [(lines.1, min lines.2 limit)] := by
  subst hregion
  obtain ⟨-, hlt, -, hstart, hstop, -⟩ := hchain
  have hle : floor ≤ lines.1 := by
    rcases hfloor.origin with rfl | ⟨other, hother, cs, hcs, htail⟩
    · exact hcursor
    · obtain ⟨hend, hpos⟩ := hstops other hother
      exact h.le_of_tail hstart (Nat.lt_of_lt_of_le hlt hstop.boundary.le) hend hpos hcs htail
        hfloor.le
  have hrange : lineRange (.ofText text) floor edit.start edit.stop = lines :=
    h.lineRange_eq hfloor.boundary hle
  obtain ⟨semicolon, haction⟩ := haction
  simp only [Edit.extents, haction, hrange]

end StandsAlone

end Layout

end FlowErasure
