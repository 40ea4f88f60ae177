import FlowErasure.Layout.Print
import FlowErasure.Proofs.Syntax.Spans
import FlowErasure.Proofs.Text.Bytes

/-!
# Cuts

A layout takes regions out of a source, with the blanks around them. `Lays` says how the fragments of
a layout cover a part of the source: every character is kept or dropped, in order, and what is kept
does not end inside a line end. The edits of a node come in order and apart from each other, and then
its pieces cover its range.
-/

namespace FlowErasure

namespace Layout

open Text

variable {text : List Char} {cursor start stop : Nat}

/-! ## Widened ranges -/

/-- What may be dropped after a region: blanks, and then at most one line end. -/
def IsTail (cs : List Char) : Prop :=
  ∃ blanks mark, cs = blanks ++ mark ∧ (∀ c ∈ blanks, isSpace c) ∧ (mark = [] ∨ mark ∈ lineEnds)

theorem isTail_nil : IsTail [] :=
  ⟨[], [], rfl, by simp, .inl rfl⟩

theorem isTail_of_blanks {cs : List Char} (h : ∀ c ∈ cs, isSpace c) : IsTail cs :=
  ⟨cs, [], by simp, h, .inl rfl⟩

theorem lineEnds_prefix {cs ds : List Char} (h : cs ++ ds ∈ lineEnds) : cs = [] ∨ cs ∈ lineEnds := by
  simp only [lineEnds, List.mem_cons, List.not_mem_nil, or_false] at h
  rcases h with h | h | h | h | h
  all_goals
    rcases cs with _ | ⟨c, _ | ⟨d, cs⟩⟩
    · exact .inl rfl
    · simp_all [lineEnds]
    · simp_all [lineEnds]

theorem IsTail.of_append {cs ds : List Char} (h : IsTail (cs ++ ds)) : IsTail cs := by
  obtain ⟨blanks, mark, heq, hblanks, hmark⟩ := h
  rcases List.append_eq_append_iff.mp heq with ⟨mid, hmid, -⟩ | ⟨mid, hmid, hds⟩
  · exact isTail_of_blanks fun c hc => hblanks c (by simp [hmid, hc])
  · refine ⟨blanks, mid, hmid, hblanks, ?_⟩
    rcases hmark with hnil | hmem
    · exact .inl (List.append_eq_nil_iff.mp (hds.symm.trans hnil)).1
    · exact lineEnds_prefix (hds ▸ hmem)

theorem isLineBreak_of_mem_lineEnds {mark : List Char} (h : mark ∈ lineEnds) :
    ∀ c ∈ mark, isLineBreak c := by
  simp only [lineEnds, List.mem_cons, List.not_mem_nil, or_false] at h
  rcases h with rfl | rfl | rfl | rfl | rfl <;> simp [isLineBreak]

theorem isInlineBlank_of_isSpace {c : Char} (h : isSpace c) : Token.isInlineBlank c := by
  simp only [isSpace, Bool.or_eq_true, beq_iff_eq] at h
  rcases h with ((rfl | rfl) | rfl) | rfl <;> decide +kernel

theorem IsTail.isBlank {cs : List Char} (h : IsTail cs) :
    ∀ c ∈ cs, isLineBreak c ∨ Token.isInlineBlank c := by
  obtain ⟨blanks, mark, rfl, hblanks, hmark⟩ := h
  intro c hc
  rcases List.mem_append.mp hc with hc | hc
  · exact .inr (isInlineBlank_of_isSpace (hblanks c hc))
  · rcases hmark with rfl | hmem
    · simp at hc
    · exact .inl (isLineBreak_of_mem_lineEnds hmem c hc)

structure Widens (text : List Char) (cursor start stop : Nat) (range : Nat × Nat) : Prop where
  before : ∃ cs, Between text range.1 cs start ∧ ∀ c ∈ cs, isSpace c
  after : ∃ cs, Between text stop cs range.2 ∧ IsTail cs
  floor : cursor ≤ range.1

theorem exists_spaceBefore (hcursor : Boundary text cursor) (hstart : Boundary text start)
    (hle : cursor ≤ start) :
    cursor ≤ spaceBefore (bytes text) cursor start ∧
      ∃ cs, Between text (spaceBefore (bytes text) cursor start) cs start ∧
        ∀ c ∈ cs, isSpace c := by
  obtain ⟨mid, rest, ⟨pre, rfl, rfl⟩, hmid⟩ := Between.exists_of_le hcursor hstart hle
  obtain ⟨kept, blanks, rfl, hblanks, heq⟩ := spaceBefore_eq pre mid rest
  rw [byteLength_append, ← hmid] at heq
  rw [← List.append_assoc, heq]
  refine ⟨by simp, blanks, ⟨rest, ⟨pre ++ kept, by simp, rfl⟩, ?_⟩, hblanks⟩
  simp only [hmid, byteLength_append]
  omega

theorem exists_spaceAfter (hstop : Boundary text stop) :
    ∃ cs, Between text stop cs (spaceAfter (bytes text) stop) ∧ ∀ c ∈ cs, isSpace c := by
  obtain ⟨rest, hat⟩ := hstop
  refine ⟨rest.takeWhile isSpace, ⟨rest.dropWhile isSpace, ?_, spaceAfter_eq hat⟩, ?_⟩
  · rwa [List.takeWhile_append_dropWhile]
  · exact fun c hc => List.mem_takeWhile_imp hc

theorem exists_lineEnd (hstop : Boundary text stop) :
    ∃ mark, Between text stop mark (stop + lineEndLength ((bytes text).drop stop)) ∧
      (mark = [] ∨ mark ∈ lineEnds) := by
  obtain ⟨rest, hat⟩ := hstop
  obtain ⟨mark, rest', rfl, hlength, hmark⟩ := lineEndLength_eq rest
  exact ⟨mark, ⟨rest', hat, by rw [drop_bytes hat, hlength]⟩, hmark⟩

section

variable (hcursor : Boundary text cursor) (hstart : Boundary text start)
  (hstop : Boundary text stop) (hle : cursor ≤ start)

include hcursor hstart hstop hle

theorem widens_fieldRange :
    Widens text cursor start stop (fieldRange (bytes text) cursor start stop) := by
  obtain ⟨hfloor, hbefore⟩ := exists_spaceBefore hcursor hstart hle
  unfold fieldRange
  simp only
  split
  · exact ⟨hbefore, ⟨[], .refl hstop, isTail_nil⟩, hfloor⟩
  · exact ⟨⟨[], .refl hstart, by simp⟩, ⟨[], .refl hstop, isTail_nil⟩, hle⟩

theorem widens_lineRange :
    Widens text cursor start stop (lineRange (.ofText text) cursor start stop) := by
  obtain ⟨hfloor, hbefore⟩ := exists_spaceBefore hcursor hstart hle
  obtain ⟨blanks, hblanks, hspace⟩ := exists_spaceAfter hstop
  obtain ⟨mark, hmark, hends⟩ := exists_lineEnd hblanks.right
  have hafter : ∃ cs, Between text stop cs (spaceAfter (bytes text) stop) ∧ IsTail cs :=
    ⟨blanks, hblanks, isTail_of_blanks hspace⟩
  unfold lineRange
  dsimp only
  split
  · split
    · exact ⟨hbefore, ⟨blanks ++ mark, hblanks.append hmark, blanks, mark, rfl, hspace, hends⟩,
        hfloor⟩
    · exact ⟨hbefore, hafter, hfloor⟩
  · exact ⟨⟨[], .refl hstart, by simp⟩, hafter, hle⟩

end

namespace Widens

variable {range : Nat × Nat}

theorem stop_le (h : Widens text cursor start stop range) : stop ≤ range.2 := by
  obtain ⟨cs, hcs, -⟩ := h.after
  exact hcs.le

/-- The blanks before a region do not start inside a line end. -/
theorem seam (h : Widens text cursor start stop range) (hstart : Seam text start) :
    Seam text range.1 := by
  obtain ⟨cs, ⟨rest, hat, hsum⟩, hspace⟩ := h.before
  cases cs with
  | nil =>
      obtain rfl : start = range.1 := by simpa using hsum
      exact hstart
  | cons c cs =>
      refine hat.seam fun hhead => ?_
      obtain rfl : c = '\n' := by simpa using hhead
      exact absurd (hspace '\n' List.mem_cons_self) (by decide)

theorem past (h : Widens text cursor start stop range) {offset : Nat}
    (hoffset : TokenStart text offset) (hle : stop ≤ offset) : range.2 ≤ offset := by
  by_contra hlt
  obtain ⟨cs, hcs, htail⟩ := h.after
  obtain ⟨rest, hat, hclear⟩ := hoffset
  obtain ⟨ds, es, rfl, -, rest', hat', hstop⟩ := hcs.split hat.boundary hle (by omega)
  obtain rfl := hat.unique hat'
  cases es with
  | nil =>
      simp only [byteLength_nil] at hstop
      omega
  | cons c es =>
      obtain ⟨hbreak, hblank⟩ := hclear c (es ++ rest') rfl
      rcases htail.isBlank c (by simp) with hc | hc
      · simp [hbreak] at hc
      · simp [hblank] at hc

end Widens

/-! ## Covering a part of a source -/

/-- A part of a source: kept as it is, or dropped as a region with what is dropped around it. -/
inductive Segment where
  | kept (cs : List Char)
  | dropped (before region after : List Char) (semicolon : Bool)

def Segment.source : Segment → List Char
  | .kept cs => cs
  | .dropped before region after _ => before ++ region ++ after

def regionsFrom (offset : Nat) : List Segment → List (Nat × Nat)
  | [] => []
  | .kept cs :: segments => regionsFrom (offset + byteLength cs) segments
  | .dropped before region after _ :: segments =>
    let start := offset + byteLength before
    let stop := start + byteLength region
    (start, stop) :: regionsFrom (stop + byteLength after) segments

def cutsFrom (offset : Nat) : List Segment → List ((Nat × Nat) × Bool)
  | [] => []
  | .kept cs :: segments => cutsFrom (offset + byteLength cs) segments
  | .dropped before region after semicolon :: segments =>
    let start := offset + byteLength before
    let stop := start + byteLength region
    ((start, stop), semicolon) :: cutsFrom (stop + byteLength after) segments

def extentsFrom (offset : Nat) : List Segment → List (Nat × Nat)
  | [] => []
  | .kept cs :: segments => extentsFrom (offset + byteLength cs) segments
  | .dropped before region after _ :: segments =>
    let stop := offset + byteLength before + byteLength region + byteLength after
    (offset, stop) :: extentsFrom stop segments

theorem map_fst_cutsFrom (offset : Nat) (segments : List Segment) :
    (cutsFrom offset segments).map Prod.fst = regionsFrom offset segments := by
  induction segments generalizing offset with
  | nil => rfl
  | cons segment segments ih =>
      cases segment with
      | kept cs => exact ih _
      | dropped before region after semicolon =>
          simp only [cutsFrom, regionsFrom, List.map_cons, ih]

inductive Lays (text : List Char) : Nat → List Fragment → List Segment → Nat → Prop where
  | nil {a : Nat} (h : Boundary text a) : Lays text a [] [] a
  | copy {a b c : Nat} {cs : List Char} {fragments : List Fragment} {segments : List Segment}
    (h : Between text a cs b) (hseam : Seam text b) (rest : Lays text b fragments segments c) :
    Lays text a (.text a b :: fragments) (.kept cs :: segments) c
  | skip {a c start stop : Nat} {fragments : List Fragment} {segments : List Segment}
    (h : stop ≤ start) (rest : Lays text a fragments segments c) :
    Lays text a (.text start stop :: fragments) segments c
  | drop {a start stop b c : Nat} {before region after : List Char} {fragments : List Fragment}
    {segments : List Segment} (semicolon : Bool) (hbefore : Between text a before start)
    (hspace : ∀ c ∈ before, isSpace c) (hregion : Between text start region stop)
    (hlt : start < stop) (hafter : Between text stop after b) (htail : IsTail after)
    (rest : Lays text b fragments segments c) :
    Lays text a (.cut :: ((if semicolon then [.semicolon] else []) ++ fragments))
      (.dropped before region after semicolon :: segments) c

namespace Lays

variable {a b c : Nat} {fragments fragments' : List Fragment} {segments segments' : List Segment}

theorem append (h : Lays text a fragments segments b)
    (h' : Lays text b fragments' segments' c) :
    Lays text a (fragments ++ fragments') (segments ++ segments') c := by
  induction h with
  | nil => exact h'
  | copy hcopy hseam _ ih => exact .copy hcopy hseam (ih h')
  | skip hskip _ ih => exact .skip hskip (ih h')
  | drop semicolon hbefore hspace hregion hlt hafter htail _ ih =>
      rw [List.cons_append, List.append_assoc]
      exact .drop semicolon hbefore hspace hregion hlt hafter htail (ih h')

theorem between (h : Lays text a fragments segments b) :
    Between text a (segments.flatMap Segment.source) b := by
  induction h with
  | nil h => exact .refl h
  | copy h _ _ ih => exact h.append ih
  | skip _ _ ih => exact ih
  | drop semicolon hbefore hspace hregion _ hafter htail _ ih =>
      exact ((hbefore.append hregion).append hafter).append ih

theorem cutsFrom_append (h : Lays text a fragments segments b) (segments' : List Segment) :
    cutsFrom a (segments ++ segments') = cutsFrom a segments ++ cutsFrom b segments' := by
  induction h with
  | nil => rfl
  | copy hcopy _ _ ih =>
      obtain ⟨-, -, rfl⟩ := hcopy
      exact ih
  | skip _ _ ih => exact ih
  | drop semicolon hbefore hspace hregion _ hafter htail _ ih =>
      obtain ⟨-, -, rfl⟩ := hbefore
      obtain ⟨-, -, rfl⟩ := hregion
      obtain ⟨-, -, rfl⟩ := hafter
      rw [List.cons_append, cutsFrom, ih]
      rfl

theorem extentsFrom_append (h : Lays text a fragments segments b) (segments' : List Segment) :
    extentsFrom a (segments ++ segments') = extentsFrom a segments ++ extentsFrom b segments' := by
  induction h with
  | nil => rfl
  | copy hcopy _ _ ih =>
      obtain ⟨-, -, rfl⟩ := hcopy
      exact ih
  | skip _ _ ih => exact ih
  | drop semicolon hbefore hspace hregion _ hafter htail _ ih =>
      obtain ⟨-, -, rfl⟩ := hbefore
      obtain ⟨-, -, rfl⟩ := hregion
      obtain ⟨-, -, rfl⟩ := hafter
      rw [List.cons_append, extentsFrom, ih]
      rfl

/-- A region in front, with what is dropped around it up to the end of the node. -/
theorem cut {limit : Nat} {range : Nat × Nat} (h : Widens text cursor start stop range)
    (hcursor : Boundary text cursor) (hstart : Seam text start) (hlimit : Boundary text limit)
    (hlt : start < stop) (hle : stop ≤ limit) (semicolon : Bool)
    (rest : Lays text (min range.2 limit) fragments segments limit) :
    ∃ segments', Lays text cursor
        (.text cursor range.1 :: .cut ::
          ((if semicolon then [.semicolon] else []) ++ fragments)) segments' limit ∧
      cutsFrom cursor segments' =
        ((start, stop), semicolon) :: cutsFrom (min range.2 limit) segments ∧
      extentsFrom cursor segments' =
        (range.1, min range.2 limit) :: extentsFrom (min range.2 limit) segments := by
  obtain ⟨before, hbefore, hspace⟩ := h.before
  obtain ⟨after, hafter, htail⟩ := h.after
  obtain ⟨kept, hkept⟩ := Between.exists_of_le hcursor hbefore.left h.floor
  obtain ⟨region, hregion⟩ := Between.exists_of_le hbefore.right hafter.left (Nat.le_of_lt hlt)
  have hmin : Boundary text (min range.2 limit) := by
    rcases Nat.le_total range.2 limit with hmin | hmin
    · rw [Nat.min_eq_left hmin]
      exact hafter.right
    · rw [Nat.min_eq_right hmin]
      exact hlimit
  obtain ⟨dropped, _, rfl, hdropped, -⟩ :=
    hafter.split hmin (Nat.le_min.mpr ⟨h.stop_le, hle⟩) (Nat.min_le_left _ _)
  refine ⟨_, .copy hkept (h.seam hstart)
    (.drop semicolon hbefore hspace hregion hlt hdropped htail.of_append rest), ?_, ?_⟩
  all_goals
    obtain ⟨-, -, hkept⟩ := hkept
    obtain ⟨-, -, hbefore⟩ := hbefore
    obtain ⟨-, -, hregion⟩ := hregion
    obtain ⟨-, -, hdropped⟩ := hdropped
    simp only [cutsFrom, extentsFrom]
    rw [← hkept, ← hbefore, ← hregion, ← hdropped]

end Lays

/-! ## Pieces -/

def Piece.expand (expand : NodeId → List Fragment) : Piece → List Fragment
  | .fragment f => [f]
  | .node id => expand id

def Edit.range (edit : Edit) : Nat × Nat :=
  (edit.start, edit.stop)

def Edit.removes (edit : Edit) : Bool :=
  match edit.action with
  | .removeField | .removeLines _ => true
  | _ => false

def Edit.cuts (segments : NodeId → List Segment) (edit : Edit) : List ((Nat × Nat) × Bool) :=
  match edit.action with
  | .print id => cutsFrom edit.start (segments id)
  | .removeLines semicolon => [(edit.range, semicolon)]
  | .removeField | .removeExact => [(edit.range, false)]

def Edit.extents (text : List Char) (limit floor : Nat) (segments : NodeId → List Segment)
    (edit : Edit) : List (Nat × Nat) :=
  match edit.action with
  | .print id => extentsFrom edit.start (segments id)
  | .removeField =>
    let range := fieldRange (bytes text) floor edit.start edit.stop
    [(range.1, min range.2 limit)]
  | .removeLines _ =>
    let range := lineRange (.ofText text) floor edit.start edit.stop
    [(range.1, min range.2 limit)]
  | .removeExact => [(edit.start, min edit.stop limit)]

/-- Where an edit starts at `start` the text has been written up to `floor`: up to `cursor`, where
it begins, or up to the end of another edit with what is dropped after that. -/
structure IsFloor (text : List Char) (cursor : Nat) (edits : List Edit) (start floor : Nat) : Prop
    where
  boundary : Boundary text floor
  le : floor ≤ start
  origin : floor = cursor ∨
    ∃ edit ∈ edits, ∃ cs, Between text edit.stop cs floor ∧ IsTail cs

theorem IsFloor.cons {cursor' floor : Nat} {edit : Edit} {edits : List Edit} {cs : List Char}
    (h : IsFloor text cursor' edits start floor) (hcs : Between text edit.stop cs cursor')
    (htail : IsTail cs) : IsFloor text cursor (edit :: edits) start floor where
  boundary := h.boundary
  le := h.le
  origin := by
    right
    rcases h.origin with rfl | ⟨other, hother, hfound⟩
    · exact ⟨edit, List.mem_cons_self, cs, hcs, htail⟩
    · exact ⟨other, List.mem_cons_of_mem edit hother, hfound⟩

theorem Edit.map_fst_cuts_of_removes (segments : NodeId → List Segment) {edit : Edit}
    (h : edit.removes) : (edit.cuts segments).map Prod.fst = [edit.range] := by
  unfold Edit.removes at h
  cases haction : edit.action <;> simp_all [Edit.cuts]

/-- An edit that drops its range leaves the text up to the widened range and a cut. -/
theorem exists_widens {edit : Edit} (hremoves : edit.removes) (hcursor : Boundary text cursor)
    (hstart : Boundary text edit.start) (hstop : Boundary text edit.stop)
    (hle : cursor ≤ edit.start) (segments : NodeId → List Segment) :
    ∃ range semicolon, Widens text cursor edit.start edit.stop range ∧
      piecesOfEdit (.ofText text) cursor edit =
        (droppedPieces cursor range.1 semicolon, max range.2 cursor) ∧
      edit.cuts segments = [(edit.range, semicolon)] ∧
      ∀ limit, edit.extents text limit cursor segments = [(range.1, min range.2 limit)] := by
  unfold Edit.removes at hremoves
  unfold piecesOfEdit Edit.cuts Edit.extents
  cases haction : edit.action with
  | removeField =>
      exact ⟨_, false, widens_fieldRange hcursor hstart hstop hle, rfl, rfl, fun _ => rfl⟩
  | removeLines semicolon =>
      exact ⟨_, semicolon, widens_lineRange hcursor hstart hstop hle, rfl, rfl, fun _ => rfl⟩
  | print id => simp [haction] at hremoves
  | removeExact => simp [haction] at hremoves

theorem flatMap_droppedPieces (expand : NodeId → List Fragment) (semicolon : Bool) :
    (droppedPieces cursor start semicolon).flatMap (Piece.expand expand) =
      [.text cursor start, .cut] ++ if semicolon then [.semicolon] else [] := by
  cases semicolon <;> rfl

/-- Edits in order, apart from each other, have pieces that cover the text up to the end of their
node. All that is dropped after a region is white space, so the edit after it is not passed over. -/
theorem lays_piecesFrom {limit lo : Nat} {edits : List Edit} {expand : NodeId → List Fragment}
    {segments : NodeId → List Segment} (hlimit : Seam text limit)
    (hchain : Chain text limit lo (edits.map Edit.range)) (hcursor : Boundary text cursor)
    (hlo : lo ≤ cursor) (hpast : ∀ x, TokenStart text x → lo ≤ x → cursor ≤ x)
    (hprint : ∀ edit ∈ edits, ∀ id, edit.action = .print id →
      Lays text edit.start (expand id) (segments id) edit.stop)
    (hremoves : ∀ edit ∈ edits, (∃ id, edit.action = .print id) ∨ edit.removes) :
    ∃ covered, Lays text (min cursor limit)
        ((piecesFrom (.ofText text) limit cursor edits).flatMap (Piece.expand expand))
        covered limit ∧
      cutsFrom (min cursor limit) covered = edits.flatMap (Edit.cuts segments) ∧
      ∀ edit ∈ edits, ∃ floor, IsFloor text cursor edits edit.start floor ∧
        edit.extents text limit floor segments ⊆ extentsFrom (min cursor limit) covered := by
  induction edits generalizing lo cursor with
  | nil =>
      rcases Nat.le_total cursor limit with hle | hle
      · obtain ⟨cs, hcs⟩ := Between.exists_of_le hcursor hlimit.boundary hle
        rw [Nat.min_eq_left hle]
        exact ⟨[.kept cs], .copy hcs hlimit (.nil hlimit.boundary), rfl, by simp⟩
      · rw [Nat.min_eq_right hle]
        exact ⟨[], .skip hle (.nil hlimit.boundary), rfl, by simp⟩
  | cons edit edits ih =>
      obtain ⟨hge, hlt, hstop, htoken, hend, hrest⟩ := hchain
      have hle : cursor ≤ edit.start := hpast _ htoken hge
      have hmin : min cursor limit = cursor := by omega
      have hprint' : ∀ other ∈ edits, ∀ id, other.action = .print id →
          Lays text other.start (expand id) (segments id) other.stop :=
        fun other hother => hprint other (List.mem_cons_of_mem _ hother)
      have hremoves' : ∀ other ∈ edits, (∃ id, other.action = .print id) ∨ other.removes :=
        fun other hother => hremoves other (List.mem_cons_of_mem _ hother)
      rw [piecesFrom, if_neg (by omega), hmin, List.flatMap_cons]
      rcases hremoves edit (by simp) with ⟨id, haction⟩ | hremoved
      · have hnext : Lays text edit.start (expand id) (segments id) edit.stop :=
          hprint edit (by simp) id haction
        obtain ⟨kept, hkept⟩ := Between.exists_of_le hcursor htoken.boundary hle
        obtain ⟨covered, hcovered, hcuts, hextents⟩ :=
          ih hrest hend.boundary (Nat.le_refl _) (fun _ _ h => h) hprint' hremoves'
        rw [Nat.min_eq_left hstop] at hcovered hcuts hextents
        refine ⟨.kept kept :: (segments id ++ covered), ?_, ?_, fun other hother => ?_⟩
        · simp only [piecesOfEdit, haction, List.flatMap_append, List.flatMap_cons,
            List.flatMap_nil, List.append_nil, Piece.expand, List.singleton_append]
          exact .copy hkept htoken.seam (hnext.append hcovered)
        · obtain ⟨-, -, hkept⟩ := hkept
          rw [cutsFrom, ← hkept, hnext.cutsFrom_append, hcuts]
          simp [Edit.cuts, haction]
        · obtain ⟨-, -, hkept⟩ := hkept
          rw [extentsFrom, ← hkept, hnext.extentsFrom_append]
          rcases List.mem_cons.mp hother with rfl | hother
          · refine ⟨cursor, ⟨hcursor, hle, .inl rfl⟩, ?_⟩
            simp only [Edit.extents, haction]
            exact List.subset_append_left _ _
          · obtain ⟨floor, hfloor, hsub⟩ := hextents other hother
            refine ⟨floor, hfloor.cons (.refl hend.boundary) isTail_nil, ?_⟩
            exact List.subset_append_of_subset_right _ hsub
      · obtain ⟨range, semicolon, hwidens, hpieces, hcut, hextent⟩ :=
          exists_widens hremoved hcursor htoken.boundary hend.boundary hle segments
        have hmax : max range.2 cursor = range.2 := by
          have := hwidens.stop_le
          omega
        obtain ⟨after, hafter, htail⟩ := hwidens.after
        obtain ⟨covered, hcovered, hcuts, hextents⟩ :=
          ih hrest hafter.right hwidens.stop_le (fun x hx => hwidens.past hx) hprint' hremoves'
        obtain ⟨covered', hcovered', hcuts', hextents'⟩ :=
          hcovered.cut hwidens hcursor htoken.seam hlimit.boundary hlt hstop semicolon
        refine ⟨covered', ?_, ?_, fun other hother => ?_⟩
        · rw [hpieces, List.flatMap_append, flatMap_droppedPieces, hmax, List.append_assoc]
          exact hcovered'
        · rw [hcuts', hcuts, hcut]
          rfl
        · rw [hextents']
          rcases List.mem_cons.mp hother with rfl | hother
          · refine ⟨cursor, ⟨hcursor, hle, .inl rfl⟩, ?_⟩
            rw [hextent]
            exact List.cons_subset_cons _ (List.nil_subset _)
          · obtain ⟨floor, hfloor, hsub⟩ := hextents other hother
            exact ⟨floor, hfloor.cons hafter htail, List.subset_cons_of_subset _ hsub⟩

end Layout

end FlowErasure
