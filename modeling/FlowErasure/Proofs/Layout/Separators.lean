import FlowErasure.Proofs.Layout.Dropping
import FlowErasure.Proofs.Layout.Neighbours

/-!
# Statements kept apart

Where statements between two others are dropped, the one after them could be read as a continuation
of the one before. A semicolon keeps the two apart. Whether it is needed is seen from the source texts
of the two statements, and these end and start as what is written of them does, unless something is
removed just there.
-/

namespace FlowErasure

namespace Layout

open Text Erasure

variable {text : List Char} {a b x start stop : Nat} {c : Char} {rest : List Char}
  {fragments : List Fragment} {segments : List Segment}

/-! ## What fragments show of the source -/

def Fragment.shown (text : List Char) (start stop : Nat) : Fragment → List Char
  | .text a b => (slice? text (max a start) (min b stop)).getD []
  | .cut | .semicolon => []

def shown (text : List Char) (fragments : List Fragment) (node : Node) : List Char :=
  fragments.flatMap (Fragment.shown text node.start node.stop)

def sourceOf (text : List Char) (node : Node) : List Char :=
  (slice? text node.start node.stop).getD []

theorem between_sourceOf {tree : Tree} {id : NodeId} {node : Node}
    (h : NodeSound text tree id node) :
    Between text node.start (sourceOf text node) node.stop := by
  obtain ⟨cs, hcs⟩ := Between.exists_of_le h.start.boundary h.stop.boundary h.lt.le
  rwa [sourceOf, hcs.slice?]

theorem slice?_of_le (h : stop ≤ start) : (slice? text start stop).getD [] = [] := by
  unfold slice?
  split
  · obtain rfl : start = stop := by omega
    rw [Nat.sub_self]
    cases drop? text start with
    | none => rfl
    | some cs => exact congrArg (·.getD []) (take?_append [] cs)
  · rfl

namespace Lays

theorem le (h : Lays text a fragments segments b) : a ≤ b :=
  h.between.le

/-- The fragments of another part of the source show nothing. -/
theorem shown_eq_nil (h : Lays text a fragments segments b) (hbeside : b ≤ start ∨ stop ≤ a) :
    fragments.flatMap (Fragment.shown text start stop) = [] := by
  induction h with
  | nil => rfl
  | @copy a b c cs fragments segments hcopy _ hrest ih =>
      have hle := hcopy.le
      have hle' := hrest.le
      rw [List.flatMap_cons, ih (by omega), List.append_nil]
      exact slice?_of_le (by omega)
  | skip hskip _ ih =>
      rw [List.flatMap_cons, ih hbeside, List.append_nil]
      exact slice?_of_le (by omega)
  | @drop a start' stop' b c before region after fragments segments semicolon hbefore _ hregion _
      hafter _ hrest ih =>
      have hle := hbefore.le.trans (hregion.le.trans hafter.le)
      rw [List.flatMap_cons, List.flatMap_append, ih (by omega)]
      cases semicolon <;> rfl

theorem exists_cut {range : Nat × Nat} {semicolon : Bool}
    (h : Lays text a fragments segments b) (hcut : (range, semicolon) ∈ cutsFrom a segments) :
    ∃ front back segments₁ segments₂ mid mid',
      fragments = front ++ .cut :: ((if semicolon then [.semicolon] else []) ++ back) ∧
      Lays text a front segments₁ mid ∧ Lays text mid' back segments₂ b ∧ mid ≤ range.1 ∧
      range.2 ≤ mid' := by
  induction h with
  | nil => simp [cutsFrom] at hcut
  | copy hcopy hseam hrest ih =>
      obtain ⟨-, -, rfl⟩ := id hcopy
      obtain ⟨front, back, segments₁, segments₂, mid, mid', rfl, hfront, hback, hcuts⟩ := ih hcut
      exact ⟨_ :: front, back, _, segments₂, mid, mid', rfl, .copy hcopy hseam hfront, hback, hcuts⟩
  | skip hskip hrest ih =>
      obtain ⟨front, back, segments₁, segments₂, mid, mid', rfl, hfront, hback, hcuts⟩ := ih hcut
      exact ⟨_ :: front, back, _, segments₂, mid, mid', rfl, .skip hskip hfront, hback, hcuts⟩
  | drop other hbefore hspace hregion hlt hafter htail hrest ih =>
      obtain ⟨-, -, rfl⟩ := id hbefore
      obtain ⟨-, -, rfl⟩ := id hregion
      obtain ⟨-, -, rfl⟩ := id hafter
      rcases List.mem_cons.mp hcut with heq | hcut
      · obtain ⟨rfl, rfl⟩ := Prod.mk.inj heq
        exact ⟨[], _, [], _, _, _, rfl, .nil hbefore.left, hrest, hbefore.le, hafter.le⟩
      · obtain ⟨front, back, segments₁, segments₂, mid, mid', rfl, hfront, hback, hcuts⟩ := ih hcut
        refine ⟨_, back, _, segments₂, mid, mid', ?_,
          .drop other hbefore hspace hregion hlt hafter htail hfront, hback, hcuts⟩
        simp

end Lays

/-- A character that is no white space and is not removed stands in a text that is copied. -/
theorem Lays.exists_text (h : Lays text a fragments segments b) (hat : At text x (c :: rest))
    (hclear : Lexer.Clear (c :: rest)) (hle : a ≤ x) (hlt : x < b)
    (hregions : ∀ range ∈ regionsFrom a segments, ¬(range.1 ≤ x ∧ x < range.2)) :
    ∃ front from' upto back segments₁ segments₂, fragments = front ++ .text from' upto :: back ∧
      Lays text a front segments₁ from' ∧ Lays text upto back segments₂ b ∧ from' ≤ x ∧
      x < upto := by
  obtain ⟨hbreak, hblank⟩ := hclear c rest rfl
  induction h with
  | nil => exact absurd hle (Nat.not_le.mpr hlt)
  | @copy a b d cs fragments segments hcopy hseam hrest ih =>
      obtain ⟨-, -, rfl⟩ := id hcopy
      rcases Nat.lt_or_ge x (a + byteLength cs) with hin | hpast
      · exact ⟨[], a, _, fragments, [], segments, rfl, .nil hcopy.left, hrest, hle, hin⟩
      · obtain ⟨front, _, _, back, _, _, rfl, hfront, hrest⟩ := ih hpast hlt hregions
        exact ⟨_ :: front, _, _, back, _, _, rfl, .copy hcopy hseam hfront, hrest⟩
  | skip hskip _ ih =>
      obtain ⟨front, _, _, back, _, _, rfl, hfront, hrest⟩ := ih hle hlt hregions
      exact ⟨_ :: front, _, _, back, _, _, rfl, .skip hskip hfront, hrest⟩
  | @drop a first last b d before region after fragments segments semicolon hbefore hspace hregion
      hne hafter htail _ ih =>
      obtain ⟨-, -, rfl⟩ := id hbefore
      obtain ⟨-, -, rfl⟩ := id hregion
      obtain ⟨-, -, rfl⟩ := id hafter
      have hout := hregions _ List.mem_cons_self
      rcases Nat.lt_or_ge x (a + byteLength before) with hin | hpast
      · have hmem := hbefore.mem_of_at hat hle hin
        simp [isInlineBlank_of_isSpace (hspace c hmem)] at hblank
      rcases Nat.lt_or_ge x (a + byteLength before + byteLength region) with hin | hpast'
      · exact absurd ⟨hpast, hin⟩ hout
      rcases Nat.lt_or_ge x (a + byteLength before + byteLength region + byteLength after)
        with hin | hpast
      · rcases htail.isBlank c (hafter.mem_of_at hat hpast' hin) with hc | hc
        · simp [hbreak] at hc
        · simp [hblank] at hc
      · obtain ⟨front, _, _, back, _, _, rfl, hfront, hrest⟩ :=
          ih hpast hlt fun range hrange => hregions range (List.mem_cons_of_mem _ hrange)
        refine ⟨_, _, _, back, _, _, ?_,
          .drop semicolon hbefore hspace hregion hne hafter htail hfront, hrest⟩
        simp

/-- So it is shown, at the start of what is shown from there on. -/
theorem Lays.head?_shown (h : Lays text a fragments segments b) (hat : At text x (c :: rest))
    (hclear : Lexer.Clear (c :: rest)) (hle : a ≤ x) (hlt : x < b)
    (hregions : ∀ range ∈ regionsFrom a segments, ¬(range.1 ≤ x ∧ x < range.2))
    (hstop : Boundary text stop) (hlt' : x < stop) :
    (fragments.flatMap (Fragment.shown text x stop)).head? = some c := by
  obtain ⟨front, from', upto, back, _, _, rfl, hfront, hback, hge, hlt''⟩ :=
    h.exists_text hat hclear hle hlt hregions
  have hupto := hback.between.left
  have hmin : Boundary text (min upto stop) := by
    rcases Nat.le_total upto stop with hmin | hmin
    · rwa [Nat.min_eq_left hmin]
    · rwa [Nat.min_eq_right hmin]
  obtain ⟨cs, hcs⟩ := Between.exists_of_le hat.boundary hmin (by omega)
  have hshown : Fragment.shown text x stop (.text from' upto) = cs := by
    rw [Fragment.shown, Nat.max_eq_right hge, hcs.slice?]
    rfl
  rw [List.flatMap_append, hfront.shown_eq_nil (.inl hge), List.flatMap_cons, hshown]
  obtain ⟨rest', hat', hlength⟩ := hcs
  cases cs with
  | nil =>
      simp only [byteLength_nil] at hlength
      omega
  | cons d cs =>
      obtain ⟨rfl, -⟩ := List.cons.inj (hat.unique hat')
      rfl

/-- And at the end of what is shown up to the next character. -/
theorem Lays.getLast?_shown (h : Lays text a fragments segments b) (hat : At text x (c :: rest))
    (hclear : Lexer.Clear (c :: rest)) (hle : a ≤ x) (hlt : x < b)
    (hregions : ∀ range ∈ regionsFrom a segments, ¬(range.1 ≤ x ∧ x < range.2))
    (hstart : Boundary text start) (hle' : start ≤ x) :
    (fragments.flatMap (Fragment.shown text start (x + c.utf8Size))).getLast? = some c := by
  obtain ⟨front, from', upto, back, _, _, rfl, hfront, hback, hge, hlt''⟩ :=
    h.exists_text hat hclear hle hlt hregions
  have hend : x + c.utf8Size ≤ upto := by
    obtain ⟨rest', hat'⟩ := hback.between.left
    obtain ⟨mid, hmid, rfl⟩ := hat.onward_of_le hat' hlt''.le
    cases mid with
    | nil => simp at hlt''
    | cons d mid =>
        obtain ⟨rfl, -⟩ := List.cons.inj hmid
        simp
  have hmax : Boundary text (max from' start) := by
    rcases Nat.le_total from' start with hmax | hmax
    · rwa [Nat.max_eq_right hmax]
    · rw [Nat.max_eq_left hmax]
      exact hfront.between.right
  obtain ⟨cs, hcs⟩ := Between.exists_of_le hmax hat.boundary (by omega)
  have hchar : Between text x [c] (x + c.utf8Size) := ⟨rest, hat, by simp⟩
  have hshown : Fragment.shown text start (x + c.utf8Size) (.text from' upto) = cs ++ [c] := by
    rw [Fragment.shown, Nat.min_eq_right hend, (hcs.append hchar).slice?]
    rfl
  rw [List.flatMap_append, List.flatMap_cons, hshown, hback.shown_eq_nil (.inr hend)]
  simp

/-! ## Continuations -/

/-- A statement that starts with one of these continues the one before it. -/
def continuing : List Char :=
  ['(', '[', '\x60', '+', '-', '/']

def RunsOn (as bs : List Char) : Prop :=
  as.getLast? ≠ some ';' ∧ ∃ c ∈ continuing, bs.head? = some c

instance (as bs : List Char) : Decidable (RunsOn as bs) :=
  decidable_of_iff (as.getLast? ≠ some ';' ∧ bs.head?.any continuing.contains) <| by
    rw [RunsOn, Option.any_eq_true]
    simp [and_comm]

theorem exists_byte (hat : At text x (c :: rest)) {index : Nat} (hindex : index < c.utf8Size) :
    ∃ byte ∈ String.utf8EncodeChar c, (bytes text)[x + index]? = some byte := by
  have hlt : index < (String.utf8EncodeChar c).length := by rwa [String.length_utf8EncodeChar]
  refine ⟨_, List.getElem_mem hlt, ?_⟩
  rw [← List.getElem?_drop, drop_bytes hat, bytes_cons, List.getElem?_append_left hlt,
    List.getElem?_eq_getElem hlt]

/-- Any byte of a character tells whether it is one of some ASCII characters. -/
theorem mem_ascii_iff {byte : UInt8} {cs : List Char} (hbyte : byte ∈ String.utf8EncodeChar c)
    (hcs : ∀ d ∈ cs, d.toNat < 0x80) :
    byte ∈ cs.map (fun d => UInt8.ofNat d.toNat) ↔ c ∈ cs := by
  constructor
  · intro h
    obtain ⟨d, hd, rfl⟩ := List.mem_map.mp h
    exact eq_of_mem_utf8EncodeChar (hcs d hd) hbyte ▸ hd
  · intro h
    rw [utf8EncodeChar_ascii (hcs c h), List.mem_singleton] at hbyte
    exact List.mem_map.mpr ⟨c, h, hbyte.symm⟩

/-- The byte before the end of a text tells whether it ends in a semicolon. -/
theorem getElem?_semicolon_iff {as : List Char} (h : Between text a as b) (hlt : a < b) :
    (bytes text)[b - 1]? = some 0x3B ↔ as.getLast? = some ';' := by
  obtain ⟨rest, hat, rfl⟩ := h
  rcases List.eq_nil_or_concat' as with rfl | ⟨as, c, rfl⟩
  · simp at hlt
  have hpos := c.utf8Size_pos
  have hat' : At text (a + byteLength as) (c :: rest) := hat.onward ⟨as, by simp, rfl⟩
  obtain ⟨byte, hbyte, hget⟩ := exists_byte hat' (Nat.sub_lt hpos Nat.one_pos)
  have hlast : a + byteLength (as ++ [c]) - 1 = a + byteLength as + (c.utf8Size - 1) := by
    simp only [byteLength_append, byteLength_cons, byteLength_nil]
    omega
  have hiff : byte ∈ [';'].map (fun d => UInt8.ofNat d.toNat) ↔ c ∈ [';'] :=
    mem_ascii_iff hbyte (by simp)
  rw [hlast, hget]
  simpa using hiff

/-- The byte at the start of a text tells whether it continues what is before it. -/
theorem any_getElem?_iff {as : List Char} (h : Between text a as b) (hlt : a < b) :
    ((bytes text)[a]?).any [0x28, 0x5B, 0x60, 0x2B, 0x2D, 0x2F].contains ↔
      ∃ c ∈ continuing, as.head? = some c := by
  obtain ⟨rest, hat, rfl⟩ := h
  cases as with
  | nil => simp at hlt
  | cons c as =>
      obtain ⟨byte, hbyte, hget⟩ := exists_byte hat c.utf8Size_pos
      have hbytes : continuing.map (fun d => UInt8.ofNat d.toNat) =
          [0x28, 0x5B, 0x60, 0x2B, 0x2D, 0x2F] :=
        rfl
      have hiff : byte ∈ continuing.map (fun d => UInt8.ofNat d.toNat) ↔ c ∈ continuing :=
        mem_ascii_iff hbyte (by simp [continuing])
      rw [hbytes] at hiff
      rw [Nat.add_zero] at hget
      rw [hget, Option.any_some, List.contains_iff_mem, hiff]
      simp

/-- The bytes around a gap tell whether a semicolon is needed. -/
theorem continuesAcross_iff {before after : Node} {as bs : List Char}
    (hbefore : Between text before.start as before.stop)
    (hafter : Between text after.start bs after.stop) (hlt : before.start < before.stop)
    (hlt' : after.start < after.stop) :
    continuesAcross (.ofText text) before after ↔ RunsOn as bs := by
  have hpos : 0 < before.stop := Nat.lt_of_le_of_lt (Nat.zero_le _) hlt
  have hends := getElem?_semicolon_iff hbefore hlt
  have hstarts := any_getElem?_iff hafter hlt'
  simp only [continuesAcross, Source.ofText, hpos, decide_true, Bool.true_and, Bool.and_eq_true,
    Bool.not_eq_true', beq_eq_false_iff_ne, hstarts, RunsOn, Ne, hends]

/-! ## What is written -/

def written (source : Source) (fragments : List Fragment) : List Char :=
  (fragments.foldl (Output.put source) { writer := {} }).writer.output

structure Output.Alike (output output' : Output) : Prop where
  text : output.writer.output = output'.writer.output
  separate : output.separate = output'.separate

theorem Output.Alike.put {source : Source} {output output' : Output} (h : output.Alike output')
    (fragment : Fragment) : (output.put source fragment).Alike (output'.put source fragment) := by
  obtain ⟨htext, hseparate⟩ := h
  cases fragment with
  | text start stop =>
      simp only [Output.put, Output.copy, Writer.lastChar?_eq, htext, hseparate]
      split
      · exact ⟨htext, hseparate⟩
      · split
        · exact ⟨htext, hseparate⟩
        · exact ⟨htext, hseparate⟩
        · split <;> exact ⟨by simp [Writer.output_write, htext], rfl⟩
  | cut => exact ⟨htext, rfl⟩
  | semicolon => exact ⟨by simp [Output.put, Writer.output_write, htext], rfl⟩

theorem Output.Alike.foldl_put {source : Source} {output output' : Output}
    (h : output.Alike output') (fragments : List Fragment) :
    (fragments.foldl (Output.put source) output).Alike
      (fragments.foldl (Output.put source) output') := by
  induction fragments generalizing output output' with
  | nil => exact h
  | cons fragment fragments ih => exact ih (h.put fragment)

theorem exists_output_put (source : Source) (output : Output) (fragment : Fragment) :
    ∃ cs, (output.put source fragment).writer.output = output.writer.output ++ cs := by
  cases fragment with
  | text start stop =>
      simp only [Output.put, Output.copy]
      split
      · exact ⟨[], by simp⟩
      · split
        · exact ⟨[], by simp⟩
        · exact ⟨[], by simp⟩
        · split
          · exact ⟨_, by rw [Writer.output_write, Writer.output_write, List.append_assoc]⟩
          · exact ⟨_, Writer.output_write _ _ _⟩
  | cut => exact ⟨[], by simp [Output.put]⟩
  | semicolon => exact ⟨_, Writer.output_write _ _ _⟩

theorem exists_output_foldl_put (source : Source) (output : Output) (fragments : List Fragment) :
    ∃ cs, (fragments.foldl (Output.put source) output).writer.output =
      output.writer.output ++ cs := by
  induction fragments generalizing output with
  | nil => exact ⟨[], by simp⟩
  | cons fragment fragments ih =>
      obtain ⟨cs, hcs⟩ := exists_output_put source output fragment
      obtain ⟨ds, hds⟩ := ih (output.put source fragment)
      exact ⟨cs ++ ds, by rw [List.foldl_cons, hds, hcs, List.append_assoc]⟩

theorem exists_written_semicolon (source : Source) (front back : List Fragment) :
    ∃ tail, written source (front ++ .semicolon :: back) = written source front ++ ';' :: tail := by
  obtain ⟨tail, htail⟩ := exists_output_foldl_put source
    ((front.foldl (Output.put source) { writer := {} }).put source .semicolon) back
  refine ⟨tail, ?_⟩
  rw [written, List.foldl_append, List.foldl_cons, htail, Output.put, Writer.output_write,
    List.append_assoc]
  rfl

/-! ## Statements around a gap -/

/-- A semicolon is written after all that is shown of one node and before all that is shown of
another. -/
def Separated (text : List Char) (fragments : List Fragment) (before after : Node) : Prop :=
  ∃ front back tail, fragments = front ++ .semicolon :: back ∧
    written (.ofText text) fragments = written (.ofText text) front ++ ';' :: tail ∧
    shown text back before = [] ∧ shown text front after = []

/-- Nothing is removed where the node starts. -/
def StartsWhole (tree : Tree) (id : NodeId) (node : Node) : Prop :=
  ∀ range, Removed .standard tree id range → range.1 ≠ node.start

def EndsWhole (tree : Tree) (id : NodeId) (node : Node) : Prop :=
  ∀ range, Removed .standard tree id range → range.2 ≠ node.stop

section

variable {tree : Tree} {root id : NodeId} {node : Node} {as : List Char}
  (hread : tree.ReadFrom text root) (hlays : Lays text 0 fragments segments (byteLength text))
  (hregions : ∀ range, range ∈ regionsFrom 0 segments ↔ Removed .standard tree root range)
  (hid : Survives .standard tree root id) (hget : tree.get? id = some node)
  (hsound : NodeSound text tree id node) (has : Between text node.start as node.stop)

include hread hlays hregions hid hget hsound has

/-- What is written of a node that starts whole starts as its source text does. -/
theorem head?_shown_of_startsWhole (hwhole : StartsWhole tree id node) :
    (shown text fragments node).head? = as.head? := by
  obtain ⟨rest, hat, hclear⟩ := hsound.start
  obtain ⟨rest', hat', hstop⟩ := has
  obtain rfl := hat.unique hat'
  have hlt := hsound.lt
  have hle := hsound.stop.boundary.le
  cases as with
  | nil => simp [hstop] at hlt
  | cons c as =>
      refine hlays.head?_shown hat hclear (Nat.zero_le _) (by omega) (fun range hrange => ?_)
        hsound.stop.boundary hlt
      rintro ⟨hge, hlt'⟩
      rcases removed_or_beside hread hid hget ((hregions range).mp hrange) with hbelow | hbeside
      · exact hwhole range hbelow (hge.antisymm (inside_of_removed hread hget hbelow).1)
      · rcases hbeside with hbeside | hbeside <;> simp only at hbeside <;> omega

/-- If the source text of a node that ends whole ends in a semicolon, so does what is written. -/
theorem getLast?_shown_of_endsWhole (hwhole : EndsWhole tree id node)
    (hlast : as.getLast? = some ';') : (shown text fragments node).getLast? = some ';' := by
  obtain ⟨as, rfl⟩ := List.getLast?_eq_some_iff.mp hlast
  have hsize : (';').utf8Size = 1 := rfl
  have hle := hsound.stop.boundary.le
  have hstart := has.left
  obtain ⟨rest, hat, hstop⟩ := has
  simp only [byteLength_append, byteLength_cons, byteLength_nil, hsize] at hstop
  have hat' : At text (node.start + byteLength as) (';' :: rest) :=
    hat.onward ⟨as, by simp, rfl⟩
  have hclear : Lexer.Clear (';' :: rest) := by
    intro c cs heq
    obtain ⟨rfl, -⟩ := List.cons.inj heq
    decide
  have hend : node.stop = node.start + byteLength as + (';').utf8Size := by omega
  rw [shown, hend]
  refine hlays.getLast?_shown hat' hclear (Nat.zero_le _) (by omega) (fun range hrange => ?_)
    hstart (Nat.le_add_right _ _)
  rintro ⟨hge, hlt⟩
  rcases removed_or_beside hread hid hget ((hregions range).mp hrange) with hbelow | hbeside
  · have hstop' := (inside_of_removed hread hget hbelow).2.2
    exact hwhole range hbelow (by omega)
  · rcases hbeside with hbeside | hbeside <;> simp only at hbeside <;> omega

end

/-- A semicolon that stands for what is dropped in a gap is between its sides. -/
theorem separated_of_cut {range : Nat × Nat} {before after : Node}
    (hlays : Lays text 0 fragments segments (byteLength text))
    (hcut : (range, true) ∈ cutsFrom 0 segments) (hbefore : before.stop ≤ range.1)
    (hrange : range.1 ≤ range.2) (hafter : range.2 ≤ after.start) :
    Separated text fragments before after := by
  obtain ⟨front, back, _, _, mid, mid', rfl, hfront, hback, hmid, hmid'⟩ := hlays.exists_cut hcut
  obtain ⟨tail, htail⟩ := exists_written_semicolon (.ofText text) (front ++ [.cut]) back
  have hshown : shown text front after = [] := hfront.shown_eq_nil (.inl (by omega))
  refine ⟨front ++ [.cut], back, tail, by simp, by simpa using htail,
    hback.shown_eq_nil (.inr (by omega)), ?_⟩
  rw [shown, List.flatMap_append, ← shown, hshown]
  rfl

/-- The compiler writes the fragments of the erased tree. -/
theorem exists_compile_written {options : CompileOptions} {parsed : Parsed}
    (h : parse text options.sourceFileName = .ok parsed)
    (hfragments : Layout.fragments (.ofText text) parsed.erase.1.tree parsed.erase.1.root =
      .ok fragments) :
    ∃ printed, compile text options = .ok printed ∧
      printed.code = written (.ofText text) fragments := by
  have htext : parsed.erase.1.text = text := (readFrom_of_parse h).1
  let printOptions : PrintOptions :=
    { sourceFileName := options.sourceFileName, sourceMapName := options.sourceMapName }
  have hprint := print_of_fragments (htext.symm ▸ hfragments) printOptions
  rw [htext] at hprint
  refine ⟨_, by simp only [compile, h, printOptions, hprint]; rfl, ?_⟩
  have halike : Output.Alike { writer := printOptions.writer parsed.erase.1.fileName }
      { writer := {} } :=
    ⟨output_writer _ _, rfl⟩
  exact (halike.foldl_put fragments).text

end Layout

open Erasure Layout

/-- A program of three statements, of which the second is deleted. -/
theorem gap_of_statements {tree : Tree} {root a m b : NodeId} {start stop : Nat}
    {program middle : Node} (hprogram : tree.get? root = some program)
    (hbody : (program.kind, program.slots) =
      (.program, [.list ⟨[some a, some m, some b], start, stop⟩]))
    (hdeleted : [a, m, b].map (fun id => isDeleted .standard tree (some id)) =
      [false, true, false])
    (hmiddle : tree.get? m = some middle) :
    Gap .standard tree root a b (middle.start, middle.stop) := by
  obtain ⟨hkind, hslots⟩ := Prod.mk.inj hbody
  simp only [List.map_cons, List.map_nil, List.cons.injEq, and_true] at hdeleted
  obtain ⟨ha, hm, hb⟩ := hdeleted
  refine ⟨root, program, .root (by simp [hprogram]), hprogram, .block .body,
    ⟨[some a, some m, some b], start, stop⟩, ?_, rfl, [], [some m], [], rfl, by simp,
    by simpa using hm, ha, hb, m, m, middle, middle, rfl, rfl, hmiddle, hmiddle, rfl⟩
  simp [Node.fields, hkind, hslots, NodeKind.schema]

/-- Where statements or class members are dropped from between two others, a semicolon is written in
their place if what is written of the one after them would be read as a continuation of what is
written of the one before them, and nothing is removed where the one before ends and where the one
after starts. Without this condition that is so of their source texts. -/
theorem separated_of_compile {text : List Char} {options : CompileOptions} {parsed : Parsed}
    (h : parse text options.sourceFileName = .ok parsed) :
    ∃ printed fragments, compile text options = .ok printed ∧
      Layout.fragments (.ofText text) parsed.erase.1.tree parsed.root = .ok fragments ∧
      printed.code = written (.ofText text) fragments ∧
      ∀ {a b range before after}, Gap .standard parsed.tree parsed.root a b range →
        parsed.tree.get? a = some before → parsed.tree.get? b = some after →
        (RunsOn (sourceOf text before) (sourceOf text after) →
          Separated text fragments before after) ∧
        (EndsWhole parsed.tree a before → StartsWhole parsed.tree b after →
          RunsOn (shown text fragments before) (shown text fragments after) →
            Separated text fragments before after) := by
  obtain ⟨fragments, segments, hfragments, hlays, hregions, hgaps⟩ := exists_fragments h
  obtain ⟨printed, hcompile, hcode⟩ := exists_compile_written h hfragments
  obtain ⟨-, -, hread⟩ := readFrom_of_parse h
  refine ⟨printed, fragments, hcompile, hfragments, hcode,
    fun {a b range before after} hgap hbefore hafter => ?_⟩
  obtain ⟨id, node, hid, hget, ha, hb⟩ := exists_kept_of_gap hread hgap
  obtain ⟨hsurvives, hsound⟩ := survives_and_sound hread hid hget ha hbefore
  obtain ⟨hsurvives', hsound'⟩ := survives_and_sound hread hid hget hb hafter
  have has := between_sourceOf hsound
  have hbs := between_sourceOf hsound'
  obtain ⟨hstop, hstart⟩ := between_of_gap hread hbefore hafter hgap
  obtain ⟨program, hprogram, -⟩ := hread.program
  have hlt := (inside_of_removed hread hprogram hgap.removed).2.1
  have hsource : RunsOn (sourceOf text before) (sourceOf text after) →
      Separated text fragments before after := by
    intro hruns
    have hcut := hgaps hgap hbefore hafter
    rw [(continuesAcross_iff has hbs hsound.lt hsound'.lt).mpr hruns] at hcut
    exact separated_of_cut hlays hcut hstop hlt.le hstart
  refine ⟨hsource, fun hends hstarts hruns => hsource ⟨fun hlast => hruns.1 ?_, ?_⟩⟩
  · exact getLast?_shown_of_endsWhole hread hlays hregions hsurvives hbefore hsound has hends hlast
  · obtain ⟨c, hc, hhead⟩ := hruns.2
    have hsame :=
      head?_shown_of_startsWhole hread hlays hregions hsurvives' hafter hsound' hbs hstarts
    exact ⟨c, hc, hsame.symm.trans hhead⟩

/-- Here what is written of the third statement would be read as the arguments of a call. -/
theorem separated_of_compile_parenthesis :
    ∃ parsed printed fragments before after,
      parse "a\ntype X = 1;\n(b)".toList none = .ok parsed ∧
      compile "a\ntype X = 1;\n(b)".toList {} = .ok printed ∧ printed.code = "a\n;(b)".toList ∧
      parsed.tree.get? 1 = some before ∧ parsed.tree.get? 6 = some after ∧
      RunsOn (shown "a\ntype X = 1;\n(b)".toList fragments before)
        (shown "a\ntype X = 1;\n(b)".toList fragments after) ∧
      Separated "a\ntype X = 1;\n(b)".toList fragments before after := by
  have hany : (parse "a\ntype X = 1;\n(b)".toList none).toOption.any fun parsed =>
      (parsed.tree.get? parsed.root).map (fun node => (node.kind, node.slots)) ==
        some (.program, [.list ⟨[some 1, some 4, some 6], 0, 17⟩]) &&
      [1, 4, 6].map (fun id => isDeleted .standard parsed.tree (some id)) ==
        [false, true, false] &&
      [1, 4, 6].map (fun id => (parsed.tree.get? id).map fun node => (node.start, node.stop)) ==
        [some (0, 1), some (2, 13), some (14, 17)] &&
      [1, 6].map (fun id => (parsed.erase.1.tree.get? id).map (·.marks.any)) ==
        [some false, some false] &&
      (Layout.fragments (.ofText "a\ntype X = 1;\n(b)".toList) parsed.erase.1.tree
          parsed.root).toOption == some [.text 0 2, .cut, .semicolon, .text 14 17] := by
    decide +kernel
  obtain ⟨parsed, hparse, hnodes⟩ := exists_parsed_of_any hany
  simp only [Bool.and_eq_true, beq_iff_eq, List.map_cons, List.map_nil, List.cons.injEq, and_true,
    Option.map_eq_some_iff, Prod.mk.injEq] at hnodes
  obtain ⟨⟨⟨⟨⟨program, hprogram, hkind, hslots⟩, hdeleted⟩, ⟨before, hbefore, hstart, hstop⟩,
    ⟨middle, hmiddle, -⟩, after, hafter, hstart', hstop'⟩, ⟨node, hnode, hmarks⟩, node', hnode',
    hmarks'⟩, hfragments⟩ := hnodes
  have hgap := gap_of_statements hprogram (Prod.ext hkind hslots)
    (by simpa using hdeleted) hmiddle
  obtain ⟨printed, fragments, hcompile, hfragments', hcode, hgaps⟩ :=
    @separated_of_compile _ {} _ hparse
  obtain rfl := Except.ok.inj ((ok_of_toOption hfragments).symm.trans hfragments')
  have hruns : RunsOn
      (shown "a\ntype X = 1;\n(b)".toList [.text 0 2, .cut, .semicolon, .text 14 17] before)
      (shown "a\ntype X = 1;\n(b)".toList [.text 0 2, .cut, .semicolon, .text 14 17] after) := by
    rw [shown, shown, hstart, hstop, hstart', hstop']
    decide +kernel
  -- Nothing has changed in the two statements, so nothing is removed there.
  obtain ⟨-, -, hread⟩ := readFrom_of_parse hparse
  obtain ⟨id, parent, hid, hget, ha, hb⟩ := exists_kept_of_gap hread hgap
  have hsurvives := (survives_and_sound hread hid hget ha hbefore).1
  have hsurvives' := (survives_and_sound hread hid hget hb hafter).1
  have hends := hread.erased.not_removed hsurvives hnode hmarks
  have hstarts := hread.erased.not_removed hsurvives' hnode' hmarks'
  refine ⟨parsed, printed, _, before, after, hparse, hcompile, ?_, hbefore, hafter, hruns,
    (hgaps hgap hbefore hafter).2 (fun range h => absurd h (hends range))
      (fun range h => absurd h (hstarts range)) hruns⟩
  rw [hcode]
  decide +kernel

/-- Here the statement after the dropped one starts with an arrow function that loses its type
parameters, and what is left of it would be read as the arguments of a call. -/
theorem not_separated : ¬∀ (text : List Char) (fileName : Option String) (parsed : Parsed)
    (fragments : List Fragment) (a b : NodeId) (range : Nat × Nat) (before after : Node),
    parse text fileName = .ok parsed →
    Layout.fragments (.ofText text) parsed.erase.1.tree parsed.root = .ok fragments →
      Gap .standard parsed.tree parsed.root a b range → parsed.tree.get? a = some before →
        parsed.tree.get? b = some after →
          RunsOn (shown text fragments before) (shown text fragments after) →
            Separated text fragments before after := by
  intro hall
  have hany : (parse "a\ntype X = 1;\n<T>(x) => x".toList none).toOption.any fun parsed =>
      (parsed.tree.get? parsed.root).map (fun node => (node.kind, node.slots)) ==
        some (.program, [.list ⟨[some 1, some 4, some 10], 0, 25⟩]) &&
      [1, 4, 10].map (fun id => isDeleted .standard parsed.tree (some id)) ==
        [false, true, false] &&
      [1, 4, 10].map (fun id => (parsed.tree.get? id).map fun node => (node.start, node.stop)) ==
        [some (0, 1), some (2, 13), some (14, 25)] &&
      (Layout.fragments (.ofText "a\ntype X = 1;\n<T>(x) => x".toList) parsed.erase.1.tree
          parsed.root).toOption ==
        some [.text 0 2, .cut, .text 14 14, .text 14 14, .text 14 14, .cut, .text 17 25,
          .text 25 25, .text 25 25] := by
    decide +kernel
  obtain ⟨parsed, hparse, hnodes⟩ := exists_parsed_of_any hany
  simp only [Bool.and_eq_true, beq_iff_eq, List.map_cons, List.map_nil, List.cons.injEq, and_true,
    Option.map_eq_some_iff, Prod.mk.injEq] at hnodes
  obtain ⟨⟨⟨⟨program, hprogram, hkind, hslots⟩, hdeleted⟩, ⟨before, hbefore, hstart, hstop⟩,
    ⟨middle, hmiddle, -⟩, after, hafter, hstart', hstop'⟩, hfragments⟩ := hnodes
  have hgap := gap_of_statements hprogram (Prod.ext hkind hslots)
    (by simpa using hdeleted) hmiddle
  have hruns : RunsOn
      (shown "a\ntype X = 1;\n<T>(x) => x".toList [.text 0 2, .cut, .text 14 14, .text 14 14,
        .text 14 14, .cut, .text 17 25, .text 25 25, .text 25 25] before)
      (shown "a\ntype X = 1;\n<T>(x) => x".toList [.text 0 2, .cut, .text 14 14, .text 14 14,
        .text 14 14, .cut, .text 17 25, .text 25 25, .text 25 25] after) := by
    rw [shown, shown, hstart, hstop, hstart', hstop']
    decide +kernel
  obtain ⟨front, back, tail, heq, -⟩ := hall _ _ _ _ _ _ _ _ _ hparse
    (ok_of_toOption hfragments) hgap hbefore hafter hruns
  have hmem : Fragment.semicolon ∈ front ++ .semicolon :: back := by simp
  rw [← heq] at hmem
  exact absurd hmem (by decide)

end FlowErasure
