import FlowErasure.Proofs.Layout.Writes

/-!
# Weaving the output

The output is what is kept, with a separator at some of the cuts. A semicolon is written at the cut it
belongs to. A space is written only when the text after a cut turns out to start with a word, so it
belongs to the last of the cuts before that text. `Weaves` says so of the texts, and `Written` of the
writes that they are made of.
-/

namespace FlowErasure

open Text

namespace Layout

/-- A part of a source that is kept, the region dropped after it with the blanks before and after,
and what is written in its place. -/
structure Drop where
  kept : List Char
  before : List Char
  region : List Char
  after : List Char
  separator : List Char

namespace Drop

def source (drop : Drop) : List Char :=
  drop.kept ++ drop.before ++ drop.region ++ drop.after

def output (drop : Drop) : List Char :=
  drop.kept ++ drop.separator

def range (offset : Nat) (drop : Drop) : Nat × Nat :=
  let start := offset + byteLength (drop.kept ++ drop.before)
  (start, start + byteLength drop.region)

def rangesFrom (offset : Nat) : List Drop → List (Nat × Nat)
  | [] => []
  | drop :: drops => drop.range offset :: rangesFrom (offset + byteLength drop.source) drops

def extentsFrom (offset : Nat) : List Drop → List (Nat × Nat)
  | [] => []
  | drop :: drops =>
    let stop := offset + byteLength drop.source
    (offset + byteLength drop.kept, stop) :: extentsFrom stop drops

def copies (out offset : Nat) : List Drop → List Char → List (Nat × Nat)
  | [], rest => copiesFrom out offset rest
  | drop :: drops, rest =>
    copiesFrom out offset drop.kept ++
      copies (out + byteLength drop.output) (offset + byteLength drop.source) drops rest

end Drop

/-- The characters at the ends of two texts would join into one word. -/
def Joins (as bs : List Char) : Prop :=
  ∃ a b, as.getLast? = some a ∧ bs.head? = some b ∧ Token.isWordChar a ∧ Token.isWordChar b

/-- No cut after the text `out` brings two words together. -/
def Apart (out : List Char) (drops : List Drop) (rest : List Char) : Prop :=
  ∀ front drop back, drops = front ++ drop :: back →
    ¬Joins (out ++ front.flatMap Drop.output ++ drop.output) (back.flatMap Drop.output ++ rest)

theorem not_joins_of_head {as bs : List Char} {b : Char} (hb : bs.head? = some b)
    (hword : Token.isWordChar b = false) : ¬Joins as bs := by
  rintro ⟨a, b', -, hb', -, hword'⟩
  obtain rfl := Option.some.inj (hb.symm.trans hb')
  simp [hword] at hword'

theorem not_joins_of_last {as bs : List Char} {a : Char} (ha : as.getLast? = some a)
    (hword : Token.isWordChar a = false) : ¬Joins as bs := by
  rintro ⟨a', b, ha', -, hword', -⟩
  obtain rfl := Option.some.inj (ha.symm.trans ha')
  simp [hword] at hword'

/-- The dropped parts that belong to segments, for an output that goes on from `out` to `final`.
`lead` is written for a cut before them, if there is one. -/
structure Weaves (offset : Nat) (segments : List Segment) (out final : List Char) (separate : Bool)
    (lead : List Char) (drops : List Drop) (rest : List Char) : Prop where
  source : segments.flatMap Segment.source = drops.flatMap Drop.source ++ rest
  output : final = out ++ lead ++ drops.flatMap Drop.output ++ rest
  ranges : Drop.rangesFrom offset drops = regionsFrom offset segments
  extents : Drop.extentsFrom offset drops = extentsFrom offset segments
  blanks : ∀ drop ∈ drops, (∀ c ∈ drop.before, isSpace c) ∧ IsTail drop.after
  separators : ∀ drop ∈ drops, drop.separator ∈ [[], [' '], [';']]
  leads : lead = [] ∨ lead = [' '] ∧ separate
  joint : separate → ¬Joins out (lead ++ drops.flatMap Drop.output ++ rest)
  apart : Apart (out ++ lead) drops rest

def keepDrops (cs : List Char) (drops : List Drop) : List Drop :=
  match drops with
  | [] => []
  | drop :: drops => { drop with kept := cs ++ drop.kept } :: drops

def keepRest (cs : List Char) (drops : List Drop) (rest : List Char) : List Char :=
  match drops with
  | [] => cs ++ rest
  | _ :: _ => rest

section

variable (cs : List Char) (drops : List Drop) (rest : List Char)

theorem source_keepDrops :
    (keepDrops cs drops).flatMap Drop.source ++ keepRest cs drops rest =
      cs ++ (drops.flatMap Drop.source ++ rest) := by
  cases drops <;> simp [keepDrops, keepRest, Drop.source]

theorem output_keepDrops :
    (keepDrops cs drops).flatMap Drop.output ++ keepRest cs drops rest =
      cs ++ (drops.flatMap Drop.output ++ rest) := by
  cases drops <;> simp [keepDrops, keepRest, Drop.output]

theorem rangesFrom_keepDrops (offset : Nat) :
    Drop.rangesFrom offset (keepDrops cs drops) =
      Drop.rangesFrom (offset + byteLength cs) drops := by
  cases drops with
  | nil => rfl
  | cons drop drops =>
      simp [keepDrops, Drop.rangesFrom, Drop.range, Drop.source, Nat.add_assoc]

theorem extentsFrom_keepDrops (offset : Nat) :
    Drop.extentsFrom offset (keepDrops cs drops) =
      Drop.extentsFrom (offset + byteLength cs) drops := by
  cases drops with
  | nil => rfl
  | cons drop drops =>
      simp [keepDrops, Drop.extentsFrom, Drop.source, Nat.add_assoc]

theorem copies_keepDrops (out offset : Nat) :
    Drop.copies out offset (keepDrops cs drops) (keepRest cs drops rest) =
      copiesFrom out offset cs ++
        Drop.copies (out + byteLength cs) (offset + byteLength cs) drops rest := by
  cases drops with
  | nil => exact copiesFrom_append out offset cs rest
  | cons drop drops =>
      simp [keepDrops, keepRest, Drop.copies, Drop.output, Drop.source, copiesFrom_append,
        Nat.add_assoc]

variable {cs drops rest}

theorem Apart.keep {out : List Char} (h : Apart (out ++ cs) drops rest) :
    Apart out (keepDrops cs drops) (keepRest cs drops rest) := by
  cases drops with
  | nil =>
      intro front drop back heq
      simp [keepDrops] at heq
  | cons first drops =>
      intro front drop back heq
      cases front with
      | nil =>
          obtain ⟨rfl, rfl⟩ := List.cons.inj heq
          simpa [Drop.output, keepRest] using h [] first drops rfl
      | cons front₀ front =>
          obtain ⟨rfl, rfl⟩ := List.cons.inj heq
          simpa [Drop.output, keepRest] using h (first :: front) drop back rfl

end

namespace Weaves

variable {offset : Nat} {segments : List Segment} {out final lead rest cs : List Char}
  {separate : Bool} {drops : List Drop}

theorem nil (out : List Char) (separate : Bool) : Weaves offset [] out out separate [] [] [] where
  source := rfl
  output := by simp
  ranges := rfl
  extents := rfl
  blanks := by simp
  separators := by simp
  leads := .inl rfl
  joint := by
    rintro - ⟨a, b, -, hb, -⟩
    simp at hb
  apart := by
    intro front drop back heq
    simp at heq

/-- A text is kept, with a space in front if it needs one. -/
theorem keep (h : Weaves (offset + byteLength cs) segments (out ++ lead ++ cs) final false [] drops
      rest) (hlead : lead = [] ∨ lead = [' '] ∧ separate)
    (hjoint : separate → ¬Joins out (lead ++ cs)) (hne : cs ≠ []) :
    Weaves offset (.kept cs :: segments) out final separate lead (keepDrops cs drops)
      (keepRest cs drops rest) where
  source := by
    rw [source_keepDrops, ← h.source]
    rfl
  output := by
    rw [List.append_assoc, output_keepDrops, h.output]
    simp
  ranges := by
    rw [rangesFrom_keepDrops, h.ranges]
    rfl
  extents := by
    rw [extentsFrom_keepDrops, h.extents]
    rfl
  blanks := by
    have hblanks := h.blanks
    cases drops with
    | nil => simp [keepDrops]
    | cons drop drops => simpa [keepDrops] using hblanks
  separators := by
    have hseparators := h.separators
    cases drops with
    | nil => simp [keepDrops]
    | cons drop drops => simpa [keepDrops] using hseparators
  leads := hlead
  joint hseparate := by
    rintro ⟨a, b, ha, hb, hwords⟩
    refine hjoint hseparate ⟨a, b, ha, ?_, hwords⟩
    rw [List.append_assoc, output_keepDrops, ← List.append_assoc] at hb
    rwa [List.head?_append_of_ne_nil _ (by simp [hne])] at hb
  apart := by
    have hapart := h.apart
    rw [List.append_nil] at hapart
    exact hapart.keep

/-- A region is dropped. What is written at the cut is known when the text after it is. -/
theorem drop {before region after separator : List Char} {semicolon : Bool}
    (h : Weaves (offset + byteLength before + byteLength region + byteLength after) segments
      (out ++ separator) final (!semicolon) lead drops rest)
    (hseparator : separator = if semicolon then [';'] else [])
    (hspace : ∀ c ∈ before, isSpace c) (htail : IsTail after) :
    Weaves offset (.dropped before region after semicolon :: segments) out final separate []
      (⟨[], before, region, after, separator ++ lead⟩ :: drops) rest where
  source := by
    simp [Segment.source, Drop.source, h.source]
  output := by
    simp [Drop.output, h.output]
  ranges := by
    have hranges := h.ranges
    simp only [Nat.add_assoc] at hranges
    simp [Drop.rangesFrom, Drop.range, Drop.source, regionsFrom, hranges, Nat.add_assoc]
  extents := by
    have hextents := h.extents
    simp only [Nat.add_assoc] at hextents
    simp [Drop.extentsFrom, Drop.source, extentsFrom, hextents, Nat.add_assoc]
  blanks := by
    intro drop hdrop
    rcases List.mem_cons.mp hdrop with rfl | hdrop
    · exact ⟨hspace, htail⟩
    · exact h.blanks drop hdrop
  separators := by
    have hfirst : separator ++ lead ∈ [[], [' '], [';']] := by
      cases semicolon with
      | true =>
          have hlead : lead = [] := h.leads.resolve_right (by simp)
          simp [hseparator, hlead]
      | false =>
          rcases h.leads with rfl | ⟨rfl, -⟩ <;> simp [hseparator]
    intro drop hdrop
    rcases List.mem_cons.mp hdrop with rfl | hdrop
    · exact hfirst
    · exact h.separators drop hdrop
  leads := .inl rfl
  joint _ := by
    cases semicolon with
    | true => exact not_joins_of_head (b := ';') (by simp [Drop.output, hseparator]) (by decide)
    | false =>
        have hjoint := h.joint rfl
        simpa [hseparator, Drop.output] using hjoint
  apart := by
    intro front drop back heq
    cases front with
    | nil =>
        obtain ⟨rfl, rfl⟩ := List.cons.inj heq
        rcases h.leads with rfl | ⟨rfl, -⟩
        · cases semicolon with
          | true => exact not_joins_of_last (a := ';') (by simp [Drop.output, hseparator]) (by decide)
          | false => simpa [Drop.output] using h.joint rfl
        · exact not_joins_of_last (a := ' ') (by simp [Drop.output]) (by decide)
    | cons first front =>
        obtain ⟨rfl, rfl⟩ := List.cons.inj heq
        simpa [Drop.output] using h.apart front drop back rfl

end Weaves

structure Written (text : List Char) (offset : Nat) (out lead : List Char) (drops : List Drop)
    (rest : List Char) (writes : List Write) : Prop where
  sound : ∀ write ∈ writes, write.Sound text
  copies : Drop.copies (byteLength (out ++ lead)) offset drops rest =
    Write.copies (byteLength out) writes
  regions : ∀ drop ∈ drops, drop.region ≠ []

namespace Written

variable {text out lead rest cs : List Char} {offset b : Nat} {drops : List Drop}
  {writes : List Write}

theorem nil (text : List Char) (offset : Nat) (out : List Char) :
    Written text offset out [] [] [] [] where
  sound := by simp
  copies := rfl
  regions := by simp

theorem keep (h : Written text (offset + byteLength cs) (out ++ lead ++ cs) [] drops rest writes)
    (hlead : ∀ c ∈ lead, c = ' ' ∨ c = ';') (hcopy : Between text offset cs b) (hne : cs ≠ [])
    (hseam : Seam text b) :
    Written text offset out lead (keepDrops cs drops) (keepRest cs drops rest)
      (lead.map .separator ++ ⟨cs, some offset⟩ :: writes) where
  sound write hwrite := by
    rcases List.mem_append.mp hwrite with hwrite | hwrite
    · obtain ⟨c, hc, rfl⟩ := List.mem_map.mp hwrite
      exact .separator (hlead c hc)
    · rcases List.mem_cons.mp hwrite with rfl | hwrite
      · exact .copied hcopy hne hseam
      · exact h.sound write hwrite
  copies := by
    have hcopies := h.copies
    rw [List.append_nil, byteLength_append _ cs] at hcopies
    rw [copies_keepDrops, hcopies, Write.copies_separators, byteLength_append out lead]
    rfl
  regions := by
    have hregions := h.regions
    cases drops with
    | nil => simp [keepDrops]
    | cons drop drops => simpa [keepDrops] using hregions

theorem drop {before region after separator : List Char}
    (h : Written text (offset + byteLength before + byteLength region + byteLength after)
      (out ++ separator) lead drops rest writes)
    (hseparator : ∀ c ∈ separator, c = ' ' ∨ c = ';') (hregion : region ≠ []) :
    Written text offset out [] (⟨[], before, region, after, separator ++ lead⟩ :: drops) rest
      (separator.map .separator ++ writes) where
  sound write hwrite := by
    rcases List.mem_append.mp hwrite with hwrite | hwrite
    · obtain ⟨c, hc, rfl⟩ := List.mem_map.mp hwrite
      exact .separator (hseparator c hc)
    · exact h.sound write hwrite
  copies := by
    have hcopies := h.copies
    simp only [byteLength_append, Nat.add_assoc] at hcopies
    rw [Write.copies_separators, ← hcopies]
    simp [Drop.copies, Drop.output, Drop.source, copiesFrom, offsetsFrom]
  regions drop hdrop := by
    rcases List.mem_cons.mp hdrop with rfl | hdrop
    · exact hregion
    · exact h.regions drop hdrop

end Written

/-! ## Fragments -/

variable {text : List Char}

theorem ne_nil_of_byteLength {cs : List Char} (h : 0 < byteLength cs) : cs ≠ [] := by
  rintro rfl
  simp at h

theorem copy_of_le (output : Output) (source : Source) {start stop : Nat} (h : stop ≤ start) :
    output.copy source start stop = output := by
  rw [Output.copy, if_pos h]

/-- Copying a text that is not empty writes it after a separating space, if one is needed. -/
theorem output_copy {a b : Nat} {cs : List Char} (output : Output) (h : Between text a cs b)
    (hne : cs ≠ []) :
    ∃ lead, (output.copy (.ofText text) a b).writer =
        output.writer.writeAll (.ofText text) (lead.map .separator ++ [⟨cs, some a⟩]) ∧
      (output.copy (.ofText text) a b).separate = false ∧
      (lead = [] ∨ lead = [' '] ∧ output.separate) ∧
      (output.separate → ¬Joins output.writer.output (lead ++ cs)) := by
  obtain ⟨c, cs, rfl⟩ := List.exists_cons_of_ne_nil hne
  have hlt : ¬b ≤ a := by
    obtain ⟨-, -, rfl⟩ := h
    have hpos := c.utf8Size_pos
    simp only [byteLength_cons]
    omega
  have hslice : Text.slice? (Source.ofText text).text a b = some (c :: cs) := h.slice?
  simp only [Output.copy, hlt, if_false, hslice]
  split
  · rename_i hjoins
    simp only [Bool.and_eq_true] at hjoins
    refine ⟨[' '], rfl, trivial, .inr ⟨rfl, hjoins.1.1⟩, fun _ => ?_⟩
    exact not_joins_of_head (b := ' ') rfl (by decide)
  · rename_i hjoins
    refine ⟨[], rfl, trivial, .inl rfl, fun hseparate => ?_⟩
    rintro ⟨a, b, ha, hb, hword, hword'⟩
    obtain rfl : c = b := Option.some.inj hb
    rw [← Writer.lastChar?_eq] at ha
    exact hjoins (by simp [hseparate, ha, hword, hword'])

/-- The fragments of segments are written as the segments are woven. -/
theorem exists_weaves {a b : Nat} {fragments : List Fragment} {segments : List Segment}
    (h : Lays text a fragments segments b) (output : Output) :
    ∃ lead drops rest writes,
      Weaves a segments output.writer.output
        (fragments.foldl (Output.put (.ofText text)) output).writer.output output.separate lead
        drops rest ∧
      (fragments.foldl (Output.put (.ofText text)) output).writer =
        output.writer.writeAll (.ofText text) writes ∧
      Written text a output.writer.output lead drops rest writes := by
  induction h generalizing output with
  | nil => exact ⟨[], [], [], [], .nil _ _, rfl, .nil _ _ _⟩
  | @copy a b c cs fragments segments hcopy hseam _ ih =>
      rw [List.foldl_cons, Output.put]
      by_cases hne : cs = []
      · subst hne
        obtain rfl : b = a := by
          obtain ⟨-, -, rfl⟩ := hcopy
          rfl
        rw [copy_of_le _ _ (Nat.le_refl _)]
        obtain ⟨lead, drops, rest, writes, hweaves, hwriter, hwritten⟩ := ih output
        exact ⟨lead, drops, rest, writes, { hweaves with }, hwriter, hwritten⟩
      · obtain ⟨lead, hcopied, hseparate, hlead, hjoint⟩ := output_copy output hcopy hne
        have hout : (output.copy (.ofText text) a b).writer.output =
            output.writer.output ++ lead ++ cs := by
          rw [hcopied]
          simp
        have hspace : ∀ c ∈ lead, c = ' ' ∨ c = ';' := by
          rcases hlead with rfl | ⟨rfl, -⟩ <;> simp
        obtain ⟨lead', drops, rest, writes, hweaves, hwriter, hwritten⟩ :=
          ih (output.copy (.ofText text) a b)
        obtain rfl : lead' = [] := hweaves.leads.resolve_right (by simp [hseparate])
        obtain rfl : b = a + byteLength cs := by
          obtain ⟨-, -, hb⟩ := hcopy
          exact hb
        rw [hout] at hwritten
        rw [hout, hseparate] at hweaves
        refine ⟨lead, _, _, _, hweaves.keep hlead hjoint hne, ?_,
          hwritten.keep hspace hcopy hne hseam⟩
        rw [hwriter, hcopied, ← Writer.writeAll_append, List.append_assoc, List.singleton_append]
  | skip hskip _ ih =>
      rw [List.foldl_cons, Output.put, copy_of_le _ _ hskip]
      exact ih output
  | drop semicolon hbefore hspace hregion hlt hafter htail _ ih =>
      obtain ⟨-, -, rfl⟩ := hbefore
      obtain ⟨-, -, rfl⟩ := hregion
      obtain ⟨-, -, rfl⟩ := hafter
      have hne := ne_nil_of_byteLength (Nat.pos_of_lt_add_right hlt)
      cases semicolon with
      | true =>
          obtain ⟨lead, drops, rest, writes, hweaves, hwriter, hwritten⟩ :=
            ih { writer := output.writer.write [';'] none }
          rw [Writer.output_write] at hweaves hwritten
          refine ⟨[], _, rest, _, hweaves.drop rfl hspace htail, ?_, hwritten.drop (by simp) hne⟩
          exact hwriter
      | false =>
          obtain ⟨lead, drops, rest, writes, hweaves, hwriter, hwritten⟩ :=
            ih { output with separate := true }
          rw [← List.append_nil output.writer.output] at hweaves hwritten
          refine ⟨[], _, rest, _, hweaves.drop rfl hspace htail, ?_, hwritten.drop (by simp) hne⟩
          exact hwriter

end Layout

end FlowErasure
