import FlowErasure.Proofs.Layout.Dropping
import FlowErasure.Proofs.SourceMap.Decoding

/-!
# The map of a compiled text

The map that comes with a compiled text leads every character of it that was copied back to where it
comes from, unless something dropped has brought a carriage return and a line feed together: the two
then end one line of the output, but have ended two lines of the source.
-/

namespace FlowErasure

open Text Layout

namespace Text

def CharAt (text : List Char) (p : Position) (c : Char) : Prop :=
  ∃ pre post, text = pre ++ c :: post ∧ (Lines.ofText text).position (byteLength pre) = p

theorem CharAt.le {text : List Char} {p : Position} {c : Char} (h : CharAt text p c) :
    p.line + p.column ≤ byteLength text := by
  obtain ⟨pre, post, rfl, rfl⟩ := h
  have hle := Position.along_le ⟨0, 0⟩ pre (c :: post)
  rw [Lines.position_append, byteLength_append]
  simp only [Nat.zero_add] at hle
  omega

/-- A character is at one of the positions that going over the text leads to. -/
theorem CharAt.mem {text : List Char} {p : Position} {c : Char} (h : CharAt text p c) :
    (p, c) ∈ (Position.track ⟨0, 0⟩ text).zip text := by
  obtain ⟨pre, post, rfl, rfl⟩ := h
  rw [Lines.position_append]
  generalize (⟨0, 0⟩ : Position) = start
  induction pre generalizing start with
  | nil => exact List.mem_cons_self
  | cons d pre ih =>
      exact List.mem_cons_of_mem _ (ih (start.step d (pre ++ c :: post).head?))

def returnsPaired : List Char → Bool
  | [] => true
  | c :: cs => (c != '\r' || cs.head? == some '\n') && returnsPaired cs

theorem head?_of_returnsPaired {pre rest : List Char} (h : returnsPaired (pre ++ '\r' :: rest)) :
    rest.head? = some '\n' := by
  induction pre with
  | nil =>
      simp only [List.nil_append, returnsPaired, bne_self_eq_false, Bool.false_or,
        Bool.and_eq_true, beq_iff_eq] at h
      exact h.1
  | cons c pre ih =>
      simp only [List.cons_append, returnsPaired, Bool.and_eq_true] at h
      exact ih h.2

end Text

namespace Layout

/-- Where a line of the output ends in two characters, these are neighbours in the source. -/
def KeepsPairs (code : List Char) (copies : List (Nat × Nat)) : Prop :=
  ∀ p o o', (p, o) ∈ copies → (p + 1, o') ∈ copies →
    (∃ rest, At code p ('\r' :: '\n' :: rest)) → o' = o + 1

namespace Write

variable {text : List Char} {writes : List Write}

/-- Where a copied character stands: in the output after what was written before and in the source
after `pre`, with the same characters of one write around it. -/
theorem exists_of_mem_copies (hsound : ∀ write ∈ writes, write.Sound text) {p o : Nat}
    (h : (p, o) ∈ copies 0 writes) :
    ∃ front as c bs back pre rest,
      writes = front ++ ⟨as ++ c :: bs, some (byteLength pre)⟩ :: back ∧
      text = pre ++ (as ++ c :: bs) ++ rest ∧ ¬Divides (pre ++ (as ++ c :: bs)) rest ∧
      p = byteLength (front.flatMap Write.text ++ as) ∧ o = byteLength (pre ++ as) := by
  obtain ⟨front, a, cs, back, rfl, hcopy⟩ := mem_copies.mp h
  obtain ⟨as, c, bs, rfl, rfl, rfl⟩ := mem_copiesFrom.mp hcopy
  have hwrite : Sound text ⟨as ++ c :: bs, some a⟩ := hsound _ (by simp)
  obtain ⟨⟨rest, ⟨pre, htext, rfl⟩, -⟩, hseam⟩ := hwrite.between
  rw [← List.append_assoc] at htext
  subst htext
  rw [← byteLength_append] at hseam
  exact ⟨front, as, c, bs, back, pre, rest, rfl, rfl, hseam.not_divides, by simp, by simp⟩

theorem mem_copies_of_append {front back : List Write} {as bs : List Char} {c : Char} {a : Nat} :
    (byteLength (front.flatMap Write.text ++ as), a + byteLength as) ∈
      copies 0 (front ++ ⟨as ++ c :: bs, some a⟩ :: back) := by
  refine mem_copies.mpr ⟨front, a, _, back, rfl, mem_copiesFrom.mpr ⟨as, c, bs, rfl, ?_, rfl⟩⟩
  simp

/-- A copied character is the same in the output and in the source. -/
theorem exists_char_of_mem_copies (hsound : ∀ write ∈ writes, write.Sound text) {copy : Nat × Nat}
    (h : copy ∈ copies 0 writes) :
    ∃ c, CharAt (writes.flatMap Write.text)
        (spotOf (writes.flatMap Write.text) text copy).1 c ∧
      CharAt text (spotOf (writes.flatMap Write.text) text copy).2 c := by
  obtain ⟨p, o⟩ := copy
  obtain ⟨front, as, c, bs, back, pre, rest, rfl, rfl, -, rfl, rfl⟩ := exists_of_mem_copies hsound h
  exact ⟨c, ⟨front.flatMap Write.text ++ as, bs ++ back.flatMap Write.text, by simp, rfl⟩,
    ⟨pre ++ as, bs ++ rest, by simp, rfl⟩⟩

/-- If a write goes on with a line end that the one before it has begun, the output pairs two
characters that are not neighbours in the source. -/
theorem undivided_of_keepsPairs (hsound : ∀ write ∈ writes, write.Sound text)
    (hpairs : KeepsPairs (writes.flatMap Write.text) (copies 0 writes)) :
    Writer.Undivided [] writes := by
  rintro front write back rfl hdivides
  rw [List.nil_append] at hdivides
  rcases List.eq_nil_or_concat' front with rfl | ⟨front, previous, rfl⟩
  · exact not_divides_nil_left _ hdivides
  have hprevious := hsound previous (by simp)
  have hwrite := hsound write (by simp)
  rw [List.flatMap_append, List.flatMap_singleton, divides_append_left hprevious.ne_nil] at hdivides
  obtain ⟨hlast, hhead⟩ := hdivides
  cases hprevious with
  | separator hc => rcases hc with rfl | rfl <;> simp [separator] at hlast
  | @copied a b ds hbetween _ hseam =>
      cases hwrite with
      | separator hc => rcases hc with rfl | rfl <;> simp [separator] at hhead
      | @copied a' b' cs hbetween' _ _ =>
          obtain ⟨ds, rfl⟩ := List.getLast?_eq_some_iff.mp hlast
          obtain ⟨cs, rfl⟩ := List.head?_eq_some_iff.mp hhead
          have hone : ('\r').utf8Size = 1 := rfl
          have hreturn : (byteLength (front.flatMap Write.text ++ ds), a + byteLength ds) ∈
              copies 0 (front ++ [⟨ds ++ ['\r'], some a⟩] ++ ⟨'\n' :: cs, some a'⟩ :: back) := by
            rw [List.append_assoc]
            exact mem_copies_of_append
          have hfeed : (byteLength (front.flatMap Write.text ++ ds) + 1, a') ∈
              copies 0 (front ++ [⟨ds ++ ['\r'], some a⟩] ++ ⟨'\n' :: cs, some a'⟩ :: back) := by
            have hmem :=
              @mem_copies_of_append (front ++ [⟨ds ++ ['\r'], some a⟩]) back [] cs '\n' a'
            simpa [hone, Nat.add_assoc] using hmem
          obtain rfl := hpairs _ _ _ hreturn hfeed
            ⟨cs ++ back.flatMap Write.text, front.flatMap Write.text ++ ds, by simp, rfl⟩
          obtain ⟨rest, ⟨pre, rfl, rfl⟩, rfl⟩ := hbetween
          obtain ⟨rest', hat, -⟩ := hbetween'
          have hrest : rest = '\n' :: cs ++ rest' := by
            refine At.unique ⟨pre ++ (ds ++ ['\r']), by simp, ?_⟩ hat
            simp [hone, Nat.add_assoc]
          rw [← List.append_assoc, ← byteLength_append] at hseam
          exact hseam.not_divides ⟨by simp, by simp [hrest]⟩

/-- Where no carriage return stands alone, no copied text ends in one: it would end inside a line
end. So both characters of a pair come from one write. -/
theorem keepsPairs_of_returnsPaired (hsound : ∀ write ∈ writes, write.Sound text)
    (hreturns : returnsPaired text) :
    KeepsPairs (writes.flatMap Write.text) (copies 0 writes) := by
  rintro p o o' hcopy hnext ⟨tail, hat⟩
  obtain ⟨front, as, c, bs, back, pre, rest, rfl, rfl, hdivides, rfl, rfl⟩ :=
    exists_of_mem_copies hsound hcopy
  have hrest : c :: (bs ++ back.flatMap Write.text) = '\r' :: '\n' :: tail := by
    refine At.unique ?_ hat
    exact ⟨front.flatMap Write.text ++ as, by simp, rfl⟩
  obtain ⟨rfl, -⟩ := List.cons.inj hrest
  have hfeed : (bs ++ rest).head? = some '\n' :=
    @head?_of_returnsPaired (pre ++ as) (bs ++ rest) (by simpa using hreturns)
  cases bs with
  | nil => exact absurd ⟨by simp, hfeed⟩ hdivides
  | cons d bs =>
      have hmem : (byteLength (front.flatMap Write.text ++ as) + 1,
          byteLength (pre ++ as) + 1) ∈
          copies 0 (front ++ ⟨as ++ '\r' :: d :: bs, some (byteLength pre)⟩ :: back) := by
        have hone : ('\r').utf8Size = 1 := rfl
        have hmem := @mem_copies_of_append front back (as ++ ['\r']) bs d (byteLength pre)
        simpa [hone, Nat.add_assoc] using hmem
      have hsame := List.inj_on_of_nodup_map (nodup_copies 0 _) hnext hmem rfl
      exact (Prod.mk.inj hsame).2

end Write

/-- Dropping does not make a text longer: a region that is dropped has room for a separator. -/
theorem Drops.byteLength_le {parsed : Parsed} {text code rest : List Char} {drops : List Drop}
    (h : Drops parsed text code drops rest) (hregions : ∀ drop ∈ drops, drop.region ≠ []) :
    byteLength code ≤ byteLength text := by
  have hdrops : byteLength (drops.flatMap Drop.output) ≤ byteLength (drops.flatMap Drop.source) := by
    have hseparators := h.separators
    clear h
    induction drops with
    | nil => exact Nat.le_refl _
    | cons drop drops ih =>
        have hrest := ih (fun d hd => hregions d (List.mem_cons_of_mem _ hd))
          fun d hd => hseparators d (List.mem_cons_of_mem _ hd)
        have hregion : 1 ≤ byteLength drop.region := by
          obtain ⟨c, cs, hcs⟩ := List.exists_cons_of_ne_nil (hregions drop List.mem_cons_self)
          have hpos := c.utf8Size_pos
          rw [hcs, byteLength_cons]
          omega
        have hseparator : byteLength drop.separator ≤ 1 := by
          have hmem := hseparators drop List.mem_cons_self
          simp only [List.mem_cons, List.not_mem_nil, or_false] at hmem
          rcases hmem with heq | heq | heq <;> rw [heq] <;> decide
        simp only [List.flatMap_cons, byteLength_append, Drop.output, Drop.source]
        omega
  rw [h.output, h.source, byteLength_append, byteLength_append]
  omega

end Layout

namespace SourceMap

/-- Every mapping relates two occurrences of one character, and following the last mapping before a
copied character leads to where it comes from. -/
structure LeadsBack (text code : List Char) (copies : List (Nat × Nat)) (ms : List Mapping) :
    Prop where
  same : ∀ m ∈ ms, ∃ c, CharAt code m.generated c ∧ CharAt text m.origin c
  leads : ∀ copy ∈ copies, ∃ m, lookup ms (spotOf code text copy).1 = some m ∧
    m.Leads (spotOf code text copy)

end SourceMap

open SourceMap

theorem PrintOptions.tracks_writer {options : PrintOptions} {mapName : String}
    (h : options.sourceMapName = some mapName) (fileName : Option String) :
    ∃ name, (options.writer fileName).Tracks name [] := by
  refine ⟨(options.sourceFileName <|> fileName).getD defaultFileName, ?_⟩
  unfold PrintOptions.writer
  rw [h]
  exact ⟨⟨_, rfl, rfl, rfl, .nil 0⟩, by simp, rfl⟩

/-- What a writer has traced, a reader of its map gets back. -/
theorem exists_leadsBack {text : List Char} {writes : List Write} {w : Writer} {name : String}
    (hsound : ∀ write ∈ writes, write.Sound text)
    (h : w.Tracks name ((Write.copies 0 writes).map (spotOf (writes.flatMap Write.text) text)))
    (htext : byteLength text < 2 ^ 31) (hcode : byteLength (writes.flatMap Write.text) < 2 ^ 31) :
    ∃ map ms, w.recorder.map (·.finish) = some map ∧ map.sources = [name] ∧
      decodeMappings map.mappings = some ms ∧ (∀ m ∈ ms, m.source = 0) ∧
      LeadsBack text (writes.flatMap Write.text) (Write.copies 0 writes) ms := by
  obtain ⟨recorder, hrecorder, hsources, -, htraces⟩ := h.records
  have hsame : ∀ m ∈ recorder.mappings, ∃ c,
      CharAt (writes.flatMap Write.text) m.generated c ∧ CharAt text m.origin c := by
    intro m hm
    obtain ⟨copy, hcopy, hspot⟩ := List.mem_map.mp (htraces.marks m hm).2
    have hchar := Write.exists_char_of_mem_copies hsound hcopy
    rwa [hspot] at hchar
  have hfits : ∀ m ∈ recorder.mappings, Fits m := by
    intro m hm
    obtain ⟨c, hgenerated, horigin⟩ := hsame m hm
    have hgenerated := hgenerated.le
    have horigin := horigin.le
    refine ⟨by omega, ?_, by omega, by omega⟩
    rw [(htraces.marks m hm).1]
    exact Nat.two_pow_pos 31
  have hsorted : sortOn (fun m => (m.generated.line, m.generated.column)) recorder.mappings =
      recorder.mappings := by
    refine sortOn_eq_self (htraces.ordered.imp fun hbefore => ?_)
    unfold Position.Before at hbefore
    simp only [pairLe, Bool.or_eq_true, Bool.and_eq_true, decide_eq_true_eq, beq_iff_eq]
    omega
  refine ⟨recorder.finish, recorder.mappings, by rw [hrecorder]; rfl, hsources, ?_,
    fun m hm => (htraces.marks m hm).1, hsame, fun copy hcopy => ?_⟩
  · rw [Recorder.finish, decodeMappings_encodeMappings hfits, hsorted]
  · exact htraces.leads _ (List.mem_map_of_mem hcopy)

/-- The map of a compiled text leads back to the source, unless the output pairs a carriage return and
a line feed that are no neighbours there. If the source has no lone carriage return, it never does. -/
theorem compile_leadsBack {text : List Char} {options : CompileOptions} {parsed : Parsed}
    {mapName : String} (h : parse text options.sourceFileName = .ok parsed)
    (hmap : options.sourceMapName = some mapName) (hsize : byteLength text < 2 ^ 31) :
    ∃ printed drops rest, compile text options = .ok printed ∧
      Drops parsed text printed.code drops rest ∧
      (returnsPaired text → KeepsPairs printed.code (Drop.copies 0 0 drops rest)) ∧
      (KeepsPairs printed.code (Drop.copies 0 0 drops rest) →
        ∃ map ms name, printed.map = some map ∧ map.sources = [name] ∧
          decodeMappings map.mappings = some ms ∧ (∀ m ∈ ms, m.source = 0) ∧
          LeadsBack text printed.code (Drop.copies 0 0 drops rest) ms) := by
  obtain ⟨drops, rest, writes, writer, hwriter, hprint, hdrops, hwritten⟩ := exists_writes h
    { sourceFileName := options.sourceFileName, sourceMapName := options.sourceMapName }
  have hcode : writer.output = writes.flatMap Write.text := by
    rw [hwriter, Writer.output_writeAll, output_writer, List.nil_append]
  have hcopies : Drop.copies 0 0 drops rest = Write.copies 0 writes := hwritten.copies
  have hlength := hdrops.byteLength_le hwritten.regions
  refine ⟨⟨writer.output, writer.recorder.map (·.finish)⟩, drops, rest, ?_, hdrops,
    fun hreturns => ?_, fun hpairs => ?_⟩
  · simp only [compile, h, hprint]
  · rw [hcopies, hcode]
    exact Write.keepsPairs_of_returnsPaired hwritten.sound hreturns
  · rw [hcode] at hlength hpairs ⊢
    rw [hcopies] at hpairs ⊢
    obtain ⟨name, htracks⟩ :=
      @PrintOptions.tracks_writer ⟨options.sourceFileName, options.sourceMapName⟩ mapName hmap
        parsed.fileName
    have hundivided := Write.undivided_of_keepsPairs hwritten.sound hpairs
    rw [← output_writer ⟨options.sourceFileName, options.sourceMapName⟩ parsed.fileName]
      at hundivided
    have hwritten' := htracks.writeAll hwritten.sound hundivided
    rw [← hwriter, output_writer] at hwritten'
    obtain ⟨map, ms, hfinish, hsources, hdecode, hsource, hleads⟩ :=
      exists_leadsBack hwritten.sound hwritten' hsize (Nat.lt_of_le_of_lt hlength hsize)
    exact ⟨map, ms, name, hfinish, hsources, hdecode, hsource, hleads⟩

theorem compile_leadsBack_wide :
    let text := "let s: T = '😀',\r\n  t: U = s".toList
    let options : CompileOptions := { sourceMapName := some "out.js" }
    ∃ parsed printed drops rest map ms, parse text none = .ok parsed ∧
      byteLength text < 2 ^ 31 ∧ compile text options = .ok printed ∧
      Drops parsed text printed.code drops rest ∧ printed.map = some map ∧
      decodeMappings map.mappings = some ms ∧
      LeadsBack text printed.code (Drop.copies 0 0 drops rest) ms := by
  intro text options
  have hsome : (parse text none).toOption.isSome := by decide +kernel
  have hsize : byteLength text < 2 ^ 31 := by decide +kernel
  cases hparse : parse text none with
  | error e =>
      rw [hparse] at hsome
      exact absurd hsome Bool.false_ne_true
  | ok parsed =>
      obtain ⟨printed, drops, rest, hcompile, hdrops, hpaired, hleads⟩ :=
        @compile_leadsBack text options parsed "out.js" hparse rfl hsize
      obtain ⟨map, ms, name, hmap, -, hdecode, -, hback⟩ := hleads (hpaired (by decide +kernel))
      exact ⟨parsed, printed, drops, rest, map, ms, rfl, hsize, hcompile, hdrops, hmap, hdecode,
        hback⟩

/-- What is dropped here stood between a carriage return and a line feed. The mapping at the start of
the second line of the output leads to the line feed instead of the equals sign. -/
theorem not_leadsBack :
    let text := "var x\r: T\n= 1".toList
    ∃ printed map ms, compile text { sourceMapName := some "out.js" } = .ok printed ∧
      printed.code = "var x\r\n= 1".toList ∧ printed.map = some map ∧
      decodeMappings map.mappings = some ms ∧
      ∀ copies, ¬LeadsBack text printed.code copies ms := by
  intro text
  let mappings := "AAAA,IAAI;AACD".toList
  let ms : List Mapping := [⟨⟨0, 0⟩, 0, ⟨0, 0⟩⟩, ⟨⟨0, 4⟩, 0, ⟨0, 4⟩⟩, ⟨⟨1, 0⟩, 0, ⟨1, 3⟩⟩]
  have hcompile : (compile text { sourceMapName := some "out.js" }).toOption =
      some ⟨"var x\r\n= 1".toList, some ⟨some "out.js", ["source.js"], mappings⟩⟩ := by
    decide +kernel
  have hdecode : decodeMappings mappings = some ms := by decide +kernel
  have hequals : ∀ entry ∈ (Position.track ⟨0, 0⟩ "var x\r\n= 1".toList).zip
      "var x\r\n= 1".toList, entry.1 = ⟨1, 0⟩ → entry.2 = '=' := by
    decide +kernel
  have hfeed : ∀ entry ∈ (Position.track ⟨0, 0⟩ text).zip text,
      entry.1 = ⟨1, 3⟩ → entry.2 = '\n' := by
    decide +kernel
  cases hresult : compile text { sourceMapName := some "out.js" } with
  | error e =>
      rw [hresult] at hcompile
      exact absurd hcompile.symm (Option.some_ne_none _)
  | ok printed =>
      rw [hresult] at hcompile
      obtain rfl := Option.some.inj hcompile
      refine ⟨_, _, ms, rfl, rfl, rfl, hdecode, fun copies hback => ?_⟩
      obtain ⟨c, hgenerated, horigin⟩ := hback.same ⟨⟨1, 0⟩, 0, ⟨1, 3⟩⟩ (by simp [ms])
      have hc : c = '=' := hequals _ hgenerated.mem rfl
      have hc' : c = '\n' := hfeed _ horigin.mem rfl
      exact absurd (hc.symm.trans hc') (by decide)

end FlowErasure
