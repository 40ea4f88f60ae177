import FlowErasure.Proofs.Layout.Dropping

/-!
# Lines that are left out

Nothing is copied from where a region is dropped, so of lines on which deleted statements or class
members stand alone nothing is copied. A case of a switch ends where its last statement does. If that
one is deleted the end of its line is past the end of the case, and the switch copies it.
-/

namespace FlowErasure

namespace Layout

open Text Erasure

namespace Drop

variable {out offset : Nat} {drops : List Drop} {rest : List Char} {extent copy : Nat × Nat}

theorem start_le_of_mem_extentsFrom (h : extent ∈ extentsFrom offset drops) : offset ≤ extent.1 := by
  induction drops generalizing offset with
  | nil => exact absurd h List.not_mem_nil
  | cons drop drops ih =>
      rcases List.mem_cons.mp h with rfl | h
      · exact Nat.le_add_right _ _
      · exact (Nat.le_add_right _ _).trans (ih h)

/-- A copied text comes from where it starts to where it ends. -/
theorem mem_Ico_of_mem_copiesFrom {cs : List Char} (h : copy ∈ copiesFrom out offset cs) :
    offset ≤ copy.2 ∧ copy.2 < offset + byteLength cs := by
  obtain ⟨as, c, bs, rfl, -, hoffset⟩ := mem_copiesFrom.mp h
  have hpos := c.utf8Size_pos
  rw [hoffset, byteLength_append, byteLength_cons]
  omega

theorem le_of_mem_copies (h : copy ∈ copies out offset drops rest) : offset ≤ copy.2 := by
  induction drops generalizing out offset with
  | nil => exact (mem_Ico_of_mem_copiesFrom h).1
  | cons drop drops ih =>
      rcases List.mem_append.mp h with h | h
      · exact (mem_Ico_of_mem_copiesFrom h).1
      · exact (Nat.le_add_right _ _).trans (ih h)

theorem outside_of_mem_copies (hextent : extent ∈ extentsFrom offset drops)
    (hcopy : copy ∈ copies out offset drops rest) : copy.2 < extent.1 ∨ extent.2 ≤ copy.2 := by
  induction drops generalizing out offset with
  | nil => exact absurd hextent List.not_mem_nil
  | cons drop drops ih =>
      rcases List.mem_cons.mp hextent with rfl | hextent
      · rcases List.mem_append.mp hcopy with hcopy | hcopy
        · exact .inl (mem_Ico_of_mem_copiesFrom hcopy).2
        · exact .inr (le_of_mem_copies hcopy)
      · rcases List.mem_append.mp hcopy with hcopy | hcopy
        · have hlt := (mem_Ico_of_mem_copiesFrom hcopy).2
          have hle := start_le_of_mem_extentsFrom hextent
          have hkept : byteLength drop.kept ≤ byteLength drop.source := by
            simp only [source, byteLength_append]
            omega
          left
          omega
        · exact ih hextent hcopy

theorem kept_prefix (drop : Drop) : drop.kept <+: drop.source :=
  ⟨drop.before ++ drop.region ++ drop.after, by simp [source]⟩

/-- A character in front of what is dropped, or after it, is copied. -/
theorem exists_mem_copies {drop : Drop} {as bs : List Char} {c : Char}
    (h : drop.source ++ rest = as ++ c :: bs)
    (houtside : as.length < drop.kept.length ∨ drop.source.length ≤ as.length) :
    ∃ p, (p, byteLength as) ∈ copies 0 0 [drop] rest := by
  rcases houtside with hlt | hle
  · have hkept : drop.kept <+: as ++ c :: bs := by
      rw [← h, source, List.append_assoc, List.append_assoc, List.append_assoc]
      exact List.prefix_append _ _
    have hfront : as ++ [c] <+: as ++ c :: bs := ⟨bs, by simp⟩
    obtain ⟨tail, htail⟩ := List.prefix_of_prefix_length_le hfront hkept (by simpa using hlt)
    refine ⟨_, List.mem_append_left _ (mem_copiesFrom.mpr ⟨as, c, tail, ?_, rfl, ?_⟩)⟩
    · rw [← htail, List.append_assoc, List.singleton_append]
    · rw [Nat.zero_add]
  · have hsource : drop.source <+: as ++ c :: bs := ⟨rest, h⟩
    obtain ⟨tail, rfl⟩ := List.prefix_of_prefix_length_le hsource (List.prefix_append _ _) hle
    rw [List.append_assoc, List.append_cancel_left_eq] at h
    refine ⟨_, List.mem_append_right _ (mem_copiesFrom.mpr ⟨tail, c, bs, h, rfl, ?_⟩)⟩
    rw [byteLength_append, Nat.zero_add]

/-- If a character is written more often than it stands outside of some lines, some of them is
copied. -/
theorem exists_copy_of_count {drop : Drop} {front lines back : List Char} {c : Char}
    (h : drop.source ++ rest = front ++ lines ++ back) (hne : lines ≠ [])
    (hseparator : c ∉ drop.separator)
    (hcount : (front ++ back).count c < (drop.output ++ rest).count c) :
    ∃ copy ∈ copies 0 0 [drop] rest,
      byteLength front ≤ copy.2 ∧ copy.2 < byteLength (front ++ lines) := by
  by_contra hnone
  have hkept : drop.kept.length ≤ front.length := by
    by_contra hlt
    obtain ⟨first, others, rfl⟩ := List.exists_cons_of_ne_nil hne
    have hsplit : drop.source ++ rest = front ++ first :: (others ++ back) := by simp [h]
    obtain ⟨p, hp⟩ := exists_mem_copies hsplit (.inl (Nat.lt_of_not_le hlt))
    have hpos := first.utf8Size_pos
    exact hnone ⟨_, hp, Nat.le_refl _, by simp; omega⟩
  have hstop : (front ++ lines).length ≤ drop.source.length := by
    by_contra hlt
    obtain ⟨others, last, rfl⟩ := (List.eq_nil_or_concat' lines).resolve_left hne
    have hsplit : drop.source ++ rest = (front ++ others) ++ last :: back := by simp [h]
    have hle : drop.source.length ≤ (front ++ others).length := by
      simp only [List.length_append, List.length_singleton] at hlt ⊢
      omega
    obtain ⟨p, hp⟩ := exists_mem_copies hsplit (.inr hle)
    have hpos := last.utf8Size_pos
    exact hnone ⟨_, hp, by simp, by simp; omega⟩
  -- So only what is outside of the lines is copied.
  have hfront : drop.kept <+: front := by
    have hprefix : drop.kept <+: front ++ lines ++ back := drop.kept_prefix.trans ⟨rest, h⟩
    exact List.prefix_of_prefix_length_le hprefix ⟨lines ++ back, by simp⟩ hkept
  have hback : rest <:+ back := by
    have hlength := congrArg List.length h
    rw [List.length_append, List.length_append] at hlength
    exact List.suffix_of_suffix_length_le ⟨_, h⟩ (List.suffix_append _ _) (by omega)
  have hle := hfront.sublist.count_le c
  have hle' := hback.sublist.count_le c
  have hzero := List.count_eq_zero_of_not_mem hseparator
  rw [output, List.count_append, List.count_append, List.count_append] at hcount
  omega

end Drop

theorem lineEndAt_lineFeed {pre : List Char} (rest : List Char) (h : pre.getLast? ≠ some '\r') :
    LineEndAt (pre ++ '\n' :: rest) (byteLength pre) (byteLength (pre ++ ['\n'])) :=
  ⟨pre, ['\n'], rest, by simp, rfl, rfl, by decide, fun hdivides => h hdivides.1,
    by simp [Divides]⟩

/-- A region that is all of a line but for what it is indented by. -/
theorem standsAlone_of_line {text front indent cs back : List Char} {region lines : Nat × Nat}
    (htext : text = front ++ '\n' :: (indent ++ cs ++ '\n' :: back))
    (hindent : indent.all isSpace) (hfront : front.getLast? ≠ some '\r')
    (hcs : (front ++ '\n' :: (indent ++ cs)).getLast? ≠ some '\r')
    (hregion : region = (byteLength (front ++ '\n' :: indent),
      byteLength (front ++ '\n' :: (indent ++ cs))))
    (hlines : lines = (byteLength (front ++ ['\n']),
      byteLength (front ++ '\n' :: (indent ++ cs) ++ ['\n']))) :
    StandsAlone text region lines := by
  subst htext hregion hlines
  have hsplit : front ++ '\n' :: (indent ++ cs ++ '\n' :: back) =
      front ++ '\n' :: (indent ++ cs) ++ '\n' :: back := by simp
  refine ⟨.inr ⟨_, lineEndAt_lineFeed _ hfront⟩, ⟨indent, ⟨cs ++ '\n' :: back, ?_, ?_⟩, ?_⟩,
    [], byteLength (front ++ '\n' :: (indent ++ cs)), ⟨'\n' :: back, ?_, ?_⟩, by simp, ?_⟩
  · exact ⟨front ++ ['\n'], by simp, rfl⟩
  · simp [Nat.add_assoc]
  · simpa using hindent
  · exact ⟨_, hsplit, rfl⟩
  · simp
  · rw [hsplit]
    exact lineEndAt_lineFeed _ hcs

theorem Lays.length_regionsFrom {text : List Char} {a b : Nat} {fragments : List Fragment}
    {segments : List Segment} (h : Lays text a fragments segments b) :
    (regionsFrom a segments).length = fragments.count .cut := by
  induction h with
  | nil => rfl
  | copy hcopy _ _ ih =>
      obtain ⟨-, -, rfl⟩ := hcopy
      simpa [regionsFrom] using ih
  | skip _ _ ih => simpa using ih
  | drop semicolon hbefore _ hregion _ hafter _ _ ih =>
      obtain ⟨-, -, rfl⟩ := hbefore
      obtain ⟨-, -, rfl⟩ := hregion
      obtain ⟨-, -, rfl⟩ := hafter
      cases semicolon <;> simpa [regionsFrom] using ih

/-- If there is a single cut, a single region is removed. -/
theorem eq_of_removed {parsed : Parsed} {text : List Char} {fileName : Option String}
    {fragments : List Fragment} {range other : Nat × Nat} (h : parse text fileName = .ok parsed)
    (hfragments : Layout.fragments (.ofText text) parsed.erase.1.tree parsed.erase.1.root =
      .ok fragments)
    (hcut : fragments.count .cut = 1) (hrange : Removed .standard parsed.tree parsed.root range)
    (hother : Removed .standard parsed.tree parsed.root other) : other = range := by
  obtain ⟨fragments', segments, hfragments', hlays, hregions, -⟩ := exists_fragments h
  obtain rfl := Except.ok.inj (hfragments.symm.trans hfragments')
  obtain ⟨only, honly⟩ := List.length_eq_one_iff.mp (hlays.length_regionsFrom.trans hcut)
  rw [← hregions, honly, List.mem_singleton] at hrange hother
  rw [hrange, hother]

theorem Drops.exists_eq_singleton {parsed : Parsed} {text code rest : List Char} {drops : List Drop}
    {range : Nat × Nat} (h : Drops parsed text code drops rest) (hlt : range.1 < range.2)
    (hrange : Removed .standard parsed.tree parsed.root range)
    (hremoved : ∀ other, Removed .standard parsed.tree parsed.root other → other = range) :
    ∃ drop, drops = [drop] := by
  have hranges : ∀ other ∈ Drop.rangesFrom 0 drops, other = range := fun other hother =>
    hremoved other ((h.ranges other).mp hother)
  cases drops with
  | nil => exact absurd ((h.ranges range).mpr hrange) List.not_mem_nil
  | cons drop drops =>
      cases drops with
      | nil => exact ⟨drop, rfl⟩
      | cons next drops =>
          have hfirst : drop.range 0 = range := hranges _ List.mem_cons_self
          have hnext : next.range (0 + byteLength drop.source) = range :=
            hranges _ (List.mem_cons_of_mem _ List.mem_cons_self)
          -- The second region would start after the first one ends.
          subst hfirst
          have hstart := congrArg Prod.fst hnext
          simp only [Drop.range, Drop.source, byteLength_append] at hlt hstart
          omega

end Layout

open Text Erasure Layout

/-- Where a run of deleted statements or class members stands alone on its lines, these are left out,
as far as they lie in the node that holds the run. Nothing of them is copied, unless the run reaches to
the end of a case of a switch. -/
theorem compile_leaves_out_lines {text : List Char} {options : CompileOptions} {parsed : Parsed}
    (h : parse text options.sourceFileName = .ok parsed) :
    ∃ printed drops rest, compile text options = .ok printed ∧
      Drops parsed text printed.code drops rest ∧
      ∀ {node range lines}, RunLines text parsed.tree parsed.root node range lines →
        (lines.1, min lines.2 node.stop) ∈ Drop.extentsFrom 0 drops ∧
        ((node.kind = .switchCase → range.2 < node.stop) →
          ∀ copy ∈ Drop.copies 0 0 drops rest, copy.2 < lines.1 ∨ lines.2 ≤ copy.2) := by
  obtain ⟨drops, rest, writes, writer, -, hprint, hdrops, -, hlines⟩ := exists_writes_lines h
    { sourceFileName := options.sourceFileName, sourceMapName := options.sourceMapName }
  refine ⟨_, drops, rest, by simp only [compile, h, hprint]; rfl, hdrops, fun hlaid => ?_⟩
  have hextent := hlines hlaid
  refine ⟨hextent, fun hcase copy hcopy => ?_⟩
  obtain ⟨owner, -, hnode, hrun, halone⟩ := hlaid
  obtain ⟨-, -, hread⟩ := readFrom_of_parse h
  rw [Nat.min_eq_left (lines_le_stop hread hnode hrun halone hcase)] at hextent
  exact Drop.outside_of_mem_copies hextent hcopy

theorem compile_leaves_out_lines_alias :
    ∃ parsed printed drops rest node, parse "a\n  type T = 1;\nb".toList none = .ok parsed ∧
      compile "a\n  type T = 1;\nb".toList {} = .ok printed ∧ printed.code = "a\nb".toList ∧
      Drops parsed "a\n  type T = 1;\nb".toList printed.code drops rest ∧
      RunLines "a\n  type T = 1;\nb".toList parsed.tree parsed.root node (4, 15) (2, 16) ∧
      node.kind = .program ∧ node.stop = 17 ∧ (2, 16) ∈ Drop.extentsFrom 0 drops ∧
      ∀ copy ∈ Drop.copies 0 0 drops rest, copy.2 < 2 ∨ 16 ≤ copy.2 := by
  have hany : (parse "a\n  type T = 1;\nb".toList none).toOption.any fun parsed =>
      (parsed.tree.get? parsed.root).map (fun node =>
        ((node.kind, node.slots), node.start, node.stop)) ==
        some ((.program, [.list ⟨[some 1, some 4, some 6], 0, 17⟩]), 0, 17) &&
      [1, 4, 6].map (fun id => isDeleted .standard parsed.tree (some id)) ==
        [false, true, false] &&
      (parsed.tree.get? 4).map (fun node => (node.start, node.stop)) == some (4, 15) := by
    decide +kernel
  have hcode : (compile "a\n  type T = 1;\nb".toList {}).toOption.map Printed.code =
      some "a\nb".toList := by
    decide +kernel
  obtain ⟨parsed, hparse, hnodes⟩ := exists_parsed_of_any hany
  simp only [Bool.and_eq_true, beq_iff_eq, List.map_cons, List.map_nil, List.cons.injEq, and_true,
    Option.map_eq_some_iff, Prod.mk.injEq] at hnodes
  obtain ⟨⟨⟨program, hprogram, ⟨hkind, hslots⟩, -, hstop⟩, hkept, hdeleted, hkept'⟩, type, htype,
    hfirst, hlast⟩ := hnodes
  have hrun : RunAt .standard parsed.tree program (4, 15) := by
    refine ⟨.block .body, ⟨[some 1, some 4, some 6], 0, 17⟩, [some 4], ?_, rfl,
      ⟨[some 1], [some 6], rfl, by simp, by simpa using hdeleted, ?_, ?_⟩,
      4, 4, type, type, rfl, rfl, htype, htype, by rw [hfirst, hlast]⟩
    · simp [Node.fields, hkind, hslots, NodeKind.schema]
    · simpa using hkept
    · simpa using hkept'
  have htext : "a\n  type T = 1;\nb".toList =
      ['a'] ++ '\n' :: ([' ', ' '] ++ "type T = 1;".toList ++ '\n' :: ['b']) := by
    decide +kernel
  have halone : StandsAlone "a\n  type T = 1;\nb".toList (4, 15) (2, 16) :=
    standsAlone_of_line htext (by decide) (by decide) (by decide +kernel) (by decide +kernel)
      (by decide +kernel)
  have hlines : RunLines "a\n  type T = 1;\nb".toList parsed.tree parsed.root program (4, 15)
      (2, 16) :=
    ⟨_, .root (by simp [hprogram]), hprogram, hrun, halone⟩
  obtain ⟨printed, drops, rest, hcompile, hdrops, htakes⟩ :=
    @compile_leaves_out_lines _ {} _ hparse
  obtain ⟨hextent, hcopies⟩ := htakes hlines
  rw [hcompile] at hcode
  rw [hstop] at hextent
  exact ⟨parsed, printed, drops, rest, program, hparse, hcompile, Option.some.inj hcode, hdrops,
    hlines, hkind, hstop, hextent, hcopies (by simp [hkind])⟩

/-- A case of a switch that ends with a deleted statement, which stands alone on its line. -/
def switchText : List Char :=
  "switch (a) \x7b\n  case 1:\n    b;\n    type T = 1;\n\x7d".toList

/-- Here the deleted statement is the last one of a case, so the case ends before the line does. -/
theorem exists_runLines_of_case :
    ∃ parsed node, parse switchText none = .ok parsed ∧
      RunLines switchText parsed.tree parsed.root node (34, 45) (30, 46) ∧
      Removed .standard parsed.tree parsed.root (34, 45) ∧
      ∀ other, Removed .standard parsed.tree parsed.root other → other = (34, 45) := by
  have hany : (parse switchText none).toOption.any fun parsed =>
      (parsed.tree.get? parsed.root).any (fun node =>
        (keptChildren .standard parsed.tree node).contains 8) &&
      (parsed.tree.get? 8).any (fun node =>
        (keptChildren .standard parsed.tree node).contains 7) &&
      (parsed.tree.get? 7).map (fun node => (node.kind, node.slots)) ==
        some (.switchCase, [.node 1, .list ⟨[some 3, some 6], 22, 45⟩]) &&
      [3, 6].map (fun id => isDeleted .standard parsed.tree (some id)) == [false, true] &&
      (parsed.tree.get? 6).map (fun node => (node.start, node.stop)) == some (34, 45) &&
      (Layout.fragments (.ofText switchText) parsed.erase.1.tree
          parsed.erase.1.root).toOption ==
        some [.text 0 0, .text 0 15, .text 15 30, .cut, .text 46 45, .text 45 47, .text 47 47] := by
    decide +kernel
  obtain ⟨parsed, hparse, hnodes⟩ := exists_parsed_of_any hany
  simp only [Bool.and_eq_true, beq_iff_eq, List.map_cons, List.map_nil, List.cons.injEq, and_true,
    Option.map_eq_some_iff, Prod.mk.injEq, Option.any_eq_true, List.contains_iff_mem] at hnodes
  obtain ⟨⟨⟨⟨⟨⟨program, hprogram, hinner⟩, outer, houter, hkept⟩, owner, howner, hkind, hslots⟩,
    hstays, hdeleted⟩, type, htype, hfirst, hlast⟩, hfragments⟩ := hnodes
  have hsurvives : Survives .standard parsed.tree parsed.root 7 := by
    have hroot : Survives .standard parsed.tree parsed.root parsed.root :=
      .root (by simp [hprogram])
    exact .child (.child hroot hprogram hinner (by simp [houter])) houter hkept (by simp [howner])
  have hrun : RunAt .standard parsed.tree owner (34, 45) := by
    refine ⟨.block .consequent, ⟨[some 3, some 6], 22, 45⟩, [some 6], ?_, rfl,
      ⟨[some 3], [], rfl, by simp, by simpa using hdeleted, by simpa using hstays, by simp⟩,
      6, 6, type, type, rfl, rfl, htype, htype, by rw [hfirst, hlast]⟩
    simp [Node.fields, hkind, hslots, NodeKind.schema]
  have htext : switchText =
      "switch (a) \x7b\n  case 1:\n    b;".toList ++
        '\n' :: ("    ".toList ++ "type T = 1;".toList ++ '\n' :: ['}']) := by
    decide +kernel
  have halone : StandsAlone switchText (34, 45) (30, 46) :=
    standsAlone_of_line htext (by decide +kernel) (by decide +kernel) (by decide +kernel)
      (by decide +kernel) (by decide +kernel)
  have hremoved : Removed .standard parsed.tree parsed.root (34, 45) :=
    ⟨7, owner, hsurvives, howner, hrun.removedAt⟩
  exact ⟨parsed, owner, hparse, ⟨7, hsurvives, howner, hrun, halone⟩, hremoved,
    fun _ hother => eq_of_removed hparse (ok_of_toOption hfragments) rfl hremoved hother⟩

/-- The output then has a blank line there. -/
theorem not_leaves_out_lines : ¬∀ (text : List Char) (options : CompileOptions) (parsed : Parsed),
    parse text options.sourceFileName = .ok parsed →
    ∃ printed drops rest, compile text options = .ok printed ∧
      Drops parsed text printed.code drops rest ∧
      ∀ node range lines, RunLines text parsed.tree parsed.root node range lines →
        ∀ copy ∈ Drop.copies 0 0 drops rest, copy.2 < lines.1 ∨ lines.2 ≤ copy.2 := by
  intro hall
  obtain ⟨parsed, node, hparse, hrun, hremoved, hunique⟩ := exists_runLines_of_case
  obtain ⟨printed, drops, rest, hcompile, hdrops, houtside⟩ := hall _ {} _ hparse
  obtain ⟨drop, rfl⟩ := hdrops.exists_eq_singleton (by decide) hremoved hunique
  have hcode : (compile switchText {}).toOption.map Printed.code =
      some "switch (a) \x7b\n  case 1:\n    b;\n\n\x7d".toList := by
    decide +kernel
  rw [hcompile] at hcode
  have hprinted : printed.code = "switch (a) \x7b\n  case 1:\n    b;\n\n\x7d".toList :=
    Option.some.inj hcode
  have hsource : drop.source ++ rest = "switch (a) \x7b\n  case 1:\n    b;\n".toList ++
      "    type T = 1;\n".toList ++ ['}'] := by
    rw [← List.flatMap_singleton Drop.source drop, ← hdrops.source]
    decide +kernel
  have hseparator : '\n' ∉ drop.separator := by
    have hmem := hdrops.separators drop (List.mem_singleton_self drop)
    simp only [List.mem_cons, List.not_mem_nil, or_false] at hmem
    rcases hmem with heq | heq | heq <;> simp [heq]
  -- More line ends are written than there are around the line.
  have hcount : ("switch (a) \x7b\n  case 1:\n    b;\n".toList ++ ['}']).count '\n' <
      (drop.output ++ rest).count '\n' := by
    rw [← List.flatMap_singleton Drop.output drop, ← hdrops.output, hprinted]
    decide +kernel
  obtain ⟨copy, hcopy, hge, hlt⟩ :=
    Drop.exists_copy_of_count hsource (by decide +kernel) hseparator hcount
  have hstart : byteLength "switch (a) \x7b\n  case 1:\n    b;\n".toList = 30 := by decide +kernel
  have hstop : byteLength ("switch (a) \x7b\n  case 1:\n    b;\n".toList ++
      "    type T = 1;\n".toList) = 46 := by
    decide +kernel
  rw [hstart] at hge
  rw [hstop] at hlt
  have hout := houtside node (34, 45) (30, 46) hrun copy hcopy
  exact hout.elim (Nat.not_lt_of_le hge) (Nat.not_le_of_lt hlt)

end FlowErasure
