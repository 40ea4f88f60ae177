import FlowErasure.Proofs.Lookahead.Scan
import FlowErasure.Proofs.Token.Joining

/-!
# Where a lexer stands in a look ahead

`At follow brackets K l` says that the token of `l` is the next one for a scan that goes on to give
`follow`, with these brackets open, of which `K` is known. The grammar joins a `>` with what comes
after it, and the scan does not; `At` allows for that too, and once the joined token has been consumed
the two meet again, if an operand comes next.
-/

namespace FlowErasure

namespace Grammar

/-- Tokens that the scan reads as the grammar does, wherever they stand, and that open and close no
bracket. -/
def isOrdinary (t : Token) : Bool :=
  Scan.isPlain t && !isSlash t && !Lexer.joinsGreater t

theorem plain_of_isSlash {t : Token} (ht : isSlash t) :
    Scan.isPlain t ∧ Lexer.joinsGreater t = false := by
  revert ht
  cases t <;> decide

theorem plain_of_joinsGreater {t : Token} (ht : Lexer.joinsGreater t) :
    Scan.isPlain t ∧ isSlash t = false ∧ endsOperand t = false := by
  revert ht
  cases t <;> decide

theorem isOrdinary_of_isWord {t : Token} (ht : t.isWord) : isOrdinary t := by
  revert ht
  cases t <;> decide

theorem isWord_of_isName {t : Token} (ht : t.isName) : t.isWord := by
  revert ht
  cases t <;> decide

theorem operator_cases {t : Token} (ht : t.precedence ≠ 0 ∨ t.isAssignment) :
    Lexer.joinsGreater t ∨ (isSlash t ∧ endsOperand t = false) ∨
      (isOrdinary t ∧ endsOperand t = false) := by
  revert ht
  cases t <;> decide

namespace Scan

/-- The token of `l` comes next. The grammar may have joined it with what comes after it. -/
def Before (scan : Scan) (l : Lexer) : Prop :=
  l = scan.lexer.next ∨ l = scan.lexer.next.rereadGreater

def Any (_ : Scan) : Prop :=
  True

/-- If a slash comes next, it starts a regular expression. -/
def Fresh (scan : Scan) : Prop :=
  isSlash scan.nextToken → endsOperand scan.previous = false

/-- If a slash comes next, it divides. -/
def Ended (scan : Scan) : Prop :=
  isSlash scan.nextToken → endsOperand scan.previous = true

def Clear (scan : Scan) : Prop :=
  isSlash scan.nextToken = false

def After (t : Token) (scan : Scan) : Prop :=
  scan.previous = t

def Beyond (K : Scan → Prop) (t : Token) (scan : Scan) : Prop :=
  scan.previous = t ∧ ∃ scan₀, K scan₀ ∧ scan.before = scan₀.previous

end Scan

open Scan

/-- The token of `l` is next for a scan that goes on to give `follow` and meets no disputed slash. Of
the scan it is known which brackets are open and that `K` holds. -/
def At (follow : ParenFollow) (brackets : List Bracket) (K : Scan → Prop) (l : Lexer) : Prop :=
  ∃ scan bound, scan.Foresees follow bound ∧ scan.brackets = brackets ∧ K scan ∧ scan.Before l

variable {follow : ParenFollow} {b b' : Bracket} {st : List Bracket} {K K' : Scan → Prop} {l l' : Lexer}


namespace Scan

variable {scan : Scan}

theorem Before.eq (h : scan.Before l) (hl : Lexer.joinsGreater l.token = false) :
    l = scan.lexer.next := by
  obtain rfl | rfl := h
  · rfl
  · obtain heq | ⟨-, hjoined⟩ := Lexer.rereadGreater_eq_or scan.lexer.next
    · exact heq
    · rw [hjoined] at hl
      cases hl

theorem Before.isSlash_eq (h : scan.Before l) : isSlash l.token = isSlash scan.nextToken := by
  obtain rfl | rfl := h
  · rfl
  · obtain heq | ⟨hgreater, hjoined⟩ := Lexer.rereadGreater_eq_or scan.lexer.next
    · rw [heq]
      rfl
    · have hjoined : isSlash scan.lexer.next.rereadGreater.token = false := by
        cases htoken : scan.lexer.next.rereadGreater.token <;> simp_all [Lexer.joinsGreater, isSlash]
      rw [hjoined, nextToken, hgreater]
      rfl

theorem Before.reread (h : scan.Before l) : scan.Before l.rereadGreater := by
  obtain rfl | rfl := h
  · exact .inr rfl
  · exact .inr (Lexer.rereadGreater_idem _)

end Scan

namespace At

/-- What is known of a scan may use that no slash is disputed. -/
theorem mono (h : At follow st K l) (himp : ∀ scan, scan.disputed = false → K scan → K' scan) :
    At follow st K' l := by
  obtain ⟨scan, bound, hforesees, hst, hK, hbefore⟩ := h
  exact ⟨scan, bound, hforesees, hst, himp scan hforesees.not_disputed hK, hbefore⟩

theorem any (h : At follow st K l) : At follow st Any l :=
  h.mono fun _ _ _ => trivial

theorem reread (h : At follow st K l) : At follow st K l.rereadGreater := by
  obtain ⟨scan, bound, hforesees, hst, hK, hbefore⟩ := h
  exact ⟨scan, bound, hforesees, hst, hK, hbefore.reread⟩

/-! ### Slashes -/

theorem clear (h : At follow st K l) (hl : isSlash l.token = false) : At follow st Clear l := by
  obtain ⟨scan, bound, hforesees, hst, -, hbefore⟩ := h
  exact ⟨scan, bound, hforesees, hst, hbefore.isSlash_eq.symm.trans hl, hbefore⟩

theorem fresh_of_clear (h : At follow st Clear l) : At follow st Fresh l :=
  h.mono fun scan _ hclear hslash => by
    rw [hclear] at hslash
    cases hslash

theorem ended_of_clear (h : At follow st Clear l) : At follow st Ended l :=
  h.mono fun scan _ hclear hslash => by
    rw [hclear] at hslash
    cases hslash

/-- Nothing ends with such a token, so a slash after it is no operator. -/
theorem fresh {t : Token} (h : At follow st (After t) l) (ht : endsOperand t = false) :
    At follow st Fresh l :=
  h.mono fun _ _ hafter _ => hafter ▸ ht

theorem ended {t : Token} (h : At follow st (After t) l) (ht : endsOperand t = true) :
    At follow st Ended l :=
  h.mono fun _ _ hafter _ => hafter ▸ ht

/-- After these tokens a slash would be disputed. -/
theorem clear_of_after {t : Token} (h : At follow st (After t) l)
    (ht : [Token.closeBrace, .plusPlus, .minusMinus, .yieldKeyword, .awaitKeyword,
      .ofKeyword].contains t) : At follow st Clear l :=
  h.mono fun scan hsure hafter => by
    unfold Scan.disputed at hsure
    rw [hafter, ht] at hsure
    simpa [Clear] using hsure

theorem clear_of_closedHead (h : At follow st (fun scan => scan.closedHead = true) l) :
    At follow st Clear l :=
  h.mono fun scan hsure hclosed => by
    unfold Scan.disputed at hsure
    rw [hclosed] at hsure
    simpa [Clear] using hsure

/-- A name after a dot ends an operand, and if it is a keyword, a slash after it would be disputed. -/
theorem ended_of_dot {t : Token} (h : At follow st (Beyond (After .dot) t) l) :
    At follow st Ended l :=
  h.mono fun scan hsure hbeyond hslash => by
    obtain ⟨-, scan₀, hdot, hbefore⟩ := hbeyond
    unfold Scan.disputed at hsure
    rw [hslash, hbefore, hdot] at hsure
    simp_all

/-- A statement may end before a line break. A slash after that is no operator, or it is disputed. -/
theorem fresh_of_lineBreak (h : At follow (b :: st) K l) (hb : b.token = .openBrace)
    (hl : l.flags.lineBreakBefore) : At follow (b :: st) Fresh l := by
  obtain ⟨scan, bound, hforesees, hst, hK, hbefore⟩ := h
  refine ⟨scan, bound, hforesees, hst, fun hslash => ?_, hbefore⟩
  have hsure := hforesees.not_disputed
  have hnext : l = scan.lexer.next := by
    refine hbefore.eq ?_
    rw [← hbefore.isSlash_eq] at hslash
    cases htoken : l.token <;> simp_all [isSlash, Lexer.joinsGreater]
  unfold Scan.disputed at hsure
  rw [hslash, hst, ← hnext, hl] at hsure
  simp_all

/-! ### Tokens -/

/-- One step, if the token is read as the grammar reads it. -/
theorem step (h : At follow (b :: st) K l) (hl : Lexer.joinsGreater l.token = false) :
    ∃ scan scan' bound, K scan ∧ scan.brackets = b :: st ∧ scan.lexer.next = l ∧
      scan.step? = some scan' ∧ scan'.Foresees follow bound := by
  obtain ⟨scan, bound, hforesees, hst, hK, hbefore⟩ := h
  obtain ⟨scan', bound', hstep, hforesees'⟩ := hforesees.step (by simp [hst])
  exact ⟨scan, scan', bound', hK, hst, (hbefore.eq hl).symm, hstep, hforesees'⟩

theorem past {scan : Scan} {bound : Nat} {brackets : List Bracket} {closed : Bool}
    (h : (scan.read l brackets closed).Foresees follow bound) (hK : K (scan.read l brackets closed)) :
    At follow brackets K l.next :=
  ⟨scan.read l brackets closed, bound, h, rfl, hK, .inl rfl⟩

theorem of_plain {scan : Scan} {bound : Nat} (hforesees : scan.Foresees follow bound)
    (hst : scan.brackets = b :: st) (hread : nextAfter scan.previous scan.lexer = l)
    (hl : isPlain l.token) :
    At follow (b :: st) (fun scan' => scan'.previous = l.token ∧ scan'.before = scan.previous)
      l.next := by
  obtain ⟨scan', bound', hstep, hforesees'⟩ := hforesees.step (by simp [hst])
  rw [step?_plain hst hl hread] at hstep
  cases hstep
  exact past hforesees' ⟨rfl, rfl⟩

/-- A token that the scan reads as the grammar does, whatever is known of the scan. -/
theorem beyond (h : At follow (b :: st) K l) (hl : isOrdinary l.token) :
    At follow (b :: st) (Beyond K l.token) l.next := by
  obtain ⟨⟨hplain, hslash⟩, hjoins⟩ : (isPlain l.token ∧ isSlash l.token = false) ∧
      Lexer.joinsGreater l.token = false := by simpa [isOrdinary] using hl
  obtain ⟨scan, bound, hforesees, hst, hK, hbefore⟩ := h
  obtain rfl := hbefore.eq hjoins
  exact (of_plain hforesees hst (nextAfter_eq_next hslash) hplain).mono fun _ _ hnew =>
    ⟨hnew.1, scan, hK, hnew.2⟩

theorem ordinary (h : At follow (b :: st) K l) (hl : isOrdinary l.token) :
    At follow (b :: st) (After l.token) l.next :=
  (h.beyond hl).mono fun _ _ hbeyond => hbeyond.1

theorem opens (h : At follow (b :: st) K l) (hl : opensBracket l.token) :
    ∃ scan, K scan ∧
      At follow (⟨l.token, startsHead scan.previous⟩ :: b :: st) (After l.token) l.next := by
  have hjoins : Lexer.joinsGreater l.token = false := by
    cases htoken : l.token <;> simp_all [opensBracket, Lexer.joinsGreater]
  obtain ⟨scan, scan', bound, hK, hst, rfl, hstep, hforesees⟩ := h.step hjoins
  have hslash : isSlash scan.lexer.next.token = false := by
    cases htoken : scan.lexer.next.token <;> simp_all [opensBracket, isSlash]
  rw [step?_opens hst hl (nextAfter_eq_next hslash)] at hstep
  cases hstep
  exact ⟨scan, hK, past hforesees rfl⟩

theorem closes (h : At follow (b :: st) K l) (hl : opener? l.token = some b.token) :
    At follow st (fun scan => scan.previous = l.token ∧ scan.closedHead = b.ofHead) l.next := by
  have hjoins : Lexer.joinsGreater l.token = false := by
    cases htoken : l.token <;> rw [htoken] at hl <;> first | rfl | cases hl
  obtain ⟨scan, scan', bound, -, hst, rfl, hstep, hforesees⟩ := h.step hjoins
  have hslash : isSlash scan.lexer.next.token = false := by
    cases htoken : scan.lexer.next.token <;> rw [htoken] at hl <;> first | rfl | cases hl
  rw [step?_closes hst hl (nextAfter_eq_next hslash)] at hstep
  cases hstep
  exact past hforesees ⟨rfl, rfl⟩

theorem resumes (h : At follow (b :: st) K l) (hb : b.token = .templateHead)
    (hl : l.token = .closeBrace) :
    At follow (if l.rereadBrace.token == .templateTail then st else b :: st)
      (After l.rereadBrace.token) l.rereadBrace.next := by
  have hjoins : Lexer.joinsGreater l.token = false := by rw [hl]; rfl
  obtain ⟨scan, scan', bound, -, hst, rfl, hstep, hforesees⟩ := h.step hjoins
  have hslash : isSlash scan.lexer.next.token = false := by rw [hl]; rfl
  rw [step?_resumes hst hb hl (nextAfter_eq_next hslash)] at hstep
  cases hstep
  exact past hforesees rfl

theorem divides (h : At follow (b :: st) Ended l) (hl : isSlash l.token) :
    At follow (b :: st) (After l.token) l.next := by
  obtain ⟨hplain, hjoins⟩ := plain_of_isSlash hl
  obtain ⟨scan, bound, hforesees, hst, hended, hbefore⟩ := h
  obtain rfl := hbefore.eq hjoins
  have hread : nextAfter scan.previous scan.lexer = scan.lexer.next := by
    unfold nextAfter
    simp [hended hl]
  exact (of_plain hforesees hst hread hplain).mono fun _ _ hnew => hnew.1

theorem regex (h : At follow (b :: st) Fresh l) (hl : isSlash l.token) :
    At follow (b :: st) (After .regex) l.rereadSlash.next := by
  obtain ⟨-, hjoins⟩ := plain_of_isSlash hl
  obtain ⟨scan, bound, hforesees, hst, hfresh, hbefore⟩ := h
  obtain rfl := hbefore.eq hjoins
  have hread : nextAfter scan.previous scan.lexer = scan.lexer.next.rereadSlash := by
    unfold nextAfter
    simp [hfresh hl]
  have htoken : scan.lexer.next.rereadSlash.token = .regex := Lexer.token_rereadSlash_eq hl
  have hplain : isPlain scan.lexer.next.rereadSlash.token := by
    rw [htoken]
    decide
  exact (of_plain hforesees hst hread hplain).mono fun _ _ hnew => hnew.1.trans htoken

/-! ### Joined tokens -/

theorem overGreater {n : Nat} {cs : List Char} (h : At follow (b :: st) K l)
    (hl : l.token = .greaterThan) (hrest : l.rest = List.replicate n '>' ++ cs) :
    ∃ l', At follow (b :: st) Any l' ∧ l'.token = .greaterThan ∧ l'.SameText (l.skipped n) := by
  induction n generalizing K l with
  | zero => exact ⟨l, h.any, hl, rfl, rfl, rfl, rfl⟩
  | succ n ih =>
      obtain ⟨htoken, htext⟩ := Lexer.next_of_greater hrest
      have hrest' : l.next.rest = List.replicate n '>' ++ cs := by
        rw [htext.rest, Lexer.skipped, hrest]
        rfl
      obtain ⟨l', hat, htoken', htext'⟩ := ih (h.ordinary (by rw [hl]; rfl)) htoken hrest'
      have htext := (htext'.trans (htext.skipped n))
      rw [Lexer.skipped_skipped, Nat.add_comm] at htext
      exact ⟨l', hat, htoken', htext⟩

end At

/-- An operand may start here: a slash would start a regular expression. It may also be that none can
start here, where the scan reads the pieces of an operator in another way. -/
def Opens (follow : ParenFollow) (brackets : List Bracket) (l : Lexer) : Prop :=
  At follow brackets Fresh l ∨ Lexer.startsNoOperand l.token

namespace At

/-- After a joined operator. Its pieces have been read one at a time. -/
theorem joined (h : At follow (b :: st) K l) (hl : Lexer.joinsGreater l.token) :
    Opens follow (b :: st) l.next := by
  obtain ⟨hplain, hslash, hends⟩ := plain_of_joinsGreater hl
  obtain ⟨scan, bound, hforesees, hst, hK, hbefore⟩ := h
  by_cases hread : l = scan.lexer.next
  · subst hread
    exact .inl (((of_plain hforesees hst (nextAfter_eq_next hslash) hplain).mono
      fun _ _ hnew => hnew.1).fresh hends)
  obtain rfl := hbefore.resolve_left hread
  have hgreater : scan.lexer.next.token = .greaterThan := by
    refine Decidable.byContradiction fun hgreater => hread ?_
    exact Lexer.rereadGreater_eq hgreater
  obtain ⟨-, n, tail, cs, htail, hrest, htext⟩ :=
    (Lexer.rereadGreater_cases hgreater).resolve_left hread
  obtain ⟨l', hat, htoken, htext'⟩ :=
    overGreater ⟨scan, bound, hforesees, hst, hK, .inl rfl⟩ hgreater hrest
  have hordinary : isOrdinary l'.token := by
    rw [htoken]
    decide
  obtain rfl | rfl := htail
  · -- The last piece is a `>`, and both go on after it.
    rw [(htext.trans htext'.symm).next]
    exact .inl ((hat.ordinary hordinary).fresh (by rw [htoken]; rfl))
  · have hrest' : l'.rest = '=' :: cs := by
      rw [htext'.rest, Lexer.skipped, hrest]
      simp
    have htext : scan.lexer.next.rereadGreater.SameText (l'.skipped 1) := by
      have hskipped := htext'.symm.skipped 1
      rw [Lexer.skipped_skipped] at hskipped
      exact htext.trans hskipped
    obtain ⟨-, ⟨hequals, hnext⟩ | ⟨cs', hcs⟩⟩ := Lexer.next_of_equals hrest'
    · rw [(htext.trans hnext.symm).next]
      refine .inl (((hat.ordinary hordinary).ordinary ?_).fresh ?_)
      · rw [hequals]
        decide
      · rw [hequals]
        rfl
    · -- The scan has read an `=` and more, and the grammar is at what comes after the `=`.
      have hrest : scan.lexer.next.rereadGreater.rest = cs := by
        rw [htext.rest, Lexer.skipped, hrest']
        rfl
      exact .inr (Lexer.startsNoOperand_next (hcs.imp hrest.trans hrest.trans))

theorem operator (h : At follow (b :: st) Ended l)
    (hl : l.token.precedence ≠ 0 ∨ l.token.isAssignment) : Opens follow (b :: st) l.next := by
  obtain hjoins | ⟨hslash, hends⟩ | ⟨hordinary, hends⟩ := operator_cases hl
  · exact h.joined hjoins
  · exact .inl ((h.divides hslash).fresh hends)
  · exact .inl ((h.ordinary hordinary).fresh hends)

end At

end Grammar

end FlowErasure
