import FlowErasure.Proofs.Token.Reading

/-!
# White space and comments

What a lexer skips before a token is made of white space, line ends and comments. A comment that
starts with two slashes goes up to the end of its line, one that starts with a slash and an asterisk
up to the first asterisk and slash after that. Only the last comment of a text may lack its end, and
this is reported.
-/

namespace FlowErasure.Lexer

open Text (At Between)

/-- White space, line ends and comments; the last comment may be `unclosed`. -/
inductive IsTrivia : (unclosed : Bool) → List Char → Prop
  | nil : IsTrivia false []
  | blank {unclosed c cs} : (Text.isLineBreak c || Token.isInlineBlank c) = true →
      IsTrivia unclosed cs → IsTrivia unclosed (c :: cs)
  | lineComment {unclosed body cs} : (∀ c ∈ body, Text.isLineBreak c = false) →
      cs.head?.all Text.isLineBreak = true → IsTrivia unclosed cs →
      IsTrivia unclosed ('/' :: '/' :: (body ++ cs))
  | blockComment {unclosed body cs} : ¬['*', '/'] <:+: body → IsTrivia unclosed cs →
      IsTrivia unclosed ('/' :: '*' :: (body ++ '*' :: '/' :: cs))
  | unclosed {body} : ¬['*', '/'] <:+: body → IsTrivia true ('/' :: '*' :: body)

def Within.Completes (unclosed : Bool) : Within → List Char → Prop
  | .blank, cs => IsTrivia unclosed cs
  | .lineComment, cs => ∃ body after, cs = body ++ after ∧
      (∀ c ∈ body, Text.isLineBreak c = false) ∧ after.head?.all Text.isLineBreak = true ∧
      IsTrivia unclosed after
  | .blockComment, cs =>
      (∃ body after, cs = body ++ '*' :: '/' :: after ∧ ¬['*', '/'] <:+: body ∧
        IsTrivia unclosed after) ∨
      unclosed = true ∧ ¬['*', '/'] <:+: cs

namespace Within.Completes

variable {u : Bool} {c : Char} {cs : List Char}

theorem ofLineComment (h : Within.lineComment.Completes u cs) :
    Within.blank.Completes u ('/' :: '/' :: cs) := by
  obtain ⟨body, after, rfl, hbody, hhead, hafter⟩ := h
  exact .lineComment hbody hhead hafter

theorem ofBlockComment (h : Within.blockComment.Completes u cs) :
    Within.blank.Completes u ('/' :: '*' :: cs) := by
  rcases h with ⟨body, after, rfl, hbody, hafter⟩ | ⟨rfl, hcs⟩
  · exact .blockComment hbody hafter
  · exact .unclosed hcs

theorem lineEnd (h : Within.blank.Completes u cs) (hc : Text.isLineBreak c = true) :
    Within.lineComment.Completes u (c :: cs) :=
  ⟨[], c :: cs, rfl, nofun, by simpa using hc, .blank (by simp [hc]) h⟩

theorem lineCons (h : Within.lineComment.Completes u cs) (hc : Text.isLineBreak c = false) :
    Within.lineComment.Completes u (c :: cs) := by
  obtain ⟨body, after, rfl, hbody, hhead, hafter⟩ := h
  exact ⟨c :: body, after, rfl, by simpa [hc] using hbody, hhead, hafter⟩

/-- One more character of a comment, if this does not close it. -/
theorem blockCons (h : Within.blockComment.Completes u cs)
    (hc : ∀ ds, c = '*' → cs = '/' :: ds → False) : Within.blockComment.Completes u (c :: cs) := by
  have hcons : ∀ body after, body ++ after = cs → ¬['*', '/'] <:+: body →
      ¬['*', '/'] <:+: c :: body := by
    intro body after hbody hnot hinfix
    rcases List.infix_cons_iff.mp hinfix with ⟨ds, hprefix⟩ | hinfix
    · obtain ⟨rfl, rfl⟩ := List.cons.inj hprefix
      exact hc (ds ++ after) rfl (by rw [← hbody]; rfl)
    · exact hnot hinfix
  rcases h with ⟨body, after, rfl, hbody, hafter⟩ | ⟨hu, hcs⟩
  · refine .inl ⟨c :: body, after, rfl, ?_, hafter⟩
    exact hcons body _ rfl hbody
  · exact .inr ⟨hu, hcons cs [] (List.append_nil cs) hcs⟩

end Within.Completes

/-- A gap skips the start of a text, which completes the part of a comment read before. It is broken
if it was so before, or if a line ends in what is skipped. -/
def Within.Skips (within : Within) (pos : Nat) (broken : Bool) (cs : List Char) (gap : Gap) : Prop :=
  ∃ skipped, cs = skipped ++ gap.rest ∧ gap.stop = pos + Text.byteLength skipped ∧
    within.Completes gap.unclosed skipped ∧ (gap.unclosed = true → gap.rest = []) ∧
    gap.broken = (broken || skipped.any Text.isLineBreak)

theorem Within.Skips.after {within within' : Within} {pos pos' : Nat} {broken broken' : Bool}
    {cs : List Char} {gap : Gap} (read : List Char) (h : within'.Skips pos' broken' cs gap)
    (hpos : pos' = pos + Text.byteLength read)
    (hbroken : broken' = (broken || read.any Text.isLineBreak))
    (hread : ∀ skipped, cs = skipped ++ gap.rest → within'.Completes gap.unclosed skipped →
      within.Completes gap.unclosed (read ++ skipped)) :
    within.Skips pos broken (read ++ cs) gap := by
  obtain ⟨skipped, hcs, hstop, hskipped, hrest, hgap⟩ := h
  refine ⟨read ++ skipped, ?_, ?_, hread skipped hcs hskipped, hrest, ?_⟩
  · rw [List.append_assoc, ← hcs]
  · rw [hstop, hpos, Text.byteLength_append, Nat.add_assoc]
  · rw [hgap, hbroken, List.any_append, Bool.or_assoc]

theorem skips_skipGap (within : Within) (pos : Nat) (broken : Bool) (cs : List Char) :
    within.Skips pos broken cs (skipGap within pos broken cs) := by
  have hslashes : ['/', '/'].any Text.isLineBreak = false := by decide
  have hopen : ['/', '*'].any Text.isLineBreak = false := by decide
  have hclose : ['*', '/'].any Text.isLineBreak = false := by decide
  fun_induction skipGap within pos broken cs with
  | case1 | case6 => exact ⟨[], rfl, rfl, .nil, by simp, by simp⟩
  | case2 pos broken cs ih =>
      exact ih.after ['/', '/'] rfl (by simp [hslashes]) fun _ _ h => h.ofLineComment
  | case3 pos broken cs ih =>
      exact ih.after ['/', '*'] rfl (by simp [hopen]) fun _ _ h => h.ofBlockComment
  | case4 pos broken c cs _ _ hbreak ih =>
      exact ih.after [c] (by simp) (by simp [hbreak]) fun _ _ h => .blank (by simp [hbreak]) h
  | case5 pos broken c cs _ _ hbreak hblank ih =>
      exact ih.after [c] (by simp) (by simp [hbreak]) fun _ _ h => .blank (by simp [hblank]) h
  | case7 => exact ⟨[], rfl, rfl, ⟨[], [], rfl, by simp, rfl, .nil⟩, by simp, by simp⟩
  | case8 pos broken c cs hbreak ih =>
      exact ih.after [c] (by simp) (by simp [hbreak]) fun _ _ h => h.lineEnd hbreak
  | case9 pos broken c cs hbreak ih =>
      exact ih.after [c] (by simp) (by simp [hbreak]) fun _ _ h => h.lineCons (by simpa using hbreak)
  | case10 => exact ⟨[], rfl, rfl, .inr ⟨rfl, by simp⟩, fun _ => rfl, by simp⟩
  | case11 pos broken cs ih =>
      exact ih.after ['*', '/'] rfl (by simp [hclose]) fun skipped _ h =>
        .inl ⟨[], skipped, rfl, by simp, h⟩
  | case12 pos broken c cs hstar ih =>
      refine ih.after [c] (by simp) (by simp) fun skipped hskipped h => h.blockCons fun ds hc hds => ?_
      exact hstar _ hc (by rw [hskipped, hds, List.cons_append])

end FlowErasure.Lexer
