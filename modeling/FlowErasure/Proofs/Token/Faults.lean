import FlowErasure.Proofs.Token.Trivia

/-!
# Where lexical errors are

A lexer puts an error at the whole current token, at an escape in it, or right after it. The length
of the error reaches from the one offset to the other.
-/

namespace FlowErasure.Lexer

open Text (At Between Boundary)

inductive Blames (text : List Char) (l : Lexer) : Nat → Nat → Prop
  | token : Blames text l l.start l.pos
  | escape {start stop : Nat} : Boundary text start → Boundary text stop → l.start ≤ start →
      start < stop → stop ≤ l.pos → Blames text l start stop
  /-- At most the character after the token. -/
  | after {cs : List Char} {stop : Nat} : Between text l.pos cs stop → cs.length ≤ 1 →
      Blames text l l.pos stop

def BlamesFault (text : List Char) (l : Lexer) : Prop :=
  ∀ f, l.fault = some f → Blames text l f.start (f.start + f.length)

variable {text : List Char} {l : Lexer} {f : Fault}

theorem Blames.boundary (h : Settled text l) {start stop : Nat} (hb : Blames text l start stop) :
    Boundary text start ∧ Boundary text stop := by
  cases hb with
  | token => exact ⟨h.start.boundary, h.placed.seam.boundary⟩
  | escape hstart hstop _ _ _ => exact ⟨hstart, hstop⟩
  | after hbetween _ => exact ⟨hbetween.left, hbetween.right⟩

theorem Blames.of_token {start stop : Nat} (hstart : start = l.start) (hstop : stop = l.pos) :
    Blames text l start stop := by
  subst hstart hstop
  exact .token

theorem Blames.of_stop (h : Boundary text l.pos) {start stop : Nat} (hstart : start = l.pos)
    (hstop : stop = l.pos) : Blames text l start stop := by
  subst hstart hstop
  exact .after (.refl h) (Nat.zero_le 1)

theorem blamesFault_of_none (h : l.fault = none) : BlamesFault text l := by
  intro f hf
  rw [h] at hf
  cases hf

/-! ## Numbers and names -/

def NumberEnd.BlamesStop (number : NumberEnd) : Prop :=
  ∀ f, number.fault = some f → f.start = number.place.pos ∧ f.length = 0

theorem blamesStop_decimalEnd (p : Place) : (decimalEnd p).BlamesStop := by
  intro f hf
  simp only [decimalEnd, skipExponent] at hf ⊢
  split at hf
  · rename_i hmark
    rw [if_pos hmark]
    simp only [Option.ite_none_right_eq_some, Option.some.injEq] at hf
    rw [← hf.2]
    exact ⟨rfl, rfl⟩
  · cases hf

theorem blamesStop_numberBody (p : Place) : (numberBody p).BlamesStop := by
  unfold numberBody
  split
  · split
    · intro f hf
      simp only [Option.ite_none_right_eq_some, Option.some.injEq] at hf
      rw [← hf.2]
      exact ⟨rfl, rfl⟩
    · split
      · exact nofun
      · exact blamesStop_decimalEnd p
  · exact blamesStop_decimalEnd p

/-- An error in a number is at its end: nothing, or the character that comes next. -/
theorem fault_numberEnd {p : Place} (h : (numberEnd p).fault = some f) :
    f.start = (numberEnd p).place.pos ∧
      (f.length = 0 ∨ ∃ c cs, (numberEnd p).place.rest = c :: cs ∧ f.length = c.utf8Size) := by
  have hbody := blamesStop_numberBody p
  rw [place_numberEnd]
  simp only [numberEnd] at h
  split at h
  · rename_i c cs hrest
    split at h
    · cases hfault : (numberBody p).fault with
      | none =>
          obtain rfl : (⟨(numberBody p).place.pos, c.utf8Size, .invalidCharacter⟩ : Fault) = f := by
            simpa [hfault] using h
          exact ⟨rfl, .inr ⟨c, cs, hrest, rfl⟩⟩
      | some other =>
          obtain rfl : other = f := by simpa [hfault] using h
          exact (hbody other hfault).imp_right .inl
    · exact (hbody f h).imp_right .inl
  · exact (hbody f h).imp_right .inl

def NameEnd.BlamesEscape (text : List Char) (start : Nat) (name : NameEnd) : Prop :=
  ∀ f, name.fault = some f → Boundary text f.start ∧ Boundary text (f.start + f.length) ∧
    start ≤ f.start ∧ f.start < f.start + f.length ∧ f.start + f.length ≤ name.place.pos

namespace NameEnd.BlamesEscape

variable {start length : Nat} {name name' : NameEnd} {rest : List Char}

theorem moved (h : name.BlamesEscape text start) (hfault : name'.fault = name.fault)
    (hle : name.place.pos ≤ name'.place.pos) : name'.BlamesEscape text start := by
  intro f hf
  obtain ⟨hstart, hstop, hge, hlt, hend⟩ := h f (hfault.symm.trans hf)
  exact ⟨hstart, hstop, hge, hlt, hend.trans hle⟩

theorem refused (h : name.BlamesEscape text start) (hle : start ≤ name.place.pos)
    (hat : At text name.place.pos name.place.rest)
    (hpasses : Text.Passes name.place.pos name.place.rest (name.place.pos + length) rest)
    (hlength : 0 < length) (hplace : name'.place.pos = name.place.pos + length)
    (hfault : name'.fault =
      (name.fault <|> some ⟨name.place.pos, length, .invalidCharacter⟩)) :
    name'.BlamesEscape text start := by
  intro f hf
  rw [hfault] at hf
  cases hname : name.fault with
  | none =>
      obtain rfl : (⟨name.place.pos, length, .invalidCharacter⟩ : Fault) = f := by
        simpa [hname] using hf
      exact ⟨hat.boundary, (hat.onward hpasses.onward).boundary, hle,
        Nat.lt_add_of_pos_right hlength, hplace.ge⟩
  | some other =>
      obtain rfl : other = f := by simpa [hname] using hf
      obtain ⟨hstart, hstop, hge, hlt, hend⟩ := h other hname
      exact ⟨hstart, hstop, hge, hlt, hend.trans (hplace ▸ Nat.le_add_right _ _)⟩

end NameEnd.BlamesEscape

theorem blamesEscape_nameEnd {start : Nat} (bound : Nat) (first : Bool) {name : NameEnd}
    (hat : At text name.place.pos name.place.rest) (hle : start ≤ name.place.pos)
    (h : name.BlamesEscape text start) : (nameEnd bound first name).BlamesEscape text start := by
  induction bound generalizing first name with
  | zero => exact h
  | succ bound ih =>
      simp only [nameEnd]
      split
      · exact h
      · rename_i cs hrest
        split
        · rename_i c length rest hescape
          obtain ⟨hpasses, hlength⟩ := passes_unicodeEscape? name.place.pos hescape
          rw [← hrest] at hpasses
          have hnext := hat.onward hpasses.onward
          have hge := Nat.le_add_right name.place.pos length
          by_cases hfits : (if first = true then Token.isNameStart c else Token.isNamePart c) = true
          · rw [if_pos hfits]
            exact ih false hnext (hle.trans hge) (h.moved rfl hge)
          · rw [if_neg hfits]
            exact ih false hnext (hle.trans hge) (h.refused hle hat hpasses hlength rfl rfl)
        · have hpasses := Text.Passes.char name.place.pos cs (by decide : '\\' ≠ '\r')
          rw [← hrest] at hpasses
          exact ih false (hat.onward hpasses.onward) (hle.trans hpasses.le)
            (h.refused hle hat hpasses Nat.one_pos rfl rfl)
      · rename_i c cs _ hrest
        by_cases hfits : (if first = true then Token.isNameStart c else Token.isNamePart c) = true
        · have honward := Text.Onward.char name.place.pos c cs
          rw [← hrest] at honward
          rw [if_pos hfits]
          exact ih false (hat.onward honward) (hle.trans honward.le) (h.moved rfl honward.le)
        · rw [if_neg hfits]
          exact h

/-! ## Tokens -/

theorem blamesFault_whole {fault : Fault} (h : l.fault = none) (hstart : fault.start = l.start)
    (hstop : fault.start + fault.length = l.pos) : BlamesFault text (l.withFault (some fault)) := by
  intro f hf
  obtain rfl : fault = f := by simpa [withFault, h] using hf
  exact .of_token hstart hstop

theorem blamesFault_readString (h : l.fault = none) (quote : Char) (body : List Char)
    (hle : l.start ≤ (stringEnd quote (l.start + 1) body).1.pos) :
    BlamesFault text (l.readString quote body) := by
  simp only [readString]
  split
  · exact blamesFault_of_none h
  · exact blamesFault_whole h rfl (Nat.add_sub_cancel' hle)

theorem blamesFault_readTemplate (h : l.fault = none) (head : Bool) (body : List Char) :
    BlamesFault text (l.readTemplate head body) := by
  have hle := (Nat.le_succ l.start).trans (le_templateEnd (l.start + 1) body)
  simp only [readTemplate]
  split
  · exact blamesFault_of_none h
  · exact blamesFault_of_none h
  · exact blamesFault_whole h rfl (Nat.add_sub_cancel' hle)

theorem blamesFault_readNumber (h : l.fault = none) (hsettled : Settled text l.readNumber) :
    BlamesFault text l.readNumber := by
  intro f hf
  have hnumber : (numberEnd ⟨l.start, l.startRest⟩).fault = some f := by
    simpa [readNumber, withFault, finish, h] using hf
  obtain ⟨hstart, hlength⟩ := fault_numberEnd hnumber
  have hpos : f.start = l.readNumber.pos := hstart
  rcases hlength with hzero | ⟨c, cs, hrest, hlength⟩
  · exact .of_stop hsettled.placed.seam.boundary hpos (by rw [hzero, hpos, Nat.add_zero])
  · have hcons : l.readNumber.rest = [c] ++ cs := hrest
    have hat := hsettled.placed.rest
    rw [hcons] at hat
    rw [hlength, hpos]
    exact .after ⟨cs, hat, by simp⟩ (Nat.le_refl 1)

theorem blamesFault_readName (h : l.fault = none) (hstart : At text l.start l.startRest) :
    BlamesFault text l.readName := by
  intro f hf
  have hnone : NameEnd.BlamesEscape text l.start { place := ⟨l.start, l.startRest⟩ } := nofun
  have hescape :=
    blamesEscape_nameEnd (l.size - l.start + 1) true hstart (Nat.le_refl l.start) hnone f (by
      simpa [readName, withFault, finish, h] using hf)
  obtain ⟨hstart, hstop, hge, hlt, hend⟩ := hescape
  exact .escape hstart hstop hge hlt hend

theorem blamesFault_readToken (h : l.fault = none) (hsettled : Settled text l.readToken)
    (hstart : At text l.start l.startRest) : BlamesFault text l.readToken := by
  revert hsettled
  unfold readToken
  split
  · exact fun _ => blamesFault_of_none h
  · rename_i c cs hrest
    split
    · exact blamesFault_readNumber h
    · split
      · rename_i hquote
        intro _
        refine blamesFault_readString h c cs ?_
        simp only [Bool.or_eq_true, beq_iff_eq] at hquote
        have hone : c.utf8Size = 1 := by rcases hquote with rfl | rfl <;> rfl
        exact (Nat.le_succ l.start).trans (passes_stringEnd c hone (l.start + 1) cs).le
      · split
        · exact fun _ => blamesFault_readTemplate h true cs
        · split
          · exact fun _ => blamesFault_readName h hstart
          · split
            · exact fun _ => blamesFault_of_none h
            · exact fun _ => blamesFault_whole h rfl rfl

theorem blamesFault_next (hl : Placed text l) (h : l.fault = none) : BlamesFault text l.next := by
  have hstart := hl.rest.onward (onward_skipGap .blank l.pos false l.rest)
  obtain ⟨hsettled, -⟩ := hl.next
  revert hsettled
  simp only [next]
  split
  · rename_i hunclosed
    obtain ⟨_, _, -, -, hend, -⟩ := skips_skipGap .blank l.pos false l.rest
    -- The text ends in the comment, so there is no token and no other error.
    intro _ f hf
    simp only [readToken, hend hunclosed] at hf ⊢
    set gap := skipGap .blank l.pos false l.rest
    obtain rfl : (⟨gap.stop, 0, .commentNotTerminated⟩ : Fault) = f := by
      simpa [withFault, finish, h] using hf
    exact .of_token rfl rfl
  · exact fun hsettled => blamesFault_readToken h hsettled hstart

theorem blamesFault_rereadSlash (h : l.fault = none) :
    BlamesFault text l.rereadSlash := by
  simp only [rereadSlash]
  split
  · split
    · exact blamesFault_of_none h
    · refine blamesFault_whole h rfl (Nat.add_sub_cancel' ?_)
      exact (Nat.le_succ l.start).trans (passes_regexEnd false (l.start + 1) l.startRest.tail).le
  · exact blamesFault_of_none h

theorem blamesFault_rereadBrace (h : l.fault = none) : BlamesFault text l.rereadBrace := by
  simp only [rereadBrace]
  split
  · exact blamesFault_readTemplate h false _
  · exact blamesFault_of_none h

end FlowErasure.Lexer
