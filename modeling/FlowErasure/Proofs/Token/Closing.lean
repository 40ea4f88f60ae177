import FlowErasure.Proofs.Text.Bytes
import FlowErasure.Proofs.Token.Consuming

/-!
# How tokens end

The last character of a token is neither a blank nor the end of a line. Only a literal without its
closing delimiter may end otherwise, where the end of a line or of the text cuts it off.
-/

namespace FlowErasure

open Text (isSpace isLineBreak)

namespace Lexer

/-- Neither a blank nor the end of a line. -/
def Solid (c : Char) : Prop :=
  isSpace c = false ∧ isLineBreak c = false

instance (c : Char) : Decidable (Solid c) :=
  inferInstanceAs (Decidable (_ ∧ _))

def breaking : List Char :=
  [' ', '\t', '\x0b', '\x0c', '\n', '\r', '\u2028', '\u2029']

theorem solid_of_not_mem {c : Char} (h : c ∉ breaking) : Solid c := by
  simp only [breaking, List.mem_cons, List.not_mem_nil, or_false, not_or] at h
  simp [Solid, isSpace, isLineBreak, h]

/-- What accepts no blank and no end of a line accepts only solid characters. -/
theorem solid_of_accepts {accept : Char → Bool} {c : Char} (h : accept c)
    (hnone : breaking.any accept = false) : Solid c :=
  solid_of_not_mem fun hmem => List.any_eq_false.mp hnone c hmem h

theorem Clear.solid {c : Char} {cs ds : List Char} (h : Clear cs) (heq : cs = c :: ds) :
    Solid c := by
  have hall : breaking.all fun d => isLineBreak d || Token.isInlineBlank d := by decide +kernel
  obtain ⟨hbreak, hblank⟩ := h c ds heq
  refine solid_of_not_mem fun hmem => ?_
  simpa [hbreak, hblank] using List.all_eq_true.mp hall c hmem

def Closes (cs rest : List Char) : Prop :=
  (∃ front c, cs = front ++ c :: rest ∧ Solid c) ∨ ∀ c, rest.head? = some c → isLineBreak c

theorem Closes.cons {cs rest : List Char} (c : Char) (h : Closes cs rest) :
    Closes (c :: cs) rest := by
  rcases h with ⟨front, d, rfl, hd⟩ | h
  · exact .inl ⟨c :: front, d, rfl, hd⟩
  · exact .inr h

theorem Closes.char {c : Char} (cs : List Char) (hc : Solid c) : Closes (c :: cs) cs :=
  .inl ⟨[], c, rfl, hc⟩

theorem closes_nil (cs : List Char) : Closes cs [] :=
  .inr nofun

/-! ## Literals -/

theorem closes_stringEnd {quote : Char} (hquote : Solid quote) (pos : Nat) (cs : List Char) :
    Closes cs (stringEnd quote pos cs).1.rest := by
  fun_induction stringEnd quote pos cs with
  | case1 | case4 => exact closes_nil _
  | case2 pos cs ih => exact ((ih.cons _).cons _).cons _
  | case3 pos c cs _ ih => exact (ih.cons c).cons _
  | case5 pos c cs _ _ _ hbreak =>
      refine .inr fun d hd => ?_
      obtain rfl : c = d := by simpa using hd
      simp only [Bool.or_eq_true, beq_iff_eq] at hbreak
      rcases hbreak with rfl | rfl <;> decide
  | case6 pos c cs _ _ _ _ hc =>
      obtain rfl : c = quote := by simpa using hc
      exact .char cs hquote
  | case7 pos c cs _ _ _ _ _ ih => exact ih.cons c

theorem closes_templateEnd (pos : Nat) (cs : List Char) :
    Closes cs (templateEnd pos cs).1.rest := by
  fun_induction templateEnd pos cs with
  | case1 | case6 => exact closes_nil _
  | case2 pos cs => exact .char cs (by decide)
  | case3 pos cs => exact (Closes.char cs (by decide)).cons _
  | case4 pos cs ih => exact ((ih.cons _).cons _).cons _
  | case5 pos c cs _ ih => exact (ih.cons c).cons _
  | case7 pos c cs _ _ _ _ _ ih => exact ih.cons c

theorem closes_regexEnd (inClass : Bool) (pos : Nat) (cs : List Char) :
    Closes cs (regexEnd inClass pos cs).1.rest := by
  fun_induction regexEnd inClass pos cs with
  | case1 | case4 => exact closes_nil _
  | case2 _ pos c cs hbreak | case5 _ pos c cs _ _ hbreak =>
      refine .inr fun d hd => ?_
      obtain rfl : c = d := by simpa using hd
      exact hbreak
  | case3 _ pos c cs _ ih => exact (ih.cons c).cons _
  | case6 inClass pos c cs _ _ _ hc =>
      obtain rfl : c = '/' := by
        simp only [Bool.and_eq_true, beq_iff_eq] at hc
        exact hc.1
      exact .char cs (by decide)
  | case7 _ pos c cs _ _ _ _ ih => exact ih.cons c

/-! ## Numbers and names -/

def OverSolid (cs rest : List Char) : Prop :=
  ∃ mid, cs = mid ++ rest ∧ ∀ c ∈ mid, Solid c

namespace OverSolid

variable {cs ds es : List Char}

theorem refl (cs : List Char) : OverSolid cs cs :=
  ⟨[], rfl, by simp⟩

theorem trans (h : OverSolid cs ds) (h' : OverSolid ds es) : OverSolid cs es := by
  obtain ⟨mid, rfl, hmid⟩ := h
  obtain ⟨mid', rfl, hmid'⟩ := h'
  refine ⟨mid ++ mid', by simp, fun c hc => ?_⟩
  rcases List.mem_append.mp hc with hc | hc
  · exact hmid c hc
  · exact hmid' c hc

theorem char {c : Char} (cs : List Char) (hc : Solid c) : OverSolid (c :: cs) cs :=
  ⟨[c], rfl, by simpa using hc⟩

theorem takeWhile {accept : Char → Bool} (cs : List Char)
    (hnone : breaking.any accept = false) : OverSolid cs (cs.dropWhile accept) :=
  ⟨cs.takeWhile accept, List.takeWhile_append_dropWhile.symm,
    fun _ hc => solid_of_accepts (List.mem_takeWhile_imp hc) hnone⟩

/-- If anything is read at all, its last character is solid. -/
theorem closes (h : OverSolid cs ds) (hne : cs ≠ ds) : Closes cs ds := by
  obtain ⟨mid, rfl, hmid⟩ := h
  obtain ⟨front, c, rfl⟩ : ∃ front c, mid = front ++ [c] := by
    rcases List.eq_nil_or_concat mid with rfl | ⟨front, c, rfl⟩
    · exact absurd rfl hne
    · exact ⟨front, c, List.concat_eq_append⟩
  exact .inl ⟨front, c, by simp, hmid c (by simp)⟩

end OverSolid

theorem Closes.over {cs ds es : List Char} (h : Closes cs ds) (hsuffix : ds <:+ cs)
    (hover : OverSolid ds es) : Closes cs es := by
  by_cases heq : ds = es
  · exact heq ▸ h
  · obtain ⟨mid, rfl⟩ := hsuffix
    rcases hover.closes heq with ⟨front, c, rfl, hc⟩ | hcut
    · exact .inl ⟨mid ++ front, c, by simp, hc⟩
    · exact .inr hcut

theorem overSolid_skipDigits (radix : Nat) (p : Place) :
    OverSolid p.rest (skipDigits radix p).rest := by
  have hnone : breaking.any (fun d => (Token.hexDigit? d).isSome) = false := by decide
  refine .takeWhile p.rest (List.any_eq_false.mpr fun d hd => ?_)
  have hdigit : Token.hexDigit? d = none := by
    simpa using List.any_eq_false.mp hnone d hd
  simp [Token.isDigitOf, hdigit]

theorem overSolid_skipByte {p : Place} {accept : Char → Bool} (h : startsWith p accept)
    (hnone : breaking.any accept = false) : OverSolid p.rest (skipByte p).rest := by
  obtain ⟨c, cs, hrest, hc⟩ := exists_of_startsWith h
  simp only [skipByte, hrest, List.tail_cons]
  exact .char cs (solid_of_accepts hc hnone)

theorem overSolid_skipFraction (p : Place) : OverSolid p.rest (skipFraction p).rest := by
  unfold skipFraction
  split
  · exact (overSolid_skipByte ‹_› (by decide)).trans (overSolid_skipDigits 10 _)
  · exact .refl _

theorem overSolid_skipExponent (p : Place) : OverSolid p.rest (skipExponent p).1.rest := by
  unfold skipExponent
  split
  · refine (overSolid_skipByte ‹_› (by decide)).trans ?_
    refine OverSolid.trans ?_ (overSolid_skipDigits 10 _)
    split
    · exact overSolid_skipByte ‹_› (by decide)
    · exact .refl _
  · exact .refl _

theorem overSolid_decimalEnd (p : Place) : OverSolid p.rest (decimalEnd p).place.rest :=
  ((overSolid_skipDigits 10 p).trans (overSolid_skipFraction _)).trans (overSolid_skipExponent _)

theorem solid_of_radix? {c : Char} {radix : Nat} (h : radix? c = some radix) : Solid c := by
  have hsome : (radix? c).isSome := by simp [h]
  exact @solid_of_accepts (fun c => (radix? c).isSome) _ hsome (by decide)

theorem overSolid_numberEnd (p : Place) : OverSolid p.rest (numberEnd p).place.rest := by
  rw [place_numberEnd]
  unfold numberBody
  split
  · rename_i c cs hrest
    split
    · rename_i radix hradix
      rw [hrest]
      refine ((OverSolid.char (c :: cs) (by decide)).trans
        (.char cs (solid_of_radix? hradix))).trans ?_
      have hbytes : (skipByte (skipByte p)).rest = cs := by simp [skipByte, hrest]
      have hdigits := overSolid_skipDigits radix (skipByte (skipByte p))
      rwa [hbytes] at hdigits
    · split
      · exact overSolid_skipDigits 10 p
      · exact overSolid_decimalEnd p
  · exact overSolid_decimalEnd p

theorem solid_of_hexDigit? {c : Char} (h : (Token.hexDigit? c).isSome) : Solid c :=
  @solid_of_accepts (fun c => (Token.hexDigit? c).isSome) _ h (by decide)

theorem overSolid_unicodeEscape? {cs rest : List Char} {c : Char} {length : Nat}
    (h : unicodeEscape? cs = some (c, length, rest)) : OverSolid cs rest := by
  have hdigits : ∀ {digits tail : List Char} {n : Nat},
      ((hexValue? digits).bind fun value =>
        if value.isValidChar then some (Char.ofNat value, n, tail) else none) =
          some (c, length, rest) →
      (∀ d ∈ digits, Solid d) ∧ rest = tail := by
    intro digits tail n hbind
    obtain ⟨value, hvalue, hchar⟩ := Option.bind_eq_some_iff.mp hbind
    split at hchar
    · simp only [Option.some.injEq, Prod.mk.injEq] at hchar
      exact ⟨fun d hd => solid_of_hexDigit? (isSome_of_hexValue? hvalue d hd), hchar.2.2.symm⟩
    · simp at hchar
  unfold unicodeEscape? at h
  split at h
  · rename_i body
    split at h
    · rename_i d ds hdrop
      obtain ⟨hsolid, rfl⟩ := hdigits h
      have hclose : d = '\x7d' := by
        have hhead := List.head?_dropWhile_not (· != '\x7d') body
        rw [hdrop] at hhead
        simpa using hhead
      have hbody := List.takeWhile_append_dropWhile (p := (· != '\x7d')) (l := body)
      rw [hdrop, hclose] at hbody
      refine ⟨'u' :: '\x7b' :: (body.takeWhile (· != '\x7d') ++ ['\x7d']), by simp [hbody], ?_⟩
      intro e he
      simp only [List.mem_cons, List.mem_append, List.not_mem_nil, or_false] at he
      rcases he with rfl | rfl | he | rfl
      · decide
      · decide
      · exact hsolid e he
      · decide
    · simp at h
  · rename_i a b d e ds _
    obtain ⟨hsolid, rfl⟩ := hdigits h
    refine ⟨['u', a, b, d, e], rfl, fun x hx => ?_⟩
    rcases List.mem_cons.mp hx with rfl | hx
    · decide
    · exact hsolid x hx
  · simp at h

theorem overSolid_nameEnd (bound : Nat) (first : Bool) (name : NameEnd) :
    OverSolid name.place.rest (nameEnd bound first name).place.rest := by
  induction bound generalizing first name with
  | zero => exact .refl _
  | succ bound ih =>
      have hread : ∀ (further : NameEnd) (rest : List Char), further.place.rest = rest →
          OverSolid name.place.rest rest →
          OverSolid name.place.rest (nameEnd bound false further).place.rest := by
        rintro further rest rfl hover
        exact hover.trans (ih false further)
      simp only [nameEnd]
      split
      · exact .refl _
      · rename_i cs hrest
        have hslash : OverSolid name.place.rest cs := hrest ▸ .char cs (by decide)
        split
        · rename_i c length rest hescape
          have hover := hslash.trans (overSolid_unicodeEscape? hescape)
          by_cases hfits : (if first = true then Token.isNameStart c else Token.isNamePart c) = true
          · rw [if_pos hfits]
            exact hread _ rest rfl hover
          · rw [if_neg hfits]
            exact hread _ rest rfl hover
        · exact hread _ _ rfl hslash
      · rename_i c cs _ hrest
        by_cases hfits : (if first = true then Token.isNameStart c else Token.isNamePart c) = true
        · have hnone : breaking.any
              (fun d => if first = true then Token.isNameStart d else Token.isNamePart d) = false := by
            cases first <;> decide +kernel
          have hsolid : Solid c := solid_of_accepts hfits hnone
          rw [if_pos hfits]
          exact hread _ cs rfl (hrest ▸ .char cs hsolid)
        · rw [if_neg hfits]
          exact .refl _

/-! ## Tokens -/

/-- The current token ends with a solid character, or it is cut off. -/
def Closed (l : Lexer) : Prop :=
  l.token ≠ .endOfFile → Closes l.startRest l.rest

namespace Closed

variable {text : List Char} {l : Lexer}

theorem readString {quote : Char} {body : List Char} (hquote : Solid quote)
    (hrest : l.startRest = quote :: body) : (l.readString quote body).Closed := by
  intro _
  have hcloses := (closes_stringEnd hquote (l.start + 1) body).cons quote
  rw [← hrest] at hcloses
  unfold Lexer.readString
  simp only
  split <;> exact hcloses

theorem readTemplate {head : Bool} {quote : Char} {body : List Char}
    (hrest : l.startRest = quote :: body) : (l.readTemplate head body).Closed := by
  intro _
  have hcloses := (closes_templateEnd (l.start + 1) body).cons quote
  rw [← hrest] at hcloses
  unfold Lexer.readTemplate
  simp only
  split <;> exact hcloses

theorem of_overSolid (h : l.Settled text) (hover : OverSolid l.startRest l.rest) : l.Closed := by
  intro ht
  refine hover.closes fun heq => ?_
  obtain ⟨mid, hmid, hpos, -⟩ := h.stop
  have hnil : mid = [] := List.self_eq_append_left.mp (heq.symm.trans hmid)
  have hlt := h.lt ht
  rw [hnil] at hpos
  exact absurd hpos (Nat.ne_of_gt hlt)

end Closed

section

variable {text : List Char} {l : Lexer} (hsize : l.size = Text.byteLength text)
  (hstart : Text.At text l.start l.startRest) (hclear : Clear l.startRest)

include hsize hstart hclear

theorem closed_readToken : l.readToken.Closed := by
  unfold readToken
  split
  · exact fun ht => absurd rfl ht
  · rename_i c cs hrest
    split
    · rename_i hdigit
      exact .of_overSolid (settled_readNumber hsize hstart hclear hrest hdigit)
        (overSolid_numberEnd ⟨l.start, l.startRest⟩)
    · split
      · rename_i hquote
        refine .readString ?_ hrest
        simp only [Bool.or_eq_true, beq_iff_eq] at hquote
        rcases hquote with rfl | rfl <;> decide
      · split
        · exact .readTemplate hrest
        · split
          · rename_i hname
            exact .of_overSolid (settled_readName hsize hstart hclear hrest hname)
              (overSolid_nameEnd _ true { place := ⟨l.start, l.startRest⟩ })
          · rw [← hrest]
            split
            · rename_i spelling token hpunctuator
              refine .of_overSolid (settled_punctuator hsize hstart hclear hpunctuator) ?_
              obtain ⟨rest, hspelling⟩ : spelling <+: l.startRest := by
                simpa using List.find?_some hpunctuator
              refine ⟨spelling, ?_, fun c hc => ?_⟩
              · simp [finish, ← hspelling]
              · have hall : punctuation.all fun entry => entry.1.all (decide <| Solid ·) := by
                  decide +kernel
                have hentry :=
                  List.all_eq_true.mp hall _ (List.mem_of_find?_eq_some hpunctuator)
                exact of_decide_eq_true (List.all_eq_true.mp hentry c hc)
            · exact fun _ => hrest ▸ .char cs (hclear.solid hrest)

end

theorem closed_next {text : List Char} {l : Lexer} (h : l.Placed text) : l.next.Closed := by
  have hgap := onward_skipGap .blank l.pos false l.rest
  have hclear := clear_skipGap .blank l.pos false l.rest
  have hstart := h.rest.onward hgap
  unfold next
  simp only
  split
  · exact closed_readToken h.size hstart hclear
  · exact closed_readToken h.size hstart hclear

namespace Settled

variable {text : List Char} {l : Lexer}

theorem closed_rereadSlash (h : l.Settled text) (hclosed : l.Closed) : l.rereadSlash.Closed := by
  unfold Lexer.rereadSlash
  split
  · rename_i hslash
    obtain ⟨cs, hrest⟩ : ∃ cs, l.startRest = '/' :: cs := by
      simp only [Bool.or_eq_true, beq_iff_eq] at hslash
      rcases hslash with hslash | hslash
      · exact h.mark '/' (hslash ▸ by decide)
      · exact h.mark '/' (hslash ▸ by decide)
    have hcloses : Closes l.startRest (regexEnd false (l.start + 1) l.startRest.tail).1.rest := by
      rw [hrest]
      exact (closes_regexEnd false (l.start + 1) cs).cons '/'
    simp only
    split
    · obtain ⟨mid, hmid, -⟩ := passes_regexEnd false (l.start + 1) l.startRest.tail
      have hsuffix : (regexEnd false (l.start + 1) l.startRest.tail).1.rest <:+ l.startRest := by
        rw [hrest] at hmid ⊢
        exact ⟨'/' :: mid, congrArg ('/' :: ·) hmid.symm⟩
      exact fun _ => hcloses.over hsuffix (.takeWhile _ (by decide +kernel))
    · exact fun _ => hcloses
  · exact hclosed

theorem closed_rereadBrace (h : l.Settled text) (hclosed : l.Closed) : l.rereadBrace.Closed := by
  unfold Lexer.rereadBrace
  split
  · rename_i hbrace
    have htoken : l.token = .closeBrace := by simpa using hbrace
    obtain ⟨cs, hrest⟩ := h.mark '\x7d' (htoken ▸ by decide)
    exact .readTemplate (by rw [hrest]; rfl)
  · exact hclosed

theorem closed_rereadGreater (h : l.Settled text) (hclosed : l.Closed) :
    l.rereadGreater.Closed := by
  unfold Lexer.rereadGreater
  split
  · rename_i hgreater
    have hcloses := hclosed (by simp_all)
    obtain ⟨mid, hmid, -⟩ := h.stop
    have hadd : ∀ (token : Token) (extra rest : List Char), l.rest = extra ++ rest →
        extra.all (decide <| Solid ·) →
          (l.finish token ⟨l.pos + extra.length, l.rest.drop extra.length⟩ l.value).Closed := by
      intro token extra rest hrest hsolid _
      refine hcloses.over ⟨mid, hmid.symm⟩ ⟨extra, ?_, by simpa using hsolid⟩
      simp [finish, hrest]
    simp only
    split
    · exact hadd _ ['>', '>', '='] _ ‹_› (by decide)
    · exact hadd _ ['>', '>'] _ ‹_› (by decide)
    · exact hadd _ ['>', '='] _ ‹_› (by decide)
    · exact hadd _ ['>'] _ ‹_› (by decide)
    · exact hadd _ ['='] _ ‹_› (by decide)
    · exact hadd _ [] _ rfl (by simp)
  · exact hclosed

end Settled

end Lexer

namespace Text

def CharBefore (text : List Char) (offset : Nat) (c : Char) : Prop :=
  ∃ pre rest, text = pre ++ c :: rest ∧ offset = byteLength (pre ++ [c])

theorem CharBefore.unique {text : List Char} {offset : Nat} {c d : Char}
    (h : CharBefore text offset c) (h' : CharBefore text offset d) : c = d := by
  obtain ⟨pre, rest, htext, hoffset⟩ := h
  obtain ⟨pre', rest', htext', hoffset'⟩ := h'
  have htake := take?_append (pre ++ [c]) rest
  have htake' := take?_append (pre' ++ [d]) rest'
  rw [List.append_assoc, List.singleton_append, ← htext, ← hoffset] at htake
  rw [List.append_assoc, List.singleton_append, ← htext', ← hoffset', htake] at htake'
  simpa using congrArg List.getLast? (Option.some.inj htake')

theorem Between.charBefore {text cs : List Char} {a b : Nat} {c : Char}
    (h : Between text a (cs ++ [c]) b) : CharBefore text b c := by
  obtain ⟨rest, ⟨pre, rfl, rfl⟩, rfl⟩ := h
  exact ⟨pre ++ cs, rest, by simp, by simp⟩

end Text

/-- A token may end at the offset: the character before it is solid, or the line or the text ends
there. -/
def TokenStop (text : List Char) (offset : Nat) : Prop :=
  (∃ c, Text.CharBefore text offset c ∧ Lexer.Solid c) ∨
    ∃ rest, Text.At text offset rest ∧ ∀ c, rest.head? = some c → isLineBreak c

namespace Lexer

variable {text : List Char} {tokens : List (Nat × Nat)} {first l : Lexer}

theorem Closed.tokenStop (h : l.Closed) (hl : l.Settled text) (ht : l.token ≠ .endOfFile) :
    TokenStop text l.pos := by
  rcases h ht with ⟨front, c, hfront, hc⟩ | hcut
  · obtain ⟨mid, hmid, hpos, -⟩ := hl.stop
    obtain rfl : mid = front ++ [c] := by
      rw [hmid, List.append_cons] at hfront
      exact List.append_cancel_right hfront
    have hbetween : Text.Between text l.start (front ++ [c]) l.pos :=
      ⟨l.rest, hmid ▸ hl.start, hpos⟩
    exact .inl ⟨c, hbetween.charBefore, hc⟩
  · exact .inr ⟨l.rest, hl.placed.rest, hcut⟩

/-- Tokens that have been consumed end where a token may end. -/
theorem Consumes.tokenStop (h : first.Consumes tokens l) (hfirst : first.Settled text)
    (hclosed : first.Closed) :
    l.Closed ∧ ∀ token ∈ tokens, TokenStop text token.2 := by
  induction h with
  | refl => exact ⟨hclosed, by simp⟩
  | rereadSlash h ih => exact ⟨(h.settled hfirst).closed_rereadSlash ih.1, ih.2⟩
  | rereadBrace h ih => exact ⟨(h.settled hfirst).closed_rereadBrace ih.1, ih.2⟩
  | rereadGreater h ih => exact ⟨(h.settled hfirst).closed_rereadGreater ih.1, ih.2⟩
  | @next tokens l h ht ih =>
      have hl := h.settled hfirst
      refine ⟨closed_next hl.placed, fun token htoken => ?_⟩
      rcases List.mem_append.mp htoken with htoken | htoken
      · exact ih.2 token htoken
      · rw [List.mem_singleton.mp htoken]
        exact ih.1.tokenStop hl ht

/-- No token of a text ends with a blank or with the end of a line, unless it is cut off. -/
theorem Tokenizes.tokenStop (h : Tokenizes text tokens) :
    ∀ token ∈ tokens, TokenStop text token.2 := by
  obtain ⟨l, hconsumes, -⟩ := h
  have hplaced := (placed_ofText text).skipShebang
  exact (hconsumes.tokenStop hplaced.next.1 (closed_next hplaced)).2

end Lexer

end FlowErasure
