import FlowErasure.Token.Lexer
import FlowErasure.Proofs.Text.Offset
import Mathlib.Data.List.TakeWhile

/-!
# Where tokens start and end

Every reader of the lexer moves over whole characters and does not stop inside a line end. So the
offsets that a lexer keeps are boundaries of the text, a token starts at a character that is no white
space, and all tokens but the end of the text have a length.
-/

namespace FlowErasure

namespace Lexer

open Text (At Onward Passes)

/-! ## Readers -/

def Clear (cs : List Char) : Prop :=
  ∀ c ds, cs = c :: ds → Text.isLineBreak c = false ∧ Token.isInlineBlank c = false

theorem onward_skipGap (within : Within) (pos : Nat) (broken : Bool) (cs : List Char) :
    Onward pos cs (skipGap within pos broken cs).stop (skipGap within pos broken cs).rest := by
  fun_induction skipGap within pos broken cs with
  | case1 | case7 | case10 => exact .refl _ _
  | case2 pos broken cs ih => exact .cons '/' (.cons '/' ih)
  | case3 pos broken cs ih => exact .cons '/' (.cons '*' ih)
  | case4 pos broken c cs _ _ _ ih => exact .cons c ih
  | case5 pos broken c cs _ _ _ _ ih => exact .cons c ih
  | case6 => exact .refl _ _
  | case8 pos broken c cs _ ih => exact .cons c ih
  | case9 pos broken c cs _ ih => exact .cons c ih
  | case11 pos broken cs ih => exact .cons '*' (.cons '/' ih)
  | case12 pos broken c cs _ ih => exact .cons c ih

theorem clear_skipGap (within : Within) (pos : Nat) (broken : Bool) (cs : List Char) :
    Clear (skipGap within pos broken cs).rest := by
  fun_induction skipGap within pos broken cs with
  | case1 | case7 | case10 => exact fun c ds h => by simp at h
  | case6 pos broken c cs _ _ hbreak hblank =>
      intro d ds h
      obtain ⟨rfl, rfl⟩ := List.cons.inj h
      exact ⟨by simpa using hbreak, by simpa using hblank⟩
  | _ => assumption

/-- Over a backslash and the line end it escapes, and on. -/
theorem passes_escapedLineEnd {pos stop : Nat} {cs rest : List Char}
    (h : Passes (pos + 3) cs stop rest) : Passes pos ('\\' :: '\r' :: '\n' :: cs) stop rest := by
  have hfeed : Passes (pos + 2) ('\n' :: cs) stop rest := .cons_of_ne (by decide) h
  refine .cons_of_ne (by decide) (hfeed.cons fun _ _ => ?_)
  exact Nat.lt_of_lt_of_le (Nat.lt_succ_self (pos + 2)) h.le

theorem head?_ne_of_pair {c : Char} {cs : List Char} (h : ∀ ds, c = '\r' → cs = '\n' :: ds → False)
    (hc : c = '\r') : cs.head? ≠ some '\n' := by
  intro hhead
  obtain ⟨ds, rfl⟩ := List.head?_eq_some_iff.mp hhead
  exact h ds hc rfl

theorem passes_stringEnd (quote : Char) (hquote : quote.utf8Size = 1) (pos : Nat)
    (cs : List Char) :
    Passes pos cs (stringEnd quote pos cs).1.pos (stringEnd quote pos cs).1.rest := by
  fun_induction stringEnd quote pos cs with
  | case1 => exact .refl _ _
  | case2 pos cs ih => exact passes_escapedLineEnd ih
  | case3 pos c cs hpair ih =>
      refine .cons_of_ne (by decide) (.cons ih fun hc hhead => ?_)
      exact absurd hhead (head?_ne_of_pair hpair hc)
  | case4 => exact .char _ [] (by decide)
  | case5 => exact .refl _ _
  | case6 pos c cs _ _ _ hbreak hc =>
      obtain rfl : c = quote := by simpa using hc
      simp only [Bool.or_eq_true, beq_iff_eq, not_or] at hbreak
      exact hquote ▸ Passes.char pos cs hbreak.2
  | case7 pos c cs _ _ _ hbreak _ ih =>
      simp only [Bool.or_eq_true, beq_iff_eq, not_or] at hbreak
      exact ih.cons_of_ne hbreak.2

theorem le_templateEnd (pos : Nat) (cs : List Char) : pos ≤ (templateEnd pos cs).1.pos := by
  fun_induction templateEnd pos cs with
  | case1 => exact Nat.le_refl _
  | case2 | case3 | case6 => exact Nat.le_add_right _ _
  | case4 pos cs ih | case5 pos c cs _ ih | case7 pos c cs _ _ _ _ _ ih => omega

theorem passes_templateEnd (pos : Nat) (cs : List Char) :
    Passes pos cs (templateEnd pos cs).1.pos (templateEnd pos cs).1.rest := by
  fun_induction templateEnd pos cs with
  | case1 => exact .refl _ _
  | case2 pos cs => exact .char _ cs (by decide)
  | case3 pos cs => exact .cons_of_ne (by decide) (.char _ cs (by decide))
  | case4 pos cs ih => exact passes_escapedLineEnd ih
  | case5 pos c cs hpair ih =>
      refine .cons_of_ne (by decide) (.cons ih fun hc hhead => ?_)
      exact absurd hhead (head?_ne_of_pair hpair hc)
  | case6 => exact .char _ [] (by decide)
  | case7 pos c cs _ _ _ _ _ ih =>
      refine ih.cons fun _ hhead => ?_
      obtain ⟨ds, rfl⟩ := List.head?_eq_some_iff.mp hhead
      have hfeed : ∀ pos, templateEnd pos ('\n' :: ds) = templateEnd (pos + 1) ds := fun _ => rfl
      rw [hfeed]
      exact le_templateEnd _ ds

theorem ne_return_of_isLineBreak {c : Char} (h : ¬Text.isLineBreak c) : c ≠ '\r' := by
  rintro rfl
  exact h (by decide)

theorem passes_regexEnd (inClass : Bool) (pos : Nat) (cs : List Char) :
    Passes pos cs (regexEnd inClass pos cs).1.pos (regexEnd inClass pos cs).1.rest := by
  fun_induction regexEnd inClass pos cs with
  | case1 => exact .refl _ _
  | case2 _ pos c cs => exact .char _ (c :: cs) (by decide)
  | case3 _ pos c cs hbreak ih =>
      exact .cons_of_ne (by decide) (ih.cons_of_ne (ne_return_of_isLineBreak hbreak))
  | case4 => exact .char _ [] (by decide)
  | case5 => exact .refl _ _
  | case6 inClass pos c cs _ _ _ hc =>
      obtain rfl : c = '/' := by
        simp only [Bool.and_eq_true, beq_iff_eq] at hc
        exact hc.1
      exact .char pos cs (by decide)
  | case7 _ pos c cs _ _ hbreak _ ih => exact ih.cons_of_ne (ne_return_of_isLineBreak hbreak)

/-! ## Numbers -/

theorem utf8Size_of_isAscii {c : Char} (h : Token.isAscii c) : c.utf8Size = 1 := by
  have hlt : c.toNat < 128 := by simpa [Token.isAscii] using h
  have hval : c.val ≤ 0x7f := by
    rw [UInt32.le_iff_toNat_le]
    exact Nat.le_of_lt_succ hlt
  simp [Char.utf8Size, hval]

theorem isAscii_of_le {a b c : Char} (h : (a ≤ c && c ≤ b) = true) (hb : Token.isAscii b) :
    Token.isAscii c := by
  simp only [Bool.and_eq_true, decide_eq_true_eq] at h
  have hle : c.toNat ≤ b.toNat := h.2
  simp only [Token.isAscii, decide_eq_true_eq] at hb ⊢
  omega

theorem isAscii_of_hexDigit? {c : Char} {d : Nat} (h : Token.hexDigit? c = some d) :
    Token.isAscii c := by
  unfold Token.hexDigit? at h
  split at h
  · exact isAscii_of_le ‹_› (by decide)
  · split at h
    · exact isAscii_of_le ‹_› (by decide)
    · split at h
      · exact isAscii_of_le ‹_› (by decide)
      · simp at h

theorem hexDigit?_return : Token.hexDigit? '\r' = none := by
  decide

theorem utf8Size_of_isDigitOf {radix : Nat} {c : Char} (h : Token.isDigitOf radix c) :
    c.utf8Size = 1 := by
  unfold Token.isDigitOf at h
  split at h
  · exact utf8Size_of_isAscii (isAscii_of_hexDigit? ‹_›)
  · simp at h

theorem passes_skipDigits (radix : Nat) (p : Place) :
    Passes p.pos p.rest (skipDigits radix p).pos (skipDigits radix p).rest := by
  refine .of_not_mem List.takeWhile_append_dropWhile.symm ?_ fun hmem => ?_
  · rw [Text.byteLength_eq_length fun c hc => utf8Size_of_isDigitOf (List.mem_takeWhile_imp hc)]
    rfl
  · have hdigit : Token.isDigitOf radix '\r' = true := List.mem_takeWhile_imp hmem
    exact absurd hdigit (by simp [Token.isDigitOf, hexDigit?_return])

theorem passes_skipByte {p : Place} {c : Char} {cs : List Char} (h : p.rest = c :: cs)
    (hc : c.utf8Size = 1 ∧ c ≠ '\r') :
    Passes p.pos p.rest (skipByte p).pos (skipByte p).rest := by
  have hchar := Passes.char p.pos cs hc.2
  rw [hc.1] at hchar
  simpa [skipByte, h] using hchar

theorem exists_of_startsWith {p : Place} {accept : Char → Bool} (h : startsWith p accept) :
    ∃ c cs, p.rest = c :: cs ∧ accept c := by
  unfold startsWith at h
  cases hrest : p.rest with
  | nil => simp [hrest] at h
  | cons c cs => exact ⟨c, cs, rfl, by simpa [hrest] using h⟩

theorem passes_skipByte_of_startsWith {p : Place} {accept : Char → Bool} (h : startsWith p accept)
    (hone : ∀ c, accept c → c.utf8Size = 1 ∧ c ≠ '\r') :
    Passes p.pos p.rest (skipByte p).pos (skipByte p).rest := by
  obtain ⟨c, cs, hrest, hc⟩ := exists_of_startsWith h
  exact passes_skipByte hrest (hone c hc)

theorem passes_skipFraction (p : Place) :
    Passes p.pos p.rest (skipFraction p).pos (skipFraction p).rest := by
  unfold skipFraction
  split
  · rename_i h
    refine (passes_skipByte_of_startsWith h fun c hc => ?_).trans (passes_skipDigits 10 _)
    obtain rfl : c = '.' := by simpa using hc
    decide
  · exact .refl _ _

theorem passes_skipExponent (p : Place) :
    Passes p.pos p.rest (skipExponent p).1.pos (skipExponent p).1.rest := by
  unfold skipExponent
  split
  · rename_i h
    refine (passes_skipByte_of_startsWith h fun c hc => ?_).trans ?_
    · simp only [Bool.or_eq_true, beq_iff_eq] at hc
      rcases hc with rfl | rfl <;> decide
    · refine Passes.trans ?_ (passes_skipDigits 10 _)
      split
      · rename_i h'
        refine passes_skipByte_of_startsWith h' fun c hc => ?_
        simp only [Bool.or_eq_true, beq_iff_eq] at hc
        rcases hc with rfl | rfl <;> decide
      · exact .refl _ _
  · exact .refl _ _

theorem passes_decimalEnd (p : Place) :
    Passes p.pos p.rest (decimalEnd p).place.pos (decimalEnd p).place.rest :=
  ((passes_skipDigits 10 p).trans (passes_skipFraction _)).trans (passes_skipExponent _)

theorem utf8Size_of_radix? {c : Char} {radix : Nat} (h : radix? c = some radix) :
    c.utf8Size = 1 ∧ c ≠ '\r' := by
  unfold radix? at h
  split at h <;> first | decide | simp at h

theorem passes_numberBody (p : Place) :
    Passes p.pos p.rest (numberBody p).place.pos (numberBody p).place.rest := by
  unfold numberBody
  split
  · rename_i c cs hrest
    split
    · rename_i radix hradix
      have hzero := passes_skipByte hrest (by decide)
      have hrest' : (skipByte p).rest = c :: cs := by simp [skipByte, hrest]
      have hletter := passes_skipByte hrest' (utf8Size_of_radix? hradix)
      exact (hzero.trans hletter).trans (passes_skipDigits radix _)
    · split
      · exact passes_skipDigits 10 p
      · exact passes_decimalEnd p
  · exact passes_decimalEnd p

theorem place_numberEnd (p : Place) : (numberEnd p).place = (numberBody p).place := by
  unfold numberEnd
  simp only
  split
  · split <;> rfl
  · rfl

theorem isDigitOf_ten {c : Char} (h : Token.isAsciiDigit c) : Token.isDigitOf 10 c := by
  unfold Token.isAsciiDigit at h
  have hle : c.toNat ≤ 57 := by
    simp only [Bool.and_eq_true, decide_eq_true_eq] at h
    exact h.2
  unfold Token.isDigitOf Token.hexDigit?
  rw [if_pos h]
  simp only [decide_eq_true_eq]
  omega

theorem lt_skipDigits {p : Place} {c : Char} {cs : List Char} (hrest : p.rest = c :: cs)
    (hc : Token.isAsciiDigit c) : p.pos < (skipDigits 10 p).pos := by
  simp [skipDigits, hrest, isDigitOf_ten hc]

/-- A number literal is not empty. -/
theorem lt_decimalEnd {p : Place} {c : Char} {cs : List Char} (hrest : p.rest = c :: cs)
    (hc : Token.isAsciiDigit c || (c == '.' && cs.head?.any Token.isAsciiDigit)) :
    p.pos < (decimalEnd p).place.pos := by
  have hexponent := (passes_skipExponent (skipFraction (skipDigits 10 p))).le
  refine Nat.lt_of_lt_of_le ?_ hexponent
  by_cases hdigit : Token.isAsciiDigit c
  · exact Nat.lt_of_lt_of_le (lt_skipDigits hrest hdigit) (passes_skipFraction _).le
  · obtain rfl : c = '.' := by
      simp only [hdigit, Bool.false_or, Bool.and_eq_true, beq_iff_eq] at hc
      exact hc.1
    have hnone : Token.isDigitOf 10 '.' = false := by decide
    have hskip : skipDigits 10 p = p := by
      simp [skipDigits, hrest, hnone]
      rw [← hrest]
    have hdot : startsWith p (· == '.') = true := by simp [startsWith, hrest]
    rw [hskip, skipFraction, if_pos hdot]
    exact (passes_skipDigits 10 (skipByte p)).le

theorem lt_numberBody {p : Place} {c : Char} {cs : List Char} (hrest : p.rest = c :: cs)
    (hc : Token.isAsciiDigit c || (c == '.' && cs.head?.any Token.isAsciiDigit)) :
    p.pos < (numberBody p).place.pos := by
  unfold numberBody
  split
  · rename_i d ds hzero
    rw [hzero] at hrest
    obtain ⟨rfl, rfl⟩ := List.cons.inj hrest
    split
    · rename_i radix hradix
      have hdigits := (passes_skipDigits radix (skipByte (skipByte p))).le
      have hbytes : (skipByte (skipByte p)).pos = p.pos + 2 := rfl
      simp only
      omega
    · split
      · exact lt_skipDigits hzero (by decide)
      · exact lt_decimalEnd hzero hc
  · exact lt_decimalEnd hrest hc

/-! ## Names -/

private theorem isSome_of_foldl {cs : List Char} :
    ∀ {start : Option Nat} {value : Nat},
      cs.foldl (fun value c => return (← value) * 16 + (← Token.hexDigit? c)) start = some value →
      start.isSome ∧ ∀ c ∈ cs, (Token.hexDigit? c).isSome := by
  induction cs with
  | nil =>
      intro start value h
      rw [List.foldl_nil] at h
      simp [h]
  | cons c cs ih =>
      intro start value h
      obtain ⟨hsome, hrest⟩ := ih h
      cases start with
      | none => simp at hsome
      | some n =>
          cases hc : Token.hexDigit? c with
          | none => simp [hc] at hsome
          | some d =>
              refine ⟨rfl, fun e he => ?_⟩
              rcases List.mem_cons.mp he with rfl | he
              · simp [hc]
              · exact hrest e he

theorem isSome_of_hexValue? {cs : List Char} {value : Nat} (h : hexValue? cs = some value) :
    ∀ c ∈ cs, (Token.hexDigit? c).isSome := by
  cases cs with
  | nil => simp
  | cons c cs => exact (isSome_of_foldl h).2

private theorem of_bind_hexValue? {digits tail rest : List Char} {n length : Nat} {c : Char}
    (h : ((hexValue? digits).bind fun value =>
      if value.isValidChar then some (Char.ofNat value, n, tail) else none) =
        some (c, length, rest)) :
    Text.byteLength digits = digits.length ∧ '\r' ∉ digits ∧ length = n ∧ rest = tail := by
  obtain ⟨value, hvalue, hchar⟩ := Option.bind_eq_some_iff.mp h
  have hdigits := isSome_of_hexValue? hvalue
  split at hchar
  · simp only [Option.some.injEq, Prod.mk.injEq] at hchar
    refine ⟨?_, fun hmem => ?_, hchar.2.1.symm, hchar.2.2.symm⟩
    · refine Text.byteLength_eq_length fun d hd => ?_
      obtain ⟨n, hn⟩ := Option.isSome_iff_exists.mp (hdigits d hd)
      exact utf8Size_of_isAscii (isAscii_of_hexDigit? hn)
    · have hreturn := hdigits _ hmem
      simp [hexDigit?_return] at hreturn
  · simp at hchar

private theorem head_of_dropWhile {stop d : Char} {cs ds : List Char}
    (h : cs.dropWhile (· != stop) = d :: ds) : d = stop := by
  have hhead := List.head?_dropWhile_not (· != stop) cs
  rw [h] at hhead
  simpa using hhead

theorem passes_unicodeEscape? {cs : List Char} {c : Char} {length : Nat} {rest : List Char}
    (pos : Nat) (h : unicodeEscape? cs = some (c, length, rest)) :
    Passes pos ('\\' :: cs) (pos + length) rest ∧ 0 < length := by
  have hslash : ('\\').utf8Size = 1 := rfl
  have hu : ('u').utf8Size = 1 := rfl
  unfold unicodeEscape? at h
  split at h
  · rename_i body
    split at h
    · rename_i d ds hdrop
      obtain ⟨hsize, hreturn, rfl, rfl⟩ := of_bind_hexValue? h
      obtain rfl := head_of_dropWhile hdrop
      have hbody := List.takeWhile_append_dropWhile (p := (· != '\x7d')) (l := body)
      rw [hdrop] at hbody
      have hopen : ('\x7b').utf8Size = 1 := rfl
      have hclose : ('\x7d').utf8Size = 1 := rfl
      refine ⟨⟨'\\' :: 'u' :: '\x7b' :: (body.takeWhile (· != '\x7d') ++ ['\x7d']), ?_, ?_, ?_⟩, ?_⟩
      · simp [hbody]
      · simp [hsize, hslash, hu, hopen, hclose]
        omega
      · exact Text.not_divides_of_last (by simp [hreturn])
      · omega
    · simp at h
  · rename_i a b d e ds _
    obtain ⟨hsize, hreturn, rfl, rfl⟩ := of_bind_hexValue? h
    refine ⟨⟨['\\', 'u', a, b, d, e], rfl, ?_, ?_⟩, by omega⟩
    · simp at hsize
      simp [hslash, hu]
      omega
    · exact Text.not_divides_of_last (by simpa using hreturn)
  · simp at h

/-- One step of reading a name: nothing fits, or something is read. -/
theorem nameEnd_cases (bound : Nat) (first : Bool) (name : NameEnd) :
    (nameEnd (bound + 1) first name = name ∧ ∀ c cs, name.place.rest = c :: cs →
        c ≠ '\\' ∧ (if first then Token.isNameStart c else Token.isNamePart c) = false) ∨
      ∃ further : NameEnd,
        Passes name.place.pos name.place.rest further.place.pos further.place.rest ∧
        name.place.pos < further.place.pos ∧
        nameEnd (bound + 1) first name = nameEnd bound false further := by
  simp only [nameEnd]
  split
  · rename_i hrest
    exact .inl ⟨rfl, by simp [hrest]⟩
  · rename_i cs hrest
    right
    rw [hrest]
    split
    · rename_i c length rest hescape
      obtain ⟨hstep, hlength⟩ := passes_unicodeEscape? name.place.pos hescape
      have hlt : name.place.pos < name.place.pos + length := by omega
      by_cases hfits : (if first = true then Token.isNameStart c else Token.isNamePart c) = true
      · exact ⟨_, hstep, hlt, if_pos hfits⟩
      · exact ⟨_, hstep, hlt, if_neg hfits⟩
    · exact ⟨_, .char name.place.pos cs (by decide), Nat.lt_succ_self _, rfl⟩
  · rename_i c cs hslash hrest
    rw [hrest]
    by_cases hfits : (if first = true then Token.isNameStart c else Token.isNamePart c) = true
    · have hreturn : c ≠ '\r' := by
        rintro rfl
        exact absurd hfits (by cases first <;> decide +kernel)
      refine .inr ⟨_, .char name.place.pos cs hreturn, ?_, if_pos hfits⟩
      exact Nat.lt_add_of_pos_right c.utf8Size_pos
    · refine .inl ⟨if_neg hfits, fun d ds heq => ?_⟩
      obtain ⟨rfl, rfl⟩ := List.cons.inj heq
      exact ⟨fun hc => hslash hc, by simpa using hfits⟩

theorem passes_nameEnd (bound : Nat) (first : Bool) (name : NameEnd) :
    Passes name.place.pos name.place.rest (nameEnd bound first name).place.pos
      (nameEnd bound first name).place.rest := by
  induction bound generalizing first name with
  | zero => exact .refl _ _
  | succ bound ih =>
      rcases nameEnd_cases bound first name with ⟨heq, -⟩ | ⟨further, hstep, -, heq⟩
      · rw [heq]
        exact .refl _ _
      · rw [heq]
        exact hstep.trans (ih false further)

theorem lt_nameEnd (bound : Nat) {name : NameEnd} {c : Char} {cs : List Char}
    (hrest : name.place.rest = c :: cs) (hc : c == '\\' || Token.isNameStart c) :
    name.place.pos < (nameEnd (bound + 1) true name).place.pos := by
  rcases nameEnd_cases bound true name with ⟨-, hstop⟩ | ⟨further, -, hlt, heq⟩
  · have := hstop c cs hrest
    simp_all
  · rw [heq]
    exact Nat.lt_of_lt_of_le hlt (passes_nameEnd bound false further).le

/-! ## Tokens -/

/-- A lexer that may go on: what is left of the text is what comes after the current token. -/
structure Placed (text : List Char) (l : Lexer) : Prop where
  size : l.size = Text.byteLength text
  rest : At text l.pos l.rest
  seam : Text.Seam text l.pos

/-- Tokens that start with a character they are known by: those that can be read again as something
longer, and what closes a parenthesis or stands between the branches of a conditional. -/
def marks : List (Char × Token) :=
  [('/', .slash), ('/', .slashEquals), ('\x7d', .closeBrace), (')', .closeParen), (':', .colon)]

/-- A lexer with a current token: the token is a part of the text, does not start with white space,
and is empty only where the text ends. -/
structure Settled (text : List Char) (l : Lexer) : Prop where
  size : l.size = Text.byteLength text
  start : At text l.start l.startRest
  clear : Clear l.startRest
  stop : Passes l.start l.startRest l.pos l.rest
  lt : l.token ≠ .endOfFile → l.start < l.pos
  ended : l.token = .endOfFile → l.startRest = []
  mark : ∀ c, (c, l.token) ∈ marks → ∃ cs, l.startRest = c :: cs

namespace Settled

variable {text : List Char} {l : Lexer}

theorem placed (h : Settled text l) : Placed text l where
  size := h.size
  rest := h.start.onward h.stop.onward
  seam := by
    rcases Nat.eq_or_lt_of_le h.stop.le with heq | hlt
    · rw [← heq]
      refine h.start.seam fun hhead => ?_
      obtain ⟨cs, hcs⟩ := List.head?_eq_some_iff.mp hhead
      exact absurd (h.clear '\n' cs hcs).1 (by decide)
    · exact h.stop.seam h.start hlt

theorem le (h : Settled text l) : l.start ≤ l.pos :=
  h.stop.le

theorem noted (h : Settled text l) (flags : TokenFlags) (fault : Option Fault) :
    Settled text { l with flags, fault } :=
  ⟨h.size, h.start, h.clear, h.stop, h.lt, h.ended, h.mark⟩

end Settled

def IsFinal (token : Token) : Prop :=
  token ≠ .endOfFile ∧ token ∉ marks.map Prod.snd

instance (token : Token) : Decidable (IsFinal token) :=
  inferInstanceAs (Decidable (_ ∧ _))

private theorem punctuation_sound : ∀ entry ∈ punctuation,
    entry.1 ≠ [] ∧ (entry.1.all fun c => c.utf8Size == 1) ∧ '\r' ∉ entry.1 ∧
      entry.2 ≠ .endOfFile ∧ ∀ mark ∈ marks, mark.2 = entry.2 → entry.1.head? = some mark.1 := by
  decide +kernel

private theorem isFinal_keyword (value : String) :
    IsFinal ((Token.keyword? value).getD .identifier) := by
  have hall : ∀ t ∈ Token.reservedWords ++ Token.contextualKeywords, IsFinal t := by decide
  cases h : Token.keyword? value with
  | none => decide
  | some t => exact hall t (List.mem_of_find?_eq_some h)

section Tokens

variable {text : List Char} {l : Lexer} (hsize : l.size = Text.byteLength text)
  (hstart : At text l.start l.startRest) (hclear : Clear l.startRest)

include hsize hstart hclear

theorem settled_finish {token : Token} {p : Place} {value : String} (htoken : IsFinal token)
    (hstop : Passes l.start l.startRest p.pos p.rest) (hlt : l.start < p.pos) :
    Settled text (l.finish token p value) where
  size := hsize
  start := hstart
  clear := hclear
  stop := hstop
  lt _ := hlt
  ended h := (htoken.1 h).elim
  mark _ h := (htoken.2 (List.mem_map_of_mem h)).elim

theorem settled_readString {quote : Char} {body : List Char} (hquote : quote.utf8Size = 1)
    (hreturn : quote ≠ '\r') (hrest : l.startRest = quote :: body) :
    Settled text (l.readString quote body) := by
  have hbody := passes_stringEnd quote hquote (l.start + 1) body
  have hle := hbody.le
  have hstop : Passes l.start l.startRest (stringEnd quote (l.start + 1) body).1.pos
      (stringEnd quote (l.start + 1) body).1.rest := by
    rw [hrest]
    exact .cons_of_ne hreturn (by rwa [hquote])
  have hfinal : IsFinal .string := by decide
  have hsettled : ∀ value, Settled text
      (l.finish .string (stringEnd quote (l.start + 1) body).1 value) := fun _ =>
    settled_finish hsize hstart hclear hfinal hstop hle
  unfold readString
  simp only
  split
  · exact hsettled _
  · exact (hsettled _).noted _ _

theorem settled_readTemplate {head : Bool} {quote : Char} {body : List Char}
    (hquote : quote.utf8Size = 1) (hreturn : quote ≠ '\r') (hrest : l.startRest = quote :: body) :
    Settled text (l.readTemplate head body) := by
  have hbody := passes_templateEnd (l.start + 1) body
  have hle := hbody.le
  have hstop : Passes l.start l.startRest (templateEnd (l.start + 1) body).1.pos
      (templateEnd (l.start + 1) body).1.rest := by
    rw [hrest]
    exact .cons_of_ne hreturn (by rwa [hquote])
  have hsettled : ∀ whole part value, IsFinal whole → IsFinal part → Settled text
      (l.finish (if head then whole else part) (templateEnd (l.start + 1) body).1 value) := by
    intro whole part value hwhole hpart
    refine settled_finish hsize hstart hclear ?_ hstop hle
    cases head
    · exact hpart
    · exact hwhole
  unfold readTemplate
  simp only
  split
  · exact hsettled _ _ _ (by decide) (by decide)
  · exact hsettled _ _ _ (by decide) (by decide)
  · exact (hsettled _ _ _ (by decide) (by decide)).noted _ _

theorem settled_readNumber {c : Char} {cs : List Char} (hrest : l.startRest = c :: cs)
    (hc : Token.isAsciiDigit c || (c == '.' && cs.head?.any Token.isAsciiDigit)) :
    Settled text l.readNumber := by
  have hfinal : IsFinal .number := by decide
  refine Settled.noted (settled_finish hsize hstart hclear hfinal ?_ ?_) _ _
  · rw [place_numberEnd]
    exact passes_numberBody ⟨l.start, l.startRest⟩
  · rw [place_numberEnd]
    exact lt_numberBody (p := ⟨l.start, l.startRest⟩) hrest hc

theorem settled_readName {c : Char} {cs : List Char} (hrest : l.startRest = c :: cs)
    (hc : c == '\\' || Token.isNameStart c) : Settled text l.readName := by
  refine Settled.noted (settled_finish hsize hstart hclear ?_ ?_ ?_) _ _
  · have hidentifier : IsFinal .identifier := by decide
    split
    · exact hidentifier
    · exact isFinal_keyword _
  · exact passes_nameEnd _ _ { place := ⟨l.start, l.startRest⟩ }
  · have hplace : ({ place := ⟨l.start, l.startRest⟩ } : NameEnd).place.rest = c :: cs := hrest
    exact lt_nameEnd (l.size - l.start) hplace hc

theorem settled_punctuator {spelling : List Char} {token : Token}
    (h : punctuator? l.startRest = some (spelling, token)) :
    Settled text
      (l.finish token ⟨l.start + spelling.length, l.startRest.drop spelling.length⟩ "") := by
  obtain ⟨hne, hall, hreturn, hended, hmark⟩ := punctuation_sound _ (List.mem_of_find?_eq_some h)
  have hsizes : ∀ c ∈ spelling, c.utf8Size = 1 := fun c hc => by
    simpa using List.all_eq_true.mp hall c hc
  obtain ⟨rest, hrest⟩ : spelling <+: l.startRest := by
    simpa using List.find?_some h
  have hhead : ∀ c, spelling.head? = some c → ∃ cs, l.startRest = c :: cs := by
    intro c hc
    cases spelling with
    | nil => simp at hc
    | cons d ds =>
        obtain rfl : d = c := by simpa using hc
        exact ⟨ds ++ rest, hrest.symm⟩
  have hpos : 0 < spelling.length := List.length_pos_iff.mpr hne
  constructor
  · exact hsize
  · exact hstart
  · exact hclear
  · refine .of_not_mem ?_ ?_ hreturn
    · simp only [finish]
      rw [← hrest, List.drop_left]
    · rw [Text.byteLength_eq_length hsizes]
      rfl
  · intro _
    simp only [finish]
    omega
  · exact fun htoken => (hended htoken).elim
  · exact fun c hc => hhead c (hmark (c, token) hc rfl)

theorem settled_readToken : Settled text l.readToken := by
  unfold readToken
  split
  · rename_i hrest
    refine ⟨hsize, hstart, hclear, ?_, ?_, fun _ => hrest, ?_⟩
    · simp only [finish, hrest]
      exact .refl _ _
    · simp [finish]
    · simp [finish, marks]
  · rename_i c cs hrest
    split
    · exact settled_readNumber hsize hstart hclear hrest ‹_›
    · split
      · rename_i hquote
        simp only [Bool.or_eq_true, beq_iff_eq] at hquote
        refine settled_readString hsize hstart hclear ?_ ?_ hrest
        · rcases hquote with rfl | rfl <;> rfl
        · rcases hquote with rfl | rfl <;> decide
      · split
        · rename_i hquote
          obtain rfl : c = '\x60' := by simpa using hquote
          exact settled_readTemplate hsize hstart hclear rfl (by decide) hrest
        · split
          · exact settled_readName hsize hstart hclear hrest ‹_›
          · rw [← hrest]
            split
            · exact settled_punctuator hsize hstart hclear ‹_›
            · refine Settled.noted (settled_finish hsize hstart hclear (by decide) ?_ ?_) _ _
              · rw [hrest]
                exact .char _ cs (ne_return_of_isLineBreak (by simp [(hclear c cs hrest).1]))
              · exact Nat.lt_add_of_pos_right c.utf8Size_pos

end Tokens

structure SameStart (l l' : Lexer) : Prop where
  size : l'.size = l.size
  fullStart : l'.fullStart = l.fullStart
  start : l'.start = l.start
  startRest : l'.startRest = l.startRest
  lineBreakBefore : l'.flags.lineBreakBefore = l.flags.lineBreakBefore
  fault : ∀ f, l.fault = some f → l'.fault = some f

namespace SameStart

theorem refl (l : Lexer) : l.SameStart l :=
  ⟨rfl, rfl, rfl, rfl, rfl, fun _ h => h⟩

theorem trans {l l' l'' : Lexer} (h : l.SameStart l') (h' : l'.SameStart l'') : l.SameStart l'' :=
  ⟨h'.size.trans h.size, h'.fullStart.trans h.fullStart, h'.start.trans h.start,
    h'.startRest.trans h.startRest, h'.lineBreakBefore.trans h.lineBreakBefore,
    fun f hf => h'.fault f (h.fault f hf)⟩

theorem finish (l : Lexer) (token : Token) (p : Place) (value : String) :
    l.SameStart (l.finish token p value) :=
  ⟨rfl, rfl, rfl, rfl, rfl, fun _ h => h⟩

/-- Other flags, with the same answer to whether a line ends before the token. -/
theorem flagged {l l' : Lexer} (h : l.SameStart l') {flags : TokenFlags}
    (hflags : flags.lineBreakBefore = l'.flags.lineBreakBefore) : l.SameStart { l' with flags } :=
  ⟨h.size, h.fullStart, h.start, h.startRest, hflags.trans h.lineBreakBefore, h.fault⟩

theorem withFault {l l' : Lexer} (h : l.SameStart l') (fault : Option Fault) :
    l.SameStart (l'.withFault fault) :=
  ⟨h.size, h.fullStart, h.start, h.startRest, h.lineBreakBefore, fun f hf => by
    simp [Lexer.withFault, h.fault f hf]⟩

theorem readString (l : Lexer) (quote : Char) (body : List Char) :
    l.SameStart (l.readString quote body) := by
  unfold Lexer.readString
  simp only
  split
  · exact .finish l _ _ _
  · exact ((finish l _ _ _).flagged (by rfl)).withFault _

theorem readTemplate (l : Lexer) (head : Bool) (body : List Char) :
    l.SameStart (l.readTemplate head body) := by
  unfold Lexer.readTemplate
  simp only
  split
  · exact .finish l _ _ _
  · exact .finish l _ _ _
  · exact ((finish l _ _ _).flagged (by rfl)).withFault _

theorem readToken (l : Lexer) : l.SameStart l.readToken := by
  unfold Lexer.readToken
  split
  · exact .finish l _ _ _
  · split
    · exact ((finish l _ _ _).flagged (by rfl)).withFault _
    · split
      · exact .readString l _ _
      · split
        · exact .readTemplate l _ _
        · split
          · exact ((finish l _ _ _).flagged (by rfl)).withFault _
          · split
            · exact .finish l _ _ _
            · exact (finish l _ _ _).withFault _

/-- The next token starts after the white space and comments that are skipped. -/
theorem next (l : Lexer) :
    (let gap := skipGap .blank l.pos false l.rest
     { l with
        fullStart := l.pos, start := gap.stop, startRest := gap.rest,
        flags := { lineBreakBefore := gap.broken } } : Lexer).SameStart
      l.next := by
  unfold Lexer.next
  simp only
  split
  · exact ((refl _).withFault _).trans (.readToken _)
  · exact .readToken _

theorem rereadSlash (l : Lexer) : l.SameStart l.rereadSlash := by
  unfold Lexer.rereadSlash
  simp only
  split
  · split
    · exact .finish l _ _ _
    · exact ((finish l _ _ _).flagged (by rfl)).withFault _
  · exact .refl l

theorem rereadBrace (l : Lexer) : l.SameStart l.rereadBrace := by
  unfold Lexer.rereadBrace
  split
  · exact .readTemplate l _ _
  · exact .refl l

theorem rereadGreater (l : Lexer) : l.SameStart l.rereadGreater := by
  unfold Lexer.rereadGreater
  split
  · exact .finish l _ _ _
  · exact .refl l

end SameStart

/-- The next token starts at the end of the current one or after it. -/
theorem Placed.next {text : List Char} {l : Lexer} (h : Placed text l) :
    Settled text l.next ∧ l.pos ≤ l.next.start := by
  have hgap := onward_skipGap .blank l.pos false l.rest
  have hclear := clear_skipGap .blank l.pos false l.rest
  have hstart := h.rest.onward hgap
  constructor
  · unfold Lexer.next
    simp only
    split
    · exact settled_readToken h.size hstart hclear
    · exact settled_readToken h.size hstart hclear
  · rw [(SameStart.next l).start]
    exact hgap.le

theorem placed_ofText (text : List Char) : Placed text (.ofText text) where
  size := rfl
  rest := Text.at_zero text
  seam := Text.seam_zero text

theorem passes_skipShebang (l : Lexer) :
    Passes l.pos l.rest l.skipShebang.pos l.skipShebang.rest := by
  unfold Lexer.skipShebang
  split
  · rename_i cs hrest
    split
    · rename_i hpos
      have hpos : l.pos = 0 := by simpa using hpos
      rw [hrest, hpos]
      refine .cons_of_ne (by decide) (.cons_of_ne (by decide) (.of_not_mem
        List.takeWhile_append_dropWhile.symm rfl fun hmem => ?_))
      exact absurd (List.mem_takeWhile_imp hmem) (by decide)
    · exact .refl _ _
  · exact .refl _ _

theorem SameStart.skipShebang (l : Lexer) : l.SameStart l.skipShebang := by
  unfold Lexer.skipShebang
  split
  · split
    · exact ⟨rfl, rfl, rfl, rfl, rfl, fun _ h => h⟩
    · exact .refl l
  · exact .refl l

theorem token_skipShebang (l : Lexer) : l.skipShebang.token = l.token := by
  unfold Lexer.skipShebang
  split
  · split <;> rfl
  · rfl

theorem Placed.skipShebang {text : List Char} {l : Lexer} (h : Placed text l) :
    Placed text l.skipShebang where
  size := (SameStart.skipShebang l).size.trans h.size
  rest := h.rest.onward (passes_skipShebang l).onward
  seam := by
    rcases Nat.eq_or_lt_of_le (passes_skipShebang l).le with heq | hlt
    · exact heq ▸ h.seam
    · exact (passes_skipShebang l).seam h.rest hlt

theorem Settled.skipShebang {text : List Char} {l : Lexer} (h : Settled text l) :
    Settled text l.skipShebang := by
  have hsame := SameStart.skipShebang l
  have htoken := token_skipShebang l
  have hpasses := passes_skipShebang l
  constructor
  · exact hsame.size.trans h.size
  · rw [hsame.start, hsame.startRest]
    exact h.start
  · rw [hsame.startRest]
    exact h.clear
  · rw [hsame.start, hsame.startRest]
    exact h.stop.trans hpasses
  · intro ht
    rw [hsame.start]
    exact Nat.lt_of_lt_of_le (h.lt (htoken ▸ ht)) hpasses.le
  · rw [htoken, hsame.startRest]
    exact h.ended
  · rw [htoken, hsame.startRest]
    exact h.mark

/-! ## Reading a token again -/

theorem token_rereadSlash {l : Lexer} (h : (l.token == .slash || l.token == .slashEquals) = true) :
    l.rereadSlash.token = .regex := by
  rw [Lexer.rereadSlash, if_pos h]
  simp only
  split <;> rfl

theorem token_rereadBrace {l : Lexer} (h : l.token = .closeBrace) :
    l.rereadBrace.token ≠ .endOfFile := by
  rw [Lexer.rereadBrace, if_pos (by simp [h]), readTemplate]
  simp only
  split <;> exact nofun

/-- Nothing is left to be joined to a token that has been read again. -/
theorem token_rereadGreater_rereadGreater (l : Lexer) :
    l.rereadGreater.rereadGreater.token = l.rereadGreater.token := by
  by_cases h : l.rereadGreater.token = .greaterThan
  · have hsame : l.rereadGreater.rest = l.rest := by
      revert h
      unfold Lexer.rereadGreater
      split
      · simp only
        split <;> simp [Lexer.finish]
      · simp
    have hl : l.token = .greaterThan := by
      by_contra hl
      rw [Lexer.rereadGreater, if_neg (by simpa using hl)] at h
      exact hl h
    have htoken : ∀ l' : Lexer, l'.token = l.token → l'.rest = l.rest →
        l'.rereadGreater.token = l.rereadGreater.token := by
      intro l' ht hrest
      simp only [Lexer.rereadGreater, ht, hrest]
      split
      · rfl
      · exact ht
    exact htoken _ (h.trans hl.symm) hsame
  · rw [Lexer.rereadGreater, if_neg (by simpa using h)]

namespace Settled

variable {text : List Char} {l : Lexer}

theorem rereadSlash (h : Settled text l) :
    Settled text l.rereadSlash ∧ l.rereadSlash.start = l.start := by
  refine ⟨?_, (SameStart.rereadSlash l).start⟩
  unfold Lexer.rereadSlash
  split
  · rename_i hslash
    obtain ⟨cs, hrest⟩ : ∃ cs, l.startRest = '/' :: cs := by
      simp only [Bool.or_eq_true, beq_iff_eq] at hslash
      rcases hslash with hslash | hslash
      · exact h.mark '/' (hslash ▸ by decide)
      · exact h.mark '/' (hslash ▸ by decide)
    have hfinal : IsFinal .regex := by decide
    have hbody := passes_regexEnd false (l.start + 1) l.startRest.tail
    have hstop : Passes l.start l.startRest (regexEnd false (l.start + 1) l.startRest.tail).1.pos
        (regexEnd false (l.start + 1) l.startRest.tail).1.rest := by
      rw [hrest] at hbody ⊢
      exact .cons_of_ne (by decide) hbody
    have hle := hbody.le
    simp only
    split
    · refine settled_finish h.size h.start h.clear hfinal (hstop.trans ?_) ?_
      · refine .of_not_mem List.takeWhile_append_dropWhile.symm rfl fun hmem => ?_
        exact absurd (List.mem_takeWhile_imp hmem) (by decide +kernel)
      · simp only
        omega
    · exact (settled_finish h.size h.start h.clear hfinal hstop hle).noted _ _
  · exact h

theorem rereadBrace (h : Settled text l) :
    Settled text l.rereadBrace ∧ l.rereadBrace.start = l.start := by
  refine ⟨?_, (SameStart.rereadBrace l).start⟩
  unfold Lexer.rereadBrace
  split
  · rename_i hbrace
    have htoken : l.token = .closeBrace := by simpa using hbrace
    obtain ⟨cs, hrest⟩ := h.mark '\x7d' (htoken ▸ by decide)
    exact settled_readTemplate h.size h.start h.clear rfl (by decide : '\x7d' ≠ '\r')
      (by rw [hrest]; rfl)
  · exact h

theorem rereadGreater (h : Settled text l) :
    Settled text l.rereadGreater ∧ l.rereadGreater.start = l.start := by
  refine ⟨?_, (SameStart.rereadGreater l).start⟩
  unfold Lexer.rereadGreater
  split
  · rename_i hgreater
    have hlt : l.start < l.pos := h.lt (by simp_all)
    have hone : ('>').utf8Size = 1 := rfl
    have hequals : ('=').utf8Size = 1 := rfl
    -- What is added to the token are characters of one byte each.
    have hadd : ∀ (token : Token) (extra rest : List Char), l.rest = extra ++ rest →
        (∀ c ∈ extra, c.utf8Size = 1) → '\r' ∉ extra → IsFinal token → Settled text
          (l.finish token ⟨l.pos + extra.length, l.rest.drop extra.length⟩ l.value) := by
      intro token extra rest hrest hsizes hreturn hfinal
      refine settled_finish h.size h.start h.clear hfinal
        (h.stop.trans (.of_not_mem ?_ ?_ hreturn)) ?_
      · simp [hrest]
      · rw [Text.byteLength_eq_length hsizes]
      · simp only
        omega
    simp only
    split
    · exact hadd _ ['>', '>', '='] _ ‹_› (by simp [hone, hequals]) (by decide) (by decide)
    · exact hadd _ ['>', '>'] _ ‹_› (by simp [hone]) (by decide) (by decide)
    · exact hadd _ ['>', '='] _ ‹_› (by simp [hone, hequals]) (by decide) (by decide)
    · exact hadd _ ['>'] _ ‹_› (by simp [hone]) (by decide) (by decide)
    · exact hadd _ ['='] _ ‹_› (by simp [hequals]) (by decide) (by decide)
    · exact hadd _ [] _ rfl (by simp) (by decide) (by decide)
  · exact h

end Settled

end Lexer

end FlowErasure
