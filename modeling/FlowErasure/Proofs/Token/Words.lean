import FlowErasure.Proofs.Token.Consuming
import FlowErasure.Proofs.Token.Joining

/-!
# Words

A word is written in characters that stand for themselves and in escapes that stand for one
character each. `Spells` says which characters it spells, and that is what the lexer keeps of a word
it has read, unless it has found an error in it. Where a word starts can be told from its first
character, so a text has one word at an offset at most.
-/

namespace FlowErasure.Lexer

open Text (At Between)

/-! ## Spelling -/

/-- The digits write the number to the base sixteen, the first digit counting most. -/
def WritesHex (digits : List Char) (value : Nat) : Prop :=
  ∃ ds : List Nat, digits.map Token.hexDigit? = ds.map some ∧ ds ≠ [] ∧
    value = ds.foldl (fun value d => value * 16 + d) 0

inductive SpellsChar : List Char → Char → Prop
  | plain {c : Char} : c ≠ '\\' → SpellsChar [c] c
  | escape {digits : List Char} {c : Char} : digits.length = 4 → WritesHex digits c.toNat →
      SpellsChar ('\\' :: 'u' :: digits) c
  | braced {digits : List Char} {c : Char} : WritesHex digits c.toNat →
      SpellsChar ('\\' :: 'u' :: '\x7b' :: (digits ++ ['\x7d'])) c

inductive Spells : List Char → List Char → Prop
  | nil : Spells [] []
  | cons {piece cs name : List Char} {c : Char} : SpellsChar piece c → Spells cs name →
      Spells (piece ++ cs) (c :: name)

variable {text digits cs ds name name' : List Char} {c d : Char} {value value' : Nat}

theorem WritesHex.isSome (h : WritesHex digits value) (hc : c ∈ digits) :
    (Token.hexDigit? c).isSome := by
  obtain ⟨ds, hds, -, -⟩ := h
  have hmem : Token.hexDigit? c ∈ ds.map some := hds ▸ List.mem_map_of_mem hc
  obtain ⟨d, -, hd⟩ := List.mem_map.mp hmem
  simp [← hd]

theorem WritesHex.unique (h : WritesHex digits value) (h' : WritesHex digits value') :
    value = value' := by
  obtain ⟨ds, hds, -, rfl⟩ := h
  obtain ⟨ds', hds', -, rfl⟩ := h'
  obtain rfl := (List.map_inj_right fun _ _ => Option.some.inj).mp (hds.symm.trans hds')
  rfl

theorem WritesHex.brace_not_mem (h : WritesHex digits value) :
    '\x7b' ∉ digits ∧ '\x7d' ∉ digits := by
  constructor
  · intro hmem
    exact absurd (h.isSome hmem) (by decide)
  · intro hmem
    exact absurd (h.isSome hmem) (by decide)

/-- What stands before the first of a character can be told from the whole. -/
theorem eq_of_append_cons {as bs as' bs' : List Char} (ha : c ∉ as) (ha' : c ∉ as')
    (h : as ++ c :: bs = as' ++ c :: bs') : as = as' ∧ bs = bs' := by
  have htake : ∀ {as : List Char} (bs : List Char), c ∉ as →
      (as ++ c :: bs).takeWhile (· != c) = as := by
    intro as bs ha
    have hall : ∀ d ∈ as, (d != c) = true := by
      intro d hd
      exact bne_iff_ne.mpr (ne_of_mem_of_not_mem hd ha)
    simp [List.takeWhile_append_of_pos hall]
  obtain rfl : as = as' := by rw [← htake bs ha, h, htake bs' ha']
  exact ⟨rfl, by simpa using h⟩

/-- One character is written in one way, whatever comes after it. -/
theorem SpellsChar.unique {piece piece' : List Char} (h : SpellsChar piece c)
    (h' : SpellsChar piece' d) (heq : piece ++ cs = piece' ++ ds) : c = d ∧ cs = ds := by
  cases h with
  | plain hc =>
      cases h' with
      | plain _ => exact List.cons.inj heq
      | escape _ _ => exact absurd (List.cons.inj heq).1 hc
      | braced _ => exact absurd (List.cons.inj heq).1 hc
  | @escape digits _ hlength hwrites =>
      cases h' with
      | plain hd => exact absurd (List.cons.inj heq).1.symm hd
      | escape hlength' hwrites' =>
          simp only [List.cons_append, List.cons.injEq, true_and] at heq
          obtain ⟨rfl, rfl⟩ := List.append_inj heq (hlength.trans hlength'.symm)
          exact ⟨Char.toNat_inj.mp (hwrites.unique hwrites'), rfl⟩
      | braced _ =>
          simp only [List.cons_append, List.cons.injEq, true_and] at heq
          cases digits with
          | nil => cases hlength
          | cons first digits =>
              obtain ⟨rfl, -⟩ := List.cons.inj heq
              exact absurd (List.mem_cons_self ..) hwrites.brace_not_mem.1
  | braced hwrites =>
      cases h' with
      | plain hd => exact absurd (List.cons.inj heq).1.symm hd
      | @escape digits _ hlength hwrites' =>
          simp only [List.cons_append, List.cons.injEq, true_and] at heq
          cases digits with
          | nil => cases hlength
          | cons first digits =>
              obtain ⟨rfl, -⟩ := List.cons.inj heq
              exact absurd (List.mem_cons_self ..) hwrites'.brace_not_mem.1
      | braced hwrites' =>
          simp only [List.cons_append, List.append_assoc, List.cons.injEq, true_and,
            List.nil_append] at heq
          obtain ⟨rfl, rfl⟩ :=
            eq_of_append_cons hwrites.brace_not_mem.2 hwrites'.brace_not_mem.2 heq
          exact ⟨Char.toNat_inj.mp (hwrites.unique hwrites'), rfl⟩

theorem SpellsChar.ne_nil {piece : List Char} (h : SpellsChar piece c) : piece ≠ [] := by
  cases h <;> simp

/-- A word spells one name. -/
theorem Spells.unique (h : Spells cs name) (h' : Spells cs name') : name = name' := by
  induction h generalizing name' with
  | nil =>
      generalize hnil : ([] : List Char) = cs at h'
      cases h' with
      | nil => rfl
      | cons hchar _ => exact absurd (List.append_eq_nil_iff.mp hnil.symm).1 hchar.ne_nil
  | @cons piece cs name c hchar _ ih =>
      generalize hcs : piece ++ cs = ds at h'
      cases h' with
      | nil => exact absurd (List.append_eq_nil_iff.mp hcs).1 hchar.ne_nil
      | cons hchar' hrest' =>
          obtain ⟨rfl, rfl⟩ := hchar.unique hchar' hcs
          rw [ih hrest']

theorem Spells.append {as : List Char} (h : Spells cs name) (h' : Spells as name') :
    Spells (cs ++ as) (name ++ name') := by
  induction h with
  | nil => exact h'
  | cons hchar _ ih =>
      rw [List.append_assoc]
      exact .cons hchar ih

/-! ## Reading a word -/

theorem writesHex_of_hexValue? (h : hexValue? digits = some value) : WritesHex digits value := by
  have hnone : ∀ cs : List Char, cs.foldl
      (fun value c => return (← value) * 16 + (← Token.hexDigit? c)) (none : Option Nat) =
        none := by
    intro cs
    induction cs with
    | nil => rfl
    | cons c cs ih => exact ih
  have hfold : ∀ (cs : List Char) (start value : Nat),
      cs.foldl (fun value c => return (← value) * 16 + (← Token.hexDigit? c)) (some start) =
        some value →
      ∃ ds : List Nat, cs.map Token.hexDigit? = ds.map some ∧
        value = ds.foldl (fun value d => value * 16 + d) start := by
    intro cs
    induction cs with
    | nil =>
        intro start value h
        exact ⟨[], rfl, (Option.some.inj h).symm⟩
    | cons c cs ih =>
        intro start value h
        cases hc : Token.hexDigit? c with
        | none =>
            rw [List.foldl_cons, hc] at h
            cases (hnone cs).symm.trans h
        | some d =>
            rw [List.foldl_cons, hc] at h
            obtain ⟨ds, hds, rfl⟩ := ih _ _ h
            exact ⟨d :: ds, by simp [hc, hds], rfl⟩
  cases digits with
  | nil => cases h
  | cons c digits =>
      obtain ⟨ds, hds, rfl⟩ := hfold _ _ _ h
      refine ⟨ds, hds, ?_, rfl⟩
      rintro rfl
      cases hds

theorem writesHex_of_bind {tail rest : List Char} {n length : Nat}
    (h : ((hexValue? digits).bind fun value =>
      if value.isValidChar then some (Char.ofNat value, n, tail) else none) =
        some (c, length, rest)) : WritesHex digits c.toNat ∧ rest = tail := by
  obtain ⟨value, hvalue, hchar⟩ := Option.bind_eq_some_iff.mp h
  split at hchar
  · rename_i hvalid
    simp only [Option.some.injEq, Prod.mk.injEq] at hchar
    obtain ⟨rfl, -, rfl⟩ := hchar
    refine ⟨?_, rfl⟩
    have hnat : (Char.ofNat value).toNat = value := by
      rw [Char.ofNat, dif_pos hvalid]
      rfl
    rw [hnat]
    exact writesHex_of_hexValue? hvalue
  · cases hchar

theorem spellsChar_of_unicodeEscape? {length : Nat} {rest : List Char}
    (h : unicodeEscape? cs = some (c, length, rest)) :
    ∃ piece, '\\' :: cs = piece ++ rest ∧ SpellsChar piece c := by
  unfold unicodeEscape? at h
  split at h
  · rename_i body
    split at h
    · rename_i d ds hdrop
      obtain ⟨hwrites, rfl⟩ := writesHex_of_bind h
      have hhead := List.head?_dropWhile_not (· != '\x7d') body
      obtain rfl : d = '\x7d' := by simpa [hdrop] using hhead
      have hbody := List.takeWhile_append_dropWhile (p := (· != '\x7d')) (l := body)
      rw [hdrop] at hbody
      exact ⟨_, by simp [hbody], .braced hwrites⟩
    · cases h
  · obtain ⟨hwrites, rfl⟩ := writesHex_of_bind h
    exact ⟨_, rfl, .escape rfl hwrites⟩
  · cases h

structure NameEnd.ReadsOn (name further : NameEnd) : Prop where
  spelled : ∃ cs w, name.place.rest = cs ++ further.place.rest ∧
    further.place.pos = name.place.pos + Text.byteLength cs ∧
      further.reversed = w.reverse ++ name.reversed ∧ Spells cs w

namespace NameEnd.ReadsOn

variable {name further other : NameEnd}

theorem refl (name : NameEnd) : name.ReadsOn name :=
  ⟨[], [], rfl, rfl, rfl, .nil⟩

theorem trans (h : name.ReadsOn further) (h' : further.ReadsOn other) : name.ReadsOn other := by
  obtain ⟨cs, w, hrest, hpos, hreversed, hspells⟩ := h
  obtain ⟨cs', w', hrest', hpos', hreversed', hspells'⟩ := h'
  refine ⟨cs ++ cs', w ++ w', ?_, ?_, ?_, hspells.append hspells'⟩
  · rw [hrest, hrest', List.append_assoc]
  · rw [hpos', hpos, Text.byteLength_append, Nat.add_assoc]
  · rw [hreversed', hreversed, List.reverse_append, List.append_assoc]

theorem char {piece : List Char} (h : SpellsChar piece c)
    (hrest : name.place.rest = piece ++ further.place.rest)
    (hpos : further.place.pos = name.place.pos + Text.byteLength piece)
    (hreversed : further.reversed = c :: name.reversed) : name.ReadsOn further :=
  ⟨piece, [c], hrest, hpos, hreversed, by simpa using Spells.cons h .nil⟩

end NameEnd.ReadsOn

/-- One step of reading a word: nothing fits, a character is read, or there is an error. -/
theorem nameEnd_step (bound : Nat) (first : Bool) (name : NameEnd) :
    nameEnd (bound + 1) first name = name ∨
      ∃ further, nameEnd (bound + 1) first name = nameEnd bound false further ∧
        (name.ReadsOn further ∧ further.fault = name.fault ∨ further.fault ≠ none) := by
  have hfaulty : ∀ fault : Fault, (name.fault <|> some fault) ≠ none := by
    intro fault
    cases name.fault <;> simp
  simp only [nameEnd]
  split
  · exact .inl rfl
  · rename_i cs hrest
    right
    split
    · rename_i c length rest hescape
      obtain ⟨piece, hpiece, hspells⟩ := spellsChar_of_unicodeEscape? hescape
      obtain ⟨⟨mid, hmid, hlength, -⟩, -⟩ := passes_unicodeEscape? name.place.pos hescape
      obtain rfl := List.append_cancel_right (hpiece.symm.trans hmid)
      by_cases hfits : (if first = true then Token.isNameStart c else Token.isNamePart c) = true
      · exact ⟨_, if_pos hfits, .inl ⟨.char hspells (hrest.trans hpiece) hlength rfl, rfl⟩⟩
      · exact ⟨_, if_neg hfits, .inr (hfaulty _)⟩
    · exact ⟨_, rfl, .inr (hfaulty _)⟩
  · rename_i c cs hslash hrest
    by_cases hfits : (if first = true then Token.isNameStart c else Token.isNamePart c) = true
    · have hplain : SpellsChar [c] c := .plain fun hc => hslash hc
      exact .inr ⟨_, if_pos hfits, .inl ⟨.char hplain hrest (by simp) rfl, rfl⟩⟩
    · exact .inl (if_neg hfits)

theorem fault_nameEnd_ne (bound : Nat) (first : Bool) (name : NameEnd) (h : name.fault ≠ none) :
    (nameEnd bound first name).fault ≠ none := by
  induction bound generalizing first name with
  | zero => exact h
  | succ bound ih =>
      rcases nameEnd_step bound first name with heq | ⟨further, heq, ⟨-, hsame⟩ | hfault⟩
      · rwa [heq]
      · rw [heq]
        exact ih false further (hsame ▸ h)
      · rw [heq]
        exact ih false further hfault

/-- What is kept of a word without an error is what it spells. -/
theorem readsOn_nameEnd (bound : Nat) (first : Bool) (name : NameEnd)
    (h : (nameEnd bound first name).fault = none) : name.ReadsOn (nameEnd bound first name) := by
  induction bound generalizing first name with
  | zero => exact .refl name
  | succ bound ih =>
      rcases nameEnd_step bound first name with heq | ⟨further, heq, ⟨hreads, -⟩ | hfault⟩
      · rw [heq]
        exact .refl name
      · rw [heq] at h ⊢
        exact hreads.trans (ih false further h)
      · rw [heq] at h
        exact absurd h (fault_nameEnd_ne bound false further hfault)

/-! ## Words in a text -/

def startsWord (cs : List Char) : Bool :=
  cs.head?.any fun c => c == '\\' || Token.isNameStart c

def wordEnd (text : List Char) (start : Nat) (rest : List Char) : NameEnd :=
  nameEnd (Text.byteLength text - start + 1) true { place := ⟨start, rest⟩ }

def WordAt (text : List Char) (start : Nat) (value : String) : Prop :=
  ∃ rest, At text start rest ∧ startsWord rest ∧ (wordEnd text start rest).fault = none ∧
    value = String.ofList (wordEnd text start rest).reversed.reverse

/-- A token that is not empty starts as the word at its offset does. -/
theorem WordAt.startsWord {start stop : Nat} {value : String} (h : WordAt text start value)
    (hbetween : Between text start cs stop) (hlt : start < stop) : startsWord cs := by
  obtain ⟨rest, hat, hstarts, -, -⟩ := h
  obtain ⟨tail, hat', hstop⟩ := hbetween
  obtain rfl := hat.unique hat'
  cases cs with
  | nil => simp [hstop] at hlt
  | cons c cs => exact hstarts

structure ReadsWords (text : List Char) (l : Lexer) : Prop where
  word : l.token.isWord = startsWord l.startRest
  pos : startsWord l.startRest → l.pos = (wordEnd text l.start l.startRest).place.pos
  value : startsWord l.startRest →
    l.value = String.ofList (wordEnd text l.start l.startRest).reversed.reverse
  fault : startsWord l.startRest → l.fault = none →
    (wordEnd text l.start l.startRest).fault = none

namespace ReadsWords

variable {l l' : Lexer}

theorem of_not_word (h : startsWord l.startRest = false) (hl : l.token.isWord = false) :
    ReadsWords text l := by
  constructor <;> simp [h, hl]

/-- A token that is read again is no word before and none after it. -/
theorem reread (h : ReadsWords text l) (hsame : l.SameStart l') (hl : l.token.isWord = false)
    (hl' : l'.token.isWord = false) : ReadsWords text l' := by
  refine .of_not_word ?_ hl'
  rw [hsame.startRest, ← h.word, hl]

theorem rereadSlash (h : ReadsWords text l) : ReadsWords text l.rereadSlash := by
  by_cases hslash : (l.token == .slash || l.token == .slashEquals) = true
  · refine h.reread (.rereadSlash l) ?_ (by rw [token_rereadSlash_eq hslash]; rfl)
    simp only [Bool.or_eq_true, beq_iff_eq] at hslash
    rcases hslash with hslash | hslash <;> rw [hslash] <;> rfl
  · rw [Lexer.rereadSlash, if_neg hslash]
    exact h

theorem rereadBrace (h : ReadsWords text l) : ReadsWords text l.rereadBrace := by
  by_cases hbrace : l.token = .closeBrace
  · refine h.reread (.rereadBrace l) (by rw [hbrace]; rfl) ?_
    rcases token_rereadBrace_eq_or hbrace with ht | ht <;> rw [ht] <;> rfl
  · rw [Lexer.rereadBrace, if_neg (by simpa using hbrace)]
    exact h

theorem rereadGreater (h : ReadsWords text l) : ReadsWords text l.rereadGreater := by
  rcases rereadGreater_eq_or l with heq | ⟨hgreater, hjoins⟩
  · rwa [heq]
  · refine h.reread (.rereadGreater l) (by rw [hgreater]; rfl) ?_
    revert hjoins
    cases l.rereadGreater.token <;> decide

end ReadsWords

theorem isNameStart_of_isAsciiDigit (h : Token.isAsciiDigit c) : Token.isNameStart c = false := by
  have hascii : Token.isAscii c := isAscii_of_le h (by decide)
  simp only [Token.isAsciiDigit, Bool.and_eq_true, decide_eq_true_eq] at h
  have hlo : 48 ≤ c.toNat := h.1
  have hhi : c.toNat ≤ 57 := h.2
  have hletter : Token.isAsciiLetter c = false := by
    rw [Bool.eq_false_iff]
    intro hletter
    simp only [Token.isAsciiLetter, Bool.or_eq_true, Bool.and_eq_true, decide_eq_true_eq] at hletter
    obtain ⟨hle, -⟩ | ⟨hle, -⟩ := hletter
    · exact absurd (show 97 ≤ c.toNat from hle) (by omega)
    · exact absurd (show 65 ≤ c.toNat from hle) (by omega)
  have hdollar : c ≠ '$' := by
    rintro rfl
    exact absurd hlo (by decide)
  have hunderscore : c ≠ '_' := by
    rintro rfl
    exact absurd hhi (by decide)
  simp [Token.isNameStart, hascii, hletter, hdollar, hunderscore]

theorem isWord_of_mem_punctuation : ∀ entry ∈ punctuation, entry.2.isWord = false := by
  decide +kernel

theorem isWord_of_keyword? {word : String} {t : Token} (h : Token.keyword? word = some t) :
    t.isWord := by
  have hmem := List.mem_of_find?_eq_some h
  have hall : ∀ t ∈ Token.reservedWords ++ Token.contextualKeywords, t.isWord := by decide +kernel
  exact hall t hmem

theorem isWord_readName (l : Lexer) : l.readName.token.isWord := by
  show Token.isWord (if _ then _ else _) = true
  split
  · rfl
  · cases hkeyword : Token.keyword? _ with
    | none => rfl
    | some t => exact isWord_of_keyword? hkeyword

theorem token_readTemplate_isWord (l : Lexer) (head : Bool) (body : List Char) :
    (l.readTemplate head body).token.isWord = false := by
  unfold readTemplate
  simp only
  split <;> cases head <;> rfl

theorem token_readString_isWord (l : Lexer) (quote : Char) (body : List Char) :
    (l.readString quote body).token.isWord = false := by
  unfold readString
  simp only
  split <;> rfl

theorem readsWords_readName {l : Lexer} (hsize : l.size = Text.byteLength text)
    (hstarts : startsWord l.startRest) : ReadsWords text l.readName := by
  have hword : nameEnd (l.size - l.start + 1) true { place := ⟨l.start, l.startRest⟩ } =
      wordEnd text l.start l.startRest := by rw [wordEnd, hsize]
  refine ⟨(isWord_readName l).trans hstarts.symm, fun _ => ?_, fun _ => ?_, fun _ hfault => ?_⟩
  · exact congrArg (·.place.pos) hword
  · exact congrArg (fun name : NameEnd => String.ofList name.reversed.reverse) hword
  · have hnone : (l.fault <|> (wordEnd text l.start l.startRest).fault) = none := hword ▸ hfault
    cases hl : l.fault with
    | none =>
        rw [hl] at hnone
        exact hnone
    | some fault => simp [hl] at hnone

theorem readsWords_readToken {l : Lexer} (hsize : l.size = Text.byteLength text) :
    ReadsWords text l.readToken := by
  have hother : startsWord l.startRest = false → l.readToken.token.isWord = false →
      ReadsWords text l.readToken := by
    intro hstarts hword
    exact .of_not_word (by rwa [(SameStart.readToken l).startRest]) hword
  revert hother
  unfold readToken
  split
  · rename_i hrest
    exact fun hother => hother (by rw [hrest]; rfl) rfl
  · rename_i c cs hrest
    have hfirst : startsWord l.startRest = (c == '\\' || Token.isNameStart c) := by rw [hrest]; rfl
    rw [hfirst]
    split
    · rename_i hnumber
      refine fun hother => hother ?_ rfl
      simp only [Bool.or_eq_true, Bool.and_eq_true, beq_iff_eq] at hnumber
      obtain hdigit | ⟨rfl, -⟩ := hnumber
      · have hslash : c ≠ '\\' := by
          rintro rfl
          exact absurd hdigit (by decide)
        simp [hslash, isNameStart_of_isAsciiDigit hdigit]
      · decide
    · split
      · rename_i hquote
        refine fun hother => hother ?_ (token_readString_isWord l c cs)
        simp only [Bool.or_eq_true, beq_iff_eq] at hquote
        obtain rfl | rfl := hquote <;> decide
      · split
        · rename_i hquote
          obtain rfl : c = '\x60' := by simpa using hquote
          exact fun hother => hother (by decide) (token_readTemplate_isWord l true cs)
        · split
          · rename_i hname
            exact fun _ => readsWords_readName hsize (hfirst.trans hname)
          · rename_i hname
            refine fun hother => hother (by simpa using hname) ?_
            split
            · rename_i entry hentry
              exact isWord_of_mem_punctuation _ (List.mem_of_find?_eq_some hentry)
            · rfl

theorem readsWords_next {l : Lexer} (hsize : l.size = Text.byteLength text) :
    ReadsWords text l.next := by
  unfold next
  dsimp only
  split
  · exact readsWords_readToken hsize
  · exact readsWords_readToken hsize

/-! ## Words among the tokens -/

namespace ReadsWords

variable {l : Lexer}

theorem wordAt (h : ReadsWords text l) (hl : Settled text l) (hword : l.token.isWord)
    (hfault : l.fault = none) : WordAt text l.start l.value := by
  have hstarts : startsWord l.startRest := by rwa [← h.word]
  exact ⟨_, hl.start, hstarts, h.fault hstarts hfault, h.value hstarts⟩

/-- The token at the offset of a word ends where the word does. -/
theorem spells (h : ReadsWords text l) (hl : Settled text l) {value : String}
    (hword : WordAt text l.start value) :
    ∃ cs, Between text l.start cs l.pos ∧ Spells cs value.toList := by
  obtain ⟨rest, hat, hstarts, hfault, rfl⟩ := hword
  obtain rfl := hat.unique hl.start
  obtain ⟨cs, w, hrest, hpos, hreversed, hspells⟩ := (readsOn_nameEnd _ _ _ hfault).spelled
  have hrest : l.startRest = cs ++ (wordEnd text l.start l.startRest).place.rest := hrest
  rw [hrest] at hat
  refine ⟨cs, ⟨_, hat, (h.pos hstarts).trans hpos⟩, ?_⟩
  have hw : (wordEnd text l.start l.startRest).reversed.reverse = w := by
    rw [wordEnd, hreversed]
    simp
  rwa [hw, String.toList_ofList]

end ReadsWords

namespace Consumes

variable {first l : Lexer} {tokens : List (Nat × Nat)}

theorem readsWords (h : first.Consumes tokens l) (hfirst : first.Settled text)
    (hwords : ReadsWords text first) : ReadsWords text l := by
  induction h with
  | refl => exact hwords
  | rereadSlash _ ih => exact ih.rereadSlash
  | rereadBrace _ ih => exact ih.rereadBrace
  | rereadGreater _ ih => exact ih.rereadGreater
  | next h _ _ => exact readsWords_next (h.settled hfirst).size

theorem exists_of_mem (h : first.Consumes tokens l) (hfirst : first.Settled text)
    (hwords : ReadsWords text first) {start stop : Nat} (hmem : (start, stop) ∈ tokens) :
    ∃ l, Settled text l ∧ ReadsWords text l ∧ l.start = start ∧ l.pos = stop := by
  induction h with
  | refl => cases hmem
  | rereadSlash _ ih => exact ih hmem
  | rereadBrace _ ih => exact ih hmem
  | rereadGreater _ ih => exact ih hmem
  | @next tokens l h _ ih =>
      rcases List.mem_append.mp hmem with hmem | hmem
      · exact ih hmem
      · obtain ⟨rfl, rfl⟩ := Prod.mk.inj (List.mem_singleton.mp hmem)
        exact ⟨l, h.settled hfirst, h.readsWords hfirst hwords, rfl, rfl⟩

end Consumes

end FlowErasure.Lexer
