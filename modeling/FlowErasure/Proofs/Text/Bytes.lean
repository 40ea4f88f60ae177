import FlowErasure.Proofs.Text.Offset
import FlowErasure.Text.Bytes
import FlowErasure.Text.Lines
import Mathlib.Data.List.Induction

/-!
# Blanks and line ends in the bytes of a text

The surroundings of an offset are looked at byte by byte. The bytes of a character beyond ASCII are
all large, so a byte of a blank or of a line end is what it seems to be, and an offset between two
characters leads to an offset between two characters.
-/

namespace FlowErasure.Text

/-- The blanks that stay on a line: space, tab, vertical tab and form feed. -/
def isSpace (c : Char) : Bool :=
  c == ' ' || c == '\t' || c == '\x0b' || c == '\x0c'

def lineEnds : List (List Char) :=
  [['\n'], ['\r'], ['\r', '\n'], ['\u2028'], ['\u2029']]

@[simp] theorem bytes_nil : bytes [] = [] := rfl

@[simp] theorem bytes_cons (c : Char) (cs : List Char) :
    bytes (c :: cs) = String.utf8EncodeChar c ++ bytes cs := rfl

@[simp] theorem bytes_append (as bs : List Char) : bytes (as ++ bs) = bytes as ++ bytes bs := by
  simp [bytes]

@[simp] theorem length_bytes (cs : List Char) : (bytes cs).length = byteLength cs := by
  induction cs with
  | nil => rfl
  | cons c cs ih => simp [ih]

theorem drop_bytes {text rest : List Char} {offset : Nat} (h : At text offset rest) :
    (bytes text).drop offset = bytes rest := by
  obtain ⟨pre, rfl, rfl⟩ := h
  rw [bytes_append, ← length_bytes, List.drop_left]

/-! ## One character -/

theorem utf8EncodeChar_ascii {c : Char} (h : c.toNat < 0x80) :
    String.utf8EncodeChar c = [UInt8.ofNat c.toNat] := by
  have hle : c.val.toNat ≤ 0x7f := Nat.le_of_lt_succ h
  unfold String.utf8EncodeChar
  exact if_pos hle

/-- No byte of a character beyond ASCII is an ASCII byte. -/
theorem le_of_mem_utf8EncodeChar {c : Char} (h : 0x80 ≤ c.toNat) :
    ∀ b ∈ String.utf8EncodeChar c, 0x80 ≤ b.toNat := by
  have hgt : ¬c.val.toNat ≤ 0x7f := by
    have : c.val.toNat = c.toNat := rfl
    omega
  intro b hb
  simp only [String.utf8EncodeChar, hgt, if_false] at hb
  split at hb
  · simp only [List.mem_cons, List.not_mem_nil, or_false] at hb
    rcases hb with rfl | rfl <;> simp <;> omega
  · split at hb
    · simp only [List.mem_cons, List.not_mem_nil, or_false] at hb
      rcases hb with rfl | rfl | rfl <;> simp <;> omega
    · simp only [List.mem_cons, List.not_mem_nil, or_false] at hb
      rcases hb with rfl | rfl | rfl | rfl <;> simp <;> omega

theorem eq_of_mem_utf8EncodeChar {c d : Char} (hd : d.toNat < 0x80)
    (h : UInt8.ofNat d.toNat ∈ String.utf8EncodeChar c) : c = d := by
  by_cases hc : c.toNat < 0x80
  · rw [utf8EncodeChar_ascii hc, List.mem_singleton] at h
    have hnat := congrArg UInt8.toNat h
    simp only [UInt8.toNat_ofNat'] at hnat
    exact Char.toNat_inj.mp (by omega)
  · have hge := le_of_mem_utf8EncodeChar (Nat.le_of_not_lt hc) _ h
    simp only [UInt8.toNat_ofNat'] at hge
    omega

/-- A character one of whose bytes is a blank is a blank. -/
theorem isSpace_of_mem {c : Char} {b : UInt8} (hb : b ∈ String.utf8EncodeChar c)
    (hspace : isSpaceByte b) : isSpace c := by
  simp only [isSpaceByte, Bool.or_eq_true, beq_iff_eq] at hspace
  rcases hspace with ((rfl | rfl) | rfl) | rfl
  · rw [eq_of_mem_utf8EncodeChar (d := ' ') (by decide) hb]
    decide
  · rw [eq_of_mem_utf8EncodeChar (d := '\t') (by decide) hb]
    decide
  · rw [eq_of_mem_utf8EncodeChar (d := '\x0b') (by decide) hb]
    decide
  · rw [eq_of_mem_utf8EncodeChar (d := '\x0c') (by decide) hb]
    decide

theorem utf8EncodeChar_of_isSpace {c : Char} (h : isSpace c) :
    ∃ b, String.utf8EncodeChar c = [b] ∧ isSpaceByte b := by
  simp only [isSpace, Bool.or_eq_true, beq_iff_eq] at h
  rcases h with ((rfl | rfl) | rfl) | rfl
  all_goals exact ⟨_, rfl, by decide⟩

/-! ## Blanks around an offset -/

theorem length_takeWhile_bytes (cs : List Char) :
    ((bytes cs).takeWhile isSpaceByte).length = byteLength (cs.takeWhile isSpace) := by
  induction cs with
  | nil => rfl
  | cons c cs ih =>
      by_cases hc : isSpace c
      · obtain ⟨b, hencode, hb⟩ := utf8EncodeChar_of_isSpace hc
        have hsize : c.utf8Size = 1 := by rw [← String.length_utf8EncodeChar, hencode]; rfl
        simp [hencode, hb, hc, ih, hsize, Nat.add_comm]
      · obtain ⟨b, bs, hencode⟩ :=
          List.exists_cons_of_ne_nil (String.utf8EncodeChar_ne_nil (c := c))
        have hb : ¬isSpaceByte b := fun hb => hc (isSpace_of_mem (by simp [hencode]) hb)
        simp [hencode, hb, hc]

theorem spaceAfter_eq {text rest : List Char} {offset : Nat} (h : At text offset rest) :
    spaceAfter (bytes text) offset = offset + byteLength (rest.takeWhile isSpace) := by
  rw [spaceAfter, drop_bytes h, length_takeWhile_bytes]

theorem spaceBefore_eq (pre mid rest : List Char) :
    ∃ kept blanks, mid = kept ++ blanks ∧ (∀ c ∈ blanks, isSpace c) ∧
      spaceBefore (bytes (pre ++ mid ++ rest)) (byteLength pre) (byteLength (pre ++ mid)) =
        byteLength (pre ++ kept) := by
  induction mid using List.reverseRecOn generalizing rest with
  | nil =>
      refine ⟨[], [], rfl, by simp, ?_⟩
      simp only [List.append_nil]
      cases h : byteLength pre with
      | zero => rfl
      | succ n =>
          have hfloor : ¬n + 1 ≤ n := by omega
          rw [spaceBefore, if_neg (by simp [hfloor])]
  | append_singleton mid c ih =>
      have hpos := c.utf8Size_pos
      obtain ⟨n, hn⟩ : ∃ n, byteLength (pre ++ (mid ++ [c])) = n + 1 :=
        ⟨byteLength (pre ++ (mid ++ [c])) - 1, by simp; omega⟩
      obtain ⟨init, b, hencode⟩ : ∃ init b, String.utf8EncodeChar c = init ++ [b] :=
        ⟨_, _, (List.dropLast_concat_getLast String.utf8EncodeChar_ne_nil).symm⟩
      have hb : b ∈ String.utf8EncodeChar c := by simp [hencode]
      have hbyte : (bytes (pre ++ (mid ++ [c]) ++ rest))[n]? = some b := by
        have hlength : (bytes (pre ++ mid) ++ init).length = n := by
          have hsize := String.length_utf8EncodeChar c
          simp only [hencode, List.length_append, List.length_singleton] at hsize
          simp only [byteLength_append, byteLength_cons, byteLength_nil] at hn
          simp only [List.length_append, length_bytes, byteLength_append]
          omega
        have hsplit : bytes (pre ++ (mid ++ [c]) ++ rest) =
            (bytes (pre ++ mid) ++ init) ++ b :: bytes rest := by
          simp [hencode]
        rw [hsplit, List.getElem?_append_right (by omega), hlength, Nat.sub_self]
        rfl
      by_cases hspace : isSpaceByte b
      · have hc : isSpace c := isSpace_of_mem hb hspace
        have hsize : c.utf8Size = 1 := by
          obtain ⟨b', hb', -⟩ := utf8EncodeChar_of_isSpace hc
          rw [← String.length_utf8EncodeChar, hb']
          rfl
        have hmid : n = byteLength (pre ++ mid) := by
          simp only [byteLength_append, byteLength_cons, byteLength_nil, hsize] at hn ⊢
          omega
        have hfloor : byteLength pre ≤ n := by simp [hmid]
        obtain ⟨kept, blanks, hsplit, hblanks, hrest⟩ := ih (c :: rest)
        refine ⟨kept, blanks ++ [c], by simp [hsplit], ?_, ?_⟩
        · intro d hd
          rcases List.mem_append.mp hd with hd | hd
          · exact hblanks d hd
          · rwa [List.mem_singleton.mp hd]
        · rw [hn, spaceBefore, hbyte, if_pos (by simp [hspace, hfloor]), hmid, ← hrest]
          simp
      · refine ⟨mid ++ [c], [], by simp, by simp, ?_⟩
        rw [hn, spaceBefore, hbyte, if_neg (by simp [hspace])]

/-! ## Line ends -/

theorem exists_cons_of_bytes {cs : List Char} {b : UInt8} {bs : List UInt8}
    (h : bytes cs = b :: bs) : ∃ c rest, cs = c :: rest ∧ b ∈ String.utf8EncodeChar c := by
  cases cs with
  | nil => simp at h
  | cons c rest =>
      refine ⟨c, rest, rfl, ?_⟩
      obtain ⟨b', bs', hencode⟩ :=
        List.exists_cons_of_ne_nil (String.utf8EncodeChar_ne_nil (c := c))
      rw [bytes_cons, hencode, List.cons_append] at h
      simp [hencode, (List.cons.inj h).1]

/-- A text whose bytes start with an ASCII byte starts with that character. -/
theorem exists_of_bytes_ascii {cs : List Char} {d : Char} {bs : List UInt8} (hd : d.toNat < 0x80)
    (h : bytes cs = UInt8.ofNat d.toNat :: bs) : ∃ rest, cs = d :: rest ∧ bytes rest = bs := by
  obtain ⟨c, rest, rfl, hmem⟩ := exists_cons_of_bytes h
  obtain rfl := eq_of_mem_utf8EncodeChar hd hmem
  rw [bytes_cons, utf8EncodeChar_ascii hd, List.singleton_append] at h
  exact ⟨rest, rfl, (List.cons.inj h).2⟩

/-- A text whose bytes start with those of a line or paragraph separator starts with it. -/
theorem exists_of_bytes_separator {cs : List Char} {d : Char} {last : UInt8} {bs : List UInt8}
    (hd : last.toNat < 0xC0) (hlast : d.toNat + 0x80 = 0x2000 + last.toNat)
    (h : bytes cs = 0xE2 :: 0x80 :: last :: bs) : ∃ rest, cs = d :: rest := by
  obtain ⟨c, rest, rfl, -⟩ := exists_cons_of_bytes h
  refine ⟨rest, congrArg (· :: rest) (Char.toNat_inj.mp ?_)⟩
  have hval : c.val.toNat = c.toNat := rfl
  simp only [bytes_cons, String.utf8EncodeChar, hval] at h
  split at h
  · have hbyte := congrArg UInt8.toNat (List.cons.inj h).1
    simp at hbyte
    omega
  · split at h
    · have hbyte := congrArg UInt8.toNat (List.cons.inj h).1
      simp at hbyte
      omega
    · split at h
      · simp only [List.cons_append, List.nil_append, List.cons.injEq] at h
        obtain ⟨h₁, h₂, h₃, -⟩ := h
        have hbyte₁ := congrArg UInt8.toNat h₁
        have hbyte₂ := congrArg UInt8.toNat h₂
        have hbyte₃ := congrArg UInt8.toNat h₃
        simp at hbyte₁ hbyte₂ hbyte₃
        omega
      · have hbyte := congrArg UInt8.toNat (List.cons.inj h).1
        simp at hbyte
        omega

theorem lineEndLength_eq (cs : List Char) :
    ∃ mark rest, cs = mark ++ rest ∧ lineEndLength (bytes cs) = byteLength mark ∧
      (mark = [] ∨ mark ∈ lineEnds) := by
  unfold lineEndLength
  split
  · rename_i heq
    obtain ⟨rest, rfl, hrest⟩ := exists_of_bytes_ascii (d := '\r') (by decide) heq
    obtain ⟨rest, rfl, -⟩ := exists_of_bytes_ascii (d := '\n') (by decide) hrest
    exact ⟨['\r', '\n'], rest, rfl, rfl, .inr (by decide)⟩
  · rename_i heq
    obtain ⟨rest, rfl, -⟩ := exists_of_bytes_ascii (d := '\n') (by decide) heq
    exact ⟨['\n'], rest, rfl, rfl, .inr (by decide)⟩
  · rename_i heq
    obtain ⟨rest, rfl, -⟩ := exists_of_bytes_ascii (d := '\r') (by decide) heq
    exact ⟨['\r'], rest, rfl, rfl, .inr (by decide)⟩
  · rename_i heq
    obtain ⟨rest, rfl⟩ := exists_of_bytes_separator (d := '\u2028') (by decide) rfl heq
    exact ⟨['\u2028'], rest, rfl, rfl, .inr (by decide)⟩
  · rename_i heq
    obtain ⟨rest, rfl⟩ := exists_of_bytes_separator (d := '\u2029') (by decide) rfl heq
    exact ⟨['\u2029'], rest, rfl, rfl, .inr (by decide)⟩
  · exact ⟨[], cs, rfl, rfl, .inl rfl⟩

end FlowErasure.Text
