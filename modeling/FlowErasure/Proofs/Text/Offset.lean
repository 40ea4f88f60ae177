import FlowErasure.Text.Units

/-!
# Offsets at character boundaries

An offset is good when it falls between two characters. `At` names the text from there on, and
`Onward` leads from one such offset to a later one. A line may end in two characters; an offset that
does not fall between these two is a `Seam`, and `Passes` leads to one.
-/

namespace FlowErasure.Text

def At (text : List Char) (offset : Nat) (rest : List Char) : Prop :=
  ∃ pre, text = pre ++ rest ∧ offset = byteLength pre

def Boundary (text : List Char) (offset : Nat) : Prop :=
  ∃ rest, At text offset rest

def Onward (a : Nat) (cs : List Char) (b : Nat) (ds : List Char) : Prop :=
  ∃ mid, cs = mid ++ ds ∧ b = a + byteLength mid

/-- The two characters of a line end are divided between two texts. -/
def Divides (as bs : List Char) : Prop :=
  as.getLast? = some '\r' ∧ bs.head? = some '\n'

/-- The offset falls between two characters, but not into a line end. -/
def Seam (text : List Char) (offset : Nat) : Prop :=
  ∃ pre rest, text = pre ++ rest ∧ offset = byteLength pre ∧ ¬Divides pre rest

/-- From `a` onward to `b`, which does not fall into a line end. -/
def Passes (a : Nat) (cs : List Char) (b : Nat) (ds : List Char) : Prop :=
  ∃ mid, cs = mid ++ ds ∧ b = a + byteLength mid ∧ ¬Divides mid ds

variable {text cs ds es : List Char} {a b c : Nat}

theorem at_zero (text : List Char) : At text 0 text :=
  ⟨[], rfl, rfl⟩

theorem At.boundary (h : At text a cs) : Boundary text a :=
  ⟨cs, h⟩

theorem Boundary.le (h : Boundary text a) : a ≤ byteLength text := by
  obtain ⟨rest, pre, rfl, rfl⟩ := h
  simp

theorem At.onward (h : At text a cs) (h' : Onward a cs b ds) : At text b ds := by
  obtain ⟨pre, rfl, rfl⟩ := h
  obtain ⟨mid, rfl, rfl⟩ := h'
  exact ⟨pre ++ mid, by simp, by simp⟩

theorem At.exists_cons (h : At text a cs) (hlt : a < byteLength text) : ∃ c ds, cs = c :: ds := by
  obtain ⟨pre, rfl, rfl⟩ := h
  cases cs with
  | nil => simp at hlt
  | cons c ds => exact ⟨c, ds, rfl⟩

namespace Onward

theorem refl (a : Nat) (cs : List Char) : Onward a cs a cs :=
  ⟨[], rfl, rfl⟩

theorem trans (h : Onward a cs b ds) (h' : Onward b ds c es) : Onward a cs c es := by
  obtain ⟨mid, rfl, rfl⟩ := h
  obtain ⟨mid', rfl, rfl⟩ := h'
  exact ⟨mid ++ mid', by simp, by simp [Nat.add_assoc]⟩

theorem le (h : Onward a cs b ds) : a ≤ b := by
  obtain ⟨mid, -, rfl⟩ := h
  exact Nat.le_add_right _ _

theorem char (a : Nat) (c : Char) (cs : List Char) : Onward a (c :: cs) (a + c.utf8Size) cs :=
  ⟨[c], rfl, by simp⟩

theorem cons (c : Char) (h : Onward (a + c.utf8Size) cs b ds) : Onward a (c :: cs) b ds :=
  (char a c cs).trans h

end Onward

/-! ## Line ends -/

theorem not_divides_nil_left (cs : List Char) : ¬Divides [] cs := by
  simp [Divides]

theorem not_divides_nil_right (cs : List Char) : ¬Divides cs [] := by
  simp [Divides]

theorem not_divides_of_last {as bs : List Char} (h : '\r' ∉ as) : ¬Divides as bs :=
  fun hdivides => h (List.mem_of_getLast? hdivides.1)

theorem divides_append_left {as bs : List Char} (h : bs ≠ []) :
    Divides (as ++ bs) cs ↔ Divides bs cs := by
  obtain ⟨c, hc⟩ := Option.isSome_iff_exists.mp (List.getLast?_isSome.mpr h)
  rw [Divides, Divides, List.getLast?_append, hc]
  rfl

theorem divides_append_right {as bs : List Char} (h : bs ≠ []) :
    Divides as (bs ++ cs) ↔ Divides as bs := by
  obtain ⟨c, bs, rfl⟩ := List.exists_cons_of_ne_nil h
  exact Iff.rfl

theorem Seam.boundary (h : Seam text a) : Boundary text a := by
  obtain ⟨pre, rest, htext, ha, -⟩ := h
  exact ⟨rest, pre, htext, ha⟩

theorem seam_zero (text : List Char) : Seam text 0 :=
  ⟨[], text, rfl, rfl, not_divides_nil_left text⟩

theorem Seam.not_divides {pre rest : List Char} (h : Seam (pre ++ rest) (byteLength pre)) :
    ¬Divides pre rest := by
  obtain ⟨pre', rest', htext, hsize, hdivides⟩ := h
  have hrest := drop?_append pre rest
  rw [htext, hsize, drop?_append] at hrest
  obtain rfl := Option.some.inj hrest
  rwa [List.append_cancel_right htext]

theorem At.seam (h : At text a cs) (hhead : cs.head? ≠ some '\n') : Seam text a := by
  obtain ⟨pre, htext, ha⟩ := h
  exact ⟨pre, cs, htext, ha, fun hdivides => hhead hdivides.2⟩

namespace Passes

theorem onward (h : Passes a cs b ds) : Onward a cs b ds := by
  obtain ⟨mid, hcs, hb, -⟩ := h
  exact ⟨mid, hcs, hb⟩

theorem le (h : Passes a cs b ds) : a ≤ b :=
  h.onward.le

theorem refl (a : Nat) (cs : List Char) : Passes a cs a cs :=
  ⟨[], rfl, rfl, not_divides_nil_left cs⟩

theorem trans (h : Passes a cs b ds) (h' : Passes b ds c es) : Passes a cs c es := by
  obtain ⟨mid, rfl, rfl, hmid⟩ := h
  obtain ⟨mid', rfl, rfl, hmid'⟩ := h'
  refine ⟨mid ++ mid', by simp, by simp [Nat.add_assoc], ?_⟩
  cases mid' with
  | nil => simpa using hmid
  | cons c mid' => rwa [divides_append_left (by simp)]

/-- Over characters none of which is the first of a line end. -/
theorem of_not_mem {mid : List Char} (hcs : cs = mid ++ ds) (hb : b = a + byteLength mid)
    (h : '\r' ∉ mid) : Passes a cs b ds :=
  ⟨mid, hcs, hb, not_divides_of_last h⟩

theorem char (a : Nat) {c : Char} (cs : List Char) (hc : c ≠ '\r') :
    Passes a (c :: cs) (a + c.utf8Size) cs :=
  ⟨[c], rfl, by simp, not_divides_of_last (by simpa using hc.symm)⟩

/-- Over one character and on, beyond the line end if this is its first character. -/
theorem cons {c : Char} (h : Passes (a + c.utf8Size) cs b ds)
    (hc : c = '\r' → cs.head? = some '\n' → a + c.utf8Size < b) : Passes a (c :: cs) b ds := by
  obtain ⟨mid, rfl, rfl, hmid⟩ := h
  refine ⟨c :: mid, rfl, by simp [Nat.add_assoc], ?_⟩
  cases mid with
  | nil =>
      rintro ⟨hlast, hhead⟩
      have hlt := hc (Option.some.inj hlast) hhead
      simp at hlt
  | cons d mid => rwa [← List.singleton_append, divides_append_left (by simp)]

/-- Over one character that is not the first of a line end, and on. -/
theorem cons_of_ne {c : Char} (hc : c ≠ '\r') (h : Passes (a + c.utf8Size) cs b ds) :
    Passes a (c :: cs) b ds :=
  h.cons fun heq => absurd heq hc

theorem seam (h : Passes a cs b ds) (hat : At text a cs) (hlt : a < b) : Seam text b := by
  obtain ⟨mid, rfl, rfl, hmid⟩ := h
  obtain ⟨pre, rfl, rfl⟩ := hat
  have hne : mid ≠ [] := by
    rintro rfl
    simp at hlt
  exact ⟨pre ++ mid, ds, by simp, by simp, by rwa [divides_append_left hne]⟩

end Passes

/-! ## Two offsets -/

theorem At.unique (h : At text a cs) (h' : At text a ds) : cs = ds := by
  obtain ⟨pre, rfl, rfl⟩ := h
  obtain ⟨pre', htext, hlength⟩ := h'
  have hcs := drop?_append pre cs
  rw [htext, hlength, drop?_append] at hcs
  exact (Option.some.inj hcs).symm

theorem At.onward_of_le (h : At text a cs) (h' : At text b ds) (hle : a ≤ b) : Onward a cs b ds := by
  obtain ⟨pre, rfl, rfl⟩ := h
  obtain ⟨pre', htext, rfl⟩ := h'
  rcases List.append_eq_append_iff.mp htext with ⟨mid, rfl, rfl⟩ | ⟨mid, rfl, rfl⟩
  · exact ⟨mid, rfl, by simp⟩
  · have hmid : mid = [] := by
      cases mid with
      | nil => rfl
      | cons c mid =>
          have hpos := c.utf8Size_pos
          simp only [byteLength_append, byteLength_cons] at hle
          omega
    exact ⟨[], by simp [hmid], by simp [hmid]⟩

def Between (text : List Char) (a : Nat) (cs : List Char) (b : Nat) : Prop :=
  ∃ rest, At text a (cs ++ rest) ∧ b = a + byteLength cs

namespace Between

theorem left (h : Between text a cs b) : Boundary text a := by
  obtain ⟨rest, hat, -⟩ := h
  exact hat.boundary

theorem right (h : Between text a cs b) : Boundary text b := by
  obtain ⟨rest, hat, rfl⟩ := h
  exact (hat.onward ⟨cs, rfl, rfl⟩).boundary

theorem le (h : Between text a cs b) : a ≤ b := by
  obtain ⟨-, -, rfl⟩ := h
  exact Nat.le_add_right _ _

theorem refl (h : Boundary text a) : Between text a [] a := by
  obtain ⟨rest, hat⟩ := h
  exact ⟨rest, hat, rfl⟩

theorem append (h : Between text a cs b) (h' : Between text b ds c) :
    Between text a (cs ++ ds) c := by
  obtain ⟨rest, hat, rfl⟩ := h
  obtain ⟨rest', hat', rfl⟩ := h'
  obtain rfl : rest = ds ++ rest' := (hat.onward ⟨cs, rfl, rfl⟩).unique hat'
  exact ⟨rest', by simpa using hat, by simp [Nat.add_assoc]⟩

theorem exists_of_le (h : Boundary text a) (h' : Boundary text b) (hle : a ≤ b) :
    ∃ cs, Between text a cs b := by
  obtain ⟨rest, hat⟩ := h
  obtain ⟨rest', hat'⟩ := h'
  obtain ⟨mid, rfl, hb⟩ := hat.onward_of_le hat' hle
  exact ⟨mid, rest', hat, hb⟩

theorem unique (h : Between text a cs b) (h' : Between text a ds b) : cs = ds := by
  obtain ⟨rest, hat, hb⟩ := h
  obtain ⟨rest', hat', hb'⟩ := h'
  have heq := hat.unique hat'
  have htake := take?_append cs rest
  rw [heq, show byteLength cs = byteLength ds by omega, take?_append] at htake
  exact (Option.some.inj htake).symm

theorem split (h : Between text a cs b) (hc : Boundary text c) (hac : a ≤ c) (hcb : c ≤ b) :
    ∃ ds es, cs = ds ++ es ∧ Between text a ds c ∧ Between text c es b := by
  obtain ⟨ds, hds⟩ := exists_of_le h.left hc hac
  obtain ⟨es, hes⟩ := exists_of_le hc h.right hcb
  exact ⟨ds, es, h.unique (hds.append hes), hds, hes⟩

/-- The character at an offset inside the text is one of it. -/
theorem mem_of_at {d : Char} {rest : List Char} (h : Between text a cs b)
    (hat : At text c (d :: rest)) (hac : a ≤ c) (hcb : c < b) : d ∈ cs := by
  obtain ⟨ds, es, rfl, -, rest', hat', hstop⟩ := h.split hat.boundary hac (Nat.le_of_lt hcb)
  have heq := hat.unique hat'
  cases es with
  | nil =>
      simp only [byteLength_nil] at hstop
      omega
  | cons e es =>
      obtain ⟨rfl, -⟩ := List.cons.inj heq
      simp

theorem slice? (h : Between text a cs b) : slice? text a b = some cs := by
  obtain ⟨rest, ⟨pre, rfl, rfl⟩, rfl⟩ := h
  simp [Text.slice?, drop?_append, take?_append]

end Between

/-- Characters that take one byte each are counted by their number. -/
theorem byteLength_eq_length (h : ∀ c ∈ cs, c.utf8Size = 1) : byteLength cs = cs.length := by
  induction cs with
  | nil => rfl
  | cons c cs ih =>
      have hc := h c (by simp)
      have hcs := ih fun c hc => h c (List.mem_cons_of_mem _ hc)
      simp [hc, hcs]
      omega

end FlowErasure.Text
