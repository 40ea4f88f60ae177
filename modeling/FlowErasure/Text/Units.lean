/-!
# Texts measured in bytes and in UTF-16 units

A text is a list of characters. Offsets into it count UTF-8 bytes, columns count UTF-16 units.
`drop?`, `take?` and `slice?` cut a text at byte offsets and refuse an offset that falls inside a
character or beyond the end.
-/

namespace FlowErasure.Text

/-- Length in UTF-8 bytes. -/
def byteLength (cs : List Char) : Nat :=
  cs.foldr (fun c n => c.utf8Size + n) 0

/-- UTF-16 units of one character. -/
def units (c : Char) : Nat :=
  if c.toNat < 0x10000 then 1 else 2

/-- Length in UTF-16 units. -/
def unitLength (cs : List Char) : Nat :=
  cs.foldr (fun c n => units c + n) 0

/-- The text after its first `n` bytes. -/
def drop? : List Char → Nat → Option (List Char)
  | cs, 0 => some cs
  | [], _ + 1 => none
  | c :: cs, n + 1 => if c.utf8Size ≤ n + 1 then drop? cs (n + 1 - c.utf8Size) else none

private def takeOnto (taken : List Char) : List Char → Nat → Option (List Char)
  | _, 0 => some taken.reverse
  | [], _ + 1 => none
  | c :: cs, n + 1 =>
    if c.utf8Size ≤ n + 1 then takeOnto (c :: taken) cs (n + 1 - c.utf8Size) else none

/-- The first `n` bytes of a text. -/
def take? (cs : List Char) (n : Nat) : Option (List Char) :=
  takeOnto [] cs n

/-- The bytes from `start` up to `stop`. -/
def slice? (cs : List Char) (start stop : Nat) : Option (List Char) :=
  if start ≤ stop then (drop? cs start).bind (take? · (stop - start)) else none

private def unitsOnto (done : Nat) : List Char → Nat → Option Nat
  | _, 0 => some done
  | [], _ + 1 => none
  | c :: cs, n + 1 =>
    if c.utf8Size ≤ n + 1 then unitsOnto (done + units c) cs (n + 1 - c.utf8Size) else none

/-- Length in UTF-16 units of the first `n` bytes of a text. -/
def unitsBefore? (cs : List Char) (n : Nat) : Option Nat :=
  unitsOnto 0 cs n

@[simp] theorem byteLength_nil : byteLength [] = 0 := rfl

@[simp] theorem byteLength_cons (c : Char) (cs : List Char) :
    byteLength (c :: cs) = c.utf8Size + byteLength cs := rfl

@[simp] theorem byteLength_append (as bs : List Char) :
    byteLength (as ++ bs) = byteLength as + byteLength bs := by
  induction as with
  | nil => simp
  | cons a as ih => simp [ih, Nat.add_assoc]

@[simp] theorem unitLength_nil : unitLength [] = 0 := rfl

@[simp] theorem unitLength_cons (c : Char) (cs : List Char) :
    unitLength (c :: cs) = units c + unitLength cs := rfl

@[simp] theorem unitLength_append (as bs : List Char) :
    unitLength (as ++ bs) = unitLength as + unitLength bs := by
  induction as with
  | nil => simp
  | cons a as ih => simp [ih, Nat.add_assoc]

@[simp] theorem unitLength_reverse (cs : List Char) : unitLength cs.reverse = unitLength cs := by
  induction cs with
  | nil => rfl
  | cons c cs ih => simp [ih, Nat.add_comm]

private theorem unitsOnto_eq (cs : List Char) (taken : List Char) (n : Nat) :
    unitsOnto (unitLength taken) cs n = (takeOnto taken cs n).map unitLength := by
  induction cs generalizing taken n with
  | nil => cases n <;> simp [unitsOnto, takeOnto]
  | cons c cs ih =>
    cases n with
    | zero => simp [unitsOnto, takeOnto]
    | succ n =>
      have h := ih (c :: taken) (n + 1 - c.utf8Size)
      rw [unitLength_cons, Nat.add_comm] at h
      by_cases hc : c.utf8Size ≤ n + 1 <;> simp [unitsOnto, takeOnto, hc, h]

/-- Counting agrees with cutting. -/
theorem unitsBefore?_eq (cs : List Char) (n : Nat) :
    unitsBefore? cs n = (take? cs n).map unitLength :=
  unitsOnto_eq cs [] n

/-- Dropping the bytes of a leading part leaves the rest. -/
theorem drop?_append (as bs : List Char) : drop? (as ++ bs) (byteLength as) = some bs := by
  induction as with
  | nil => cases bs <;> rfl
  | cons a as ih =>
    have pos := a.utf8Size_pos
    obtain ⟨n, hn⟩ : ∃ n, byteLength (a :: as) = n + 1 :=
      ⟨a.utf8Size + byteLength as - 1, by simp; omega⟩
    rw [hn]
    have hle : a.utf8Size ≤ n + 1 := by simp at hn; omega
    have hrest : n + 1 - a.utf8Size = byteLength as := by simp at hn; omega
    simp [drop?, hle, hrest, ih]

private theorem takeOnto_append (taken as bs : List Char) :
    takeOnto taken (as ++ bs) (byteLength as) = some (taken.reverse ++ as) := by
  induction as generalizing taken with
  | nil => cases bs <;> simp [takeOnto]
  | cons a as ih =>
    have pos := a.utf8Size_pos
    obtain ⟨n, hn⟩ : ∃ n, byteLength (a :: as) = n + 1 :=
      ⟨a.utf8Size + byteLength as - 1, by simp; omega⟩
    rw [hn]
    have hle : a.utf8Size ≤ n + 1 := by simp at hn; omega
    have hrest : n + 1 - a.utf8Size = byteLength as := by simp at hn; omega
    simp [takeOnto, hle, hrest, ih]

/-- Taking the bytes of a leading part gives that part. -/
theorem take?_append (as bs : List Char) : take? (as ++ bs) (byteLength as) = some as :=
  takeOnto_append [] as bs

end FlowErasure.Text
