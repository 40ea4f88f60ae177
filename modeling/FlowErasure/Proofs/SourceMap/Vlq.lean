import FlowErasure.Proofs.Text.Offset
import FlowErasure.SourceMap.Vlq
import Mathlib.Algebra.Group.Int.Defs
import Mathlib.Algebra.Group.Nat.Defs
import Mathlib.Tactic.ByContra

/-!
# Reading back numbers in Base64

The digits of a word tell where they end, so a number at the front of a text is read the same whatever
follows it. A word holds the sign and 31 bits of magnitude, which is enough for every number but the
least: that one is written like a negative zero and read as zero.
-/

namespace FlowErasure.Vlq

open Text

/-! ## Digits -/

theorem charDigit?_digitChar : ∀ digit < 64, charDigit? (digitChar digit) = some digit := by
  decide

theorem digits_ne_nil (n : Nat) : digits n ≠ [] := by
  rw [digits]
  split <;> simp

theorem encode_ne_nil (value : Int32) : encode value ≠ [] := by
  simp [encode, digits_ne_nil]

theorem digits_lt (n : Nat) : ∀ digit ∈ digits n, digit < 64 := by
  fun_induction digits n with
  | case1 n h =>
      intro digit hdigit
      obtain rfl := List.mem_singleton.mp hdigit
      omega
  | case2 n h ih =>
      intro digit hdigit
      rcases List.mem_cons.mp hdigit with rfl | hdigit
      · omega
      · exact ih digit hdigit

theorem used_lt {n used word : Nat} (hbound : word + n * 2 ^ (5 * used) < 2 ^ 32)
    (hused : used = 0 ∨ 0 < n) : used < 7 := by
  by_contra hge
  have hn : 0 < n := hused.resolve_left (by omega)
  have hpow : 2 ^ 35 ≤ 2 ^ (5 * used) := Nat.pow_le_pow_right (by decide) (by omega)
  have hmul : 1 * 2 ^ (5 * used) ≤ n * 2 ^ (5 * used) := Nat.mul_le_mul_right _ hn
  omega

/-- The lowest digit of a number, at its place, and the others. -/
theorem split_digit (n used : Nat) :
    n * 2 ^ (5 * used) = n % 32 * 2 ^ (5 * used) + n / 32 * 2 ^ (5 * (used + 1)) := by
  have hpow : 2 ^ (5 * (used + 1)) = 32 * 2 ^ (5 * used) := by
    rw [Nat.mul_add, Nat.pow_add, Nat.mul_comm]
  calc n * 2 ^ (5 * used) = (n % 32 + n / 32 * 32) * 2 ^ (5 * used) := by
        rw [Nat.mul_comm (n / 32), Nat.mod_add_div]
    _ = n % 32 * 2 ^ (5 * used) + n / 32 * 2 ^ (5 * (used + 1)) := by
        rw [hpow, Nat.add_mul, Nat.mul_assoc]

/-- Reading digits adds the number they make up, at its place, to what was read before. -/
theorem decodeFrom_digits (n used word : Nat) (rest : List Char)
    (hbound : word + n * 2 ^ (5 * used) < 2 ^ 32) (hused : used = 0 ∨ 0 < n) :
    decodeFrom used word ((digits n).map digitChar ++ rest) =
      some (ofWord (word + n * 2 ^ (5 * used)), used + (digits n).length) := by
  fun_induction digits n generalizing used word with
  | case1 n h =>
      have hseven : ¬used ≥ 7 := Nat.not_le.mpr (used_lt hbound hused)
      have hdigit := charDigit?_digitChar n (by omega)
      have hword : (word + n <<< (5 * used)) % 0x100000000 = word + n * 2 ^ (5 * used) := by
        rw [Nat.shiftLeft_eq]
        exact Nat.mod_eq_of_lt hbound
      simp only [List.map_cons, List.map_nil, List.cons_append, List.nil_append, decodeFrom, hdigit,
        Option.bind_eq_bind, Option.bind_some, hseven, h, if_false, if_true, Nat.mod_eq_of_lt h,
        hword, List.length_cons, List.length_nil, Nat.zero_add]
  | case2 n h ih =>
      have hseven : ¬used ≥ 7 := Nat.not_le.mpr (used_lt hbound hused)
      have hdigit := charDigit?_digitChar (n % 32 + 32) (by omega)
      rw [split_digit, ← Nat.add_assoc] at hbound ⊢
      have hword : (word + (n % 32) <<< (5 * used)) % 0x100000000 =
          word + n % 32 * 2 ^ (5 * used) := by
        rw [Nat.shiftLeft_eq]
        exact Nat.mod_eq_of_lt (by omega)
      have hcontinues : ¬n % 32 + 32 < 32 := by omega
      simp only [List.map_cons, List.cons_append, decodeFrom, hdigit, Option.bind_eq_bind,
        Option.bind_some, hseven, if_false, Nat.add_mod_right, Nat.mod_mod, hword, hcontinues]
      rw [ih (used + 1) _ hbound (.inr (by omega)), List.length_cons, Nat.add_assoc used 1,
        Nat.add_comm 1]

theorem exists_digit_of_mem {value : Int32} {c : Char} (h : c ∈ encode value) :
    ∃ digit < 64, digitChar digit = c := by
  obtain ⟨digit, hdigit, rfl⟩ := List.mem_map.mp h
  exact ⟨digit, digits_lt _ digit hdigit, rfl⟩

theorem not_separator_of_mem {value : Int32} {c : Char} (h : c ∈ encode value) :
    c ≠ ';' ∧ c ≠ ',' := by
  obtain ⟨digit, hdigit, rfl⟩ := exists_digit_of_mem h
  have hall : ∀ digit < 64, digitChar digit ≠ ';' ∧ digitChar digit ≠ ',' := by decide +kernel
  exact hall digit hdigit

theorem byteLength_encode (value : Int32) : byteLength (encode value) = (encode value).length := by
  refine byteLength_eq_length fun c hc => ?_
  obtain ⟨digit, hdigit, rfl⟩ := exists_digit_of_mem hc
  have hall : ∀ digit < 64, (digitChar digit).utf8Size = 1 := by decide +kernel
  exact hall digit hdigit

/-! ## Words -/

theorem toWord_lt (value : Int32) : toWord value < 2 ^ 32 := by
  unfold toWord
  split <;> omega

theorem ofWord_eq (word : Nat) :
    ofWord word = Int32.ofInt (if word % 2 = 1 then -(word / 2 : Nat) else (word / 2 : Nat)) := by
  unfold ofWord
  split
  · rw [Int32.ofInt_neg, Int32.ofInt_eq_ofNat]
  · rw [Int32.ofInt_eq_ofNat]

/-- A word holds every number but the least. -/
theorem ofWord_toWord {value : Int32} (h : value.toInt ≠ -2 ^ 31) : ofWord (toWord value) = value := by
  have hlt := value.toInt_lt
  have hle := value.le_toInt
  have hsmall : 2 * value.toInt.natAbs % 0x100000000 = 2 * value.toInt.natAbs :=
    Nat.mod_eq_of_lt (by omega)
  have hnegative : value < 0 ↔ value.toInt < 0 := Int32.lt_iff_toInt_lt
  have hhalf : toWord value / 2 = value.toInt.natAbs := by
    unfold toWord
    rw [hsmall]
    split <;> omega
  have hodd : toWord value % 2 = 1 ↔ value.toInt < 0 := by
    unfold toWord
    rw [hsmall, ← hnegative]
    split <;> simp_all
  have hsigned : (if toWord value % 2 = 1 then -(value.toInt.natAbs : Int)
      else value.toInt.natAbs) = value.toInt := by
    split <;> omega
  rw [ofWord_eq, hhalf, hsigned, Int32.ofInt_toInt]

theorem ofWord_toWord_minValue : ofWord (toWord Int32.minValue) = 0 := by
  decide

theorem ofWord_toWord_eq (value : Int32) :
    ofWord (toWord value) = if value = Int32.minValue then 0 else value := by
  split
  · next hleast =>
      rw [hleast, ofWord_toWord_minValue]
  · next hvalue =>
      refine ofWord_toWord fun hint => hvalue ?_
      rw [← Int32.toInt_inj, hint, Int32.toInt_minValue]

/-- Half of a word is below the magnitude of the least number. -/
theorem ofWord_ne_minValue {word : Nat} (h : word < 2 ^ 32) : ofWord word ≠ Int32.minValue := by
  intro hleast
  have hint := congrArg Int32.toInt hleast
  rw [ofWord_eq, Int32.toInt_minValue, Int32.toInt_ofInt_of_le (by split <;> omega)
    (by split <;> omega)] at hint
  split at hint <;> omega

/-! ## Numbers at the front of a text -/

/-- Reading goes through the digits of a word and no further. -/
theorem decode_encode_toWord (value : Int32) (rest : List Char) :
    decode (encode value ++ rest) = some (ofWord (toWord value), (encode value).length) := by
  have hword := toWord_lt value
  rw [decode, encode, decodeFrom_digits _ 0 0 rest (by simpa using hword) (.inl rfl)]
  simp

/-- What is written for a number is read as the number, unless it is the least. -/
theorem decode_encode {value : Int32} (h : value.toInt ≠ -2 ^ 31) (rest : List Char) :
    decode (encode value ++ rest) = some (value, (encode value).length) := by
  rw [decode_encode_toWord, ofWord_toWord h]

theorem encode_zero : encode 0 = ['A'] := by
  rw [encode, digits]
  rfl

/-- The least number is written like a negative zero. -/
theorem encode_minValue : encode Int32.minValue = ['B'] := by
  rw [encode, digits]
  rfl

/-- Whatever follows them, two numbers at the front of one text are read alike. -/
theorem read_alike {a b : Int32} {as bs : List Char} (h : encode a ++ as = encode b ++ bs) :
    ofWord (toWord a) = ofWord (toWord b) ∧ (encode a).length = (encode b).length := by
  have hread := decode_encode_toWord a as
  rw [h, decode_encode_toWord b bs] at hread
  obtain ⟨hword, hlength⟩ := Prod.mk.inj (Option.some.inj hread)
  exact ⟨hword.symm, hlength.symm⟩

/-- No two numbers are written alike. Zero and the least number are read alike, but a negative zero is
written for the least number only. -/
theorem encode_injective : Function.Injective encode := by
  intro a b htext
  obtain ⟨hread, -⟩ := read_alike (congrArg (· ++ []) htext)
  rw [ofWord_toWord_eq, ofWord_toWord_eq] at hread
  split at hread <;> split at hread
  · next ha hb => rw [ha, hb]
  · next ha hb =>
      rw [ha, ← hread, encode_zero, encode_minValue] at htext
      exact absurd htext (by decide)
  · next ha hb =>
      rw [hb, hread, encode_zero, encode_minValue] at htext
      exact absurd htext (by decide)
  · exact hread

/-- Two numbers at the front of one text are the same, whatever follows each. -/
theorem eq_of_encode_append_eq {a b : Int32} {as bs : List Char}
    (h : encode a ++ as = encode b ++ bs) : a = b := by
  have htexts := List.append_inj h (read_alike h).2
  exact encode_injective htexts.1

/-- Whatever follows a number, reading ends where the number does and gives the number, or zero if it
is the least. The text of no other number stands there. -/
theorem decode_encode_append (value : Int32) (rest : List Char) :
    decode (encode value ++ rest) =
        some (if value = Int32.minValue then 0 else value, byteLength (encode value)) ∧
      ∀ other, encode other <+: encode value ++ rest ↔ other = value := by
  refine ⟨?_, fun other => ⟨?_, ?_⟩⟩
  · rw [decode_encode_toWord, ofWord_toWord_eq, byteLength_encode]
  · rintro ⟨after, hafter⟩
    exact eq_of_encode_append_eq hafter
  · rintro rfl
    exact List.prefix_append _ _

theorem decodeFrom_ne_minValue (used word : Nat) (cs : List Char) (length : Nat) :
    decodeFrom used word cs ≠ some (Int32.minValue, length) := by
  induction cs generalizing used word with
  | nil => simp [decodeFrom]
  | cons c cs ih =>
      rw [decodeFrom]
      cases hdigit : charDigit? c with
      | none => simp
      | some digit =>
          simp only [Option.bind_eq_bind, Option.bind_some]
          split
          · simp
          · split
            · intro hread
              have hword := congrArg Prod.fst (Option.some.inj hread)
              exact ofWord_ne_minValue (Nat.mod_lt _ (by decide)) hword
            · exact ih _ _

/-- No text is read as the least number. -/
theorem decode_ne_minValue (cs : List Char) (length : Nat) :
    decode cs ≠ some (Int32.minValue, length) :=
  decodeFrom_ne_minValue 0 0 cs length

/-- What is written for the least number is read as another one. -/
theorem not_decode_encode : ¬∀ (value : Int32) (rest : List Char),
    decode (encode value ++ rest) = some (value, byteLength (encode value)) := by
  intro h
  exact decode_ne_minValue _ _ (h Int32.minValue [])

end FlowErasure.Vlq
