import HugoFS.Lib.Bytes
import Mathlib.Data.List.Induction
import Mathlib.Data.Nat.Log
import Mathlib.Tactic.Ring

/-!
# Numbers written without a separator

A number in decimal digits followed at once by an integer: two pairs may give one text, unless
the integers have equally many digits.
-/

namespace ByteString

open List Int Nat

variable {x y : ByteString}

/-! ### Rows of digits -/

def numDigits (n : ℕ) : ℕ := Nat.log 10 n + 1

theorem length_decimal (n : ℕ) : (decimal n).length = numDigits n := by
  have hbound : ∀ {k : ℕ}, 0 < k → ((decimal n).length ≤ k ↔ n < 10 ^ k) := by
    intro k hk
    rw [decimal, length_map]
    exact length_toDigits_le_iff (by decide) hk
  apply le_antisymm
  · exact (hbound (succ_pos _)).mpr (lt_pow_succ_log_self (by decide) n)
  · have hpos : 0 < (decimal n).length := length_pos_of_ne_nil (decimal_ne_nil n)
    have hlt : n < 10 ^ (decimal n).length := (hbound hpos).mp le_rfl
    exact log_lt_of_lt_pow' hpos.ne' hlt

theorem value_concat (x : ByteString) (b : UInt8) :
    value (x ++ [b]) = 10 * value x + (b.toNat - 48) := by
  rw [value, foldl_append]
  rfl

theorem value_append (x y : ByteString) :
    value (x ++ y) = value x * 10 ^ y.length + value y := by
  induction y using reverseRecOn with
  | nil => simp [value]
  | append_singleton y b ih =>
    rw [← append_assoc, value_concat, value_concat, ih, length_append,
      length_singleton, pow_succ]
    ring

theorem eq_of_value_eq (hx : ∀ b ∈ x, isDigit b) (hy : ∀ b ∈ y, isDigit b)
    (hlen : x.length = y.length) (hval : value x = value y) : x = y := by
  have hdigit : ∀ {b : UInt8}, isDigit b = true → 48 ≤ b.toNat ∧ b.toNat ≤ 57 := by
    intro b hb
    rw [isDigit, Bool.and_eq_true, decide_eq_true_eq, decide_eq_true_eq] at hb
    exact ⟨UInt8.le_iff_toNat_le.mp hb.1, UInt8.le_iff_toNat_le.mp hb.2⟩
  -- from the right, where the last digit is the remainder by ten
  induction x using reverseRecOn generalizing y with
  | nil => exact (length_eq_zero_iff.mp hlen.symm).symm
  | append_singleton x b ih =>
    cases y using reverseRecOn with
    | nil => simp at hlen
    | append_singleton y c =>
      have hb := hdigit (hx b (by simp))
      have hc := hdigit (hy c (by simp))
      rw [value_concat, value_concat] at hval
      have hlen' : x.length = y.length := by simpa using hlen
      have hxy : x = y := by
        apply ih _ _ hlen' (by omega)
        · intro d hd
          exact hx d (mem_append_left _ hd)
        · intro d hd
          exact hy d (mem_append_left _ hd)
      have hbc : b = c := UInt8.toNat_inj.mp (by omega)
      rw [hxy, hbc]

/-! ### A number and an integer -/

/-- When two pairs of a number and an integer give one text: they are the same, or no
integer has a sign and the digits are as many and make up one number. -/
def SameDigits (n : ℕ) (z : ℤ) (n' : ℕ) (z' : ℤ) : Prop :=
  (n = n' ∧ z = z') ∨
    0 ≤ z ∧ 0 ≤ z' ∧
      numDigits n + numDigits z.toNat = numDigits n' + numDigits z'.toNat ∧
      n * 10 ^ numDigits z.toNat + z.toNat = n' * 10 ^ numDigits z'.toNat + z'.toNat

theorem decimal_append_decimal_eq_iff (n m n' m' : ℕ) :
    decimal n ++ decimal m = decimal n' ++ decimal m' ↔
      numDigits n + numDigits m = numDigits n' + numDigits m' ∧
        n * 10 ^ numDigits m + m = n' * 10 ^ numDigits m' + m' := by
  have hlen : ∀ n m, (decimal n ++ decimal m).length = numDigits n + numDigits m := by
    intro n m
    rw [length_append, length_decimal, length_decimal]
  have hval : ∀ n m, value (decimal n ++ decimal m) = n * 10 ^ numDigits m + m := by
    intro n m
    rw [value_append, value_decimal, value_decimal, length_decimal]
  have hdigits : ∀ n m, ∀ b ∈ decimal n ++ decimal m, isDigit b := by
    intro n m b hb
    rcases mem_append.mp hb with h | h
    · exact isDigit_of_mem_decimal h
    · exact isDigit_of_mem_decimal h
  rw [← hlen, ← hlen, ← hval, ← hval]
  constructor
  · intro h
    rw [h]
    exact ⟨rfl, rfl⟩
  · rintro ⟨hl, hv⟩
    exact eq_of_value_eq (hdigits n m) (hdigits n' m') hl hv

theorem decimal_append_decimal_ne (n m n' m' : ℕ) :
    decimal n ++ decimal m ≠ decimal n' ++ 45 :: decimal m' := by
  intro h
  have hmem : (45 : UInt8) ∈ decimal n ++ decimal m := by
    rw [h]
    exact mem_append_right _ mem_cons_self
  rcases mem_append.mp hmem with h | h
  · exact notMem_decimal (by decide) n h
  · exact notMem_decimal (by decide) m h

theorem decimal_append_signed_eq_iff (n : ℕ) (z : ℤ) (n' : ℕ) (z' : ℤ) :
    decimal n ++ signed z = decimal n' ++ signed z' ↔ SameDigits n z n' z' := by
  have hsign : (45 : UInt8) ∉ decimal n := notMem_decimal (by decide) n
  have hsign' : (45 : UInt8) ∉ decimal n' := notMem_decimal (by decide) n'
  cases z with
  | ofNat m =>
    cases z' with
    | ofNat m' =>
      rw [signed, signed, decimal_append_decimal_eq_iff, SameDigits]
      constructor
      · rintro ⟨hl, hv⟩
        exact .inr ⟨natCast_nonneg m, natCast_nonneg m', hl, hv⟩
      · rintro (⟨rfl, hz⟩ | ⟨-, -, hl, hv⟩)
        · rw [ofNat.inj hz]
          exact ⟨rfl, rfl⟩
        · exact ⟨hl, hv⟩
    | negSucc m' =>
      apply iff_of_false (decimal_append_decimal_ne n m n' (m' + 1))
      rintro (⟨-, hz⟩ | ⟨-, hz, -⟩)
      · cases hz
      · omega
  | negSucc m =>
    cases z' with
    | ofNat m' =>
      apply iff_of_false (decimal_append_decimal_ne n' m' n (m + 1)).symm
      rintro (⟨-, hz⟩ | ⟨hz, -⟩)
      · cases hz
      · omega
    | negSucc m' =>
      rw [signed, signed, append_sep_inj hsign hsign']
      constructor
      · rintro ⟨hn, hm⟩
        have hmm : m + 1 = m' + 1 := decimal_injective hm
        exact .inl ⟨decimal_injective hn, by rw [succ.inj hmm]⟩
      · rintro (⟨rfl, hz⟩ | ⟨hz, -⟩)
        · rw [negSucc.inj hz]
          exact ⟨rfl, rfl⟩
        · omega

theorem sameDigits_iff_of_numDigits {n n' : ℕ} {z z' : ℤ} (hz : 0 ≤ z) (hz' : 0 ≤ z')
    (h : numDigits z.toNat = numDigits z'.toNat) : SameDigits n z n' z' ↔ n = n' ∧ z = z' := by
  obtain ⟨m, rfl⟩ := eq_ofNat_of_zero_le hz
  obtain ⟨m', rfl⟩ := eq_ofNat_of_zero_le hz'
  rw [← decimal_append_signed_eq_iff]
  have hlen : (decimal m).length = (decimal m').length := by
    rw [length_decimal, length_decimal]
    exact h
  constructor
  · intro heq
    obtain ⟨hn, hm⟩ := append_inj' heq hlen
    exact ⟨decimal_injective hn, congrArg ofNat (decimal_injective hm)⟩
  · rintro ⟨rfl, heq⟩
    rw [heq]

end ByteString
