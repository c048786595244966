import Mathlib.Data.Nat.Bitwise
import Mathlib.Data.Nat.Notation

/-!
# Masks of a machine word

Fields of bits in a 32-bit word are read with `&&&` and joined with `|||`. A mask that
is the union of two reads both of its parts, and a mask of one bit reads either nothing
or itself.
-/

namespace Masks

open Nat

variable {x y m n b : UInt32}

theorem or_and (x y m : UInt32) : (x ||| y) &&& m = (x &&& m) ||| (y &&& m) := by
  apply UInt32.toBitVec_inj.mp
  apply BitVec.eq_of_getLsbD_eq
  intro i hi
  simp [Bool.and_or_distrib_right]

theorem and_or (x m n : UInt32) : x &&& (m ||| n) = (x &&& m) ||| (x &&& n) := by
  rw [UInt32.and_comm, or_and, UInt32.and_comm m, UInt32.and_comm n]

theorem xor_and (x y m : UInt32) : (x ^^^ y) &&& m = (x &&& m) ^^^ (y &&& m) := by
  apply UInt32.toBitVec_inj.mp
  apply BitVec.eq_of_getLsbD_eq
  intro i hi
  simp [Bool.and_xor_distrib_right]

theorem or_and_self (x m : UInt32) : x ||| (x &&& m) = x := by
  apply UInt32.toBitVec_inj.mp
  apply BitVec.eq_of_getLsbD_eq
  intro i hi
  simp only [UInt32.toBitVec_or, UInt32.toBitVec_and, BitVec.getLsbD_or, BitVec.getLsbD_and]
  cases x.toBitVec.getLsbD i <;> simp

theorem and_and {k : UInt32} (h : m &&& n = k) (x : UInt32) : x &&& m &&& n = x &&& k := by
  rw [UInt32.and_assoc, h]

theorem and_eq_of_sub (hsub : n &&& m = m) (h : x &&& n = y &&& n) : x &&& m = y &&& m :=
  calc x &&& m = x &&& n &&& m := (and_and hsub x).symm
    _ = y &&& n &&& m := by rw [h]
    _ = y &&& m := and_and hsub y

theorem and_eq_zero_of_sub (hsub : n &&& m = m) (h : x &&& n = 0) : x &&& m = 0 := by
  have h0 : x &&& n = 0 &&& n := h.trans UInt32.zero_and.symm
  exact (and_eq_of_sub hsub h0).trans UInt32.zero_and

theorem and_bit {i : ℕ} (hb : b.toNat = 2 ^ i) (x : UInt32) : x &&& b = 0 ∨ x &&& b = b := by
  have hx : (x &&& b).toNat = (x.toNat.testBit i).toNat * 2 ^ i := by
    rw [UInt32.toNat_and, hb, and_two_pow]
  cases hbit : x.toNat.testBit i with
  | false =>
    left
    apply UInt32.toNat_inj.mp
    rw [hx, hbit]
    simp
  | true =>
    right
    apply UInt32.toNat_inj.mp
    rw [hx, hbit, hb]
    simp

theorem byte_and_eq_iff (x m : UInt8) :
    x &&& m = m ↔ ∀ i, m.toNat.testBit i = true → x.toNat.testBit i = true := by
  rw [← UInt8.toNat_inj, UInt8.toNat_and]
  constructor
  · intro h i hi
    rw [← h, testBit_and, Bool.and_eq_true] at hi
    exact hi.1
  · intro h
    apply eq_of_testBit_eq
    intro i
    rw [testBit_and]
    cases hm : m.toNat.testBit i with
    | false => exact Bool.and_false _
    | true => rw [h i hm, Bool.and_true]

theorem testBit_and_seven (x : UInt8) (i : ℕ) :
    (x &&& 7).toNat.testBit i = true ↔ i < 3 ∧ x.toNat.testBit i = true := by
  have h7 : (7 : UInt8).toNat = 2 ^ 3 - 1 := rfl
  rw [UInt8.toNat_and, h7, testBit_and, testBit_two_pow_sub_one, Bool.and_eq_true,
    decide_eq_true_eq, and_comm]

theorem testBit_triple (x : UInt32) {s : UInt32} (hs : s.toNat < 32) (i : ℕ) :
    ((x >>> s).toUInt8 &&& 7).toNat.testBit i = true ↔
      i < 3 ∧ x.toNat.testBit (s.toNat + i) = true := by
  rw [testBit_and_seven, UInt32.toNat_toUInt8, UInt32.toNat_shiftRight, mod_eq_of_lt hs,
    testBit_mod_two_pow, testBit_shiftRight, Bool.and_eq_true, decide_eq_true_eq]
  constructor
  · rintro ⟨hi, -, hbit⟩
    exact ⟨hi, hbit⟩
  · rintro ⟨hi, hbit⟩
    exact ⟨hi, by omega, hbit⟩

end Masks
