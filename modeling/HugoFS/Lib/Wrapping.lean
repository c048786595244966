import Mathlib.Algebra.Ring.Int.Defs
import Mathlib.Algebra.Ring.Nat
import Mathlib.Tactic.SplitIfs

/-!
# Unsigned and signed 64-bit integers

A conversion between `UInt64` and `Int64` keeps the bits, and arithmetic wraps around. What
comes out is the exact result where that is small enough.
-/

namespace Wrapping

theorem toInt_eq_cond (d : Int64) : d.toInt =
    if 2 * d.toUInt64.toNat < 2 ^ 64 then (d.toUInt64.toNat : ℤ)
    else (d.toUInt64.toNat : ℤ) - 2 ^ 64 :=
  BitVec.toInt_eq_toNat_cond d.toBitVec

theorem toInt_sub_toInt64 {a b : UInt64} (ha : a.toNat < 2 ^ 62) (hb : b.toNat < 2 ^ 62) :
    (a - b).toInt64.toInt = a.toNat - b.toNat := by
  have hcond := toInt_eq_cond (a - b).toInt64
  have hto : (a - b).toInt64.toUInt64 = a - b := rfl
  rw [hto, UInt64.toNat_sub] at hcond
  rw [hcond]
  split_ifs <;> omega

theorem sub_neg_iff {x y : Int64} (hx : -2 ^ 62 < x.toInt ∧ x.toInt < 2 ^ 62)
    (hy : -2 ^ 62 < y.toInt ∧ y.toInt < 2 ^ 62) : x - y < 0 ↔ x.toInt < y.toInt := by
  have hsub : (x - y).toInt = x.toInt - y.toInt := by
    rw [Int64.toInt_sub, Int.bmod_eq_of_le] <;> omega
  rw [Int64.lt_iff_toInt_lt, hsub]
  change x.toInt - y.toInt < 0 ↔ x.toInt < y.toInt
  omega

end Wrapping
