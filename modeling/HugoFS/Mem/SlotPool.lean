import Mathlib.Data.Int.ConditionallyCompleteOrder
import Mathlib.Data.Nat.Digits.Defs
import Mathlib.Tactic.SplitIfs

/-!
# Pools of byte slices

`Allocate` and `Free` keep slices in pools by the power of two that bounds their size. The test
for zero bytes reads words as long as it can.
-/

namespace HugoFS.Mem

open List Nat

/-! ### The pool of a size -/

/-- The sum wraps for the largest `int`. -/
def half (size : ℤ) : ℤ := (size + 1).bmod (2 ^ 64) / 2

theorem half_lt {size : ℤ} (h : 1024 < size) : half size < size := by
  have hle : (size + 1).bmod (2 ^ 64) ≤ (size + 1) % 2 ^ 64 := by
    rw [Int.bmod]
    split_ifs <;> omega
  rw [half]
  omega

def bitCount (size : ℤ) : ℕ := if 1024 < size then bitCount (half size) + 1 else 0
termination_by size.toNat
decreasing_by
  have := half_lt ‹_›
  omega

def poolCount : ℕ := bitCount (1024 * 1024 * 256)

def slotSize (i : ℕ) : ℕ := 1024 <<< i

def getSlotPool (size : ℤ) : Option ℕ :=
  if poolCount ≤ bitCount size then none else some (bitCount size)

theorem bitCount_le_iff {size : ℤ} (h : size < 2 ^ 63 - 1) (k : ℕ) :
    bitCount size ≤ k ↔ size ≤ 1024 * 2 ^ k := by
  induction k generalizing size with
  | zero =>
    rw [bitCount]
    split_ifs <;> omega
  | succ k ih =>
    rw [bitCount]
    split_ifs with hsize
    · have hhalf : half size = (size + 1) / 2 := by
        rw [half, Int.bmod_eq_of_le (by omega) (by omega)]
      rw [succ_le_succ_iff, ih (by omega), hhalf, pow_succ]
      omega
    · have : (1 : ℤ) ≤ 2 ^ (k + 1) := one_le_pow₀ (by decide)
      omega

theorem bitCount_maxValue : bitCount (2 ^ 63 - 1) = 1 := by
  rw [bitCount, if_pos (by decide), bitCount, if_neg (by decide)]

/-- The count is the least exponent for every size but the largest `int`, and a size up to 128 MiB
has a pool whose new slices are less than twice as large. -/
theorem bitCount_least_iff (size : Int64) :
    (IsLeast {k : ℕ | size.toInt ≤ 1024 * 2 ^ k} (bitCount size.toInt) ↔
      size ≠ Int64.maxValue) ∧
    (size.toInt ≤ 128 * 2 ^ 20 → ∃ i, getSlotPool size.toInt = some i ∧
      size.toInt ≤ slotSize i ∧ (slotSize i : ℤ) < 2 * max size.toInt 1024) := by
  have hmax : size = Int64.maxValue ↔ size.toInt = 2 ^ 63 - 1 := Int64.toInt_inj.symm
  have hlt : size.toInt < 2 ^ 63 := size.toInt_lt
  generalize size.toInt = n at hmax hlt
  rw [ne_eq, hmax]
  constructor
  · by_cases hn : n = 2 ^ 63 - 1
    · rw [hn, bitCount_maxValue]
      exact iff_of_false (fun h => absurd h.1 (by decide)) (by simp)
    · have hle := bitCount_le_iff (show n < 2 ^ 63 - 1 by omega)
      exact iff_of_true ⟨(hle _).mp le_rfl, fun k hk => (hle k).mpr hk⟩ hn
  · intro h
    have hle := bitCount_le_iff (show n < 2 ^ 63 - 1 by omega)
    have hpool : bitCount n ≤ 17 := (hle 17).mpr (by omega)
    have hslot : ((slotSize (bitCount n) : ℕ) : ℤ) = 1024 * 2 ^ bitCount n := by
      rw [slotSize, shiftLeft_eq]
      push_cast
      rfl
    -- the pools end with 128 MiB
    have hfound : ¬poolCount ≤ bitCount n := fun hle' =>
      absurd ((bitCount_le_iff (by decide) 17).mp (hle'.trans hpool)) (by decide)
    refine ⟨bitCount n, if_neg hfound, ?_, ?_⟩
    · rw [hslot]
      exact (hle _).mp le_rfl
    · rw [hslot]
      rcases hk : bitCount n with _ | k
      · omega
      · have hnot := mt (hle k).mpr (by omega)
        rw [pow_succ]
        omega

theorem bitCount_wraps :
    bitCount Int64.maxValue.toInt = 1 ∧ ¬Int64.maxValue.toInt ≤ 1024 * 2 ^ 1 :=
  ⟨bitCount_maxValue, by decide⟩

/-! ### Zero bytes -/

/-- The word at an offset, whose bytes have to lie in the slice. -/
def load64 (data : List UInt8) (i : ℕ) : Option ℕ :=
  if i + 8 ≤ data.length then some (Nat.ofDigits 256 (((data.drop i).take 8).map UInt8.toNat))
  else none

def tailLoop (data : List UInt8) (i : ℕ) : Option Bool :=
  if i < data.length then
    data[i]?.bind fun b => if b ≠ 0 then some false else tailLoop data (i + 1)
  else some true
termination_by data.length - i

def wordLoop (data : List UInt8) (nlen8 i : ℕ) : Option Bool :=
  if i < nlen8 then
    (load64 data i).bind fun b => if b ≠ 0 then some false else wordLoop data nlen8 (i + 8)
  else tailLoop data i
termination_by nlen8 - i

def isAllBytesZero (data : List UInt8) : Option Bool :=
  wordLoop data (data.length &&& 0xFFFFFFF8) 0

theorem tailLoop_eq (data : List UInt8) (i : ℕ) :
    tailLoop data i = some ((data.drop i).all (· = 0)) := by
  fun_induction tailLoop data i with
  | case1 i hi ih =>
    rw [getElem?_eq_getElem hi, Option.bind_some, drop_eq_getElem_cons hi, all_cons, ih]
    by_cases hb : data[i] = 0 <;> simp [hb]
  | case2 i hi => simp [drop_eq_nil_of_le (not_lt.mp hi)]

theorem ofDigits_eq_zero_iff (l : List UInt8) :
    Nat.ofDigits 256 (l.map UInt8.toNat) = 0 ↔ l.all (· = 0) = true := by
  rw [all_eq_true]
  constructor
  · intro h b hb
    have hzero := digits_zero_of_eq_zero (by decide) h b.toNat (mem_map_of_mem hb)
    exact decide_eq_true (UInt8.toNat_inj.mp hzero)
  · intro h
    have hl : l = replicate l.length 0 :=
      eq_replicate_of_mem fun b hb => of_decide_eq_true (h b hb)
    rw [hl, map_replicate]
    exact ofDigits_replicate_zero

theorem wordLoop_eq {data : List UInt8} {nlen8 i : ℕ} (hn : nlen8 ≤ data.length)
    (h8 : nlen8 % 8 = 0) (hi : i % 8 = 0) :
    wordLoop data nlen8 i = some ((data.drop i).all (· = 0)) := by
  fun_induction wordLoop data nlen8 i with
  | case1 i hlt ih =>
    have hall : (data.drop i).all (· = 0) =
        (((data.drop i).take 8).all (· = 0) && (data.drop (i + 8)).all (· = 0)) := by
      rw [← all_append, ← drop_drop, take_append_drop]
    rw [load64, if_pos (by omega), Option.bind_some, ih (by omega), hall]
    by_cases hb : Nat.ofDigits 256 (((data.drop i).take 8).map UInt8.toNat) = 0
    · rw [if_neg (not_not.mpr hb), (ofDigits_eq_zero_iff _).mp hb, Bool.true_and]
    · rw [if_pos hb, Bool.eq_false_iff.mpr (mt (ofDigits_eq_zero_iff _).mpr hb), Bool.false_and]
  | case2 i hlt => exact tailLoop_eq data i

/-- The words and the tail together look at every byte of the slice, and at no other. -/
theorem isAllBytesZero_eq (data : List UInt8) :
    isAllBytesZero data = some (data.all (· = 0)) := by
  have h8 : (data.length &&& 0xFFFFFFF8) % 8 = 0 := by
    rw [show 8 = 2 ^ 3 from rfl, and_mod_two_pow]
    exact and_zero _
  exact wordLoop_eq and_le_left h8 rfl

end HugoFS.Mem
