import HugoFS.Lib.FiniteMap

/-!
# The storage in memory

`MemStorageBackend.Write` cuts its data into blocks with a loop whose end is the size of one block,
not the offset plus that size. Beyond the first block the loop panics or goes on forever.
-/

namespace HugoFS.Adaptor

open Finmap List

/-- The blocks of `backed` are made with `blockSize` bytes. -/
structure MemStorageBackend where
  blockSize : ℕ
  backed : Finmap fun _ : UInt64 × UInt64 => List UInt8
  ino2key : Finmap fun _ : UInt64 => List (UInt64 × UInt64)
  pos : 0 < blockSize
  sized : ∀ key blk, backed.lookup key = some blk → blk.length = blockSize

inductive WriteEnd
  | running
  | panicked
  | written (backed : Finmap fun _ : UInt64 × UInt64 => List UInt8)
      (ka : List (UInt64 × UInt64))

/-- The bytes of a slice after a copy to its start. -/
def copyTo (orig p : List UInt8) : List UInt8 := p.take orig.length ++ orig.drop p.length

namespace MemStorageBackend

def writeLoop (blockSize : ℕ) (data : List UInt8) : ℕ → ℕ → ℕ → UInt64 × UInt64 →
    (Finmap fun _ : UInt64 × UInt64 => List UInt8) → List (UInt64 × UInt64) → WriteEnd
  | 0, _, _, _, _, _ => .running
  | fuel + 1, off, remaining, key, backed, ka =>
    if remaining = 0 then .written backed ka
    else
      let stop := min blockSize remaining
      -- the slice data[off:stop]
      if stop < off then .panicked
      else
        let orig := (backed.lookup key).getD (replicate blockSize 0)
        writeLoop blockSize data fuel stop (remaining - (stop - off)) (key.1, key.2 + 1)
          (backed.insert key (copyTo orig ((data.take stop).drop off))) (ka ++ [key])

def write (b : MemStorageBackend) (fuel : ℕ) (key : UInt64 × UInt64) (data : List UInt8) :
    WriteEnd :=
  if data.all (· = 0) then .panicked
  else
    writeLoop b.blockSize data fuel 0 data.length key b.backed ((b.ino2key.lookup key.1).getD [])

/-- Each block from `key` on starts with its part of the data, and the others are unchanged. -/
def Stores (b : MemStorageBackend) (key : UInt64 × UInt64) (data : List UInt8)
    (backed : Finmap fun _ : UInt64 × UInt64 => List UInt8) : Prop :=
  (∀ i, i * b.blockSize < data.length → ∃ blk, backed.lookup (key.1, key.2 + .ofNat i) = some blk ∧
    (data.drop (i * b.blockSize)).take b.blockSize <+: blk) ∧
  ∀ key', (∀ i, i * b.blockSize < data.length → key' ≠ (key.1, key.2 + .ofNat i)) →
    backed.lookup key' = b.backed.lookup key'

theorem writeLoop_ne_written {size : ℕ} (data : List UInt8) (fuel : ℕ) {remaining : ℕ}
    (h : 0 < remaining) (key : UInt64 × UInt64)
    (backed backed' : Finmap fun _ : UInt64 × UInt64 => List UInt8)
    (ka ka' : List (UInt64 × UInt64)) :
    writeLoop size data fuel size remaining key backed ka ≠ .written backed' ka' := by
  -- the offset is the end of the first block, so that nothing more is taken away
  induction fuel generalizing key backed ka with
  | zero => exact WriteEnd.noConfusion
  | succ fuel ih =>
    rw [writeLoop, if_neg h.ne']
    by_cases hpanic : min size remaining < size
    · rw [if_pos hpanic]
      exact WriteEnd.noConfusion
    · have hstop : min size remaining = size := le_antisymm (min_le_left _ _) (not_lt.mp hpanic)
      rw [if_neg hpanic, hstop, Nat.sub_self, Nat.sub_zero]
      exact ih _ _ _

/-- A write ends and stores its data exactly if the data is not longer than a block. -/
theorem write_stores_iff (b : MemStorageBackend) (key : UInt64 × UInt64) (data : List UInt8) :
    (∃ fuel backed ka, b.write fuel key data = .written backed ka ∧ b.Stores key data backed) ↔
      (∃ x ∈ data, x ≠ 0) ∧ data.length ≤ b.blockSize := by
  have hpos := b.pos
  by_cases hzero : data.all (· = 0) = true
  · refine iff_of_false ?_ ?_
    · rintro ⟨fuel, backed, ka, h, -⟩
      rw [write, if_pos hzero] at h
      cases h
    · rintro ⟨⟨x, hx, hne⟩, -⟩
      exact hne (by simpa using all_eq_true.mp hzero x hx)
  have hsome : ∃ x ∈ data, x ≠ 0 := by simpa using hzero
  have hlen : 0 < data.length := length_pos_of_mem hsome.choose_spec.1
  rw [and_iff_right hsome]
  constructor
  · rintro ⟨fuel, backed, ka, h, -⟩
    by_contra hlong
    rw [write, if_neg hzero] at h
    cases fuel with
    | zero => cases h
    | succ fuel =>
      rw [writeLoop, if_neg hlen.ne', min_eq_left (by omega), if_neg (by omega)] at h
      exact writeLoop_ne_written data fuel (by omega) _ _ _ _ _ h
  · intro hle
    have horig : ((b.backed.lookup key).getD (replicate b.blockSize 0)).length = b.blockSize := by
      cases hb : b.backed.lookup key with
      | none => simp
      | some blk => exact b.sized key blk hb
    have hstart : ∀ i, i * b.blockSize < data.length ↔ i = 0 := by
      intro i
      rcases i with _ | i
      · simpa using hlen
      · have : b.blockSize ≤ (i + 1) * b.blockSize := Nat.le_mul_of_pos_left _ (Nat.succ_pos i)
        omega
    have hkey : (key.1, key.2 + UInt64.ofNat 0) = key := Prod.ext rfl (by simp)
    have hwrite : b.write 2 key data = .written (b.backed.insert key
        (copyTo ((b.backed.lookup key).getD (replicate b.blockSize 0)) data))
        ((b.ino2key.lookup key.1).getD [] ++ [key]) := by
      rw [write, if_neg hzero, writeLoop, if_neg hlen.ne', min_eq_right hle,
        if_neg (Nat.not_lt_zero _), Nat.sub_zero, Nat.sub_self, writeLoop, if_pos rfl, take_length,
        drop_zero]
    refine ⟨2, _, _, hwrite, fun i hi => ?_, fun key' hkey' => ?_⟩
    · obtain rfl := (hstart i).mp hi
      refine ⟨_, by rw [hkey, lookup_insert], ?_⟩
      rw [Nat.zero_mul, drop_zero, take_of_length_le hle, copyTo, horig, take_of_length_le hle]
      exact prefix_append _ _
    · exact lookup_insert_of_ne _ fun h => hkey' 0 ((hstart 0).mpr rfl) (h.trans hkey.symm)

/-- Three bytes do not fit into blocks of two. -/
theorem write_panics :
    let b : MemStorageBackend := ⟨2, ∅, ∅, by decide, fun _ _ h => by cases h⟩
    b.write 2 (1, 0) [1, 2, 3] = .panicked :=
  rfl

end MemStorageBackend

end HugoFS.Adaptor
