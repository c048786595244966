import HugoFS.Lib.Bytes

/-!
# Fields of fixed width

Numbers in big-endian order, and strings that are copied into a field of zeros. A field
is read back from the bytes of its own: a number modulo the range of the field, a string
without zeros by leaving out the zeros.
-/

namespace ByteString

open List

/-! ### Numbers -/

def bigEndian : ℕ → ℕ → ByteString
  | 0, _ => []
  | k + 1, n => bigEndian k (n / 256) ++ [UInt8.ofNat n]

def ofBigEndian (bs : ByteString) : ℕ := bs.foldl (fun n b => 256 * n + b.toNat) 0

@[simp] theorem length_bigEndian (k n : ℕ) : (bigEndian k n).length = k := by
  induction k generalizing n with
  | zero => rfl
  | succ k ih => simp [bigEndian, ih]

theorem ofBigEndian_bigEndian (k n : ℕ) : ofBigEndian (bigEndian k n) = n % 256 ^ k := by
  induction k generalizing n with
  | zero => simp [bigEndian, ofBigEndian, Nat.mod_one]
  | succ k ih =>
    have hlast : (UInt8.ofNat n).toNat = n % 256 := by simp
    have happend : ofBigEndian (bigEndian (k + 1) n) =
        256 * ofBigEndian (bigEndian k (n / 256)) + (UInt8.ofNat n).toNat := by
      simp [bigEndian, ofBigEndian]
    rw [happend, ih, hlast, pow_succ', Nat.mod_mul, add_comm]

theorem ofBigEndian_bigEndian_of_lt {k n : ℕ} (h : n < 256 ^ k) :
    ofBigEndian (bigEndian k n) = n := by
  rw [ofBigEndian_bigEndian, Nat.mod_eq_of_lt h]

/-! ### Strings -/

def copyInto (k : ℕ) (bs : ByteString) : ByteString := bs.take k ++ List.replicate (k - bs.length) 0

def withoutZeros (bs : ByteString) : ByteString := bs.filter (· != 0)

@[simp] theorem length_copyInto (k : ℕ) (bs : ByteString) : (copyInto k bs).length = k := by
  simp only [copyInto, length_append, length_take, length_replicate]
  omega

theorem copyInto_of_length {k : ℕ} {bs : ByteString} (h : bs.length = k) : copyInto k bs = bs := by
  rw [copyInto, ← h, take_length, Nat.sub_self, replicate_zero, append_nil]

theorem withoutZeros_copyInto (k : ℕ) (bs : ByteString) :
    withoutZeros (copyInto k bs) = withoutZeros (bs.take k) := by
  simp [withoutZeros, copyInto, filter_append]

theorem withoutZeros_copyInto_eq_iff {k : ℕ} {bs : ByteString} :
    withoutZeros (copyInto k bs) = bs ↔ bs.length ≤ k ∧ (0 : UInt8) ∉ bs := by
  rw [withoutZeros_copyInto, withoutZeros]
  constructor
  · intro h
    constructor
    · calc bs.length = ((bs.take k).filter (· != 0)).length := by rw [h]
        _ ≤ (bs.take k).length := length_filter_le _ _
        _ ≤ k := length_take_le k bs
    · rw [← h]
      simp
  · rintro ⟨hlen, hzero⟩
    rw [take_of_length_le hlen, filter_eq_self]
    intro b hb
    simp only [bne_iff_ne, ne_eq]
    rintro rfl
    exact hzero hb

end ByteString
