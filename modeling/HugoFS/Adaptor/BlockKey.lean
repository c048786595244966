import HugoFS.Lib.Bytes

/-!
# The texts of block keys

`BlockKey` is the text of an inode and an index with a comma between them.
-/

namespace HugoFS.Adaptor

open ByteString List

/-- The number that `strconv.ParseUint` returns, with or without an error. -/
def parseUint (n : ℕ) : ByteString → ℕ
  | [] => n
  | b :: bs =>
    if isDigit b = false then 0
    else if 2 ^ 64 ≤ 10 * n + (b.toNat - 48) then 2 ^ 64 - 1
    else parseUint (10 * n + (b.toNat - 48)) bs

def cut (s : ByteString) (sep : UInt8) : ByteString × ByteString :=
  (s.takeWhile (· ≠ sep), (s.dropWhile (· ≠ sep)).tail)

def newBlockKey (ino index : UInt64) : ByteString :=
  decimal ino.toNat ++ 44 :: decimal index.toNat

def getIno (k : ByteString) : UInt64 := .ofNat (parseUint 0 (cut k 44).1)

def getIndex (k : ByteString) : UInt64 := .ofNat (parseUint 0 (cut k 44).2)

def split (k : ByteString) : UInt64 × UInt64 :=
  (.ofNat (parseUint 0 (cut k 44).1), .ofNat (parseUint 0 (cut k 44).2))

theorem parseUint_eq {bs : ByteString} {n : ℕ} (hbs : ∀ b ∈ bs, isDigit b)
    (h : bs.foldl (fun n b => 10 * n + (b.toNat - 48)) n < 2 ^ 64) :
    parseUint n bs = bs.foldl (fun n b => 10 * n + (b.toNat - 48)) n := by
  have hle : ∀ (bs : ByteString) n, n ≤ bs.foldl (fun n b => 10 * n + (b.toNat - 48)) n := by
    intro bs
    induction bs with
    | nil => exact fun n => le_rfl
    | cons b bs ih => exact fun n => (show n ≤ 10 * n + (b.toNat - 48) by omega).trans (ih _)
  induction bs generalizing n with
  | nil => rfl
  | cons b bs ih =>
    rw [forall_mem_cons] at hbs
    rw [parseUint, if_neg (by simp [hbs.1]), if_neg (not_le.mpr ((hle bs _).trans_lt h)),
      ih hbs.2 h, foldl_cons]

theorem parseUint_decimal (v : UInt64) : UInt64.ofNat (parseUint 0 (decimal v.toNat)) = v := by
  have hv : (decimal v.toNat).foldl (fun n b => 10 * n + (b.toNat - 48)) 0 = v.toNat :=
    value_decimal v.toNat
  rw [parseUint_eq (fun b hb => isDigit_of_mem_decimal hb) (hv.trans_lt v.toNat_lt), hv,
    UInt64.ofNat_toNat]

theorem cut_newBlockKey (ino index : UInt64) :
    cut (newBlockKey ino index) 44 = (decimal ino.toNat, decimal index.toNat) := by
  have hsep : ∀ b ∈ decimal ino.toNat, decide (b ≠ 44) = true := by
    intro b hb
    rw [decide_eq_true_iff]
    rintro rfl
    exact notMem_decimal (by decide) _ hb
  rw [cut, newBlockKey, takeWhile_append_of_pos hsep, dropWhile_append_of_pos hsep]
  simp

/-- A key is taken apart into what it was made of, and determines it. -/
theorem newBlockKey_split (ino index : UInt64) :
    split (newBlockKey ino index) = (ino, index) ∧ getIno (newBlockKey ino index) = ino ∧
      getIndex (newBlockKey ino index) = index ∧
      ∀ ino' index', newBlockKey ino index = newBlockKey ino' index' ↔
        (ino, index) = (ino', index') := by
  have hsplit : ∀ ino index, split (newBlockKey ino index) = (ino, index) := by
    intro ino index
    rw [split, cut_newBlockKey, parseUint_decimal, parseUint_decimal]
  have h := Prod.mk.inj (hsplit ino index)
  refine ⟨hsplit ino index, h.1, h.2, fun ino' index' => ⟨fun heq => ?_, fun heq => ?_⟩⟩
  · rw [← hsplit, heq, hsplit]
  · cases heq
    rfl

end HugoFS.Adaptor
