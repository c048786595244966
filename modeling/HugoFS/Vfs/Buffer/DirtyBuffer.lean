import HugoFS.Vfs.Buffer.Block

/-!
# The buffer in memory

`DirtyRWBuffer` copies what is written over the data of a block. A new block has no data, so that
the copy panics and no block is ever kept.
-/

namespace HugoFS.Vfs.Buffer

open Segment List

/-- A block with the storage that is made for it. Its data is allocated by `WriteAt`. -/
structure DirtyBlock where
  mem : MemBlock
  storage : Storage
  allocated : Bool

namespace DirtyBlock

def new : DirtyBlock := ⟨.new, ∅, false⟩

def len (size : ℕ) (b : DirtyBlock) : ℕ := if b.allocated then size else 0

/-- `WriteAt` at the beginning of the file, which only the first block accepts. The storage panics
if a full block is zero. -/
def enlarge (size idx : ℕ) (p : List UInt8) (b : DirtyBlock) : Option DirtyBlock :=
  if idx ≠ 0 then some b
  else
    let put := b.mem.put 0 (p.take size)
    let r := b.mem.writeAt size idx b.storage 0 p
    if size ≤ put.written ∧ put.flushed = false ∧ put.interval.merge.total = size ∧
        ∀ o < size, put.data o = 0 then none
    else some ⟨r.2.1, r.2.2, true⟩

end DirtyBlock

structure DirtyRWBuffer where
  blockSize : ℕ
  blockMap : Finmap fun _ : ℕ => DirtyBlock
  totalSize : ℕ

namespace DirtyRWBuffer

def new (blockSize : ℤ) : DirtyRWBuffer :=
  ⟨if blockSize ≤ 0 then 4 * 2 ^ 20 else blockSize.toNat, ∅, 0⟩

def writeLoop (size : ℕ) : ℕ → ℕ → ℕ → List UInt8 → (Finmap fun _ : ℕ => DirtyBlock) →
    Option (Finmap fun _ : ℕ => DirtyBlock)
  | 0, _, _, _, m => some m
  | fuel + 1, idx, off, p, m =>
    if p = [] then some m
    else
      let n := min p.length (size - off)
      let entry := match m.lookup idx with
        | none => some DirtyBlock.new
        | some b => b.enlarge size idx
          (read (fun o => if o < b.len size then b.mem.data o else 0) 0 off ++ replicate n 0)
      entry.bind fun b =>
        -- the slice data[off:off+n]
        if b.len size < off + n then none
        else
          let mem := { b.mem with data := splice b.mem.data off (p.take n) }
          writeLoop size fuel (idx + 1) 0 (p.drop n) (m.insert idx { b with mem := mem })

def write (p : List UInt8) (off : ℕ) (b : DirtyRWBuffer) : Option DirtyRWBuffer :=
  (writeLoop b.blockSize p.length (off / b.blockSize) (off % b.blockSize) p b.blockMap).map
    fun m => { b with blockMap := m, totalSize := b.totalSize + p.length }

/-- The bytes that were read, and whether the end was reported. -/
def readLoop (size : ℕ) (m : Finmap fun _ : ℕ => DirtyBlock) : ℕ → ℕ → ℕ → ℕ → List UInt8 × Bool
  | 0, _, _, _ => ([], false)
  | k + 1, idx, off, left =>
    match m.lookup idx with
    | none => ([], false)
    | some b =>
      if b.len size < off then ([], true)
      else
        let n := min left (b.len size - off)
        let r := readLoop size m k (idx + 1) 0 (left - n)
        (read b.mem.data off n ++ r.1, r.2)

def read (len off : ℕ) (b : DirtyRWBuffer) : List UInt8 × Bool :=
  if len = 0 then ([], true)
  else
    let start := off / b.blockSize
    readLoop b.blockSize b.blockMap ((off + len - 1) / b.blockSize + 1 - start) start
      (off % b.blockSize) len

def writes : List (List UInt8 × ℕ) → DirtyRWBuffer → Option DirtyRWBuffer
  | [], b => some b
  | w :: ws, b => (b.write w.1 w.2).bind (writes ws)

def last (ws : List (List UInt8 × ℕ)) : ℕ → Option UInt8 :=
  ws.foldl (fun f w => splice f w.2 (w.1.map some)) fun _ => none

/-- No write panics, what is read from written blocks are the bytes written last, with zeros between
them, and the size is the largest end. -/
def Keeps (blockSize : ℤ) (ws : List (List UInt8 × ℕ)) : Prop :=
  ∃ b, writes ws (new blockSize) = some b ∧
    (∀ len off, 0 < len →
      (∀ x, off ≤ x → x < off + len →
        ∃ y, x / b.blockSize = y / b.blockSize ∧ last ws y ≠ none) →
      b.read len off = (Segment.read (fun x => (last ws x).getD 0) off len, false)) ∧
    b.totalSize = (ws.map fun w => if w.1 = [] then 0 else w.2 + w.1.length).foldr max 0

theorem write_nil (off : ℕ) (b : DirtyRWBuffer) : b.write [] off = some b := by
  rw [write, length_nil, writeLoop]
  rfl

theorem write_panics {p : List UInt8} (hp : p ≠ []) (off : ℕ) {b : DirtyRWBuffer}
    (hsize : 0 < b.blockSize) (hb : b.blockMap = ∅) : b.write p off = none := by
  have hpos := length_pos_iff.mpr hp
  have hoff := Nat.mod_lt off hsize
  obtain ⟨k, hk⟩ := Nat.exists_eq_add_of_lt hpos
  rw [write, hk, Nat.zero_add, writeLoop, if_neg hp, hb, Finmap.lookup_empty, Option.map_eq_none_iff]
  have hlen : DirtyBlock.new.len b.blockSize = 0 := rfl
  exact if_pos (by rw [hlen]; omega)

theorem writes_eq_some_iff (ws : List (List UInt8 × ℕ)) {b b' : DirtyRWBuffer}
    (hsize : 0 < b.blockSize) (hb : b.blockMap = ∅) :
    writes ws b = some b' ↔ b = b' ∧ ∀ w ∈ ws, w.1 = [] := by
  induction ws with
  | nil => simp [writes]
  | cons w ws ih =>
    by_cases hw : w.1 = []
    · rw [writes, hw, write_nil, Option.bind_some, ih, forall_mem_cons, and_iff_right hw]
    · rw [writes, write_panics hw w.2 hsize hb]
      simp [hw]

theorem last_of_nil {ws : List (List UInt8 × ℕ)} (h : ∀ w ∈ ws, w.1 = []) :
    last ws = fun _ => none := by
  induction ws with
  | nil => rfl
  | cons w ws ih =>
    rw [forall_mem_cons] at h
    rw [last, foldl_cons, h.1, map_nil, splice_nil]
    exact ih h.2

/-- The buffer keeps what is written exactly if every write is empty. -/
theorem keeps_iff (blockSize : ℤ) (ws : List (List UInt8 × ℕ)) :
    Keeps blockSize ws ↔ ∀ w ∈ ws, w.1 = [] := by
  have hsize : 0 < (new blockSize).blockSize := by
    by_cases h : blockSize ≤ 0
    · simp [new, h]
    · rw [new, if_neg h]
      exact Int.pos_iff_toNat_pos.mp (not_le.mp h)
  constructor
  · rintro ⟨b, hb, -⟩
    exact ((writes_eq_some_iff ws hsize rfl).mp hb).2
  · intro h
    refine ⟨_, (writes_eq_some_iff ws hsize rfl).mpr ⟨rfl, h⟩, fun len off hlen hin => ?_, ?_⟩
    · obtain ⟨y, -, hy⟩ := hin off le_rfl (by omega)
      exact absurd (by rw [last_of_nil h]) hy
    · induction ws with
      | nil => rfl
      | cons w ws ih =>
        rw [forall_mem_cons] at h
        rw [map_cons, foldr_cons, if_pos h.1, Nat.zero_max]
        exact ih h.2

/-- The first byte has no place. -/
theorem write_byte_panics : (new 4).write [1] 0 = none :=
  rfl

end DirtyRWBuffer

end HugoFS.Vfs.Buffer
