import HugoFS.Lib.Runs
import HugoFS.Vfs.Buffer.Swap
import Mathlib.Data.Finset.Sort
import Mathlib.Data.List.MinMax

/-!
# The upload pipeline

`UploadPipeline`. A write goes to a block in memory, or in the swap file when there are too many.
A full block is sealed and handed to an upload, which flushes it and then removes whatever is
sealed under its index. `WriteAt` seals the largest write block when there are more than the limit,
which never happens: a block is only added below it (`writeBlocks_le_limit`).
-/

namespace HugoFS.Vfs.Buffer

open Spans Segment Function Finmap Option

inductive Held
  | mem (b : MemBlock)
  | file (id : ℕ)

structure Upload where
  idx : ℕ
  block : Held
  released : Bool
  flushed : Bool

structure UploadPipeline where
  writeBlocks : Finmap fun _ : ℕ => MemBlock
  sealedBlocks : ℕ → Option ℕ
  uploads : ℕ → Option Upload
  nextUpload : ℕ
  swapFile : SwapFile
  storage : Storage

namespace UploadPipeline

def new (st : Storage) : UploadPipeline := ⟨∅, fun _ => none, fun _ => none, 0, .empty, st⟩

def destroyHeld (cfg : Config) (up : UploadPipeline) (b : Held) (out : Outcome := .ok) :
    UploadPipeline :=
  match b with
  | .mem _ => up
  | .file f =>
    let s := SwapFile.destroy cfg f (up.swapFile, up.storage) out
    { up with swapFile := s.1, storage := s.2 }

def markReleased (uploads : ℕ → Option Upload) (id : ℕ) : ℕ → Option Upload := fun j =>
  if j = id then (uploads id).map fun u => { u with released := true } else uploads j

/-- `Release` of a sealed block, which is destroyed with its last reference. -/
def release (cfg : Config) (id : ℕ) (up : UploadPipeline) (out : Outcome := .ok) : UploadPipeline :=
  match up.uploads id with
  | none => up
  | some u =>
    if u.released then up
    else { up with uploads := markReleased up.uploads id }.destroyHeld cfg u.block out

/-- A block is sealed, in the place of an older one of its index, and handed to an upload. -/
def move2Sealed (cfg : Config) (b : Held) (idx : ℕ) (up : UploadPipeline) (out : Outcome := .ok) :
    UploadPipeline :=
  let up := match up.sealedBlocks idx with
    | some old => up.release cfg old out
    | none => up
  { up with
    writeBlocks := up.writeBlocks.erase idx
    sealedBlocks := Function.update up.sealedBlocks idx (some up.nextUpload)
    uploads := Function.update up.uploads up.nextUpload (some ⟨idx, b, false, false⟩)
    nextUpload := up.nextUpload + 1 }

/-- The first part of an upload: `Flush` of the block, whose error is dropped. -/
def upload (cfg : Config) (id : ℕ) (up : UploadPipeline) (out : Outcome := .ok) : UploadPipeline :=
  match up.uploads id with
  | none => up
  | some u =>
    match u.block with
    | .mem b =>
      let r := if u.released then (b, up.storage) else b.doFlush cfg.blockSize u.idx up.storage out
      { up with
        uploads := Function.update up.uploads id (some { u with block := .mem r.1, flushed := true })
        storage := r.2 }
    | .file f =>
      let s := SwapFile.flush cfg f (up.swapFile, up.storage) out
      { up with
        uploads := Function.update up.uploads id (some { u with flushed := true })
        swapFile := s.1
        storage := s.2 }

/-- The second part: whatever is sealed under the index of the block is removed, and the block
released. -/
def complete (cfg : Config) (id : ℕ) (up : UploadPipeline) (out : Outcome := .ok) :
    UploadPipeline :=
  match up.uploads id with
  | none => up
  | some u =>
    let up := { up with sealedBlocks := Function.update up.sealedBlocks u.idx none }.release cfg id out
    { up with uploads := Function.update up.uploads id none }

/-! ### Writing -/

/-- Seals the write block with the most bytes written. Where nothing is written the source takes
the block of no index, and fails on it. -/
def sealLargest (cfg : Config) (up : UploadPipeline) (out : Outcome := .ok) : UploadPipeline :=
  let written := fun i => (up.writeBlocks.lookup i).elim 0 MemBlock.written
  let candidates := (up.writeBlocks.keys.sort (· ≤ ·)).filter (0 < written ·)
  (candidates.argmax written).elim up fun i =>
    (up.writeBlocks.lookup i).elim up fun b => up.move2Sealed cfg (.mem b) i out

/-- The block that a round writes to: one in memory, else one in the swap file, else a new one,
in memory while there are fewer than the limit. -/
def target (cfg : Config) (idx : ℕ) (up : UploadPipeline) (out : Outcome := .ok) :
    Held × UploadPipeline :=
  match up.writeBlocks.lookup idx with
  | some b => (.mem b, up)
  | none =>
    match up.swapFile.lookup idx with
    | some f => (.file f, up)
    | none =>
      let up := if cfg.limit < up.writeBlocks.keys.card then up.sealLargest cfg out else up
      if up.writeBlocks.keys.card < cfg.limit then (.mem .new, up)
      else
        let r := up.swapFile.newFileBlock idx
        (.file r.1, { up with swapFile := r.2 })

/-- A round of `WriteAt`: the bytes it has taken, none if the block has returned an error, and
whether the block was sealed. -/
structure Round where
  taken : ℕ
  isSealed : Bool
  up : UploadPipeline

/-- A block with this many bytes written and no mark has failed to flush. -/
def counted (size n written : ℕ) (flushed : Bool) (out : Outcome) : ℕ :=
  if out = .failed && decide (size ≤ written) && !flushed then 0 else n

def writeMem (cfg : Config) (b : MemBlock) (off : ℕ) (p : List UInt8) (up : UploadPipeline)
    (out old : Outcome := .ok) : Round :=
  let idx := off / cfg.blockSize
  let r := b.writeAt cfg.blockSize idx up.storage (off % cfg.blockSize) p out
  let up := { up with writeBlocks := up.writeBlocks.insert idx r.2.1, storage := r.2.2 }
  if r.2.1.isFull cfg.blockSize then ⟨r.1, true, up.move2Sealed cfg (.mem r.2.1) idx old⟩
  else ⟨counted cfg.blockSize r.1 r.2.1.written r.2.1.flushed out, false, up⟩

def writeFile (cfg : Config) (env : ℕ → PageEnv) (f off : ℕ) (p : List UInt8)
    (up : UploadPipeline) (out old : Outcome := .ok) : Option Round :=
  match up.swapFile.blocks f with
  | none => none
  | some b =>
    if b.closed then none
    else if off / cfg.blockSize ≠ b.idx then some ⟨0, false, up⟩
    else
      let s := SwapFile.writeAt cfg env f off p (up.swapFile, up.storage) out
      let up := { up with swapFile := s.1, storage := s.2 }
      if (s.1.blocks f).any (FileBlock.isFull cfg.blockSize) then
        some ⟨p.length, true, up.move2Sealed cfg (.file f) (off / cfg.blockSize) old⟩
      else
        let n := (s.1.blocks f).elim p.length fun b =>
          counted cfg.blockSize p.length b.written b.flushed out
        some ⟨n, false, up⟩

/-- A round of the loop of `WriteAt`. The storage answers `out` to the flush of the block, and
`old` to that of an older sealed one. A destroyed block is looked up for ever. -/
def writeRound (cfg : Config) (env : ℕ → PageEnv) (off : ℕ) (p : List UInt8) (up : UploadPipeline)
    (out old : Outcome := .ok) : Option Round :=
  let t := up.target cfg (off / cfg.blockSize) old
  match t.1 with
  | .mem b => some (t.2.writeMem cfg b off p out old)
  | .file f => t.2.writeFile cfg env f off p out old

/-! ### Reading -/

structure Reply where
  bytes : List UInt8
  err : Option ReadErr
  up : UploadPipeline

def readHeld (cfg : Config) (env : ℕ → PageEnv) (off len : ℕ) (up : UploadPipeline) :
    Held → Option Reply
  | .mem b =>
    match b.readAt (off % cfg.blockSize) len with
    | some bytes => some ⟨bytes, none, up⟩
    | none => some ⟨[], some .eof, up⟩
  | .file f => (SwapFile.readAt cfg env f off len (up.swapFile, up.storage)).map fun a =>
      ⟨a.bytes, a.err, { up with swapFile := a.state.1, storage := a.state.2 }⟩

def dirty (idx : ℕ) (up : UploadPipeline) : Option Held :=
  match up.writeBlocks.lookup idx with
  | some b => some (.mem b)
  | none => (up.swapFile.lookup idx).map .file

def readAt (cfg : Config) (env : ℕ → PageEnv) (off len : ℕ) (up : UploadPipeline) : Option Reply :=
  let idx := off / cfg.blockSize
  let first := match (up.sealedBlocks idx).bind up.uploads with
    | some u => up.readHeld cfg env off len u.block
    | none => some ⟨[], none, up⟩
  first.bind fun r =>
    if r.err.isSome then some r
    else
      match r.up.dirty idx with
      | none => some r
      | some h => r.up.readHeld cfg env off len h

/-! ### Uploads of blocks in memory -/

def InMemory (up : UploadPipeline) : Prop := ∀ id u, up.uploads id = some u → ∃ b, u.block = .mem b

section Memory

variable {cfg : Config} {up : UploadPipeline} {id idx : ℕ} {u : Upload} {out : Outcome}

theorem markReleased_eq_self {uploads : ℕ → Option Upload}
    (h : ∀ u, uploads id = some u → u.released = true) : markReleased uploads id = uploads := by
  funext j
  by_cases hj : j = id
  · subst hj
    rw [markReleased, if_pos rfl]
    cases hu : uploads j with
    | none => rfl
    | some u =>
      have hr := h u hu
      rw [map_some, ← hr]
  · exact if_neg hj

theorem release_eq (h : up.InMemory) :
    up.release cfg id out = { up with uploads := markReleased up.uploads id } := by
  rw [release]
  cases hu : up.uploads id with
  | none =>
    rw [markReleased_eq_self fun u hu' => by cases hu.symm.trans hu']
  | some u =>
    obtain ⟨b, hb⟩ := h id u hu
    dsimp only
    by_cases hr : u.released = true
    · rw [if_pos hr, markReleased_eq_self fun u' hu' => by
        obtain rfl := some.inj (hu.symm.trans hu')
        exact hr]
    · rw [if_neg hr, hb, destroyHeld]

def sealedUploads (up : UploadPipeline) (idx : ℕ) (b : Held) : ℕ → Option Upload :=
  Function.update
    (match up.sealedBlocks idx with
      | some old => markReleased up.uploads old
      | none => up.uploads)
    up.nextUpload (some ⟨idx, b, false, false⟩)

theorem move2Sealed_eq (h : up.InMemory) (b : Held) :
    up.move2Sealed cfg b idx out =
      { up with
        writeBlocks := up.writeBlocks.erase idx
        sealedBlocks := update up.sealedBlocks idx (some up.nextUpload)
        uploads := up.sealedUploads idx b
        nextUpload := up.nextUpload + 1 } := by
  rw [move2Sealed, sealedUploads]
  cases up.sealedBlocks idx with
  | none => rfl
  | some old =>
    dsimp only
    rw [release_eq h]

theorem sealedUploads_cases {b : Held} (hu : up.sealedUploads idx b id = some u) :
    (id = up.nextUpload ∧ u = ⟨idx, b, false, false⟩) ∨
      ∃ u', up.uploads id = some u' ∧ u'.idx = u.idx ∧ u'.block = u.block ∧ u'.flushed = u.flushed ∧
        (u.released = u'.released ∨ up.sealedBlocks idx = some id) := by
  rw [sealedUploads] at hu
  obtain ⟨hid, hu⟩ | ⟨-, hu⟩ := Runs.update_eq_some hu
  · exact .inl ⟨hid, (some.inj hu).symm⟩
  refine .inr ?_
  cases hold : up.sealedBlocks idx with
  | none =>
    rw [hold] at hu
    exact ⟨u, hu, rfl, rfl, rfl, .inl rfl⟩
  | some old =>
    rw [hold] at hu
    dsimp only [markReleased] at hu
    by_cases hj : id = old
    · rw [if_pos hj] at hu
      obtain ⟨u', hu', rfl⟩ := map_eq_some_iff.mp hu
      exact ⟨u', by rw [hj]; exact hu', rfl, rfl, rfl, .inr (by rw [hj])⟩
    · rw [if_neg hj] at hu
      exact ⟨u, hu, rfl, rfl, rfl, .inl rfl⟩

theorem sealedUploads_old (idx : ℕ) (b : Held) (hu : up.uploads id = some u)
    (hid : id ≠ up.nextUpload) : ∃ u', up.sealedUploads idx b id = some u' ∧ u'.idx = u.idx ∧
      u'.block = u.block ∧ u'.flushed = u.flushed := by
  rw [sealedUploads, update_of_ne hid]
  cases up.sealedBlocks idx with
  | none => exact ⟨u, hu, rfl, rfl, rfl⟩
  | some old =>
    dsimp only [markReleased]
    by_cases hj : id = old
    · subst hj
      rw [if_pos rfl, hu]
      exact ⟨_, rfl, rfl, rfl, rfl⟩
    · rw [if_neg hj]
      exact ⟨u, hu, rfl, rfl, rfl⟩

theorem complete_eq (h : up.InMemory) (hu : up.uploads id = some u) :
    up.complete cfg id out =
      { up with
        sealedBlocks := update up.sealedBlocks u.idx none
        uploads := update up.uploads id none } := by
  have hmem : InMemory { up with sealedBlocks := update up.sealedBlocks u.idx none } := h
  rw [complete, hu]
  dsimp only
  rw [release_eq hmem]
  dsimp only
  congr 1
  funext j
  by_cases hj : j = id
  · rw [hj, update_self, update_self]
  · rw [update_of_ne hj, update_of_ne hj, markReleased, if_neg hj]

end Memory

/-! ### A round with a block in memory -/

section Round

variable {cfg : Config} {up : UploadPipeline} {b : MemBlock} {off : ℕ} {p : List UInt8}
  {last : ℕ → Option UInt8} {old : Outcome}

def room (cfg : Config) (off : ℕ) (p : List UInt8) : ℕ :=
  min p.length (cfg.blockSize - off % cfg.blockSize)

open Nat

open List

theorem room_pos (hp : p ≠ []) : 0 < room cfg off p := by
  have := mod_lt off cfg.blockSize_pos
  have := length_pos_iff.mpr hp
  rw [room]
  omega

theorem length_take_room : (p.take (room cfg off p)).length = room cfg off p := by
  rw [length_take, room]
  omega

theorem take_room_ne_nil (hp : p ≠ []) : p.take (room cfg off p) ≠ [] := by
  rw [← length_pos_iff, length_take_room]
  exact room_pos hp

theorem room_le : off % cfg.blockSize + (p.take (room cfg off p)).length ≤ cfg.blockSize := by
  have := mod_lt off cfg.blockSize_pos
  rw [length_take_room, room]
  omega

def accepted (last : ℕ → Option UInt8) (off n : ℕ) (p : List UInt8) : ℕ → Option UInt8 :=
  splice last off ((p.take n).map some)

theorem accepted_own (cfg : Config) (last : ℕ → Option UInt8) (off n : ℕ) (p : List UInt8) :
    (fun o => accepted last off n p (off / cfg.blockSize * cfg.blockSize + o)) =
      splice (fun o => last (off / cfg.blockSize * cfg.blockSize + o)) (off % cfg.blockSize)
        ((p.take n).map some) := by
  have hoff := div_add_mod' off cfg.blockSize
  funext o
  rw [accepted, ← splice_shift, hoff]

theorem accepted_other {n : ℕ} (hlen : off % cfg.blockSize + (p.take n).length ≤ cfg.blockSize)
    {j : ℕ} (hj : j ≠ off / cfg.blockSize) {o : ℕ} (ho : o < cfg.blockSize) :
    accepted last off n p (j * cfg.blockSize + o) = last (j * cfg.blockSize + o) := by
  have hoff := div_add_mod' off cfg.blockSize
  have hlen' : off % cfg.blockSize + ((p.take n).map some).length ≤ cfg.blockSize := by
    rwa [length_map]
  have := splice_other_block (f := last) hlen' ho hj
  rwa [hoff] at this

theorem accepted_others {i : ℕ} (hi : off / cfg.blockSize = i) (last : ℕ → Option UInt8)
    (p : List UInt8) : ∀ j ≠ i, ∀ o < cfg.blockSize,
      accepted last off (room cfg off p) p (j * cfg.blockSize + o) = last (j * cfg.blockSize + o) :=
  fun _ hj _ ho => accepted_other room_le (hi ▸ hj) ho

theorem accepted_of_not_mem {n x : ℕ} (hx : ¬(off ≤ x ∧ x < off + (p.take n).length)) :
    accepted last off n p x = last x := splice_of_not_mem (by rwa [length_map])

def filled (cfg : Config) (b : MemBlock) (off : ℕ) (p : List UInt8) : MemBlock :=
  b.put (off % cfg.blockSize) (p.take (room cfg off p))

theorem filled_records
    (h : b.Records cfg.blockSize fun o => last (off / cfg.blockSize * cfg.blockSize + o))
    (hb : b.flushed = false) (hp : p ≠ []) :
    (filled cfg b off p).Records cfg.blockSize
      fun o => accepted last off (room cfg off p) p (off / cfg.blockSize * cfg.blockSize + o) := by
  rw [accepted_own]
  exact h.put hb (take_room_ne_nil hp) room_le

theorem not_covers_filled (h : b.Records cfg.blockSize last) (hb : b.flushed = false) (hp : p ≠ [])
    {o : ℕ} (ho : ¬Covers (filled cfg b off p).interval.items o) (last' : ℕ → Option UInt8) :
    ¬Covers b.interval.items o ∧
      accepted last' off (room cfg off p) p (off / cfg.blockSize * cfg.blockSize + o) =
        last' (off / cfg.blockSize * cfg.blockSize + o) := by
  rw [filled, MemBlock.covers_put h hb (take_room_ne_nil hp), not_or] at ho
  have hoff := div_add_mod' off cfg.blockSize
  exact ⟨ho.2, accepted_of_not_mem fun hx => ho.1 ⟨by omega, by omega⟩⟩

def sent (cfg : Config) (up : UploadPipeline) (idx : ℕ) (b : MemBlock) : UploadPipeline :=
  { up with
    writeBlocks := up.writeBlocks.insert idx b.sent
    storage := up.storage.insert idx (b.uploaded cfg.blockSize (up.storage.lookup idx)) }

theorem writeMem_taken : (up.writeMem cfg b off p .ok old).taken = room cfg off p := by
  rw [writeMem]
  split <;> rfl

/-- What a round does with a block that was not uploaded before. It takes the bytes; it
uploads the block when that was enough bytes, and seals it when it is full. A full
block was always uploaded. -/
theorem writeMem_cases (h : b.Records cfg.blockSize last) (hb : b.flushed = false) (hp : p ≠ []) :
    up.writeMem cfg b off p .ok old = ⟨room cfg off p, false,
        { up with writeBlocks := up.writeBlocks.insert (off / cfg.blockSize) (filled cfg b off p) }⟩ ∨
      cfg.blockSize ≤ (filled cfg b off p).written ∧
        up.writeMem cfg b off p .ok old = ⟨room cfg off p, false,
          up.sent cfg (off / cfg.blockSize) (filled cfg b off p)⟩ ∨
      (filled cfg b off p).interval.total = cfg.blockSize ∧
        up.writeMem cfg b off p .ok old = ⟨room cfg off p, true,
          (up.sent cfg (off / cfg.blockSize) (filled cfg b off p)).move2Sealed cfg
            (.mem (filled cfg b off p).sent) (off / cfg.blockSize) old⟩ := by
  have hrec : (filled cfg b off p).Records cfg.blockSize
      (splice last (off % cfg.blockSize) ((p.take (room cfg off p)).map some)) :=
    h.put hb (take_room_ne_nil hp) room_le
  have hnew : (filled cfg b off p).flushed = false := hb
  have htotal : (filled cfg b off p).sent.interval.total = (filled cfg b off p).interval.total :=
    IntervalList.total_merge hrec.within
  have hwrite : b.writeAt cfg.blockSize (off / cfg.blockSize) up.storage (off % cfg.blockSize) p =
      (room cfg off p, if cfg.blockSize ≤ (filled cfg b off p).written then
        (filled cfg b off p).doFlush cfg.blockSize (off / cfg.blockSize) up.storage
      else (filled cfg b off p, up.storage)) := rfl
  rw [writeMem, hwrite]
  by_cases hw : cfg.blockSize ≤ (filled cfg b off p).written
  · have hpos := cfg.blockSize_pos
    rw [if_pos hw, MemBlock.doFlush_eq hrec hnew (by omega)]
    dsimp only
    by_cases hfull : (filled cfg b off p).interval.total = cfg.blockSize
    · rw [if_pos (show (filled cfg b off p).sent.isFull cfg.blockSize = true from
        decide_eq_true (htotal.trans hfull))]
      exact .inr (.inr ⟨hfull, rfl⟩)
    rw [if_neg (show ¬(filled cfg b off p).sent.isFull cfg.blockSize = true from
      fun h => hfull (htotal.symm.trans (of_decide_eq_true h)))]
    exact .inr (.inl ⟨hw, rfl⟩)
  · -- too few bytes to fill the block
    have hle := hrec.written hnew
    have hpart : ¬(filled cfg b off p).isFull cfg.blockSize = true := fun h => by
      have := of_decide_eq_true h
      omega
    rw [if_neg hw]
    dsimp only
    rw [if_neg hpart]
    exact .inl rfl

end Round

end UploadPipeline

/-! ### Goroutines -/

/-- The pipeline with the goroutines `κ` that write to it: the calls each of them still has
to make, the first being under way, and who holds `blockLock`. Beside it, the last byte
accepted at each offset of the file. -/
structure PipeState (κ : Type) where
  up : UploadPipeline
  calls : κ → List (ℕ × List UInt8)
  lock : Option κ
  last : ℕ → Option UInt8

/-- The steps, with the answers of the storage to the uploads that they make. -/
inductive PipeCall (κ : Type)
  | write (t : κ) (calls : List (ℕ × List UInt8))
  | round (t : κ) (env : ℕ → PageEnv) (out old : Outcome := .ok)
  | upload (id : ℕ) (out : Outcome := .ok)
  | complete (id : ℕ) (out : Outcome := .ok)
  | destroy (id : ℕ) (out : Outcome := .ok)

namespace PipeState

open UploadPipeline (accepted)

variable {κ : Type} [DecidableEq κ]

def init (st : Storage) : PipeState κ := ⟨.new st, fun _ => [], none, fun _ => none⟩

/-- A round of the first call of `t`. An error ends the call, and what it was to write is not
accepted. -/
def round (cfg : Config) (env : ℕ → PageEnv) (t : κ) (s : PipeState κ) (out old : Outcome := .ok) :
    PipeState κ :=
  match s.calls t with
  | [] => s
  | (off, p) :: rest =>
    if p = [] then { s with calls := Function.update s.calls t rest, lock := none }
    else
      match s.up.writeRound cfg env off p out old with
      | none => { s with lock := some t }
      | some r =>
        let more := 0 < r.taken ∧ r.taken < p.length
        { up := r.up
          calls := Function.update s.calls t
            (if more then (off + r.taken, p.drop r.taken) :: rest else rest)
          lock := if more ∧ r.isSealed = false then some t else none
          last := accepted s.last off r.taken p }

def next (cfg : Config) : PipeCall κ → PipeState κ → PipeState κ
  | .write t calls, s => { s with calls := Function.update s.calls t calls }
  | .round t env out old, s => s.round cfg env t out old
  | .upload id out, s => { s with up := s.up.upload cfg id out }
  | .complete id out, s => { s with up := s.up.complete cfg id out }
  | .destroy id out, s =>
    let r := SwapFile.destroy cfg id (s.up.swapFile, s.up.storage) out
    { s with up := { s.up with swapFile := r.1, storage := r.2 } }

/-- `WriteAt` holds `blockLock`, and gives it up where it seals a block. -/
def Enabled (s : PipeState κ) : PipeCall κ → Prop
  | .write t _ => s.calls t = []
  | .round t _ _ _ => s.calls t ≠ [] ∧ (s.lock = none ∨ s.lock = some t)
  | .upload id _ => (s.up.uploads id).any (fun u => !u.flushed) = true
  | .complete id _ => (s.up.uploads id).any (fun u => u.flushed) = true ∧ s.lock = none
  | .destroy id _ => id ∈ s.up.swapFile.dying

instance (s : PipeState κ) (c : PipeCall κ) : Decidable (s.Enabled c) := by
  cases c <;> dsimp only [Enabled] <;> infer_instance

/-! ### The limit -/

theorem keys_insert (m : Finmap fun _ : ℕ => MemBlock) (i : ℕ) (b : MemBlock) :
    (m.insert i b).keys = insert i m.keys := by
  ext j
  simp [mem_keys, mem_insert]

open UploadPipeline

variable (cfg : Config) (id : ℕ) (up : UploadPipeline) (out old : Outcome)

theorem writeBlocks_release : (up.release cfg id out).writeBlocks = up.writeBlocks := by
  rw [release]
  split
  · rfl
  next u hu =>
    split
    · rfl
    · cases hb : u.block <;> rfl

theorem writeBlocks_upload : (up.upload cfg id out).writeBlocks = up.writeBlocks := by
  rw [upload]
  split
  · rfl
  · split <;> rfl

theorem writeBlocks_complete : (up.complete cfg id out).writeBlocks = up.writeBlocks := by
  rw [complete]
  split
  · rfl
  · dsimp only
    rw [writeBlocks_release]

theorem writeBlocks_move2Sealed (b : Held) (idx : ℕ) :
    (up.move2Sealed cfg b idx out).writeBlocks = up.writeBlocks.erase idx := by
  rw [move2Sealed]
  cases up.sealedBlocks idx with
  | none => rfl
  | some old =>
    dsimp only
    rw [writeBlocks_release]

theorem card_move2Sealed_le (b : Held) (idx : ℕ) :
    (up.move2Sealed cfg b idx out).writeBlocks.keys.card ≤ up.writeBlocks.keys.card := by
  rw [writeBlocks_move2Sealed, keys_erase]
  exact Finset.card_erase_le

section

variable {up} (hlim : up.writeBlocks.keys.card ≤ cfg.limit)
include hlim

theorem writeRound_cases (env : ℕ → PageEnv) (off : ℕ) (p : List UInt8) :
    (∃ b, up.writeRound cfg env off p out old = some (up.writeMem cfg b off p out old) ∧
      (up.writeBlocks.lookup (off / cfg.blockSize) = some b ∨
        up.writeBlocks.keys.card < cfg.limit ∧ up.swapFile.lookup (off / cfg.blockSize) = none)) ∨
    ∃ sf f, up.writeRound cfg env off p out old =
        { up with swapFile := sf }.writeFile cfg env f off p out old ∧
      up.writeBlocks.lookup (off / cfg.blockSize) = none ∧
      (up.swapFile.lookup (off / cfg.blockSize) = some f ∧ sf = up.swapFile ∨
        up.swapFile.lookup (off / cfg.blockSize) = none ∧ cfg.limit ≤ up.writeBlocks.keys.card ∧
          sf.blocks f = some (.new (off / cfg.blockSize))) := by
  rw [writeRound, target]
  cases hb : up.writeBlocks.lookup (off / cfg.blockSize) with
  | some b => exact .inl ⟨b, rfl, .inl rfl⟩
  | none =>
    cases hf : up.swapFile.lookup (off / cfg.blockSize) with
    | some f => exact .inr ⟨_, f, rfl, rfl, .inl ⟨rfl, rfl⟩⟩
    | none =>
      dsimp only
      rw [if_neg (not_lt.mpr hlim)]
      by_cases hcard : up.writeBlocks.keys.card < cfg.limit
      · rw [if_pos hcard]
        exact .inl ⟨_, rfl, .inr ⟨hcard, rfl⟩⟩
      · rw [if_neg hcard]
        exact .inr ⟨_, _, rfl, rfl, .inr ⟨rfl, not_lt.mp hcard, update_self ..⟩⟩

theorem card_writeRound_le (env : ℕ → PageEnv) (off : ℕ) (p : List UInt8) (r : Round)
    (hr : up.writeRound cfg env off p out old = some r) :
    r.up.writeBlocks.keys.card ≤ cfg.limit := by
  obtain ⟨b, heq, hb⟩ | ⟨sf, f, heq, -⟩ := writeRound_cases cfg out old hlim env off p
  · obtain rfl := some.inj (heq.symm.trans hr)
    -- what a round with a block in memory adds, and what sealing takes away
    have hcard : (insert (off / cfg.blockSize) up.writeBlocks.keys).card ≤ cfg.limit := by
      obtain hb | ⟨hlt, -⟩ := hb
      · rwa [Finset.insert_eq_of_mem (mem_keys.mpr (mem_iff.mpr ⟨b, hb⟩))]
      · exact le_trans (Finset.card_insert_le _ _) hlt
    rw [writeMem]
    split
    · exact le_trans (card_move2Sealed_le ..) (by rwa [keys_insert])
    · rwa [keys_insert]
  · rw [heq, writeFile] at hr
    split at hr
    · cases hr
    split at hr
    · cases hr
    split at hr
    · cases hr
      exact hlim
    dsimp only at hr
    split at hr
    · cases hr
      exact le_trans (card_move2Sealed_le ..) hlim
    · cases hr
      exact hlim

end

theorem card_next_le {s : PipeState κ} (hs : s.up.writeBlocks.keys.card ≤ cfg.limit)
    (c : PipeCall κ) : (s.next cfg c).up.writeBlocks.keys.card ≤ cfg.limit := by
  cases c with
  | write t calls => exact hs
  | round t env out old =>
    change (s.round cfg env t out old).up.writeBlocks.keys.card ≤ cfg.limit
    rw [PipeState.round]
    split
    · exact hs
    split
    · exact hs
    split
    · exact hs
    next r hr => exact card_writeRound_le cfg out old hs env _ _ r hr
  | upload id out =>
    change (s.up.upload cfg id out).writeBlocks.keys.card ≤ cfg.limit
    rwa [writeBlocks_upload]
  | complete id out =>
    change (s.up.complete cfg id out).writeBlocks.keys.card ≤ cfg.limit
    rwa [writeBlocks_complete]
  | destroy id out => exact hs

theorem writeBlocks_le_limit (st : Storage) (s : PipeState κ)
    (h : Runs.Reach (next cfg) Enabled (init st) s) :
    s.up.writeBlocks.keys.card ≤ cfg.limit :=
  h.invariant (I := fun s => s.up.writeBlocks.keys.card ≤ cfg.limit)
    (fun _ c hs _ => card_next_le cfg hs c) (Nat.zero_le _)

/-- The second block is at the limit, and goes to the swap file. -/
theorem writeBlocks_le_limit_sample :
    let cfg : Config := ⟨4, 2, 1, Nat.zero_lt_succ 3, Nat.zero_lt_succ 1, Nat.le_add_right 2 2⟩
    let s := Runs.exec (next cfg) [.write 0 [(3, [8, 9])], .round 0 fun _ => none,
      .round 0 fun _ => none] (init ∅)
    s.up.writeBlocks.keys.card ≤ 1 ∧ (s.up.swapFile.lookup 1).isSome = true :=
  ⟨writeBlocks_le_limit (κ := ℕ) _ ∅ _ (Runs.reach_exec (by decide +kernel)), by decide +kernel⟩

end PipeState

end HugoFS.Vfs.Buffer
