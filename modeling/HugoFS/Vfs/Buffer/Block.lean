import HugoFS.Lib.Segment
import HugoFS.Vfs.Buffer.Interval
import Mathlib.Data.Finmap

/-!
# Blocks in memory

`MemBlock`, and the storage backend below it as far as blocks are read and written.
A block is uploaded by `doFlush`, once: no later write clears the mark. It is made when
the block has taken as many bytes as it has room for, so rewriting the same part again
and again uploads a block that is not full.
-/

namespace HugoFS.Vfs.Buffer

open Spans Segment IntervalList Nat

structure Config where
  blockSize : ℕ
  pageSize : ℕ
  limit : ℕ
  blockSize_pos : 0 < blockSize
  pageSize_pos : 0 < pageSize
  pageSize_le : pageSize ≤ blockSize

abbrev Data := ℕ → UInt8

/-! ### The storage backend -/

/-- The answer of the storage to an upload. To `doFlush` the error `block already exists` is no
failure. -/
inductive Outcome
  | ok
  | alreadyExists
  | failed
deriving DecidableEq

/-- Whether `doFlush` returns an error. The one of `Write`, for a full block, is dropped. -/
def Outcome.fails (out : Outcome) (size : ℕ) (interval : IntervalList) : Bool :=
  out = .failed && interval.total ≠ size

/-- The blocks that are stored. -/
abbrev Storage := Finmap fun _ : ℕ => Data

namespace Storage

def write (st : Storage) (idx : ℕ) (data : Data) : Storage := st.insert idx data

def writeAt (size : ℕ) (st : Storage) (idx : ℕ) (interval : IntervalList) (data : Data) : Storage :=
  match st.lookup idx with
  | none => st.insert idx data
  | some r => st.insert idx (interval.copy size r data)

/-- What `doFlush` sends: a full block is written, the intervals of another one are merged into
what is stored. Nothing changes unless the storage succeeds. -/
def upload (size : ℕ) (st : Storage) (idx : ℕ) (interval : IntervalList) (data : Data)
    (out : Outcome := .ok) : Storage :=
  match out with
  | .ok => if interval.total = size then st.write idx data else st.writeAt size idx interval data
  | _ => st

end Storage

/-! ### Memory blocks -/

structure MemBlock where
  data : Data
  highOff : ℕ
  written : ℕ
  interval : IntervalList
  flushed : Bool

namespace MemBlock

def new : MemBlock := ⟨fun _ => 0, 0, 0, .empty, false⟩

def put (start : ℕ) (p : List UInt8) (b : MemBlock) : MemBlock :=
  { b with
    data := splice b.data start p
    interval := b.interval.addInterval start (start + p.length)
    written := b.written + p.length
    highOff := max b.highOff (start + p.length) }

def sent (b : MemBlock) : MemBlock :=
  { b with interval := b.interval.merge, flushed := true, written := 0 }

/-- Uploads the block, unless the mark says that it was. A full one is marked whatever the storage
answers. -/
def doFlush (size idx : ℕ) (b : MemBlock) (st : Storage) (out : Outcome := .ok) :
    MemBlock × Storage :=
  if b.flushed ∨ b.written = 0 then (b, st)
  else
    (if out.fails size b.interval.merge then { b with interval := b.interval.merge } else b.sent,
      st.upload size idx b.interval.merge b.data out)

/-- Takes what fits into the block, and uploads it as soon as as many bytes were written as it has
room for, overwritten ones counted again. -/
def writeAt (size idx : ℕ) (b : MemBlock) (st : Storage) (start : ℕ) (p : List UInt8)
    (out : Outcome := .ok) : ℕ × MemBlock × Storage :=
  let n := min p.length (size - start)
  let b := b.put start (p.take n)
  (n, if size ≤ b.written then b.doFlush size idx st out else (b, st))

def isFull (size : ℕ) (b : MemBlock) : Bool := b.interval.total = size

def readAt (b : MemBlock) (start len : ℕ) : Option (List UInt8) :=
  let end_ := min b.highOff (start + len)
  if end_ ≤ start then none else some (read b.data start (end_ - start))

/-! ### What a block has taken -/

/-- The block holds the bytes that `last` tells, and nothing else. As long as it was not
uploaded its list of intervals is proper and counts no more than was written. -/
structure Records (size : ℕ) (last : ℕ → Option UInt8) (b : MemBlock) : Prop where
  within : Within 0 b.interval.items size
  bytes : ∀ o, Covers b.interval.items o → last o = some (b.data o)
  zero : ∀ o, ¬Covers b.interval.items o → b.data o = 0
  high : ∀ o, Covers b.interval.items o → o < b.highOff
  high_le : b.highOff ≤ size
  stale : b.flushed = false → b.interval.stale = []
  written : b.flushed = false → b.interval.total ≤ b.written

variable {size idx start : ℕ} {last last' : ℕ → Option UInt8} {b : MemBlock} {st : Storage}
  {p : List UInt8} {old : Option Data}

theorem records_new (last : ℕ → Option UInt8) : Records size last new where
  within := zero_le size
  bytes o ho := absurd ho (covers_nil o)
  zero _ _ := rfl
  high o ho := absurd ho (covers_nil o)
  high_le := zero_le size
  stale _ := rfl
  written _ := le_refl 0

section

variable (h : Records size last b)
include h

theorem Records.proper (hb : b.flushed = false) :
    b.interval.Proper size := ⟨h.within, h.stale hb⟩

theorem Records.congr (hlast : ∀ o < size, last' o = last o) :
    Records size last' b :=
  { h with bytes := fun o ho => (hlast o (h.within.covers ho).2).trans (h.bytes o ho) }

theorem covers_put (hb : b.flushed = false) (hp : p ≠ []) (o : ℕ) :
    Covers (b.put start p).interval.items o ↔
      start ≤ o ∧ o < start + p.length ∨ Covers b.interval.items o :=
  covers_addInterval (h.proper hb) (by have := List.length_pos_iff.mpr hp; omega) o

theorem Records.put (hb : b.flushed = false) (hp : p ≠ []) (hlen : start + p.length ≤ size) :
    Records size (splice last start (p.map some)) (b.put start p) := by
  have hpos := List.length_pos_iff.mpr hp
  have hcov : ∀ o, Covers (b.put start p).interval.items o ↔
      start ≤ o ∧ o < start + p.length ∨ Covers b.interval.items o := covers_put h hb hp
  have hproper := (h.proper hb).addInterval (s := start) (by omega) hlen
  refine ⟨hproper.within, ?_, ?_, ?_, Nat.max_le.mpr ⟨h.high_le, hlen⟩, fun _ => hproper.stale,
    fun _ => ?_⟩
  · intro o ho
    change splice last start (p.map some) o = some (splice b.data start p o)
    by_cases hin : start ≤ o ∧ o < start + p.length
    · exact splice_map some hin.1 hin.2 last
    · rw [splice_of_not_mem hin, splice_of_not_mem (by rwa [List.length_map])]
      exact h.bytes o (((hcov o).mp ho).resolve_left hin)
  · intro o ho
    rw [hcov, not_or] at ho
    exact (splice_of_not_mem ho.1).trans (h.zero o ho.2)
  · intro o ho
    change o < max b.highOff (start + p.length)
    rcases (hcov o).mp ho with ho | ho
    · omega
    · have := h.high o ho
      omega
  · have := total_addInterval_le (s := start) (h.proper hb)
      (show start < start + p.length by omega)
    have := h.written hb
    change (b.interval.addInterval start (start + p.length)).total ≤ b.written + p.length
    omega

end

/-! ### What an upload does -/

def uploaded (size : ℕ) (b : MemBlock) (old : Option Data) : Data :=
  match old with
  | none => b.data
  | some r => if b.interval.total = size then b.data else b.interval.merge.copy size r b.data

theorem doFlush_of_flushed {out : Outcome} (hb : b.flushed = true) :
    b.doFlush size idx st out = (b, st) :=
  if_pos (.inl hb)

section

variable (h : Records size last b)
include h

theorem doFlush_eq (hb : b.flushed = false) (hw : b.written ≠ 0) :
    b.doFlush size idx st = (b.sent, st.insert idx (b.uploaded size (st.lookup idx))) := by
  have htotal := total_merge h.within
  have hok : b.doFlush size idx st = if b.flushed ∨ b.written = 0 then (b, st) else
      (b.sent, st.upload size idx b.interval.merge b.data) := rfl
  rw [hok, if_neg (by simp [hb, hw]), Storage.upload, htotal, Storage.write, Storage.writeAt]
  cases st.lookup idx with
  | none => simp [uploaded]
  | some r =>
    by_cases hfull : b.interval.total = size
    · simp [uploaded, hfull]
    · simp [uploaded, hfull]

theorem covers_sent (o : ℕ) :
    Covers b.sent.interval.items o ↔ Covers b.interval.items o :=
  covers_merge h.within o

theorem Records.sent : Records size last b.sent where
  within := h.within.join
  bytes o ho := h.bytes o ((covers_sent h o).mp ho)
  zero o ho := h.zero o (mt (covers_sent h o).mpr ho)
  high o ho := h.high o ((covers_sent h o).mp ho)
  high_le := h.high_le
  stale hb := Bool.noConfusion hb
  written hb := Bool.noConfusion hb

theorem uploaded_of_not_covers {o : ℕ} (hsize : o < size)
    (ho : ¬Covers b.interval.items o) : b.uploaded size old o = (old.map fun r => r o).getD 0 := by
  cases old with
  | none => exact h.zero o ho
  | some r =>
    by_cases hfull : b.interval.total = size
    · -- a full block covers every offset
      exact absurd (h.within.covers_of_total (by rw [zero_add]; exact hfull) (zero_le o)
        hsize) ho
    · rw [uploaded, if_neg hfull]
      exact copy_of_not_covers h.within.join (mt (covers_sent h o).mp ho)

end

def Uploads (size : ℕ) (b : MemBlock) (old : Option Data) : Prop :=
  old = none ∨ b.interval.total = size ∨ b.highOff < size

theorem uploaded_of_covers (h : Records size last b) (hup : b.Uploads size old)
    {o : ℕ} (ho : Covers b.interval.items o) : b.uploaded size old o = b.data o := by
  cases old with
  | none => rfl
  | some r =>
    by_cases hfull : b.interval.total = size
    · rw [uploaded, if_pos hfull]
    have hlt : b.highOff < size := by
      rcases hup with hup | hup | hup
      · cases hup
      · exact absurd hup hfull
      · exact hup
    have hhigh : ∀ o, Covers b.interval.merge.items o → o < b.highOff :=
      fun o ho => h.high o ((covers_sent h o).mp ho)
    rw [uploaded, if_neg hfull, copy_eq h.within.join hhigh hlt]
    exact if_pos ((covers_sent h o).mpr ho)

end MemBlock

end HugoFS.Vfs.Buffer
