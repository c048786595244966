import HugoFS.Lib.Runs
import HugoFS.Vfs.Buffer.Swap

/-!
# One block, written and flushed

Runs of `WriteAt` and `Flush` on one `MemBlock` or one `FileBlock`, over a storage that may fail.
A block in memory reads back as what the calls have written, but a flush that returns nil need not
have stored it. It has where the marks of the block and the answers of the storage allow it.
-/

namespace HugoFS.Vfs.Buffer

open Spans Segment Finmap List Runs Option Buffer.Storage IntervalList

inductive BlockCall
  | writeAt (off : ℕ) (p : List UInt8) (env : ℕ → PageEnv) (out : Outcome)
  | flush (out : Outcome)

/-- What was written to a block: the last byte at each offset, and the largest end. -/
structure Accepted where
  last : ℕ → Option UInt8
  high : ℕ

namespace Accepted

def add (start : ℕ) (p : List UInt8) (a : Accepted) : Accepted :=
  ⟨splice a.last start (p.map some), max a.high (start + p.length)⟩

/-- A call writes what fits into the block `idx`, and nothing at an offset of another one. -/
def next (size idx : ℕ) : BlockCall → Accepted → Accepted
  | .writeAt off p _ _, a =>
    if off / size = idx then a.add (off % size) (p.take (size - off % size)) else a
  | .flush _, a => a

def empty : Accepted := ⟨fun _ => none, 0⟩

end Accepted

def Storage.byte (st : Storage) (idx o : ℕ) : Option UInt8 := (st.lookup idx).map fun d => d o

/-! ### What a flush sends -/

/-- What `doFlush` looks at: whether there is something to send, the merged intervals, and the
bytes of the block. -/
structure Pending where
  due : Bool
  interval : IntervalList
  data : Data

namespace Pending

variable (size idx : ℕ) (out : Outcome) (st : Storage) (q : Pending)

/-- Whether `doFlush` returns nil, and the storage after it. -/
def flush : Bool × Storage :=
  if q.due then (!out.fails size q.interval, st.upload size idx q.interval q.data out)
  else (true, st)

/-- The condition on a flush that has something to send: it meets a failure that it reports; or it
succeeds, and the block is not stored yet, or is full, or has nothing written at its end. -/
def Lands : Prop :=
  q.due = true → out = .failed ∧ q.interval.total ≠ size ∨
    out = .ok ∧ (st.lookup idx = none ∨ q.interval.total = size ∨ ¬Covers q.interval.items (size - 1))

instance : Decidable (q.Lands size idx out st) := inferInstanceAs (Decidable (_ → _))

variable {size idx out st q} {o : ℕ}

theorem Lands.byte (h : q.Lands size idx out st) (hdue : q.due = true)
    (hnil : (q.flush size idx out st).1 = true) (hw : Within 0 q.interval.items size)
    (ho : Covers q.interval.items o) : (q.flush size idx out st).2.byte idx o = some (q.data o) := by
  rw [flush, if_pos hdue] at hnil ⊢
  obtain ⟨rfl, hpart⟩ | ⟨rfl, hsends⟩ := h hdue
  · simp [Outcome.fails, hpart] at hnil
  change ((if q.interval.total = size then st.write idx q.data
    else st.writeAt size idx q.interval q.data).lookup idx).map _ = _
  split_ifs with hfull
  · rw [write, lookup_insert, map_some]
  rw [writeAt]
  cases hst : st.lookup idx with
  | none => rw [lookup_insert, map_some]
  | some r =>
    have hend := (hsends.resolve_left (by simp [hst])).resolve_left hfull
    have hhigh : ∀ o, Covers q.interval.items o → o < size - 1 := fun o ho => by
      have := (hw.covers ho).2
      have : o ≠ size - 1 := fun heq => hend (heq ▸ ho)
      omega
    have := hhigh o ho
    rw [lookup_insert, map_some, copy_eq hw hhigh (by omega), if_pos ho]

end Pending

/-! ### Runs of either kind of block -/

/-- A kind of block: how many bytes its `WriteAt` takes and whether it goes on with a flush, what
the block has pending, and how `doFlush` marks it, by whether it returns nil. -/
structure Kind (β : Type) where
  write : ℕ → List UInt8 → (ℕ → PageEnv) → β × Storage → Option (ℕ × Bool × β × Storage)
  pending : β → Pending
  mark : Bool → β → β

namespace Kind

variable {β : Type} (k : Kind β) (size idx : ℕ)

def flush (out : Outcome) (s : β × Storage) : Bool × β × Storage :=
  let r := (k.pending s.1).flush size idx out s.2
  (r.1, if (k.pending s.1).due then k.mark r.1 s.1 else s.1, r.2)

def next : BlockCall → β × Storage → β × Storage
  | .writeAt off p env out, s =>
    match k.write off p env s with
    | none => s
    | some (_, full, s) => if full then (k.flush size idx out s).2 else s
  | .flush out, s => (k.flush size idx out s).2

/-- The condition on a call: a write finds the block `ready`, and a flush lands, also the one that
a write goes on with. -/
def Careful (ready : ℕ → List UInt8 → (ℕ → PageEnv) → β → Prop) (s : β × Storage) :
    BlockCall → Prop
  | .writeAt off p env out => off / size = idx → ready off p env s.1 ∧
      ∀ r ∈ k.write off p env s, r.2.1 = true → (k.pending r.2.2.1).Lands size idx out r.2.2.2
  | .flush out => (k.pending s.1).Lands size idx out s.2

instance {ready : ℕ → List UInt8 → (ℕ → PageEnv) → β → Prop}
    [∀ off p env b, Decidable (ready off p env b)] (s : β × Storage) (c : BlockCall) :
    Decidable (k.Careful size idx ready s c) := by
  cases c <;> dsimp only [Careful] <;> infer_instance

/-- What the writes of a kind keep as long as they find the block ready: its pending bytes are the
last ones written, all in its intervals, and a write leaves it with something to send. -/
structure Lawful (ready : ℕ → List UInt8 → (ℕ → PageEnv) → β → Prop)
    (I : Accepted → β → Prop) : Prop where
  within : ∀ {a b}, I a b → Within 0 (k.pending b).interval.items size
  data : ∀ {a b o v}, I a b → a.last o = some v →
    (k.pending b).data o = v ∧ Covers (k.pending b).interval.items o
  mark : ∀ {a b} (ok : Bool), I a b → (k.pending b).due = true →
    I a (k.mark ok b) ∧ (k.pending (k.mark ok b)).due = !ok
  write : ∀ {a b off p env} (st : Storage), I a b → off / size = idx → ready off p env b →
    ∃ n full b', k.write off p env (b, st) = some (n, full, b', st) ∧ (k.pending b').due = true ∧
      I (a.add (off % size) (p.take (size - off % size))) b'
  refuse : ∀ {a b off p env} (st : Storage), I a b → off / size ≠ idx →
    k.write off p env (b, st) = none

/-- A block with nothing to send has all in the storage. -/
structure Sound (I : Accepted → β → Prop) (a : Accepted) (s : β × Storage) : Prop where
  block : I a s.1
  stored : (k.pending s.1).due = false → ∀ o v, a.last o = some v → s.2.byte idx o = some v

variable {k size idx} {ready : ℕ → List UInt8 → (ℕ → PageEnv) → β → Prop}
  {I : Accepted → β → Prop} {a : Accepted} {s : β × Storage} {out : Outcome}

section

variable (hk : k.Lawful size idx ready I)
include hk

theorem Sound.flush (h : k.Sound idx I a s) (hl : (k.pending s.1).Lands size idx out s.2) :
    k.Sound idx I a (k.flush size idx out s).2 ∧ ((k.flush size idx out s).1 = true →
      ∀ o v, a.last o = some v → (k.flush size idx out s).2.2.byte idx o = some v) := by
  have hbyte : (k.flush size idx out s).1 = true → ∀ o v, a.last o = some v →
      (k.flush size idx out s).2.2.byte idx o = some v := by
    intro hnil o v hv
    obtain ⟨hdata, hcov⟩ := hk.data h.block hv
    by_cases hdue : (k.pending s.1).due = true
    · rw [← hdata]
      exact hl.byte hdue hnil (hk.within h.block) hcov
    · rw [Kind.flush, Pending.flush, if_neg hdue]
      exact h.stored (by simpa using hdue) o v hv
  refine ⟨?_, hbyte⟩
  by_cases hdue : (k.pending s.1).due = true
  · have hmark := hk.mark (k.flush size idx out s).1 h.block hdue
    have hblock : (k.flush size idx out s).2.1 = k.mark (k.flush size idx out s).1 s.1 := if_pos hdue
    refine ⟨hblock ▸ hmark.1, fun hsent => hbyte ?_⟩
    rw [hblock, hmark.2] at hsent
    simpa using hsent
  · rwa [Kind.flush, Pending.flush, if_neg hdue, if_neg hdue]

theorem Sound.next (h : k.Sound idx I a s) {c : BlockCall}
    (hc : k.Careful size idx ready s c) : k.Sound idx I (a.next size idx c) (k.next size idx c s) := by
  cases c with
  | flush out => exact (h.flush hk hc).1
  | writeAt off p env out =>
    rw [Accepted.next, Kind.next]
    by_cases hoff : off / size = idx
    · obtain ⟨hready, hlands⟩ := hc hoff
      obtain ⟨n, full, b, hw, hdue, hb⟩ := hk.write s.2 h.block hoff hready
      have hs : k.Sound idx I (a.add (off % size) (p.take (size - off % size))) (b, s.2) :=
        ⟨hb, fun hnot => by cases hdue.symm.trans hnot⟩
      have hlands := hlands _ hw
      rw [if_pos hoff, hw]
      dsimp only
      split_ifs with hfull
      · exact (hs.flush hk (hlands hfull)).1
      · exact hs
    · rwa [if_neg hoff, hk.refuse s.2 h.block hoff]

/-- After careful calls on a block to which nothing was written, a flush that lands and returns nil
leaves in the storage the last byte written at each offset. -/
theorem Lawful.flush_stores (h : I .empty s.1) (calls : List BlockCall)
    (hc : Legal (k.next size idx) (k.Careful size idx ready) (calls ++ [.flush out]) s)
    (hnil : (k.flush size idx out (exec (k.next size idx) calls s)).1 = true) (o : ℕ) (v : UInt8)
    (hv : (exec (Accepted.next size idx) calls .empty).last o = some v) :
    (k.flush size idx out (exec (k.next size idx) calls s)).2.2.byte idx o = some v := by
  have hrun (calls : List BlockCall) (a : Accepted) (s : β × Storage) (h : k.Sound idx I a s)
      (hc : Legal (k.next size idx) (k.Careful size idx ready) (calls ++ [.flush out]) s) :
      k.Sound idx I (exec (Accepted.next size idx) calls a) (exec (k.next size idx) calls s) ∧
        (k.pending (exec (k.next size idx) calls s).1).Lands size idx out
          (exec (k.next size idx) calls s).2 := by
    induction calls generalizing a s with
    | nil => exact ⟨h, hc.1⟩
    | cons c calls ih => exact ih _ _ (h.next hk hc.1) hc.2
  obtain ⟨hs, hl⟩ := hrun calls .empty s ⟨h, fun _ o v hv => by cases hv⟩ hc
  exact (hs.flush hk hl).2 hnil o v hv

end

end Kind

/-! ### A block in memory -/

namespace MemBlock

def kind (size idx : ℕ) : Kind MemBlock where
  write off p _ s :=
    if off / size ≠ idx then none
    else
      let n := min (off % size + p.length) size - off % size
      let b := s.1.put (off % size) (p.take n)
      some (n, decide (size ≤ b.written), b, s.2)
  pending b := ⟨!b.flushed && b.written != 0, b.interval.merge, b.data⟩
  mark ok b := if ok then b.sent else { b with interval := b.interval.merge }

/-- A new block. `mem.Allocate` takes its bytes from a pool, as an earlier use has left them, and
clears as many as the block needs. -/
def fresh (size : ℕ) (slab : Data) : MemBlock :=
  { new with data := fun o => if o < size then 0 else slab o }

variable {size idx off : ℕ} {p : List UInt8} {b : MemBlock} {s : MemBlock × Storage}
  {st : Storage} {a : Accepted} {out : Outcome}

/-- The offset lies in the block: what it takes of `p` stays inside. -/
theorem write_eq (hsize : 0 < size) (p : List UInt8) (env : ℕ → PageEnv) (hoff : off / size = idx) :
    let q := p.take (size - off % size)
    (kind size idx).write off p env s = some (min p.length (size - off % size),
      decide (size ≤ (s.1.put (off % size) q).written), s.1.put (off % size) q, s.2) ∧
    off % size + q.length ≤ size := by
  have := Nat.mod_lt off hsize
  have hn : min (off % size + p.length) size - off % size = min p.length (size - off % size) := by
    omega
  have htake : p.take (min p.length (size - off % size)) = p.take (size - off % size) := by
    rw [take_eq_take_iff]
    omega
  refine ⟨?_, by rw [length_take]; omega⟩
  simp only [kind, hoff, ne_eq, not_true_eq_false, if_false, hn, htake]

theorem write_none (p : List UInt8) (env : ℕ → PageEnv) (hoff : off / size ≠ idx) :
    (kind size idx).write off p env s = none := if_pos hoff

structure Shows (size : ℕ) (a : Accepted) (b : MemBlock) : Prop where
  data : ∀ o < size, b.data o = (a.last o).getD 0
  high : b.highOff = a.high
  high_le : a.high ≤ size

theorem Shows.put (h : b.Shows size a) {start : ℕ} {q : List UInt8} (hq : start + q.length ≤ size) :
    (b.put start q).Shows size (a.add start q) := by
  refine ⟨fun o ho => ?_, congrArg (max · _) h.high, Nat.max_le.mpr ⟨h.high_le, hq⟩⟩
  change splice b.data start q o = (splice a.last start (q.map some) o).getD 0
  by_cases hin : start ≤ o ∧ o < start + q.length
  · rw [splice_map (f := b.data) some hin.1 hin.2, getD_some]
  · rw [splice_of_not_mem hin, splice_of_not_mem (by rwa [length_map]), h.data o ho]

theorem Shows.flush (h : s.1.Shows size a) (out : Outcome) :
    ((kind size idx).flush size idx out s).2.1.Shows size a := by
  rw [Kind.flush, kind]
  dsimp only
  split_ifs <;> exact ⟨h.data, h.high, h.high_le⟩

theorem Shows.next (hsize : 0 < size) (h : s.1.Shows size a) (c : BlockCall) :
    ((kind size idx).next size idx c s).1.Shows size (a.next size idx c) := by
  cases c with
  | flush out => exact h.flush out
  | writeAt off p env out =>
    rw [Kind.next, Accepted.next]
    by_cases hoff : off / size = idx
    · obtain ⟨hw, hlen⟩ := write_eq (s := s) hsize p env hoff
      rw [if_pos hoff, hw]
      dsimp only
      split_ifs
      · exact Shows.flush (s := (_, s.2)) (h.put hlen) out
      · exact h.put hlen
    · rwa [if_neg hoff, write_none p env hoff]

/-- A block that a write may go to: not marked as flushed, and with a list of intervals of which
`Merge` has not joined the last one. -/
def Ready (_off : ℕ) (p : List UInt8) (_env : ℕ → PageEnv) (b : MemBlock) : Prop :=
  p ≠ [] ∧ b.flushed = false ∧ b.interval.stale = []

instance (off : ℕ) (p : List UInt8) (env : ℕ → PageEnv) (b : MemBlock) :
    Decidable (Ready off p env b) := inferInstanceAs (Decidable (_ ∧ _))

/-- The last bytes written lie in the intervals of the block. -/
structure Holds (size : ℕ) (a : Accepted) (b : MemBlock) : Prop where
  within : Within 0 b.interval.items size
  data : ∀ o v, a.last o = some v → b.data o = v ∧ Covers b.interval.items o

theorem lawful (hsize : 0 < size) : (kind size idx).Lawful size idx Ready (Holds size) where
  within h := h.within.join
  data h hv := ⟨(h.data _ _ hv).1, (covers_merge h.within _).mpr (h.data _ _ hv).2⟩
  mark {a b} ok h hdue := by
    have hmerged : Holds size a { b with interval := b.interval.merge } :=
      ⟨h.within.join, fun o v hv => ⟨(h.data o v hv).1, (covers_merge h.within o).mpr (h.data o v hv).2⟩⟩
    cases ok with
    | true => exact ⟨⟨hmerged.within, hmerged.data⟩, rfl⟩
    | false => exact ⟨hmerged, hdue⟩
  write {a b off p env} st h hoff hready := by
    obtain ⟨hp, hflushed, hstale⟩ := hready
    obtain ⟨hw, hlen⟩ := write_eq (s := (b, st)) hsize p env hoff
    have hpos : 0 < (p.take (size - off % size)).length := by
      have := Nat.mod_lt off hsize
      have := length_pos_iff.mpr hp
      rw [length_take]
      omega
    generalize p.take (size - off % size) = q at *
    have hproper : b.interval.Proper size := ⟨h.within, hstale⟩
    have hlt : off % size < off % size + q.length := by omega
    refine ⟨_, _, _, hw, ?_, (hproper.addInterval hlt hlen).within, fun o v hv => ?_⟩
    · simp only [kind, put, hflushed, Bool.not_false, Bool.true_and, bne_iff_ne]
      omega
    change splice b.data (off % size) q o = v ∧ Covers (b.interval.addInterval _ _).items o
    rw [covers_addInterval hproper hlt]
    by_cases hin : off % size ≤ o ∧ o < off % size + q.length
    · refine ⟨some.inj ?_, .inl hin⟩
      rw [← splice_map (f := b.data) some hin.1 hin.2 a.last]
      exact hv
    · rw [splice_of_not_mem hin]
      have hv : splice a.last (off % size) (q.map some) o = some v := hv
      rw [splice_of_not_mem (by rwa [length_map])] at hv
      exact ⟨(h.data o v hv).1, .inr (h.data o v hv).2⟩
  refuse _ _ hoff := write_none _ _ hoff

end MemBlock

/-! ### A block in the swap file -/

namespace FileBlock

/-- The block `id` of a swap file. `WriteAt` takes all of `p`, and takes the mark away unless it
goes on with a flush. -/
def kind (cfg : Config) (id : ℕ) : Kind SwapFile where
  write off p env s := do
    let b ← s.1.blocks id
    if off / cfg.blockSize ≠ b.idx then none
    else
      let r := SwapFile.writeToPage cfg env id p.length off p s
      let b ← r.1.blocks id
      let start := off % cfg.blockSize
      let end_ := min (start + p.length) cfg.blockSize
      let full := decide (cfg.blockSize ≤ b.written + p.length)
      return (p.length, full, r.1.setBlock id { b with
        interval := b.interval.addInterval start end_
        written := b.written + p.length
        highOff := max b.highOff end_
        flushed := full && b.flushed }, r.2)
  pending sf := match sf.blocks id with
    | none => ⟨false, .empty, fun _ => 0⟩
    | some b => ⟨!b.flushed && b.written != 0, b.interval.merge,
        fun o => ((sf.gather cfg.blockSize b.pages.entries [])[o]?).getD 0⟩
  mark ok sf := match sf.blocks id with
    | none => sf
    | some b => sf.setBlock id { b with
        interval := b.interval.merge, flushed := ok, written := if ok then 0 else b.written }

open SwapFile

end FileBlock

def fourBytes : Config := ⟨4, 2, 8, Nat.le_add_left 1 3, Nat.le_add_left 1 1, Nat.le_mul_self 2⟩

end HugoFS.Vfs.Buffer
