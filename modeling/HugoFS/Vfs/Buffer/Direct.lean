import HugoFS.Vfs.Buffer.Pipeline
import HugoFS.Vfs.Buffer.Reader
import Mathlib.Order.Lattice.Nat

/-!
# The direct buffer of a file

`DirectRWBuffer`: a page writer over the upload pipeline, and a read buffer. `Flush` seals all
write blocks and waits for the uploads; it does not look at the swap file. The calls come one
after another, and uploads go on meanwhile. A read is one step, a write a step for each round
of the pipeline, and a flush one for its beginning, for each block and for its end.
-/

namespace HugoFS.Vfs.Buffer

open Segment

/-- What `AddPage` makes of a write: a call of the pipeline for each block. -/
def addPage (cfg : Config) : ℕ → ℕ → List UInt8 → List (ℕ × List UInt8)
  | 0, _, _ => []
  | fuel + 1, off, p =>
    if p = [] then []
    else
      let n := min p.length ((off / cfg.blockSize + 1) * cfg.blockSize - off)
      (off, p.take n) :: addPage cfg fuel (off + n) (p.drop n)

/-- The buffer, with the bytes that the writes have given for each offset and the size that they
have given to the file. -/
structure BufferState where
  pipe : PipeState Unit
  hasWrites : Bool
  flushing : Bool
  reader : Reader
  data : ℕ → Option UInt8
  size : ℕ

/-- The steps, with the answers of the storage to the uploads that they make. -/
inductive BufferCall
  | write (off : ℕ) (p : List UInt8)
  | round (env : ℕ → PageEnv) (out old : Outcome := .ok)
  | upload (id : ℕ) (out : Outcome := .ok)
  | complete (id : ℕ) (out : Outcome := .ok)
  | destroy (id : ℕ) (out : Outcome := .ok)
  | flush
  | sealBlock (idx : ℕ) (old : Outcome := .ok)
  | flushed
  | read (off len : ℕ) (env : ℕ → ReadEnv)
  | evict (idx : ℕ)
  | destroyRead (id : ℕ) (out : Outcome := .ok)

namespace BufferState

def init (cfg : Config) (st : Storage) : BufferState :=
  ⟨.init st, false, false, .new, fun _ => none, st.keys.sup fun i => (i + 1) * cfg.blockSize⟩

/-! ### Reading -/

structure DirtyRead where
  bytes : List UInt8
  failed : Bool
  up : UploadPipeline

/-- `ReadDirtyPagesAt`: reads the pipeline until it has what was asked for. Without any write there
is no pipeline, and it fails. -/
def readDirty (cfg : Config) (pages : ℕ → PageEnv) (hasWrites : Bool) :
    ℕ → ℕ → ℕ → UploadPipeline → Option DirtyRead
  | 0, _, _, _ => none
  | fuel + 1, off, len, up =>
    if len = 0 then some ⟨[], false, up⟩
    else if hasWrites = false then some ⟨[], true, up⟩
    else
      (up.readAt cfg pages off len).bind fun r =>
        if r.err.isSome ∨ r.bytes = [] then some ⟨[], true, r.up⟩
        else
          (readDirty cfg pages hasWrites fuel (off + r.bytes.length) (len - r.bytes.length) r.up).map
            fun d => { d with bytes := r.bytes ++ d.bytes }

structure ReadOutcome where
  bytes : List UInt8
  eof : Bool
  state : BufferState

def fetched (s : BufferState) (f : Fetched) : BufferState :=
  { s with
    reader := f.reader
    pipe := { s.pipe with up := { s.pipe.up with storage := f.storage } } }

/-- `ReadAt`: what the read buffer does not have is asked of the dirty pages, and again, until
neither has more. -/
def readLoop (cfg : Config) :
    ℕ → (ℕ → ReadEnv) → ℕ → ℕ → Bool → Bool → Bool → BufferState → Option ReadOutcome
  | 0, _, _, _, _, _, _, _ => none
  | fuel + 1, env, off, len, noOnRemote, noOnDirty, eof, s =>
    if len = 0 ∨ (noOnRemote ∧ noOnDirty) then some ⟨[], eof, s⟩
    else
      (s.reader.read cfg (env 0) off len s.pipe.up.storage).bind fun f =>
        let s := s.fetched f
        if f.err.isSome ∧ f.err ≠ some .eof then some ⟨f.bytes, eof, s⟩
        else
          let eof := eof || f.err.isSome
          let noOnRemote := noOnRemote || f.bytes.isEmpty
          if len ≤ f.bytes.length ∨ (noOnRemote ∧ noOnDirty) then some ⟨f.bytes, eof, s⟩
          else
            (readDirty cfg (env 0).pages s.hasWrites (len + 1) (off + f.bytes.length)
                (len - f.bytes.length) s.pipe.up).bind fun d =>
              let s := { s with pipe := { s.pipe with up := d.up } }
              let bytes := f.bytes ++ d.bytes
              if d.failed then some ⟨bytes, eof, s⟩
              else
                (readLoop cfg fuel (fun n => env (n + 1)) (off + bytes.length) (len - bytes.length)
                    noOnRemote (noOnDirty || d.bytes.isEmpty) (eof && d.bytes.isEmpty) s).map fun r =>
                  { r with bytes := bytes ++ r.bytes }

def read (cfg : Config) (env : ℕ → ReadEnv) (off len : ℕ) (s : BufferState) :
    Option ReadOutcome :=
  readLoop cfg (len + 3) env off len false false false s

/-! ### Runs -/

def sealBlock (cfg : Config) (idx : ℕ) (s : BufferState) (old : Outcome := .ok) : BufferState :=
  match s.pipe.up.writeBlocks.lookup idx with
  | none => s
  | some b => { s with pipe := { s.pipe with up := s.pipe.up.move2Sealed cfg (.mem b) idx old } }

def next (cfg : Config) : BufferCall → BufferState → BufferState
  | .write off p, s =>
    { s with
      pipe := s.pipe.next cfg (.write () (addPage cfg p.length off p))
      hasWrites := s.hasWrites || !p.isEmpty
      data := splice s.data off (p.map some)
      size := if p = [] then s.size else max s.size (off + p.length) }
  | .round env out old, s => { s with pipe := s.pipe.next cfg (.round () env out old) }
  | .upload id out, s => { s with pipe := s.pipe.next cfg (.upload id out) }
  | .complete id out, s => { s with pipe := s.pipe.next cfg (.complete id out) }
  | .destroy id out, s => { s with pipe := s.pipe.next cfg (.destroy id out) }
  | .flush, s => { s with flushing := true }
  | .sealBlock idx old, s => s.sealBlock cfg idx old
  | .flushed, s => { s with flushing := false }
  | .read off len env, s => ((s.read cfg env off len).map fun r => r.state).getD s
  | .evict idx, s =>
    { s with reader := { s.reader with blocks := Function.update s.reader.blocks idx none } }
  | .destroyRead id out, s =>
    let r := SwapFile.destroy cfg id (s.reader.swapfile, s.pipe.up.storage) out
    s.fetched ⟨[], none, { s.reader with swapfile := r.1 }, r.2⟩

/-- No `WriteAt` is under way. -/
def Idle (s : BufferState) : Prop := s.pipe.calls () = []

instance (s : BufferState) : Decidable s.Idle := inferInstanceAs (Decidable (_ = _))

/-- `Flush` returns when every write block is sealed and every sealed one flushed, whether or not
that failed. -/
def FlushReturns (s : BufferState) : Prop :=
  s.flushing = true ∧ (s.hasWrites = false ∨ s.pipe.up.writeBlocks.keys = ∅ ∧
    ∀ id < s.pipe.up.nextUpload, (s.pipe.up.uploads id).all (fun u => u.flushed) = true)

instance (s : BufferState) : Decidable s.FlushReturns := inferInstanceAs (Decidable (_ ∧ _))

/-- The calls come one after another, and a flush is over before the next. -/
def Enabled (s : BufferState) : BufferCall → Prop
  | .write _ _ => s.Idle ∧ s.flushing = false
  | .round env out old => s.pipe.Enabled (.round () env out old)
  | .upload id out => s.pipe.Enabled (.upload id out)
  | .complete id out => s.pipe.Enabled (.complete id out)
  | .destroy id out => s.pipe.Enabled (.destroy id out)
  | .flush => s.Idle ∧ s.flushing = false
  | .sealBlock idx _ => s.flushing = true ∧ s.hasWrites = true ∧ idx ∈ s.pipe.up.writeBlocks
  | .flushed => s.FlushReturns
  | .read _ _ _ => s.Idle ∧ s.flushing = false
  | .evict _ => True
  | .destroyRead id _ => id ∈ s.reader.swapfile.dying

instance (s : BufferState) (c : BufferCall) : Decidable (s.Enabled c) := by
  cases c <;> dsimp only [Enabled] <;> infer_instance

end BufferState

end HugoFS.Vfs.Buffer
