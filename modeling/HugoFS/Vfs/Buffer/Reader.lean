import HugoFS.Vfs.Buffer.Swap

/-!
# The read buffer

`DefaultBlockReadBuffer`. Blocks that were read from the storage are kept, in memory or in a swap
file, and no write of the same file removes them. `ReadEnv` is what the rest of the process
decides.
-/

namespace HugoFS.Vfs.Buffer

open Segment

structure Reader where
  counter : ℤ
  lastStop : ℕ
  blocks : ℕ → Option Data
  swapfile : SwapFile

structure ReadEnv where
  full : Bool
  acquire : ℕ → Bool
  pages : ℕ → PageEnv

structure Fetched where
  bytes : List UInt8
  err : Option ReadErr
  reader : Reader
  storage : Storage

namespace Reader

def new : Reader := ⟨0, 0, fun _ => none, .empty⟩

/-- Counts reads that go on where the last one stopped, and against them all others. -/
def monitor (off len : ℕ) (r : Reader) : Reader :=
  { r with
    lastStop := off + len
    counter :=
      if r.lastStop = off then (if r.counter < 3 then r.counter + 1 else r.counter)
      else if -3 < r.counter then r.counter - 1 else r.counter }

def isSequentialMode (r : Reader) : Bool := 0 ≤ r.counter

def indexRange (cfg : Config) (off len : ℕ) : List ℕ :=
  let stop := if (off + len) % cfg.blockSize = 0 then (off + len) / cfg.blockSize
    else (off + len) / cfg.blockSize + 1
  List.range' (off / cfg.blockSize) (stop - off / cfg.blockSize)

def readBlock (cfg : Config) (i : ℕ) (d : Data) (off len : ℕ) : List UInt8 :=
  if off / cfg.blockSize ≠ i then []
  else read d (off % cfg.blockSize) (min (cfg.blockSize - off % cfg.blockSize) len)

/-- Fetches the blocks that are missing, whole, while there is memory for them. -/
def readBlocks (cfg : Config) (acquire : ℕ → Bool) (st : Storage) :
    List ℕ → ℕ → ℕ → Reader → Fetched
  | [], _, len, r => ⟨[], if 0 < len then some .eof else none, r, st⟩
  | i :: is, off, len, r =>
    match r.blocks i with
    | some d =>
      let bytes := readBlock cfg i d off len
      let f := readBlocks cfg acquire st is (off + bytes.length) (len - bytes.length) r
      { f with bytes := bytes ++ f.bytes }
    | none =>
      if acquire i then
        match st.lookup i with
        | none => ⟨[], some .eof, r, st⟩
        | some d =>
          let bytes := readBlock cfg i d off len
          let f := readBlocks cfg acquire st is (off + bytes.length) (len - bytes.length)
            { r with blocks := Function.update r.blocks i (some d) }
          { f with bytes := bytes ++ f.bytes }
      else ⟨[], none, r, st⟩

/-- A block that is in neither place drops the bytes of those before it. -/
def readFromLocal (cfg : Config) (pages : ℕ → PageEnv) :
    List ℕ → ℕ → ℕ → List UInt8 → Reader → Storage → Option Fetched
  | [], _, len, acc, r, st => some ⟨acc, if 0 < len then some .eof else none, r, st⟩
  | i :: is, off, len, acc, r, st =>
    match r.blocks i with
    | some d =>
      let bytes := readBlock cfg i d off len
      if len ≤ bytes.length then some ⟨acc ++ bytes, none, r, st⟩
      else readFromLocal cfg pages is (off + bytes.length) (len - bytes.length) (acc ++ bytes) r st
    | none =>
      match r.swapfile.lookup i with
      | none => some ⟨[], none, r, st⟩
      | some id =>
        (SwapFile.readAt cfg pages id off len (r.swapfile, st)).bind fun a =>
          let r := { r with swapfile := a.state.1 }
          if a.err = some .notFound then some ⟨acc, some .eof, r, a.state.2⟩
          else if len ≤ a.bytes.length then some ⟨acc ++ a.bytes, a.err, r, a.state.2⟩
          else readFromLocal cfg pages is (off + a.bytes.length) (len - a.bytes.length)
            (acc ++ a.bytes) r a.state.2

/-- The swap file's copy of a block, made from the storage when there is none. -/
def swapBlock (cfg : Config) (pages : ℕ → PageEnv) (i : ℕ) (s : SwapFile × Storage) :
    ℕ × SwapFile × Storage :=
  match s.1.lookup i with
  | some id => (id, s)
  | none =>
    let n := s.1.newFileBlock i
    (n.1, SwapFile.doCache cfg pages n.1 (n.2, s.2))

def readFromRemote (cfg : Config) (pages : ℕ → PageEnv) :
    List ℕ → ℕ → ℕ → List UInt8 → Reader → Storage → Option Fetched
  | [], _, len, acc, r, st => some ⟨acc, if 0 < len then some .eof else none, r, st⟩
  | i :: is, off, len, acc, r, st =>
    let b := swapBlock cfg pages i (r.swapfile, st)
    (SwapFile.readAt cfg pages b.1 off len b.2).bind fun a =>
      let r := { r with swapfile := a.state.1 }
      if a.err = some .notFound then some ⟨acc ++ a.bytes, some .eof, r, a.state.2⟩
      else readFromRemote cfg pages is (off + a.bytes.length) (len - a.bytes.length)
        (acc ++ a.bytes) r a.state.2

def read (cfg : Config) (env : ReadEnv) (off len : ℕ) (r : Reader) (st : Storage) : Option Fetched :=
  let r := r.monitor off len
  let is := indexRange cfg off len
  if r.isSequentialMode = false ∧ env.full then
    (readFromLocal cfg env.pages is off len [] r st).bind fun f =>
      if f.bytes ≠ [] then some f
      else readFromRemote cfg env.pages is off len [] f.reader f.storage
  else some (readBlocks cfg env.acquire st is off len r)

end Reader

end HugoFS.Vfs.Buffer
