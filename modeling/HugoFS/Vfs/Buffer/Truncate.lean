import HugoFS.Vfs.Buffer.Readback

/-!
# Truncating a file

`Truncate` sets the size in the attributes and flushes the writers. The stored blocks and the
buffers keep their bytes, and these are read again once the file is extended.
-/

namespace HugoFS.Vfs.Buffer

open Runs BufferState
open UploadPipeline (contents expected)

/-- A file with a handle that writes; `copy` is the size the handle knows. -/
structure OpenFile where
  size : ℕ
  copy : ℕ
  buffer : BufferState

namespace OpenFile

/-- The steps of the buffer include the flush of the handle in `Truncate`, and `WriteAt`. -/
inductive Call
  | truncate (size : ℕ)
  | buffer (c : BufferCall)

def range : BufferCall → ℕ × ℕ
  | .write off p => (off, off + p.length)
  | _ => (0, 0)

def next (cfg : Config) : Call → OpenFile → OpenFile
  | .truncate size, f => { f with size := size }
  | .buffer c, f =>
    { size := if f.copy < (range c).2 then (range c).2 else f.size
      copy := max f.copy (range c).2
      buffer := f.buffer.next cfg c }

/-- The step is one of a safe run and does not write the byte at `x`. -/
def Spares (cfg : Config) (x : ℕ) (f : OpenFile) : Call → Prop
  | .truncate _ => True
  | .buffer c => (f.buffer.Enabled c ∧ f.buffer.Safe cfg c) ∧ (x < (range c).1 ∨ (range c).2 ≤ x)

instance (cfg : Config) (x : ℕ) (f : OpenFile) : (c : Call) → Decidable (f.Spares cfg x c)
  | .truncate _ => isTrue trivial
  | .buffer c => inferInstanceAs (Decidable ((f.buffer.Enabled c ∧ f.buffer.Safe cfg c) ∧ _))

def stored : OpenFile :=
  ⟨4, 4, exec (BufferState.next tinyConfig) (extendRun.take 7) (init tinyConfig oneBlock)⟩

end OpenFile

end HugoFS.Vfs.Buffer
