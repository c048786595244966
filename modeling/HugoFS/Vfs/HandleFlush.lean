import HugoFS.Vfs.Buffer.Flushed
import HugoFS.Vfs.FileSize

/-!
# Flushing a file handle

`WriteAt` and `Flush` of a `FileHandle` whose uploads and attribute updates may fail. The handle
and the attributes of its file have a mark each. The buffer drops the errors of the uploads, and
`Flush` clears the mark of the handle on every way out.
-/

namespace HugoFS.Vfs

open Runs Buffer

namespace Buffer.BufferState

/-- The steps that are no calls of the handle. -/
def Background : BufferCall → Bool
  | .write _ _ | .flush | .flushed => false
  | _ => true

variable {cfg : Config} {st : Storage} {s : BufferState}

theorem Settled.next (h : s.Settled) (hs : s.Sound cfg st) {c : BufferCall} (hb : Background c)
    (henabled : s.Enabled c) (hsafe : s.Safe cfg c) : (s.next cfg c).Settled := by
  obtain ⟨hidle, hfl, hkeys⟩ := h
  cases c with
  | write | flush | flushed => cases hb
  | round env out old => exact absurd hidle henabled.1
  | sealBlock idx old => cases hfl.symm.trans henabled.1
  | upload id out =>
    exact ⟨hidle, hfl, (congrArg _ (PipeState.writeBlocks_upload cfg id _ out)).trans hkeys⟩
  | complete id out =>
    exact ⟨hidle, hfl, (congrArg _ (PipeState.writeBlocks_complete cfg id _ out)).trans hkeys⟩
  | read off len env =>
    change (((s.read cfg env off len).map fun r => r.state).getD s).Settled
    cases hr : s.read cfg env off len with
    | none => exact ⟨hidle, hfl, hkeys⟩
    | some r =>
      obtain ⟨rd, hstate, -⟩ := readLoop_state hs.pipe _ s.reader hs.reader (fun _ => hsafe) hr
      change r.state.Settled
      rw [hstate]
      exact ⟨hidle, hfl, hkeys⟩
  | _ => exact ⟨hidle, hfl, hkeys⟩

end Buffer.BufferState

/-- A handle that writes through the buffer, the size in the attributes of its file with their mark,
and the size that the service has. -/
structure HandleState extends FileHandle where
  fileSize : Int64
  dirty : Bool
  storedSize : Int64
  buffer : BufferState

/-- The calls of the handle, the return of a `Flush` that has flushed the buffer, with the answer
of the service to the update of the attributes, and the steps of the buffer meanwhile. -/
inductive HandleCall
  | writeAt (off : Fin (2 ^ 63)) (p : List UInt8)
  | flush
  | flushed (attrOk : Bool)
  | buffer (c : BufferCall)

namespace HandleState

def newFileHandle (cfg : Config) (size : Int64) (st : Storage) : HandleState :=
  ⟨⟨size, false⟩, size, false, size, .init cfg st⟩

/-- The mark is set after the write to the buffer. No other call comes before that. -/
def writeAt (cfg : Config) (off : Fin (2 ^ 63)) (p : List UInt8) (h : HandleState) : HandleState :=
  let h := { h with
    buffer := h.buffer.next cfg (.write off p)
    hasWrite := h.hasWrite || !p.isEmpty }
  let size := Int64.ofNat (off + p.length)
  if h.size < size then { h with fileSize := size, dirty := true, size := size } else h

/-- `Flush` of the attributes. Here as below, the result is true if there is no error. -/
def flushAttr (ok : Bool) (h : HandleState) : Bool × HandleState :=
  if h.dirty then
    if ok then (true, { h with dirty := false, storedSize := h.fileSize }) else (false, h)
  else (true, h)

/-- The end of `Flush`, whatever has become of the uploads. -/
def flushed (cfg : Config) (ok : Bool) (h : HandleState) : Bool × HandleState :=
  let r := { h with buffer := h.buffer.next cfg .flushed }.flushAttr ok
  (r.1, { r.2 with hasWrite := false })

def next (cfg : Config) : HandleCall → HandleState → HandleState
  | .writeAt off p, h => h.writeAt cfg off p
  | .flush, h => if h.hasWrite then { h with buffer := h.buffer.next cfg .flush } else h
  | .flushed ok, h => (h.flushed cfg ok).2
  | .buffer c, h => { h with buffer := h.buffer.next cfg c }

def Enabled (h : HandleState) : HandleCall → Prop
  | .writeAt off p => h.buffer.Enabled (.write off p)
  | .flush => h.buffer.Enabled .flush
  | .flushed _ => h.buffer.Enabled .flushed
  | .buffer c => h.buffer.Enabled c ∧ BufferState.Background c

instance (h : HandleState) (c : HandleCall) : Decidable (h.Enabled c) := by
  cases c <;> dsimp only [Enabled] <;> infer_instance

/-- No write is empty, no update of the attributes fails, and the steps of the buffer are safe. -/
def Careful (cfg : Config) (h : HandleState) (c : HandleCall) : Prop :=
  h.Enabled c ∧ match c with
    | .writeAt _ p => p ≠ []
    | .flush => True
    | .flushed ok => ok = true
    | .buffer c => h.buffer.Safe cfg c

instance (cfg : Config) (h : HandleState) (c : HandleCall) : Decidable (h.Careful cfg c) := by
  cases c <;> dsimp only [Careful] <;> infer_instance

/-- The storage has the last byte written at every offset, and the service the size. -/
def Saved (cfg : Config) (h : HandleState) : Prop :=
  (∀ x v, h.buffer.data x = some v →
    (h.buffer.pipe.up.storage.lookup (x / cfg.blockSize)).map (fun d => d (x % cfg.blockSize)) =
      some v) ∧ h.storedSize = h.fileSize

structure Tidy (cfg : Config) (st : Storage) (h : HandleState) : Prop where
  safe : BufferState.SafeRun cfg st h.buffer
  clean : h.hasWrite = false → h.buffer.Settled ∧ h.dirty = false
  sent : h.dirty = false → h.storedSize = h.fileSize

variable {cfg : Config} {st : Storage} {h : HandleState}

theorem flushed_sent (hsent : h.dirty = false → h.storedSize = h.fileSize) {ok : Bool}
    (hnil : (h.flushed cfg ok).1 = true) :
    (h.flushed cfg ok).2.dirty = false ∧
      (h.flushed cfg ok).2.storedSize = (h.flushed cfg ok).2.fileSize ∧
      (h.flushed cfg ok).2.buffer = h.buffer.next cfg .flushed := by
  cases hd : h.dirty <;> cases ok <;> simp_all [flushed, flushAttr]

theorem Tidy.next (ht : h.Tidy cfg st) {c : HandleCall} (hc : h.Careful cfg c) :
    (h.next cfg c).Tidy cfg st := by
  obtain ⟨henabled, hcareful⟩ := hc
  cases c with
  | writeAt off p =>
    have hsafe := ht.safe.step (c := .write off p) ⟨henabled, trivial⟩
    have hne : p.isEmpty = false := by simpa using hcareful
    change (h.writeAt cfg off p).Tidy cfg st
    simp only [HandleState.writeAt, hne, Bool.not_false, Bool.or_true]
    split
    · exact ⟨hsafe, fun hw => (by cases hw), fun hd => (by cases hd)⟩
    · exact ⟨hsafe, fun hw => (by cases hw), ht.sent⟩
  | flush =>
    change (if h.hasWrite then _ else h : HandleState).Tidy cfg st
    split
    next hw =>
      exact ⟨ht.safe.step (c := .flush) ⟨henabled, trivial⟩, fun hno => (by cases hw.symm.trans hno),
        ht.sent⟩
    · exact ht
  | flushed ok =>
    obtain rfl : ok = true := hcareful
    have hnil : (h.flushed cfg true).1 = true := by
      cases hd : h.dirty <;> simp [HandleState.flushed, flushAttr, hd]
    obtain ⟨hdirty, hsize, hbuffer⟩ := flushed_sent ht.sent hnil
    change (h.flushed cfg true).2.Tidy cfg st
    refine ⟨?_, fun _ => ⟨?_, hdirty⟩, fun _ => hsize⟩
    · rw [hbuffer]
      exact ht.safe.step (c := .flushed) ⟨henabled, trivial⟩
    · rw [hbuffer]
      exact .flushed ht.safe.sound henabled
  | buffer c =>
    refine ⟨ht.safe.step ⟨henabled.1, hcareful⟩, fun hw => ?_, ht.sent⟩
    obtain ⟨hsettled, hdirty⟩ := ht.clean hw
    exact ⟨hsettled.next ht.safe.sound henabled.2 henabled.1 hcareful, hdirty⟩

/-- In every run whose steps all meet the condition, a `Flush` that returns nil leaves all data and
the size stored: one that finds no mark, and one that has flushed the buffer. -/
theorem flush_saves (cfg : Config) (st : Storage) (size : Int64) (h : HandleState)
    (hrun : Reach (next cfg) (Careful cfg) (newFileHandle cfg size st) h) :
    (h.Enabled .flush → h.hasWrite = false → h.Saved cfg) ∧
      ∀ ok, h.Enabled (.flushed ok) → (h.flushed cfg ok).1 = true →
        (h.flushed cfg ok).2.Saved cfg := by
  have ht : h.Tidy cfg st := hrun.invariant (I := Tidy cfg st) (fun _ _ ht hc => ht.next hc)
    ⟨.refl _, fun _ => ⟨⟨rfl, rfl, rfl⟩, rfl⟩, fun _ => rfl⟩
  have hsound := ht.safe.sound
  refine ⟨fun _ hw => ?_, fun ok henabled hnil => ?_⟩
  · obtain ⟨hsettled, hdirty⟩ := ht.clean hw
    exact ⟨fun x v hv => hsettled.stored hsound hv, ht.sent hdirty⟩
  · obtain ⟨-, hsize, hbuffer⟩ := flushed_sent ht.sent hnil
    refine ⟨fun x v hv => ?_, hsize⟩
    rw [hbuffer] at hv ⊢
    exact (BufferState.Settled.flushed hsound henabled).stored (hsound.flushed henabled) hv

open BufferState (tinyConfig)

def writeAndFlush (upload : Outcome) : List HandleCall :=
  [.writeAt 1 [7, 8], .buffer (.round fun _ => none), .flush, .buffer (.sealBlock 0),
    .buffer (.upload 0 upload)]

def writtenHandle (upload : Outcome) : HandleState :=
  exec (next tinyConfig) (writeAndFlush upload) (newFileHandle tinyConfig 0 ∅)

theorem flush_saves_sample :
    (writtenHandle .ok).buffer.data 2 = some 8 ∧ ((writtenHandle .ok).flushed tinyConfig true).1 ∧
      ((writtenHandle .ok).flushed tinyConfig true).2.Saved tinyConfig :=
  ⟨by decide +kernel, by decide +kernel,
    (flush_saves tinyConfig ∅ 0 (writtenHandle .ok) (reach_exec (by decide +kernel))).2 true
      (by decide +kernel) (by decide +kernel)⟩

/-- A failed upload is not noticed; and a size whose update has failed, or that an empty write has
set, is not sent by the next flush. -/
theorem flush_returns_nil :
    let lost := (writtenHandle .failed).flushed tinyConfig true
    let unsent := ((writtenHandle .ok).flushed tinyConfig false).2
    let empty := (newFileHandle tinyConfig 0 ∅).next tinyConfig (.writeAt 1 [])
    (Legal (next tinyConfig) Enabled (writeAndFlush .failed ++ [.flushed true])
        (newFileHandle tinyConfig 0 ∅) ∧ lost.1 = true ∧ ¬lost.2.Saved tinyConfig) ∧
      (Legal (next tinyConfig) Enabled (writeAndFlush .ok ++ [.flushed false, .flush])
        (newFileHandle tinyConfig 0 ∅) ∧ unsent.hasWrite = false ∧ ¬unsent.Saved tinyConfig) ∧
      empty.Enabled .flush ∧ empty.hasWrite = false ∧ ¬empty.Saved tinyConfig := by
  refine ⟨⟨by decide +kernel, by decide +kernel, fun h => ?_⟩,
    ⟨by decide +kernel, by decide +kernel, fun h => absurd h.2 (by decide +kernel)⟩,
    by decide +kernel, by decide +kernel, fun h => absurd h.2 (by decide +kernel)⟩
  exact absurd (h.1 2 8 (by decide +kernel)) (by decide +kernel)

end HandleState

end HugoFS.Vfs
