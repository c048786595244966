import HugoFS.Vfs.Attr

/-!
# The size of an open file

A `File` keeps its size in its attributes, and every handle a copy that it took when it was opened.
`WriteAt` compares the end of the written range with the copy of its handle. `Truncate` sets the
size and flushes the handles that may write; each flush overwrites the size by the answer.

The model interleaves any number of `WriteAt` calls, which take no lock, with the `Truncate`
calls, and keeps the size that the calls should have led to.
-/

namespace HugoFS.Vfs

open Function Runs Meta Int64
open HugoFS.Meta (Caller Time Err UpdateInodeAttrReq)

/-! ### The answer of the service -/

theorem updateAttr_handleSet {c : Caller} {e : FsEntry} {ino : Ino} {now : Time}
    {stored a : Attr} (h : updateAttr c (e.updateAttr ino handleSet) now stored = .ok a) :
    a.size = e.size ∧ a.mode = stored.mode := by
  have hhas : ∀ bits, (e.updateAttr ino handleSet).has bits = (handleSet &&& bits != 0) :=
    fun _ => rfl
  obtain ⟨hsize, hmode⟩ := updateAttr_size ((hhas _).trans (by decide))
    ((hhas _).trans (by decide)) ((hhas _).trans (by decide)) ((hhas _).trans (by decide))
    ((hhas _).trans (by decide)) h
  exact ⟨(Except.ok.inj hsize).symm, hmode⟩

/-! ### Files and handles -/

structure FileHandle where
  size : Int64
  hasWrite : Bool

inductive WriteCall (κ : Type)
  | idle
  /-- The buffer has the bytes; the copy of the handle has still to be looked at. -/
  | written (h : κ) (stop : ℤ)
  /-- The size of the file has to be set. -/
  | extending (h : κ) (stop : ℤ)
  /-- The copy of the handle has to be set. -/
  | extended (h : κ) (stop : ℤ)
deriving DecidableEq

namespace WriteCall

variable {κ : Type}

def isWritten : WriteCall κ → Bool
  | written _ _ => true
  | _ => false

def isExtending : WriteCall κ → Bool
  | extending _ _ => true
  | _ => false

def isExtended : WriteCall κ → Bool
  | extended _ _ => true
  | _ => false

def InRange : WriteCall κ → Prop
  | idle => True
  | written _ stop | extending _ stop | extended _ stop => -2 ^ 63 ≤ stop ∧ stop < 2 ^ 63

end WriteCall

inductive TruncateCall (κ : Type)
  /-- The handles that are still to be flushed. -/
  | handles (todo : List κ)
  /-- The attributes are being flushed on behalf of a handle. -/
  | attr (h : κ) (todo : List κ)
  /-- The flush of a handle is over. -/
  | leaving (h : κ) (todo : List κ) (ok : Bool)
deriving DecidableEq

namespace TruncateCall

variable {κ : Type}

def flusher : TruncateCall κ → Option κ
  | attr h _ => some h
  | _ => none

def hasNext : TruncateCall κ → Bool
  | handles (_ :: _) => true
  | _ => false

def isLeaving : TruncateCall κ → Bool
  | leaving _ _ _ => true
  | _ => false

end TruncateCall

def FlushCall.sentSize : FlushCall → Option UInt64
  | .requested req => req.attr.bind Meta.ModifyAttr.size
  | _ => none

def FlushCall.OfHandle : FlushCall → Prop
  | .idle => True
  | .checked names => names = handleSet
  | .requested req => ∃ (e : FsEntry) (ino : Meta.Ino), req = e.updateAttr ino handleSet

structure File (κ γ : Type) where
  embeded : Flushing κ
  handles : κ → Option FileHandle
  writers : List κ
  writes : γ → WriteCall κ
  /-- The call that holds the lock. -/
  mu : Option (TruncateCall κ)
  /-- The size that the calls should have led to. -/
  expected : ℤ

namespace File

variable {κ γ : Type}

def new (κ γ : Type) (a : DirtyAttr) : File κ γ where
  embeded := .new κ a
  handles := fun _ => none
  writers := []
  writes := fun _ => .idle
  mu := none
  expected := a.size.toInt

def size (s : File κ γ) : Int64 := s.embeded.attr.size

def copy (s : File κ γ) (h : κ) : Int64 := (s.handles h).elim 0 FileHandle.size

def hasWrite (s : File κ γ) (h : κ) : Bool := (s.handles h).any FileHandle.hasWrite

inductive Event (κ γ : Type)
  /-- `Open`. -/
  | openFile (h : κ) (writer : Bool)
  | releaseHandle (h : κ)
  /-- `WriteAt` of `n` bytes, up to the look at the copy. -/
  | writeAt (c : γ) (h : κ) (off : Int64) (n : ℕ)
  | compare (c : γ)
  | setSize (c : γ)
  | storeSize (c : γ)
  /-- `Truncate`, up to the flush of the first handle. -/
  | truncate (size : Int64)
  /-- The flush of a handle, up to the look at the mark; the buffer may fail. -/
  | flushHandle (synced : Bool)
  /-- There is no mark, so nothing is sent. -/
  | clean
  | request
  /-- The service answers, with the attributes it has stored. -/
  | reply (caller : Caller) (now : Time) (stored : Meta.Attr)
  /-- The request fails on the way. -/
  | fail (err : Err)
  | leave
  | unlock

section Steps

variable [DecidableEq κ]

def modify (s : File κ γ) (h : κ) (f : FileHandle → FileHandle) : File κ γ :=
  { s with handles := Function.update s.handles h ((s.handles h).map f) }

def resize (s : File κ γ) (size : Int64) (expected : ℤ) : File κ γ :=
  { s with embeded := (Flushing.Event.set .size size).next s.embeded, expected := expected }

def answered (s : File κ γ) (h : κ) (todo : List κ) (answer : Except Err Meta.Attr) :
    File κ γ :=
  { s with
    embeded := (Flushing.Event.reply h answer).next s.embeded
    mu := some (.leaving h todo answer.isOk) }

variable [DecidableEq γ]

def Event.next (e : Event κ γ) (s : File κ γ) : File κ γ :=
  match e with
  | .openFile h writer =>
    { s with
      handles := Function.update s.handles h (some ⟨s.size, false⟩)
      writers := if writer then s.writers ++ [h] else s.writers }
  | .releaseHandle h => { s with writers := s.writers.filter fun h' => h' ≠ h }
  | .writeAt c h off n =>
    { s.modify h fun fh => { fh with hasWrite := fh.hasWrite || decide (0 < n) } with
      writes := Function.update s.writes c (.written h (off.toInt + n)) }
  | .compare c =>
    match s.writes c with
    | .written h stop =>
      if s.copy h < Int64.ofInt stop then
        { s with writes := Function.update s.writes c (.extending h stop) }
      else
        { s with writes := Function.update s.writes c .idle, expected := max s.expected stop }
    | _ => s
  | .setSize c =>
    match s.writes c with
    | .extending h stop =>
      { s.resize (.ofInt stop) (max s.expected stop) with
        writes := Function.update s.writes c (.extended h stop) }
    | _ => s
  | .storeSize c =>
    match s.writes c with
    | .extended h stop =>
      { s.modify h fun fh => { fh with size := .ofInt stop } with
        writes := Function.update s.writes c .idle }
    | _ => s
  | .truncate size =>
    if size = s.size then { s with expected := size.toInt }
    else { s.resize size size.toInt with mu := some (.handles s.writers) }
  | .flushHandle synced =>
    match s.mu with
    | some (.handles (h :: todo)) =>
      if s.hasWrite h then
        if synced then
          { s with
            embeded := (Flushing.Event.flush h (some handleSet)).next s.embeded
            mu := some (.attr h todo) }
        else { s with mu := some (.leaving h todo false) }
      else { s with mu := some (.handles todo) }
    | _ => s
  | .clean =>
    match s.mu with
    | some (.attr h todo) => { s with mu := some (.leaving h todo true) }
    | _ => s
  | .request =>
    match s.mu with
    | some (.attr h _) => { s with embeded := (Flushing.Event.request h).next s.embeded }
    | _ => s
  | .reply caller now stored =>
    match s.mu with
    | some (.attr h todo) =>
      match s.embeded.calls h with
      | .requested req => s.answered h todo (Meta.updateAttr caller req now stored)
      | _ => s
    | _ => s
  | .fail err =>
    match s.mu with
    | some (.attr h todo) => s.answered h todo (.error err)
    | _ => s
  | .leave =>
    match s.mu with
    | some (.leaving h todo ok) =>
      { s.modify h fun fh => { fh with hasWrite := false } with
        mu := if ok then some (.handles todo) else none }
    | _ => s
  | .unlock => { s with mu := none }

end Steps

open TruncateCall

def call (s : File κ γ) : FlushCall :=
  (s.mu.bind TruncateCall.flusher).elim .idle s.embeded.calls

def Event.Enabled (e : Event κ γ) (s : File κ γ) : Prop :=
  match e with
  | .openFile h _ => s.mu = none ∧ (s.handles h).isNone
  | .releaseHandle _ | .truncate _ => s.mu = none
  | .writeAt c h _ _ => s.writes c = .idle ∧ (s.handles h).isSome
  | .compare c => (s.writes c).isWritten
  | .setSize c => (s.writes c).isExtending
  | .storeSize c => (s.writes c).isExtended
  | .flushHandle _ => s.mu.any TruncateCall.hasNext
  | .clean => (s.mu.bind TruncateCall.flusher).isSome ∧ s.call = .idle
  | .request => s.call.isChecked
  -- a symlink has no handles
  | .reply _ _ stored => s.call.isRequested ∧ stored.isSymlink = false
  | .fail _ => s.call.isRequested
  | .leave => s.mu.any TruncateCall.isLeaving
  | .unlock => s.mu = some (.handles [])

instance Event.instDecidableEnabled [DecidableEq κ] (e : Event κ γ) (s : File κ γ) :
    Decidable (e.Enabled s) := by
  cases e <;> dsimp only [Enabled] <;> infer_instance

def leaves (s : File κ γ) (c : γ) : Bool :=
  match s.writes c with
  | .written h stop => decide (s.copy h < Int64.ofInt stop ∨ stop ≤ s.size.toInt)
  | _ => true

def lengthens (s : File κ γ) (c : γ) : Bool :=
  match s.writes c with
  | .extending _ stop => decide (s.size.toInt ≤ stop)
  | _ => true

def Event.Fresh (e : Event κ γ) (s : File κ γ) : Prop :=
  match e with
  | .writeAt _ _ off n => off.toInt + n < 2 ^ 63
  | .compare c => s.leaves c
  | .setSize c => s.lengthens c
  | .reply _ _ _ => s.call.sentSize = some s.size.toUInt64
  | _ => True

instance Event.instDecidableFresh (e : Event κ γ) (s : File κ γ) : Decidable (e.Fresh s) := by
  cases e <;> dsimp only [Fresh] <;> infer_instance

/-! ### The invariant -/

structure Sized (s : File κ γ) : Prop where
  size_eq : s.size.toInt = s.expected
  range : ∀ c, (s.writes c).InRange
  calls : ∀ h, (s.embeded.calls h).OfHandle

theorem Sized.new (a : DirtyAttr) : (new κ γ a).Sized :=
  ⟨rfl, fun _ => trivial, fun _ => trivial⟩

variable {s : File κ γ}

section Steps

variable [DecidableEq κ]

section

variable (hs : s.Sized)
include hs

theorem Sized.modify (h : κ) (f : FileHandle → FileHandle) :
    (s.modify h f).Sized := { hs with }

theorem Sized.resize {size : Int64} {expected : ℤ} (heq : size.toInt = expected) :
    (s.resize size expected).Sized := by
  refine { hs with size_eq := ?_ }
  change (update s.embeded.attr.value .size size .size).toInt = expected
  rw [update_self]
  exact heq

open Flushing.Event

theorem Sized.request (h : κ) :
    { s with embeded := (request h).next s.embeded }.Sized := by
  cases hc : s.embeded.calls h with
  | idle => simpa [next, hc] using hs
  | requested req => simpa [next, hc] using hs
  | checked names =>
    have hnames : FlushCall.OfHandle (.checked names) := hc ▸ hs.calls h
    simp only [next, hc]
    refine ⟨hs.size_eq, hs.range, ?_⟩
    exact (forall_update_iff _ _).mpr
      ⟨⟨s.embeded.attr.wrap, s.embeded.attr.ino, congrArg _ hnames⟩, fun h' _ => hs.calls h'⟩

theorem Sized.flush (h : κ) :
    { s with embeded := (flush h (some handleSet)).next s.embeded }.Sized := by
  by_cases hd : s.embeded.attr.dirty = true
  · simp only [next, if_pos hd]
    refine ⟨hs.size_eq, hs.range, ?_⟩
    exact (forall_update_iff _ _).mpr ⟨rfl, fun h' _ => hs.calls h'⟩
  · simpa only [next, if_neg hd] using hs

theorem Sized.fail (h : κ) (todo : List κ) (err : Err) :
    (s.answered h todo (.error err)).Sized := by
  refine ⟨hs.size_eq, hs.range, ?_⟩
  exact (forall_update_iff _ _).mpr ⟨trivial, fun h' _ => hs.calls h'⟩

theorem Sized.reply {h : κ} {req : UpdateInodeAttrReq} (todo : List κ) {caller : Caller}
    {now : Time} {stored : Attr} (hreq : s.embeded.calls h = .requested req)
    (hfile : stored.isSymlink = false)
    (hsent : req.attr.bind Meta.ModifyAttr.size = some s.size.toUInt64) :
    (s.answered h todo (updateAttr caller req now stored)).Sized := by
  cases ha : updateAttr caller req now stored with
  | error err => exact hs.fail h todo err
  | ok a =>
    obtain ⟨e, ino, rfl⟩ : FlushCall.OfHandle (.requested req) := hreq ▸ hs.calls h
    obtain ⟨hsize, hmode⟩ := updateAttr_handleSet ha
    have hsame : e.size = s.size.toUInt64 := Option.some.inj hsent
    have hlink : a.isSymlink = false := by rw [Meta.Attr.isSymlink, hmode]; exact hfile
    refine ⟨?_, hs.range, ?_⟩
    · change ((FsEntry.wrap a).size.toInt64).toInt = s.expected
      rw [FsEntry.wrap, hlink, if_neg Bool.false_ne_true, hsize, hsame]
      exact hs.size_eq
    · exact (forall_update_iff _ _).mpr ⟨trivial, fun h' _ => hs.calls h'⟩

end

end Steps

theorem Sized.setCall [DecidableEq γ] (hs : s.Sized) (c : γ) {w : WriteCall κ} (hw : w.InRange) :
    { s with writes := update s.writes c w }.Sized := by
  refine { hs with range := ?_ }
  exact (forall_update_iff _ _).mpr ⟨hw, fun c' _ => hs.range c'⟩

/-! ### Steps -/

section Steps

variable [DecidableEq κ] [DecidableEq γ]

section

variable (hs : s.Sized)
include hs

open Event

theorem Sized.writeAt (c : γ) (h : κ) {off : Int64} {n : ℕ}
    (hstop : off.toInt + n < 2 ^ 63) : ((writeAt c h off n).next s).Sized := by
  have hoff := off.le_toInt
  have hrange : (WriteCall.written h (off.toInt + n)).InRange := ⟨by omega, hstop⟩
  exact (hs.modify h _).setCall c hrange

theorem Sized.compare {c : γ} (hf : (.compare c : Event κ γ).Fresh s) :
    ((compare c).next s).Sized := by
  have hrange := hs.range c
  delta Event.next
  cases hc : s.writes c with
  | idle | extending | extended => simpa only [hc] using hs
  | written h stop =>
    simp only [Fresh, leaves, hc, decide_eq_true_eq] at hf
    rw [hc] at hrange
    simp only [hc]
    split
    · exact hs.setCall c hrange
    rename_i hle
    have hstop : stop ≤ s.size.toInt := hf.resolve_left hle
    refine { hs.setCall c (w := .idle) trivial with size_eq := ?_ }
    change s.size.toInt = max s.expected stop
    rw [← hs.size_eq, max_eq_left hstop]

theorem Sized.setSize {c : γ} (hf : (.setSize c : Event κ γ).Fresh s) :
    ((setSize c).next s).Sized := by
  have hrange := hs.range c
  delta Event.next
  cases hc : s.writes c with
  | idle | written | extended => simpa only [hc] using hs
  | extending h stop =>
    simp only [Fresh, lengthens, hc, decide_eq_true_eq] at hf
    rw [hc] at hrange
    simp only [hc]
    have heq : (ofInt stop).toInt = max s.expected stop := by
      rw [toInt_ofInt_of_le hrange.1 hrange.2, ← hs.size_eq, max_eq_right hf]
    exact (hs.resize heq).setCall c hrange

theorem Sized.storeSize (c : γ) : ((storeSize c).next s).Sized := by
  delta Event.next
  cases hc : s.writes c with
  | idle | written | extending => simpa only [hc] using hs
  | extended h stop =>
    simp only [hc]
    exact (hs.modify h _).setCall c trivial

theorem Sized.truncate (size : Int64) :
    ((.truncate size : Event κ γ).next s).Sized := by
  delta Event.next
  dsimp only
  split
  · rename_i heq
    exact { hs with size_eq := congrArg toInt heq.symm }
  · exact { hs.resize rfl with }

theorem Sized.flushHandle (synced : Bool) :
    ((flushHandle synced : Event κ γ).next s).Sized := by
  delta Event.next
  dsimp only
  split
  · split
    · split
      · exact { hs.flush _ with }
      · exact { hs with }
    · exact { hs with }
  · exact hs

theorem Sized.next {e : Event κ γ} (he : e.Enabled s) (hf : e.Fresh s) :
    (e.next s).Sized := by
  cases e with
  | openFile h writer => exact { hs with }
  | releaseHandle h => exact { hs with }
  | writeAt c h off n => exact hs.writeAt c h hf
  | compare c => exact hs.compare hf
  | setSize c => exact hs.setSize hf
  | storeSize c => exact hs.storeSize c
  | truncate size => exact hs.truncate size
  | flushHandle synced => exact hs.flushHandle synced
  | clean =>
    rw [Event.next]
    split
    · exact { hs with }
    · exact hs
  | request =>
    rw [Event.next]
    split
    · exact hs.request _
    · exact hs
  | reply caller now stored =>
    rw [Event.next]
    split
    · rename_i h todo hmu
      have hcall : s.call = s.embeded.calls h := by simp [call, hmu, flusher]
      split
      · rename_i req hreq
        rw [Fresh, hcall, hreq] at hf
        exact hs.reply todo hreq he.2 hf
      · exact hs
    · exact hs
  | fail err =>
    rw [Event.next]
    split
    · exact hs.fail _ _ err
    · exact hs
  | leave =>
    rw [Event.next]
    split
    · exact { hs with }
    · exact hs
  | unlock => exact { hs with }

end

/-- In every run in which the copies of the handles mislead no write and no flush is overtaken,
the size of the file is the one that the calls, in the order in which they take effect, lead
to. -/
theorem size_eq_expected {a : DirtyAttr}
    (hs : Reach Event.next (fun s e => e.Enabled s ∧ e.Fresh s) (new κ γ a) s) :
    s.size.toInt = s.expected :=
  (Reach.invariant (I := Sized) (fun _ _ hI hok => hI.next hok.1 hok.2) hs (.new a)).size_eq

end Steps

/-! ### Sample runs -/

def opened : List (Event Bool Unit) := [.openFile false true, .openFile true true]

def extendSteps (h : Bool) (n : ℕ) : List (Event Bool Unit) :=
  [.writeAt () h 0 n, .compare (), .setSize (), .storeSize ()]

def empty : File Bool Unit := new Bool Unit (.ofEntry 2 (.wrap Flushing.stored))

def agreeingSteps : List (Event Bool Unit) :=
  opened ++ extendSteps false 100 ++
    [.truncate 50, .flushHandle true, .request, .reply ⟨0, 0⟩ ⟨9, 0⟩ Flushing.stored, .leave,
      .flushHandle true, .unlock] ++
    extendSteps true 80

theorem size_eq_expected_sample :
    let s := exec Event.next agreeingSteps empty
    s.size.toInt = s.expected ∧ s.expected = 80 := by
  have hs : Reach Event.next (fun s e => e.Enabled s ∧ e.Fresh s) empty
      (exec Event.next agreeingSteps empty) := reach_exec (by decide +kernel)
  exact ⟨size_eq_expected hs, by decide +kernel⟩

def shortenSteps : List (Event Bool Unit) :=
  opened ++ extendSteps false 100 ++ extendSteps true 10

def stuckSteps : List (Event Bool Unit) :=
  opened ++ extendSteps false 100 ++ [.truncate 50, .writeAt () false 0 80, .compare ()]

theorem size_ne_expected :
    (∃ s, Reach Event.next (fun s e => e.Enabled s) empty s ∧
      s.writes () = .idle ∧ s.expected = 100 ∧ s.size.toInt = 10) ∧
    (∃ s, Reach Event.next (fun s e => e.Enabled s) empty s ∧
      s.writes () = .idle ∧ s.expected = 80 ∧ s.size.toInt = 50) := by
  constructor
  · refine ⟨exec Event.next shortenSteps empty, reach_exec (by decide +kernel), ?_⟩
    decide +kernel
  · refine ⟨exec Event.next stuckSteps empty, reach_exec (by decide +kernel), ?_⟩
    decide +kernel

end File

end HugoFS.Vfs
