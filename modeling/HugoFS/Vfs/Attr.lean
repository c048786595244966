import HugoFS.Lib.Runs
import HugoFS.Meta.UpdateAttr
import Mathlib.Data.Fintype.Basic

/-!
# Attributes changed on the client

An open node keeps its attributes in a `DirtyAttr`. `Flush` sends the record with the set of fields
that the service is to take over, overwrites every field with the answer and clears the mark
that all fields share. Beside the code's state the model keeps, for each field, the value that
was set since a request naming the field was last built.
-/

namespace HugoFS.Vfs

open Function Runs Option Meta

open HugoFS.Meta (Ino Time Err ModifyAttr UpdateInodeAttrReq)

/-! ### Fields -/

inductive AttrField
  | mtime
  | atime
  | ctime
  | mode
  | size
  | nlink
  | dev
  | uid
  | gid
deriving DecidableEq

def setAttrCtime : UInt32 := 64

namespace AttrField

instance instFintype : Fintype AttrField where
  elems := {mtime, atime, ctime, mode, size, nlink, dev, uid, gid}
  complete f := by cases f <;> decide

abbrev Value : AttrField → Type
  | mtime | atime | ctime => Time
  | mode | dev | uid | gid => UInt32
  | size | nlink => Int64

def bit : AttrField → Option UInt32
  | mtime => some Meta.setAttrMtime
  | atime => some Meta.setAttrAtime
  | ctime => some setAttrCtime
  | mode => some Meta.setAttrMode
  | size => some Meta.setAttrSize
  | uid => some Meta.setAttrUID
  | gid => some Meta.setAttrGID
  | nlink | dev => none

def named (set : UInt32) (f : AttrField) : Bool :=
  f.bit.any fun b => set &&& b != 0

end AttrField

def handleSet : UInt32 :=
  Meta.setAttrAtime ||| setAttrCtime ||| Meta.setAttrMtime ||| Meta.setAttrSize

/-! ### Entries -/

structure FsEntry where
  mode : UInt32
  size : UInt64
  nlink : Int64
  linkTarget : String
  dev : UInt32
  ctime : Time
  mtime : Time
  atime : Time
  uid : UInt32
  gid : UInt32

namespace FsEntry

def unix (sec : ℤ) (nsec : UInt32) : Time :=
  ⟨sec + nsec.toNat / 1000000000, nsec % 1000000000⟩

def wrap (a : Meta.Attr) : FsEntry where
  mode := a.mode
  size := if a.isSymlink then a.linkTarget.utf8ByteSize.toUInt64 else a.size
  nlink := .ofNat a.nlink.toNat
  linkTarget := a.linkTarget
  dev := a.rdev
  ctime := unix a.ctime a.ctimens
  mtime := unix a.mtime a.mtimens
  atime := unix a.atime a.atimens
  uid := a.uid
  gid := a.gid

def value (e : FsEntry) : (f : AttrField) → f.Value
  | .mtime => e.mtime
  | .atime => e.atime
  | .ctime => e.ctime
  | .mode => e.mode
  | .size => e.size.toInt64
  | .nlink => e.nlink
  | .dev => e.dev
  | .uid => e.uid
  | .gid => e.gid

def updateAttr (e : FsEntry) (ino : Ino) (set : UInt32) : UpdateInodeAttrReq where
  ino := ino
  set := set
  attr := some { ModifyAttr.empty with
    size := some e.size
    mode := some e.mode
    uid := some e.uid
    gid := some e.gid
    atime := some e.atime.sec
    atimens := some e.atime.nsec
    mtime := some e.mtime.sec
    mtimens := some e.mtime.nsec
    ctime := some e.ctime.sec
    ctimens := some e.ctime.nsec }

end FsEntry

/-! ### DirtyAttr -/

structure DirtyAttr where
  ino : Ino
  value : (f : AttrField) → f.Value
  linkTarget : String
  dirty : Bool

namespace DirtyAttr

def set (a : DirtyAttr) (f : AttrField) (v : f.Value) : DirtyAttr :=
  { a with value := Function.update a.value f v, dirty := true }

def setModTime (a : DirtyAttr) (modTime : Time) : DirtyAttr := a.set .mtime modTime
def setATime (a : DirtyAttr) (atime : Time) : DirtyAttr := a.set .atime atime
def setCTime (a : DirtyAttr) (ctime : Time) : DirtyAttr := a.set .ctime ctime
def setNlink (a : DirtyAttr) (nlink : Int64) : DirtyAttr := a.set .nlink nlink
def setMode (a : DirtyAttr) (mode : UInt32) : DirtyAttr := a.set .mode mode
def setSize (a : DirtyAttr) (size : Int64) : DirtyAttr := a.set .size size
def setUID (a : DirtyAttr) (uid : UInt32) : DirtyAttr := a.set .uid uid
def setGID (a : DirtyAttr) (gid : UInt32) : DirtyAttr := a.set .gid gid
def setRdev (a : DirtyAttr) (dev : UInt32) : DirtyAttr := a.set .dev dev

def size (a : DirtyAttr) : Int64 := a.value .size

def wrap (a : DirtyAttr) : FsEntry where
  mode := a.value .mode
  size := a.size.toUInt64
  nlink := a.value .nlink
  linkTarget := a.linkTarget
  dev := a.value .dev
  ctime := a.value .ctime
  mtime := a.value .mtime
  atime := a.value .atime
  uid := a.value .uid
  gid := a.value .gid

def store (a : DirtyAttr) (e : FsEntry) : DirtyAttr :=
  { a with value := e.value, linkTarget := e.linkTarget, dirty := false }

def unwrap (a : DirtyAttr) (e : FsEntry) : DirtyAttr :=
  if a.dirty then a else { a with value := e.value, linkTarget := e.linkTarget }

def ofEntry (ino : Ino) (e : FsEntry) : DirtyAttr where
  ino := ino
  value := Function.update e.value .atime e.mtime
  linkTarget := e.linkTarget
  dirty := false

end DirtyAttr

/-! ### Concurrent flushes -/

inductive FlushCall
  | idle
  | checked (names : UInt32)
  | requested (req : UpdateInodeAttrReq)
deriving DecidableEq

def FlushCall.isChecked : FlushCall → Bool
  | .checked _ => true
  | _ => false

def FlushCall.isRequested : FlushCall → Bool
  | .requested _ => true
  | _ => false

structure Flushing (κ : Type) where
  attr : DirtyAttr
  calls : κ → FlushCall
  unsent : (f : AttrField) → Option f.Value

namespace Flushing

variable {κ : Type}

def new (κ : Type) (a : DirtyAttr) : Flushing κ where
  attr := a
  calls := fun _ => .idle
  unsent := fun _ => none

inductive Event (κ : Type)
  | set (f : AttrField) (v : f.Value)
  /-- Attributes that were loaded from the service. -/
  | unwrap (a : Meta.Attr)
  /-- `Flush` with the set of its context, if there is one, up to the look at the mark. -/
  | flush (c : κ) (names : Option UInt32)
  /-- The request is built and sent. -/
  | request (c : κ)
  /-- The answer arrives. -/
  | reply (c : κ) (answer : Except Err Meta.Attr)

section Steps

variable [DecidableEq κ]

def Event.next (e : Event κ) (s : Flushing κ) : Flushing κ :=
  match e with
  | .set f v =>
    { s with attr := s.attr.set f v, unsent := Function.update s.unsent f (some v) }
  | .unwrap a => { s with attr := s.attr.unwrap (.wrap a) }
  | .flush c names =>
    match names with
    | none => s
    | some names =>
      if s.attr.dirty then { s with calls := Function.update s.calls c (.checked names) } else s
  | .request c =>
    match s.calls c with
    | .checked names =>
      { s with
        calls := Function.update s.calls c
          (.requested (s.attr.wrap.updateAttr s.attr.ino names))
        unsent := fun f => if f.named names then none else s.unsent f }
    | _ => s
  | .reply c answer =>
    match answer with
    | .error _ => { s with calls := Function.update s.calls c .idle }
    | .ok a =>
      { s with attr := s.attr.store (.wrap a), calls := Function.update s.calls c .idle }

end Steps

def Event.Enabled (e : Event κ) (s : Flushing κ) : Prop :=
  match e with
  | .set _ _ | .unwrap _ => True
  | .flush c _ => s.calls c = .idle
  | .request c => (s.calls c).isChecked
  | .reply c _ => (s.calls c).isRequested

instance Event.instDecidableEnabled (e : Event κ) (s : Flushing κ) : Decidable (e.Enabled s) := by
  cases e <;> dsimp only [Enabled] <;> infer_instance

def Event.Sent (e : Event κ) (s : Flushing κ) : Prop :=
  match e with
  | .reply _ (.ok _) => ∀ f, s.unsent f = none
  | _ => True

instance Event.instDecidableSent (e : Event κ) (s : Flushing κ) : Decidable (e.Sent s) := by
  unfold Sent
  split <;> infer_instance

def Kept (s : Flushing κ) : Prop :=
  ∀ f v, s.unsent f = some v → s.attr.value f = v ∧ s.attr.dirty = true

variable {s : Flushing κ}

theorem Kept.new (a : DirtyAttr) : (new κ a).Kept := by
  intro f v hv
  exact absurd hv (some_ne_none v).symm

theorem Kept.unsent_eq_none (h : s.Kept) (hclean : s.attr.dirty = false) (f : AttrField) :
    s.unsent f = none := by
  cases hf : s.unsent f with
  | none => rfl
  | some v => exact absurd (h f v hf).2 (by simp [hclean])

section Steps

variable [DecidableEq κ]

theorem Kept.set (h : s.Kept) (f : AttrField) (v : f.Value) :
    ((.set f v : Event κ).next s).Kept := by
  intro g w hg
  refine ⟨?_, rfl⟩
  change update s.attr.value f v g = w
  change update s.unsent f (some v) g = some w at hg
  by_cases hgf : g = f
  · subst hgf
    rw [update_self] at hg ⊢
    exact some.inj hg
  · rw [update_of_ne hgf] at hg ⊢
    exact (h g w hg).1

theorem Kept.unwrap (h : s.Kept) (a : Attr) :
    ((.unwrap a : Event κ).next s).Kept := by
  intro f v hv
  change s.unsent f = some v at hv
  obtain ⟨hval, hdirty⟩ := h f v hv
  -- a reload does not touch dirty attributes
  have hattr : s.attr.unwrap (.wrap a) = s.attr := if_pos hdirty
  change (s.attr.unwrap (.wrap a)).value f = v ∧ (s.attr.unwrap (.wrap a)).dirty = true
  rw [hattr]
  exact ⟨hval, hdirty⟩

open Event

theorem Kept.flush (h : s.Kept) (c : κ) (names : Option UInt32) :
    ((flush c names).next s).Kept := by
  cases names with
  | none => exact h
  | some names =>
    cases hd : s.attr.dirty <;> simpa [next, hd, Kept] using h

theorem Kept.request (h : s.Kept) (c : κ) : ((request c).next s).Kept := by
  cases hc : s.calls c with
  | idle => simpa [next, hc] using h
  | requested req => simpa [next, hc] using h
  | checked names =>
    intro f v hv
    simp only [next, hc] at hv ⊢
    split at hv
    · exact absurd hv (some_ne_none v).symm
    · exact h f v hv

theorem kept_reply_iff (c : κ) (a : Attr) :
    ((reply c (.ok a)).next s).Kept ↔ (reply c (.ok a)).Sent s := by
  constructor
  · intro h f
    exact h.unsent_eq_none rfl f
  · intro h f v hv
    exact absurd ((h f).symm.trans hv) (some_ne_none v).symm

theorem Kept.next (h : s.Kept) {e : Event κ} (hsent : e.Sent s) : (e.next s).Kept := by
  cases e with
  | set f v => exact h.set f v
  | unwrap a => exact h.unwrap a
  | flush c names => exact h.flush c names
  | request c => exact h.request c
  | reply c answer =>
    cases answer with
    | error err => exact h
    | ok a => exact (kept_reply_iff c a).mpr hsent

/-- In every run in which answers are stored only when all values that were set have been
sent, no such value is lost before it is sent, and the attributes are dirty until then. -/
theorem unsent_kept {a : DirtyAttr}
    (hs : Reach Event.next (fun s e => e.Enabled s ∧ e.Sent s) (new κ a) s)
    {f : AttrField} {v : f.Value} (hv : s.unsent f = some v) :
    s.attr.value f = v ∧ s.attr.dirty = true :=
  Reach.invariant (I := Kept) (fun _ _ hI hok => hI.next hok.2) hs (.new a) f v hv

end Steps

/-! ### Sample runs -/

def stored : Meta.Attr where
  inode := 2
  size := 0
  mtime := 5
  mtimens := 0
  atime := 5
  atimens := 0
  ctime := 5
  ctimens := 0
  uid := 0
  gid := 0
  mode := 0o644
  nlink := 1
  rdev := 0
  linkTarget := ""
  flags := 0
  epoch := 0
  parentIno := 1
  name := "f"

def loaded : Flushing Unit := new Unit (.ofEntry 2 (.wrap stored))

def orderedSteps : List (Event Unit) :=
  [.set .size (3 : Int64), .flush () (some handleSet), .request (),
    .reply () (.ok { stored with size := 3 }), .set .mode (0o600 : UInt32)]

theorem unsent_kept_sample :
    let s := exec Event.next orderedSteps loaded
    s.attr.value .mode = (0o600 : UInt32) ∧ s.attr.dirty = true := by
  have hs : Reach Event.next (fun s e => e.Enabled s ∧ e.Sent s) loaded
      (exec Event.next orderedSteps loaded) := reach_exec (by decide +kernel)
  exact unsent_kept hs (f := .mode) (by decide +kernel)

def served (s : Flushing Unit) : Except Err Meta.Attr :=
  match s.calls () with
  | .requested req => Meta.updateAttr ⟨0, 0⟩ req ⟨9, 0⟩ stored
  | _ => .error .panic

def unnamedSteps : List (Event Unit) :=
  [.set .mode (0o600 : UInt32), .flush () (some handleSet), .request ()]

def racingSteps : List (Event Unit) :=
  [.set .size (3 : Int64), .flush () (some handleSet), .request (), .set .size (7 : Int64)]

theorem set_value_lost :
    (let s := exec Event.next unnamedSteps loaded
      let s' := (Event.reply () (served s)).next s
      Reach Event.next (fun s e => e.Enabled s) loaded s' ∧
        s'.unsent .mode = some (0o600 : UInt32) ∧ s'.attr.value .mode = (0o644 : UInt32) ∧
        s'.attr.dirty = false) ∧
    (let s := exec Event.next racingSteps loaded
      let s' := (Event.reply () (served s)).next s
      Reach Event.next (fun s e => e.Enabled s) loaded s' ∧
        s'.unsent .size = some (7 : Int64) ∧ s'.attr.value .size = (3 : Int64) ∧
        s'.attr.dirty = false) := by
  refine ⟨⟨?_, by decide +kernel, by decide +kernel, by decide +kernel⟩,
    ?_, by decide +kernel, by decide +kernel, by decide +kernel⟩
  · exact (reach_exec (by decide +kernel)).step (by decide +kernel)
  · exact (reach_exec (by decide +kernel)).step (by decide +kernel)

end Flushing

end HugoFS.Vfs
