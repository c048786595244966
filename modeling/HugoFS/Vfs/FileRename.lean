import HugoFS.Meta.Rename
import HugoFS.Vfs.Attr
import HugoFS.Vfs.Remove

/-!
# Renaming an open file

While a handle may write to a file, `File.rename` keeps a function that would rename the file and
returns nil. Releasing a handle does not call it; a later `rename` does. A run keeps, beside the
state of the code, the place that the last successful `rename` was given.
-/

namespace HugoFS.Vfs

open HugoFS.Meta Runs

structure Place where
  parent : Ino
  name : FuseName
deriving DecidableEq

def Place.entry (s : Store) (p : Place) : Option Entry := entryAt s p.parent p.name.1

structure Deferred where
  oldName : FuseName
  dest : Place

structure FileNode (κ : Type) where
  inode : Ino
  place : Place
  writers : List κ
  readers : List κ
  pendingRenameFun : List Deferred
  embeded : DirtyAttr

structure RenameAnswer where
  now : Time
  oldNode : Option Ino
  known : Bool

inductive RenameResult
  | nil
  | failed (e : Err)
  /-- The file is reloaded while its own lock is held. -/
  | hung

namespace FileNode

variable {κ : Type} [DecidableEq κ]

def renameOnce (c : Caller) (r : Deferred) (a : RenameAnswer) (s : Store) (f : FileNode κ) :
    RenameResult × Store × FileNode κ :=
  -- the directory is the present one, the name is that of the time when the call was made
  match (rename c ⟨f.place.parent, r.oldName.1, r.dest.parent, r.dest.name.1, 0⟩ a.now).run s with
  | (.error e, s') => (.failed e, s', f)
  | (.ok resp, s') =>
    let f := { f with embeded := f.embeded.unwrap (.wrap resp.newEntry.attr) }
    -- the nodes of the inode that was replaced are reloaded under the lock of the file
    if a.oldNode = some f.inode ∧ a.known then (.hung, s', f)
    else (.nil, s', { f with place := r.dest, pendingRenameFun := [] })

def renameCall (c : Caller) (ans : ℕ → RenameAnswer) :
    List Deferred → Store → FileNode κ → RenameResult × Store × FileNode κ
  | [], s, f => (.nil, s, f)
  | r :: captured, s, f =>
    match renameCall c ans captured s f with
    | (.nil, s', f') => f'.renameOnce c r (ans captured.length) s'
    | (.failed e, s', f') => (.failed e, s', f')
    | (.hung, s', f') => (.hung, s', f')

def rename (c : Caller) (dest : Place) (ans : ℕ → RenameAnswer) (s : Store) (f : FileNode κ) :
    RenameResult × Store × FileNode κ :=
  if f.place = dest then (.nil, s, f)
  else
    let call : List Deferred := ⟨f.place.name, dest⟩ :: f.pendingRenameFun
    -- the server is not asked while somebody writes
    if f.writers ≠ [] then (.nil, s, { f with pendingRenameFun := call })
    else f.renameCall c ans call s

def openFile (h : κ) (writes : Bool) (f : FileNode κ) : FileNode κ :=
  if writes then { f with writers := f.writers ++ [h] } else { f with readers := f.readers ++ [h] }

def releaseHandle (h : κ) (f : FileNode κ) : FileNode κ :=
  { f with writers := f.writers.filter (· ≠ h) }

end FileNode

/-! ### Sequences of calls -/

section System

variable {κ : Type} [DecidableEq κ]

inductive FileCall (κ : Type)
  | openFile (h : κ) (writes : Bool)
  | writeAt (size : Option Int64)
  | rename (c : Caller) (dest : Place) (ans : ℕ → RenameAnswer)
  | release (h : κ)

structure FileState (κ : Type) where
  store : Store
  file : FileNode κ
  hung : Bool
  target : Place
  past : List Place

def newFileState (s : Store) (f : FileNode κ) : FileState κ := ⟨s, f, false, f.place, []⟩

def FileState.renamed (c : Caller) (dest : Place) (ans : ℕ → RenameAnswer) (st : FileState κ) :
    FileState κ :=
  match st.file.rename c dest ans st.store with
  | (.nil, s, f) => { st with store := s, file := f, target := dest, past := st.target :: st.past }
  | (.failed _, s, f) => { st with store := s, file := f }
  | (.hung, s, f) => { st with store := s, file := f, hung := true }

def FileCall.next : FileCall κ → FileState κ → FileState κ
  | .writeAt none, st => st
  | .writeAt (some size), st =>
    { st with file := { st.file with embeded := st.file.embeded.setSize size } }
  | .openFile h writes, st => if st.hung then st else { st with file := st.file.openFile h writes }
  | .rename c dest ans, st => if st.hung then st else st.renamed c dest ans
  | .release h, st => if st.hung then st else { st with file := st.file.releaseHandle h }

namespace FileState

def Placed (st : FileState κ) : Prop :=
  st.hung = false → st.file.writers = [] → st.past ≠ [] →
    (∃ e, st.target.entry st.store = some e ∧ e.ino = st.file.inode) ∧
      ∀ p ∈ st.past, p ≠ st.target → p.entry st.store = none

def Allowed (st : FileState κ) : FileCall κ → Prop
  | .rename _ dest _ => st.file.place ≠ dest → st.file.writers = []
  | _ => True

structure Settled (st : FileState κ) : Prop where
  pending : st.file.pendingRenameFun = []
  place : st.file.place = st.target
  entry : ∃ e, st.target.entry st.store = some e ∧ e.ino = st.file.inode
  past : ∀ p ∈ st.past, p ≠ st.target → p.entry st.store = none

end FileState

end System

/-! ### The server -/

theorem Place.eq_iff {x p : Place} : x = p ↔ x.parent = p.parent ∧ x.name.1 = p.name.1 := by
  constructor
  · rintro rfl
    exact ⟨rfl, rfl⟩
  · rintro ⟨hparent, hname⟩
    cases x
    cases p
    exact congr (congrArg Place.mk hparent) (Subtype.ext hname)

theorem rename_entries {c : Caller} {p q : Place} {now : Time} {s s' : Store} {r : RenameResp}
    (h : (Meta.rename c ⟨p.parent, p.name.1, q.parent, q.name.1, 0⟩ now).run s = (.ok r, s'))
    (hne : p ≠ q) :
    (∃ se e, p.entry s = some se ∧ q.entry s' = some e ∧ e.ino = se.ino) ∧
      p.entry s' = none ∧ ∀ x : Place, x ≠ p → x ≠ q → x.entry s' = x.entry s := by
  have hx : (0 : UInt32) ≠ renameExchange := by decide
  obtain ⟨se, hsrc, hentries⟩ := rename_movedEntries h hx
  rw [FuseName.trimSuffix] at hsrc
  have hentry : ∀ x : Place, x.entry s' =
      if x = q then some (renamedEntry ⟨p.parent, p.name.1, q.parent, q.name.1, 0⟩ se)
      else if x = p then none else x.entry s := by
    intro x
    rw [Place.entry, hentries, movedEntries, entryAt_putEntry, FuseName.trimSuffix,
      FuseName.trimSuffix, entryAt_dropEntry, entryAt_dropEntry]
    show (if x.parent = q.parent ∧ x.name.1 = q.name.1 then _ else
      if x.parent = q.parent ∧ x.name.1 = q.name.1 then none else
        if x.parent = p.parent ∧ x.name.1 = p.name.1 then none else x.entry s) = _
    simp only [← Place.eq_iff]
    split_ifs <;> rfl
  refine ⟨⟨se, _, hsrc, (hentry q).trans (if_pos rfl), rfl⟩, ?_, fun x hp hq => ?_⟩
  · rw [hentry, if_neg hne, if_pos rfl]
  · rw [hentry, if_neg hq, if_neg hp]

/-! ### Runs without open writers -/

namespace FileState

variable {κ : Type} {st : FileState κ}

theorem Settled.placed (h : st.Settled) : st.Placed := fun _ _ _ => ⟨h.entry, h.past⟩

theorem Settled.moved (h : st.Settled) {c : Caller} {dest : Place} (hne : st.file.place ≠ dest)
    (hw : st.file.writers = []) (ans : ℕ → RenameAnswer) :
    (st.renamed c dest ans).hung = true ∨ (st.renamed c dest ans).Settled := by
  have hcall : st.file.rename c dest ans st.store =
      st.file.renameOnce c ⟨st.file.place.name, dest⟩ (ans 0) st.store := by
    rw [FileNode.rename, if_neg hne]
    simp only [hw, h.pending, ne_eq, not_true_eq_false, if_false]
    rfl
  rw [renamed, hcall, FileNode.renameOnce]
  cases hrun : (Meta.rename c ⟨st.file.place.parent, st.file.place.name.1, dest.parent, dest.name.1,
      0⟩ (ans 0).now).run st.store with
  | mk reply s' =>
    cases reply with
    | error e =>
      have hclean := rename_failsClean c _ _ st.store e (congrArg Prod.fst hrun)
      rw [hrun] at hclean
      cases hclean
      exact .inr h
    | ok resp =>
      dsimp only
      split_ifs with hself
      · exact .inl rfl
      obtain ⟨⟨se, e, hse, he, hino⟩, hold, hothers⟩ := rename_entries hrun hne
      obtain ⟨e₀, he₀, hino₀⟩ := h.entry
      rw [h.place] at hse hold hothers hne
      cases he₀.symm.trans hse
      refine .inr ⟨rfl, rfl, ⟨e, he, hino.trans hino₀⟩, fun p hp hpd => ?_⟩
      -- the place that the file leaves is the last one of the past
      by_cases hpt : p = st.target
      · rw [hpt]
        exact hold
      · rw [hothers p hpt hpd]
        exact h.past p ((List.mem_cons.mp hp).resolve_left hpt) hpt

variable [DecidableEq κ] {call : FileCall κ}

open FileCall

theorem hung_next (h : st.hung = true) : (call.next st).hung = true := by
  cases call with
  | writeAt size => cases size <;> exact h
  | openFile h' writes => simp [next, h]
  | rename c dest ans => simp [next, h]
  | release h' => simp [next, h]

theorem Settled.next (h : st.Settled) (hhung : st.hung = false)
    (hok : st.Allowed call) : (call.next st).hung = true ∨ (call.next st).Settled := by
  cases call with
  | writeAt size =>
    cases size with
    | none => exact .inr h
    | some size => exact .inr ⟨h.pending, h.place, h.entry, h.past⟩
  | openFile h' writes =>
    simp only [next, hhung, Bool.false_eq_true, if_false, FileNode.openFile]
    cases writes <;> exact .inr ⟨h.pending, h.place, h.entry, h.past⟩
  | release h' =>
    simp only [next, hhung, Bool.false_eq_true, if_false, FileNode.releaseHandle]
    exact .inr ⟨h.pending, h.place, h.entry, h.past⟩
  | rename c dest ans =>
    simp only [next, hhung, Bool.false_eq_true, if_false]
    by_cases hsame : st.file.place = dest
    · -- the file is there already
      rw [renamed, FileNode.rename, if_pos hsame]
      rw [h.place] at hsame
      refine .inr ⟨h.pending, h.place.trans hsame, hsame ▸ h.entry, fun p hp hpd => ?_⟩
      rw [← hsame] at hpd
      exact h.past p ((List.mem_cons.mp hp).resolve_left hpd) hpd
    · exact h.moved hsame (hok hsame) ans

/-- In every run in which a file is renamed to another place only while no handle may write to
it: when a `rename` has returned nil and the writers are released, the server has the entry of
the file at the new place and none at the old ones. -/
theorem renamed_file_placed {s : Store} {f : FileNode κ} {e : Entry}
    (hentry : f.place.entry s = some e) (hino : e.ino = f.inode) (hpending : f.pendingRenameFun = [])
    (h : Reach FileCall.next Allowed (newFileState s f) st) : st.Placed := by
  have hsettled : st.hung = true ∨ st.Settled := by
    refine Reach.invariant (I := fun st => st.hung = true ∨ st.Settled) ?_ h
      (.inr ⟨hpending, rfl, ⟨e, hentry, hino⟩, by simp [newFileState]⟩)
    intro st call hst hok
    cases hhung : st.hung with
    | true => exact .inl (hung_next hhung)
    | false => exact (hst.resolve_left (by simp [hhung])).next hhung hok
  obtain hhung | hs := hsettled
  · intro hnot
    cases hhung.symm.trans hnot
  · exact hs.placed

end FileState

/-! ### Sample runs -/

def rootFile : FileNode ℕ :=
  ⟨3, ⟨1, ⟨"f", by decide⟩⟩, [], [], [], .ofEntry 3 (.wrap Flushing.stored)⟩

def sampleDest : Place := ⟨2, ⟨"g", by decide⟩⟩

def sampleRename : FileCall ℕ := .rename ⟨0, 0⟩ sampleDest fun _ => ⟨⟨9, 0⟩, none, false⟩

def fileAfter (calls : List (FileCall ℕ)) : FileState ℕ :=
  exec FileCall.next calls (newFileState (storeAfter dirAndFile) rootFile)

def movedThenWritten : List (FileCall ℕ) :=
  [sampleRename, .openFile 7 true, .writeAt (some 3), .release 7]

theorem renamed_file_placed_sample :
    ((fileAfter movedThenWritten).hung = false ∧ (fileAfter movedThenWritten).file.writers = [] ∧
      (fileAfter movedThenWritten).past ≠ []) ∧ (fileAfter movedThenWritten).Placed := by
  have hlegal : Legal FileCall.next FileState.Allowed movedThenWritten
      (newFileState (storeAfter dirAndFile) rootFile) :=
    ⟨fun _ => rfl, trivial, trivial, trivial, trivial⟩
  have hentry : rootFile.place.entry (storeAfter dirAndFile) = some ⟨1, "f", 3, 0o644⟩ := by
    decide
  exact ⟨by decide +kernel, FileState.renamed_file_placed hentry rfl rfl (reach_exec hlegal)⟩

def movedWhileWritten : List (FileCall ℕ) :=
  [.openFile 7 true, sampleRename, .writeAt (some 3), .release 7]

/-- The `rename` returns nil and the writer is released, and the file still has its old name and
no new one. -/
theorem rename_of_open_file_lost :
    ((fileAfter movedWhileWritten).past = [rootFile.place] ∧
      (fileAfter movedWhileWritten).target = sampleDest ∧
      (fileAfter movedWhileWritten).file.writers = [] ∧
      rootFile.place.entry (fileAfter movedWhileWritten).store = some ⟨1, "f", 3, 0o644⟩ ∧
      sampleDest.entry (fileAfter movedWhileWritten).store = none) ∧
    ¬(fileAfter movedWhileWritten).Placed := by
  refine ⟨by decide +kernel, fun h => ?_⟩
  obtain ⟨⟨e, he, -⟩, -⟩ := h rfl rfl (List.cons_ne_nil _ _)
  have hnone : (fileAfter movedWhileWritten).target.entry (fileAfter movedWhileWritten).store =
      none := by decide +kernel
  cases hnone.symm.trans he

end HugoFS.Vfs
