import HugoFS.Vfs.Attr
import HugoFS.Vfs.Remove

/-!
# Reading a directory again

A directory of a client keeps a node for each name of its last listing. When the listing is out of
date the nodes are brought up to date in place, so a name that now stands for another inode, or
for an inode of another kind, keeps its old node.
-/

namespace HugoFS.Vfs

open HugoFS.Meta List Function

structure DirItem where
  name : String
  inode : Ino
  entry : FsEntry

def DirItem.isDir (e : DirItem) : Bool := modeIsDir e.entry.mode

inductive VNode
  | dir (inode : Ino) (embeded : DirtyAttr)
  | file (inode : Ino) (embeded : DirtyAttr)

namespace VNode

def inode : VNode → Ino
  | .dir i _ | .file i _ => i

def isDirNode : VNode → Bool
  | .dir _ _ => true
  | .file _ _ => false

def isDir : VNode → Bool
  | .dir _ _ => true
  | .file _ a => modeIsDir (a.value .mode)

def new (e : DirItem) : VNode :=
  if e.isDir then .dir e.inode (.ofEntry e.inode e.entry)
  else .file e.inode (.ofEntry e.inode e.entry)

def unwrap (e : DirItem) : VNode → VNode
  | .dir i a => .dir i (a.unwrap e.entry)
  | .file i a => .file i (a.unwrap e.entry)

end VNode

structure Item where
  node : VNode
  healthy : Bool

abbrev Items : Type := String → Option Item

inductive ReadDirErr
  | panic
  /-- An error of a request. -/
  | request (e : Err)

namespace Items

def invalidate (i : Items) : Items := fun name => (i name).map fun x => { x with healthy := false }

def clean (i : Items) : Items := fun name => (i name).filter Item.healthy

def set (i : Items) (name : String) (n : VNode) : Items := Function.update i name (some ⟨n, true⟩)

def updateOrInplace (i : Items) (e : DirItem) : Except ReadDirErr VNode × Items :=
  match i e.name with
  | some x =>
    -- the node stays, whatever inode and kind the entry has
    if x.node.isDir = x.node.isDirNode then (.ok (x.node.unwrap e), i.set e.name (x.node.unwrap e))
    else (.error .panic, i)
  | none => (.ok (.new e), i.set e.name (.new e))

/-- The loop of `_readDir`. The refresh of a directory below, a call of the same function, is given
by `child`. -/
def refresh (recursive : Bool) (child : VNode → Option ReadDirErr) :
    List DirItem → Items → Except ReadDirErr Unit × Items
  | [], i => (.ok (), i)
  | e :: es, i =>
    match i.updateOrInplace e with
    | (.error err, i') => (.error err, i')
    | (.ok n, i') =>
      if e.isDir && recursive then
        -- the node is converted by the kind of the entry
        if n.isDirNode then
          match child n with
          | some err => (.error err, i')
          | none => refresh recursive child es i'
        else (.error .panic, i')
      else refresh recursive child es i'

end Items

structure DirNode where
  embeded : DirtyAttr
  items : Items
  read : Option ℤ

structure ReadDirAnswers where
  list : Except Err (List DirItem)
  get : Except Err (Option FsEntry)
  child : VNode → Option ReadDirErr

namespace DirNode

def stale (dirCacheTime now : ℤ) (d : DirNode) : Bool :=
  match d.read with
  | none => true
  | some r => decide (dirCacheTime < now - r)

def reloadAttr (d : DirNode) : Except Err (Option FsEntry) → DirNode
  | .error _ => d
  | .ok none => { d with embeded := d.embeded.setNlink 0 }
  | .ok (some e) => { d with embeded := d.embeded.unwrap e }

def readDir (dirCacheTime now : ℤ) (recursive : Bool) (ans : ReadDirAnswers) (d : DirNode) :
    Except ReadDirErr Unit × DirNode :=
  if d.stale dirCacheTime now then
    match ans.list with
    | .error e => (.error (.request e), d)
    | .ok entries =>
      match d.items.invalidate.refresh recursive ans.child entries with
      -- a loop that is left early leaves the rest unhealthy in the cache
      | (.error e, i) => (.error e, { d with items := i })
      | (.ok _, i) => (.ok (), { ({ d with items := i.clean } : DirNode).reloadAttr ans.get with
          read := some now })
  else (.ok (), d)

end DirNode

/-! ### What the cache should be -/

structure Items.Exact (i : Items) (entries : List DirItem) : Prop where
  listed : ∀ e ∈ entries, ∃ x, i e.name = some x ∧ x.node.inode = e.inode ∧
    x.node.isDirNode = e.isDir
  cached : ∀ name x, i name = some x → ∃ e ∈ entries, e.name = name

def Items.Fits (i : Items) (entries : List DirItem) : Prop :=
  ∀ e ∈ entries, ∀ x, i e.name = some x →
    x.node.inode = e.inode ∧ x.node.isDirNode = e.isDir ∧ x.node.isDir = x.node.isDirNode

namespace VNode

variable {n : VNode} {e : DirItem}

open VNode

@[simp] theorem inode_new : (new e).inode = e.inode := by
  rw [new]
  split <;> rfl

@[simp] theorem isDirNode_new : (new e).isDirNode = e.isDir := by
  rw [new]
  split <;> simp_all [isDirNode]

@[simp] theorem inode_unwrap : (n.unwrap e).inode = n.inode := by
  cases n <;> rfl

@[simp] theorem isDirNode_unwrap : (n.unwrap e).isDirNode = n.isDirNode := by
  cases n <;> rfl

end VNode

namespace Items

variable {i i' : Items} {e : DirItem} {es : List DirItem} {recursive : Bool}
  {child : VNode → Option ReadDirErr}

structure Follows (old : Option Item) (n : VNode) (e : DirItem) : Prop where
  kept : ∀ x, old = some x → n.inode = x.node.inode ∧ n.isDirNode = x.node.isDirNode ∧
    x.node.isDir = x.node.isDirNode
  fresh : old = none → n.inode = e.inode ∧ n.isDirNode = e.isDir

theorem updateOrInplace_ok {n : VNode} (h : i.updateOrInplace e = (.ok n, i')) :
    i' = i.set e.name n ∧ Follows (i e.name) n e := by
  rw [updateOrInplace] at h
  cases hold : i e.name with
  | none =>
    rw [hold] at h
    cases h
    exact ⟨rfl, by simp, by simp⟩
  | some x =>
    rw [hold] at h
    dsimp only at h
    split_ifs at h with hconv
    · cases h
      refine ⟨rfl, fun y hy => ?_, by simp⟩
      cases hy
      exact ⟨VNode.inode_unwrap, VNode.isDirNode_unwrap, hconv⟩
    · cases h

theorem updateOrInplace_error {err : ReadDirErr} (h : i.updateOrInplace e = (.error err, i')) :
    err = .panic := by
  rw [updateOrInplace] at h
  cases hold : i e.name with
  | none =>
    rw [hold] at h
    cases h
  | some x =>
    rw [hold] at h
    dsimp only at h
    split_ifs at h <;> cases h
    rfl

theorem exists_updateOrInplace (h : ∀ x, i e.name = some x → x.node.isDir = x.node.isDirNode) :
    ∃ n, i.updateOrInplace e = (.ok n, i.set e.name n) := by
  rw [updateOrInplace]
  cases hold : i e.name with
  | none => exact ⟨_, rfl⟩
  | some x => exact ⟨_, if_pos (h x hold)⟩

theorem set_of_ne {name : String} (hne : name ≠ e.name) (n : VNode) : i.set e.name n name = i name :=
  update_of_ne hne _ _

theorem refresh_ok (hd : (es.map DirItem.name).Nodup)
    (h : i.refresh recursive child es = (.ok (), i')) :
    (∀ name, name ∉ es.map DirItem.name → i' name = i name) ∧
      ∀ e ∈ es, ∃ n, i' e.name = some ⟨n, true⟩ ∧ Follows (i e.name) n e := by
  induction es generalizing i with
  | nil =>
    cases h
    exact ⟨fun _ _ => rfl, by simp⟩
  | cons e es ih =>
    obtain ⟨hnot, hd⟩ := nodup_cons.mp hd
    -- the entry is brought up to date, and then the loop goes on
    obtain ⟨n, hn, hrest⟩ : ∃ n, i.updateOrInplace e = (.ok n, i.set e.name n) ∧
        (i.set e.name n).refresh recursive child es = (.ok (), i') := by
      rw [refresh] at h
      cases hup : i.updateOrInplace e with
      | mk r i₁ =>
        rw [hup] at h
        cases r with
        | error err => cases h
        | ok n =>
          obtain ⟨rfl, -⟩ := updateOrInplace_ok hup
          refine ⟨n, rfl, ?_⟩
          dsimp only at h
          split_ifs at h with hdir hnode
          · cases hc : child n with
            | some err => simp [hc] at h
            | none => simpa [hc] using h
          · cases h
          · exact h
    obtain ⟨-, hfollows⟩ := updateOrInplace_ok hn
    obtain ⟨hother, hlisted⟩ := ih hd hrest
    refine ⟨fun name hname => ?_, fun e' he' => ?_⟩
    · have hne : name ≠ e.name := fun heq => hname (heq ▸ mem_cons_self)
      rw [hother name fun hmem => hname (mem_cons_of_mem _ hmem), set_of_ne hne]
    · obtain rfl | he' := mem_cons.mp he'
      · refine ⟨n, ?_, hfollows⟩
        rw [hother _ hnot, set, update_self]
      have hne : e'.name ≠ e.name := fun heq => hnot (heq ▸ mem_map_of_mem he')
      obtain ⟨n', hn', hf'⟩ := hlisted e' he'
      rw [set_of_ne hne] at hf'
      exact ⟨n', hn', hf'⟩

theorem refresh_ne_panic (hchild : recursive = true → ∀ n, child n ≠ some .panic)
    (hd : (es.map DirItem.name).Nodup) (h : i.Fits es) :
    (i.refresh recursive child es).1 ≠ .error .panic := by
  induction es generalizing i with
  | nil => simp [refresh]
  | cons e es ih =>
    obtain ⟨hnot, hd⟩ := nodup_cons.mp hd
    obtain ⟨n, hn⟩ := exists_updateOrInplace fun x hx => (h e mem_cons_self x hx).2.2
    obtain ⟨-, hfollows⟩ := updateOrInplace_ok hn
    have hkind : n.isDirNode = e.isDir := by
      cases hold : i e.name with
      | none => exact (hfollows.fresh hold).2
      | some x => exact (hfollows.kept x hold).2.1.trans (h e mem_cons_self x hold).2.1
    have hrest : (i.set e.name n).Fits es := by
      intro e' he' x hx
      have hne : e'.name ≠ e.name := fun heq => hnot (heq ▸ mem_map_of_mem he')
      rw [set_of_ne hne] at hx
      exact h e' (mem_cons_of_mem _ he') x hx
    rw [refresh, hn]
    dsimp only
    split_ifs with hdir hnode
    · rw [Bool.and_eq_true] at hdir
      cases hc : child n with
      | some err =>
        have hne := hchild hdir.2 n
        rw [hc] at hne
        exact fun heq => hne (congrArg some (Except.error.inj heq))
      | none => exact ih hd hrest
    · -- a listed directory is a `*Dir`
      rw [Bool.and_eq_true] at hdir
      exact absurd (hkind.trans hdir.1) hnode
    · exact ih hd hrest

theorem refresh_of_no_error (hchild : ∀ n, child n = none) :
    (i.refresh recursive child es).1 = .ok () ∨
      (i.refresh recursive child es).1 = .error .panic := by
  induction es generalizing i with
  | nil => exact .inl rfl
  | cons e es ih =>
    rw [refresh]
    cases hup : i.updateOrInplace e with
    | mk r i₁ =>
      cases r with
      | error err =>
        rw [updateOrInplace_error hup]
        exact .inr rfl
      | ok n =>
        dsimp only
        split_ifs
        · rw [hchild n]
          exact ih
        · exact .inr rfl
        · exact ih

theorem invalidate_eq_some {name : String} {x : Item} :
    i.invalidate name = some x ↔ ∃ y, i name = some y ∧ x = ⟨y.node, false⟩ := by
  rw [invalidate, Option.map_eq_some_iff]
  exact exists_congr fun y => and_congr_right fun _ => eq_comm

theorem fits_invalidate : i.invalidate.Fits es ↔ i.Fits es := by
  refine forall₂_congr fun e _ => ?_
  simp only [invalidate_eq_some]
  constructor
  · intro h x hx
    exact h ⟨x.node, false⟩ ⟨x, hx, rfl⟩
  · rintro h _ ⟨y, hy, rfl⟩
    exact h y hy

section

variable (hd : (es.map DirItem.name).Nodup)
  (h : i.invalidate.refresh recursive child es = (.ok (), i'))
include hd h

theorem clean_refresh (name : String) :
    (i'.clean name).isSome ↔ name ∈ es.map DirItem.name := by
  obtain ⟨hother, hlisted⟩ := refresh_ok hd h
  constructor
  · intro hsome
    by_contra hname
    rw [clean, hother name hname] at hsome
    cases hold : i name <;> simp [invalidate, hold] at hsome
  · intro hname
    obtain ⟨e, he, rfl⟩ := mem_map.mp hname
    obtain ⟨n, hn, -⟩ := hlisted e he
    simp [clean, hn]

theorem exact_clean_iff :
    i'.clean.Exact es ↔ i.Fits es := by
  obtain ⟨-, hlisted⟩ := refresh_ok hd h
  rw [← fits_invalidate]
  constructor
  · intro hexact e he x hx
    obtain ⟨n, hn, hfollows⟩ := hlisted e he
    obtain ⟨hinode, hkind, hconv⟩ := hfollows.kept x hx
    obtain ⟨y, hy, hyi, hyk⟩ := hexact.listed e he
    simp only [clean, hn, Option.filter_some, if_true] at hy
    cases hy
    exact ⟨hinode.symm.trans hyi, hkind.symm.trans hyk, hconv⟩
  · intro hfits
    refine ⟨fun e he => ?_, fun name x hx => ?_⟩
    · obtain ⟨n, hn, hfollows⟩ := hlisted e he
      refine ⟨⟨n, true⟩, by simp [clean, hn], ?_⟩
      cases hold : i.invalidate e.name with
      | none => exact hfollows.fresh hold
      | some x =>
        obtain ⟨hinode, hkind, -⟩ := hfollows.kept x hold
        obtain ⟨hxi, hxk, -⟩ := hfits e he x hold
        exact ⟨hinode.trans hxi, hkind.trans hxk⟩
    · have hname := (clean_refresh hd h name).mp (by rw [hx]; rfl)
      obtain ⟨e, he, heq⟩ := mem_map.mp hname
      exact ⟨e, he, heq⟩

end

end Items

namespace DirNode

variable {dirCacheTime now : ℤ} {recursive : Bool} {d : DirNode} {entries : List DirItem}

theorem reloadAttr_items (d : DirNode) (got : Except Err (Option FsEntry)) :
    (d.reloadAttr got).items = d.items := by
  cases got with
  | error e => rfl
  | ok entry => cases entry <;> rfl

theorem readDir_of_stale (recursive : Bool) (ans : ReadDirAnswers)
    (hstale : d.stale dirCacheTime now = true) (hlist : ans.list = .ok entries) :
    (d.readDir dirCacheTime now recursive ans).1 =
        (d.items.invalidate.refresh recursive ans.child entries).1 ∧
      ((d.readDir dirCacheTime now recursive ans).1 = .ok () →
        (d.readDir dirCacheTime now recursive ans).2.items =
            (d.items.invalidate.refresh recursive ans.child entries).2.clean ∧
          (d.readDir dirCacheTime now recursive ans).2.read = some now) := by
  simp only [readDir, hstale, if_true, hlist]
  cases d.items.invalidate.refresh recursive ans.child entries with
  | mk r i =>
    cases r with
    | error e => exact ⟨rfl, by simp⟩
    | ok u => exact ⟨rfl, fun _ => ⟨reloadAttr_items _ _, rfl⟩⟩

/-- A listing that is out of date is read again, with any answers to the other requests, and no
refresh of a directory below panics: there is no panic and the cache is the listing afterwards, if
and only if the nodes that are cached under listed names fit. -/
theorem readDir_exact_iff (hstale : d.stale dirCacheTime now = true)
    (hd : (entries.map DirItem.name).Nodup) :
    (∀ ans : ReadDirAnswers, ans.list = .ok entries →
      (recursive = true → ∀ n, ans.child n ≠ some .panic) →
      (d.readDir dirCacheTime now recursive ans).1 ≠ .error .panic ∧
        ((d.readDir dirCacheTime now recursive ans).1 = .ok () →
          (d.readDir dirCacheTime now recursive ans).2.items.Exact entries)) ↔
      d.items.Fits entries := by
  constructor
  · intro h
    -- no request fails
    let ans : ReadDirAnswers := ⟨.ok entries, .ok none, fun _ => none⟩
    obtain ⟨hpanic, hexact⟩ := h ans rfl fun _ _ => by simp [ans]
    obtain ⟨hresult, hitems⟩ := readDir_of_stale recursive ans hstale rfl
    have hok : (d.items.invalidate.refresh recursive ans.child entries).1 = .ok () := by
      refine (Items.refresh_of_no_error fun _ => rfl).resolve_right fun hp => ?_
      exact hpanic (hresult.trans hp)
    have hE := hexact (hresult.trans hok)
    rw [(hitems (hresult.trans hok)).1] at hE
    exact (Items.exact_clean_iff hd (Prod.ext hok rfl)).mp hE
  · intro hfits ans hlist hchild
    obtain ⟨hresult, hitems⟩ := readDir_of_stale recursive ans hstale hlist
    refine ⟨?_, fun hok => ?_⟩
    · rw [hresult]
      exact Items.refresh_ne_panic hchild hd (Items.fits_invalidate.mpr hfits)
    · rw [(hitems hok).1]
      exact (Items.exact_clean_iff hd (Prod.ext (hresult.symm.trans hok) rfl)).mpr hfits

def sampleItem (name : String) (inode : Ino) (mode : UInt32) : DirItem :=
  ⟨name, inode, { FsEntry.wrap Flushing.stored with mode := mode }⟩

def sampleDirNode : DirNode :=
  let a := sampleItem "a" 5 0o644
  let b := sampleItem "b" 6 0o644
  ⟨.ofEntry 1 a.entry, (Items.set (fun _ => none) "a" (.new a)).set "b" (.new b), none⟩

def sampleAnswers (entries : List DirItem) : ReadDirAnswers :=
  ⟨.ok entries, .ok none, fun _ => none⟩

/-- One name stays, one has vanished, and one is a new directory. -/
theorem readDir_exact_sample :
    let entries := [sampleItem "a" 5 0o600, sampleItem "c" 7 (modeDir ||| 0o755)]
    let r := sampleDirNode.readDir 1 0 true (sampleAnswers entries)
    (r.2.items "b").isNone ∧ r.2.items.Exact entries := by
  have hstale : sampleDirNode.stale 1 0 = true := rfl
  refine ⟨rfl, ((readDir_exact_iff hstale (by decide)).mpr ?_ _ rfl fun _ _ h => by cases h).2 rfl⟩
  intro e he x hx
  obtain rfl | he := mem_cons.mp he
  · cases hx
    exact ⟨rfl, rfl, rfl⟩
  · cases mem_singleton.mp he
    cases hx

/-- The name of a file is now the one of a directory with another inode. The node stays a `*File`
with the old inode, and when the directories below are read, too, its conversion panics. -/
theorem readDir_keeps_node :
    let entries := [sampleItem "a" 7 (modeDir ||| 0o755)]
    let r := sampleDirNode.readDir 1 0 false (sampleAnswers entries)
    r.1 = .ok () ∧ ¬r.2.items.Exact entries ∧
      (sampleDirNode.readDir 1 0 true (sampleAnswers entries)).1 = .error .panic := by
  refine ⟨rfl, fun h => ?_, rfl⟩
  obtain ⟨x, hx, hinode, -⟩ := h.listed _ mem_cons_self
  cases hx
  exact absurd hinode (by decide)

end DirNode

end HugoFS.Vfs
