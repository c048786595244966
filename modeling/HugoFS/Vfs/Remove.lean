import HugoFS.Meta.DeleteDir

/-!
# Directory removal by several clients

`Dir.Remove` decides on the listing of the client whether a directory is empty and then asks the
service to delete it, which does not look again. `Coherent` is the invariant of undisturbed
steps: a listing that has not expired contains every entry of its directory, and a directory
whose removal is under way is empty.
-/

namespace HugoFS.Vfs

open HugoFS.Meta Finset Runs Option

/-! ### Clients -/

def FuseName : Type := { n : String // n ≠ "" ∧ n ≠ "." ∧ '/' ∉ n.toList }

instance : DecidableEq FuseName := inferInstanceAs (DecidableEq { _n : String // _ })

theorem FuseName.trimSuffix (n : FuseName) : trimSuffix n.1 = n.1 :=
  trimSuffix_of_notMem n.2.2.2

structure Listing where
  items : Finset String
  read : Option ℤ

def Listing.stale (dirCacheTime now : ℤ) (l : Listing) : Bool :=
  match l.read with
  | none => true
  | some r => decide (dirCacheTime < now - r)

def childNames (s : Store) (d : Ino) : Finset String :=
  (s.restrict (inBucket d)).keys.image fun
    | .attr _ => ""
    | .entry _ n => n

def listItemUnderInode (s : Store) (d : Ino) : Option (Finset String) :=
  if (tally s fun e => e.parentIno == d && (attrAt s e.ino).isNone) = 0 then
    some (childNames s d)
  else none

def readDir (dirCacheTime now : ℤ) (s : Store) (d : Ino) (l : Listing) : Option Listing :=
  if l.stale dirCacheTime now then
    (listItemUnderInode s d).map fun names => ⟨names, some now⟩
  else some l

structure Dir where
  parent : Ino
  name : FuseName
  inode : Ino
deriving DecidableEq

structure Client where
  listing : Ino → Listing
  removing : Finset Dir

def Client.setListing (cl : Client) (d : Ino) (l : Listing) : Client :=
  { cl with listing := Function.update cl.listing d l }

def Client.add (cl : Client) (d : Ino) (n : String) : Client :=
  cl.setListing d { cl.listing d with items := insert n (cl.listing d).items }

def Client.delete (cl : Client) (d : Ino) (n : String) : Client :=
  cl.setListing d { cl.listing d with items := (cl.listing d).items.erase n }

def Client.begin (cl : Client) (dir : Dir) : Client :=
  { cl with removing := insert dir cl.removing }

def Client.finish (cl : Client) (dir : Dir) : Client :=
  { cl with removing := cl.removing.erase dir }

def Client.mounted : Client := ⟨fun _ => ⟨∅, none⟩, ∅⟩

/-! ### The system -/

section System

variable {κ : Type} [DecidableEq κ]

structure VfsState (κ : Type) where
  store : Store
  clients : κ → Client
  clock : ℤ

def VfsState.setClient (st : VfsState κ) (c : κ) (cl : Client) : VfsState κ :=
  { st with clients := Function.update st.clients c cl }

def VfsState.setStore (st : VfsState κ) (s : Store) : VfsState κ := { st with store := s }

inductive Op (κ : Type)
  | tick (dt : ℕ)
  | create (c : κ) (d : Ino) (n : FuseName) (m : ModifyAttr) (ino : Ino) (now : Time)
  | readDirAll (c : κ) (d : Ino)
  | flush (c : κ) (d : Ino)
  | checkEmpty (c : κ) (dir : Dir)
  | rmdir (c : κ) (dir : Dir) (now : Time)

def VfsState.create (st : VfsState κ) (c : κ) (d : Ino) (n : FuseName) (m : ModifyAttr) (ino : Ino)
    (now : Time) : VfsState κ :=
  if n.1 ∈ ((st.clients c).listing d).items then st
  else match (createInode ⟨d, n.1, some m⟩ ino now).run st.store with
    | (.error _, s) => st.setStore s
    | (.ok _, s) => (st.setStore s).setClient c ((st.clients c).add d n.1)

def VfsState.checkEmpty (dirCacheTime : ℤ) (st : VfsState κ) (c : κ) (dir : Dir) : VfsState κ :=
  match readDir dirCacheTime st.clock st.store dir.inode ((st.clients c).listing dir.inode) with
  | none => st
  | some l =>
    let cl := (st.clients c).setListing dir.inode l
    st.setClient c (if l.items = ∅ then cl.begin dir else cl)

def VfsState.rmdir (st : VfsState κ) (c : κ) (dir : Dir) (now : Time) : VfsState κ :=
  if dir ∈ (st.clients c).removing then
    match (deleteDirInode ⟨dir.parent, dir.name.1, false⟩ now).run st.store with
    | (.error _, s) => (st.setStore s).setClient c ((st.clients c).finish dir)
    | (.ok _, s) => (st.setStore s).setClient c
        (((st.clients c).finish dir).delete dir.parent dir.name.1)
  else st

def Op.next (dirCacheTime : ℤ) : Op κ → VfsState κ → VfsState κ
  | .tick dt, st => { st with clock := st.clock + dt }
  | .create c d n m ino now, st => st.create c d n m ino now
  | .readDirAll c d, st =>
    match readDir dirCacheTime st.clock st.store d ((st.clients c).listing d) with
    | none => st
    | some l => st.setClient c ((st.clients c).setListing d l)
  | .flush c d, st =>
    st.setClient c ((st.clients c).setListing d { (st.clients c).listing d with read := none })
  | .checkEmpty c dir, st => st.checkEmpty dirCacheTime c dir
  | .rmdir c dir now, st => st.rmdir c dir now

def Op.Undisturbed (dirCacheTime : ℤ) (st : VfsState κ) : Op κ → Prop
  | .create c d _ _ _ _ => ∀ c',
      (c' ≠ c → ((st.clients c').listing d).stale dirCacheTime st.clock = true) ∧
      ∀ dir ∈ (st.clients c').removing, dir.inode ≠ d
  | .rmdir _ dir _ => ∀ e, entryAt st.store dir.parent dir.name.1 = some e → e.ino = dir.inode
  | _ => True

end System

/-! ### The invariant of one client -/

theorem mem_childNames {s : Store} {d : Ino} {n : String} :
    n ∈ childNames s d ↔ (entryAt s d n).isSome = true := by
  simp only [childNames, mem_image]
  constructor
  · rintro ⟨i | ⟨q, m⟩, hk, rfl⟩
    · exact absurd hk attr_notMem_keys_bucket
    · obtain ⟨rfl, h⟩ := mem_keys_bucket.mp hk
      exact h
  · intro h
    exact ⟨.entry d n, mem_keys_bucket.mpr ⟨rfl, h⟩, rfl⟩

def Listing.Covers (l : Listing) (s : Store) (d : Ino) : Prop :=
  ∀ n e, entryAt s d n = some e → n ∈ l.items

structure Client.Coherent (dirCacheTime now : ℤ) (s : Store) (cl : Client) : Prop where
  listed : ∀ {d}, (cl.listing d).stale dirCacheTime now = false → (cl.listing d).Covers s d
  empty : ∀ {dir}, dir ∈ cl.removing → EmptyDir s dir.inode

namespace Client.Coherent

variable {T now : ℤ} {s s' : Store} {cl : Client} {d : Ino} {l : Listing}

theorem mounted (T now : ℤ) (s : Store) : Client.mounted.Coherent T now s where
  listed h := by cases h
  empty h := by cases h

section

variable (h : cl.Coherent T now s)
include h

theorem later {now' : ℤ} (hle : now ≤ now') :
    cl.Coherent T now' s := by
  refine ⟨fun {d} hst => h.listed ?_, h.empty⟩
  rw [Listing.stale] at hst ⊢
  split at hst
  · cases hst
  · simp only [decide_eq_false_iff_not, not_lt] at hst ⊢
    omega

theorem shrink (hs : ∀ q n e, entryAt s' q n = some e → entryAt s q n = some e) :
    cl.Coherent T now s' where
  listed hst _ _ he := h.listed hst _ _ (hs _ _ _ he)
  empty hdir n := by
    rw [eq_none_iff_forall_ne_some]
    intro e he
    have := hs _ _ _ he
    rw [h.empty hdir n] at this
    cases this

theorem setListing
    (hl : l.stale T now = false → l.Covers s d) : (cl.setListing d l).Coherent T now s where
  listed {d'} := by
    by_cases hd : d' = d
    · subst hd
      simpa [Client.setListing] using hl
    · simpa [Client.setListing, hd] using h.listed
  empty := h.empty

theorem covers_of_readDir (hr : readDir T now s d (cl.listing d) = some l) : l.Covers s d := by
  rw [readDir] at hr
  split_ifs at hr with hst
  · obtain ⟨names, hn, rfl⟩ := map_eq_some_iff.mp hr
    rw [listItemUnderInode] at hn
    split_ifs at hn
    cases hn
    intro n e he
    exact mem_childNames.mpr (by simp [he])
  · cases hr
    exact h.listed (by simpa using hst)

theorem begin {dir : Dir} (he : EmptyDir s dir.inode) :
    (cl.begin dir).Coherent T now s where
  listed := h.listed
  empty hdir := by
    rcases mem_insert.mp hdir with rfl | hdir
    · exact he
    · exact h.empty hdir

theorem finish (dir : Dir) : (cl.finish dir).Coherent T now s where
  listed := h.listed
  empty hdir := h.empty (mem_of_mem_erase hdir)

theorem created {n : String} (hs : ∀ q m, ¬(q = d ∧ m = n) → entryAt s' q m = entryAt s q m)
    (hl : (cl.listing d).stale T now = true ∨ n ∈ (cl.listing d).items)
    (hr : ∀ dir ∈ cl.removing, dir.inode ≠ d) : cl.Coherent T now s' where
  listed {q} hst m e he := by
    by_cases hk : q = d ∧ m = n
    · obtain ⟨rfl, rfl⟩ := hk
      exact hl.resolve_left (by simp [hst])
    · rw [hs q m hk] at he
      exact h.listed hst m e he
  empty {dir} hdir m := by
    rw [hs _ _ fun hk => hr dir hdir hk.1]
    exact h.empty hdir m

theorem add (n : String) : (cl.add d n).Coherent T now s :=
  h.setListing fun hst _ _ he => mem_insert_of_mem (h.listed hst _ _ he)

theorem delete {n : String} (hn : entryAt s d n = none) :
    (cl.delete d n).Coherent T now s := by
  refine h.setListing fun hst m e he => mem_erase.mpr ⟨?_, h.listed hst m e he⟩
  rintro rfl
  rw [hn] at he
  cases he

end

end Client.Coherent

/-! ### The invariant of a run -/

section Run

variable {κ : Type} [DecidableEq κ] {T : ℤ}

def VfsState.Coherent (T : ℤ) (st : VfsState κ) : Prop :=
  ∀ c, (st.clients c).Coherent T st.clock st.store

namespace VfsState.Coherent

variable {st : VfsState κ}

section

variable (h : st.Coherent T)
include h

theorem setClient {c : κ} {cl : Client}
    (hcl : cl.Coherent T st.clock st.store) : (st.setClient c cl).Coherent T := by
  intro c'
  by_cases hc : c' = c
  · subst hc
    simpa [VfsState.setClient] using hcl
  · simpa [VfsState.setClient, hc] using h c'

omit [DecidableEq κ] in
theorem setStore {s : Store}
    (hs : ∀ q n e, entryAt s q n = some e → entryAt st.store q n = some e) :
    (st.setStore s).Coherent T := fun c => (h c).shrink hs

theorem create {c : κ} {d : Ino} {n : FuseName} {m : ModifyAttr} {ino : Ino}
    {now : Time} (hok : (Op.create c d n m ino now).Undisturbed T st) :
    (st.create c d n m ino now).Coherent T := by
  rw [VfsState.create]
  split_ifs
  · exact h
  rcases createInode_cases ⟨d, n.1, some m⟩ ino now st.store with
    ⟨e, hr⟩ | ⟨r, s', hx, hr⟩ <;> rw [hr]
  · exact h
  obtain ⟨pAttr, m', -, -, -, -, -, -, -, rfl⟩ := createInodeTxn_ok.mp hx
  have hs : ∀ q k, ¬(q = d ∧ k = n.1) →
      entryAt (createdStore st.store ⟨d, n.1, some m⟩ m' ino now pAttr) q k =
        entryAt st.store q k := by
    intro q k hk
    rw [entryAt_createdStore, if_neg hk]
  intro c'
  by_cases hc : c' = c
  · subst hc
    have hadd := ((h c').add (d := d) n.1).created hs (.inr ?_) (hok c').2
    · simpa [VfsState.setClient, VfsState.setStore] using hadd
    · simp [Client.add, Client.setListing]
  · have hother := (h c').created hs (.inl ((hok c').1 hc)) (hok c').2
    simpa [VfsState.setClient, VfsState.setStore, hc] using hother

theorem readDirAll (c : κ) (d : Ino) :
    ((Op.readDirAll c d).next T st).Coherent T := by
  rw [Op.next]
  split
  · exact h
  · next l hr => exact h.setClient ((h c).setListing fun _ => (h c).covers_of_readDir hr)

theorem checkEmpty (c : κ) (dir : Dir) :
    (st.checkEmpty T c dir).Coherent T := by
  rw [VfsState.checkEmpty]
  split
  · exact h
  next l hr =>
  have hcov := (h c).covers_of_readDir hr
  have hset := (h c).setListing fun _ => hcov
  apply h.setClient
  split_ifs with hl
  · refine hset.begin fun n => ?_
    rw [eq_none_iff_forall_ne_some]
    intro e he
    have := hcov n e he
    rw [hl] at this
    cases this
  · exact hset

theorem rmdir (c : κ) (dir : Dir) (now : Time) :
    (st.rmdir c dir now).Coherent T := by
  rw [VfsState.rmdir]
  split_ifs
  · rcases deleteDirInode_cases ⟨dir.parent, dir.name.1, false⟩ now st.store with
      ⟨⟨e, hr⟩, -⟩ | ⟨pAttr, e, -, -, he, -, hr⟩ <;> rw [hr]
    · exact h.setClient ((h c).finish dir)
    have hs := h.setStore (s := deletedDirStore st.store e pAttr now)
      fun q n x hx => (entryAt_deletedDirStore_some.mp hx).1
    refine hs.setClient (((hs c).finish dir).delete ?_)
    obtain ⟨hp, hn⟩ := entryAt_key he
    rw [dir.name.trimSuffix] at hn
    change entryAt (deletedDirStore st.store e pAttr now) dir.parent dir.name.1 = none
    rw [entryAt_deletedDirStore, if_pos (.inr ⟨hp.symm, hn.symm⟩)]
  · exact h

theorem next {op : Op κ} (hok : op.Undisturbed T st) :
    (op.next T st).Coherent T := by
  cases op with
  | tick dt => exact fun c => (h c).later (Int.le_add_of_nonneg_right (Int.natCast_nonneg dt))
  | create c d n m ino now => exact h.create hok
  | readDirAll c d => exact h.readDirAll c d
  | flush c d => exact h.setClient ((h c).setListing fun hst => by cases hst)
  | checkEmpty c dir => exact h.checkEmpty c dir
  | rmdir c dir now => exact h.rmdir c dir now

end

end VfsState.Coherent

def mountState (κ : Type) (s : Store) (clock : ℤ) : VfsState κ := ⟨s, fun _ => .mounted, clock⟩

def VfsReach (T : ℤ) (s : Store) (clock : ℤ) : VfsState κ → Prop :=
  Reach (Op.next T) (fun st op => op.Undisturbed T st) (mountState κ s clock)

theorem VfsReach.coherent {s : Store} {clock : ℤ} {st : VfsState κ} (h : VfsReach T s clock st) :
    st.Coherent T :=
  Reach.invariant (I := VfsState.Coherent T) (fun _ _ hI hok => hI.next hok) h
    fun _ => Client.Coherent.mounted T clock s

theorem VfsState.Coherent.entryAt_rmdir {st : VfsState κ} (h : st.Coherent T) {c : κ} {dir : Dir}
    {now : Time} (hok : (Op.rmdir c dir now).Undisturbed T st) {q : Ino} {n : String}
    (hk : ¬(q = dir.parent ∧ n = dir.name.1)) :
    entryAt (st.rmdir c dir now).store q n = entryAt st.store q n := by
  rw [VfsState.rmdir]
  split_ifs with hrem
  · rcases deleteDirInode_cases ⟨dir.parent, dir.name.1, false⟩ now st.store with
      ⟨⟨e, hr⟩, -⟩ | ⟨pAttr, e, -, -, he, -, hr⟩ <;> rw [hr]
    · rfl
    obtain ⟨hp, hn⟩ := entryAt_key he
    rw [dir.name.trimSuffix] at hn he
    change entryAt (deletedDirStore st.store e pAttr now) q n = _
    rw [entryAt_deletedDirStore, hok e he, hp, hn]
    split_ifs with hq
    · rw [(hq.resolve_right hk), (h c).empty hrem n]
    · rfl
  · rfl

theorem VfsState.Coherent.attrAt_rmdir {st : VfsState κ} (h : st.Coherent T) {c : κ} {dir : Dir}
    {now : Time} (hok : (Op.rmdir c dir now).Undisturbed T st) {i : Ino} (hd : i ≠ dir.inode)
    (hp : i ≠ dir.parent) : attrAt (st.rmdir c dir now).store i = attrAt st.store i := by
  rw [VfsState.rmdir]
  split_ifs with hrem
  · rcases deleteDirInode_cases ⟨dir.parent, dir.name.1, false⟩ now st.store with
      ⟨⟨e, hr⟩, -⟩ | ⟨pAttr, e, hpa, -, he, -, hr⟩ <;> rw [hr]
    · rfl
    rw [dir.name.trimSuffix] at he
    change attrAt (deletedDirStore st.store e pAttr now) i = _
    rw [attrAt_deletedDirStore hpa, if_neg hp, if_neg]
    rintro (hi | ⟨n, x, hx, -⟩)
    · exact hd (hi.trans (hok e he))
    · rw [hok e he, (h c).empty hrem n] at hx
      cases hx
  · rfl

end Run

/-- A non-recursive `DeleteDirInode` of a directory with an entry is refused only
for reasons that have nothing to do with the entry. In every run of any number of
clients whose steps are all undisturbed, a removal deletes no entry but that of
the directory itself, and no attributes but the directory's. -/
theorem rmdir_deletes_only_directory (s : Store) :
    (∀ (req : DeleteDirInodeReq) (now : Time) (e : Entry),
      req.recursively = false → entryAt s req.parentIno (trimSuffix req.name) = some e →
      isDirAt s e.ino = true → ¬EmptyDir s e.ino →
      ((∃ err, (deleteDirInode req now).run s = (.error err, s)) ↔
        attrAt s req.parentIno = none ∨ req.name = "" ∨ e.isFile = true)) ∧
    ∀ (κ : Type) [DecidableEq κ] (dirCacheTime : ℤ) (clock : ℤ) (st : VfsState κ),
      VfsReach dirCacheTime s clock st →
      ∀ (c : κ) (dir : Dir) (now : Time), (Op.rmdir c dir now).Undisturbed dirCacheTime st →
        (∀ q n, ¬(q = dir.parent ∧ n = dir.name.1) →
          entryAt ((Op.rmdir c dir now).next dirCacheTime st).store q n =
            entryAt st.store q n) ∧
        ∀ i, i ≠ dir.inode → i ≠ dir.parent →
          attrAt ((Op.rmdir c dir now).next dirCacheTime st).store i = attrAt st.store i := by
  constructor
  · intro req now e _ he _ _
    rcases deleteDirInode_cases req now s with ⟨herr, hwhy⟩ | ⟨pAttr, e', hp, hn, he', hf, hok⟩
    · refine iff_of_true herr ?_
      rcases hwhy with h | h | h | ⟨e', he', hf⟩
      · exact .inl h
      · exact .inr (.inl h)
      · cases he.symm.trans h
      · cases he.symm.trans he'
        exact .inr (.inr hf)
    · cases he.symm.trans he'
      refine iff_of_false ?_ ?_
      · rintro ⟨err, herr⟩
        cases hok.symm.trans herr
      · rintro (h | h | h)
        · cases hp.symm.trans h
        · exact hn h
        · cases hf.symm.trans h
  · intro κ _ T clock st hst c dir now hok
    exact ⟨fun q n hk => hst.coherent.entryAt_rmdir hok hk,
      fun i hd hp => hst.coherent.attrAt_rmdir hok hd hp⟩

def sampleDir : Dir := ⟨1, ⟨"d", by decide⟩, 2⟩

def sampleMount : VfsState Bool := mountState Bool (storeAfter dirAndFile) 0

theorem rmdir_deletes_only_directory_sample :
    ((∃ err, deleteDirAfter fileInDir "d" false = (.error err, storeAfter fileInDir)) ↔
      attrAt (storeAfter fileInDir) 1 = none ∨ "d" = "" ∨
        Entry.isFile ⟨1, "d", 2, modeDir ||| 0o755⟩ = true) ∧
    entryAt ((Op.rmdir true sampleDir ⟨9, 0⟩).next 1000
        ((Op.checkEmpty true sampleDir).next 1000 sampleMount)).store 1 "f" =
      entryAt ((Op.checkEmpty true sampleDir).next 1000 sampleMount).store 1 "f" := by
  refine ⟨(rmdir_deletes_only_directory _).1 ⟨1, "d", false⟩ ⟨9, 0⟩ _ rfl (by decide) (by decide)
    ?_, ((rmdir_deletes_only_directory (storeAfter dirAndFile)).2 Bool 1000 0 _
      ((Reach.refl _).step (c := Op.checkEmpty true sampleDir) trivial) true sampleDir ⟨9, 0⟩
      ?_).1 1 "f" (by decide)⟩
  · intro h
    exact absurd (h "g") (by decide)
  · intro e he
    have hd : entryAt ((Op.checkEmpty true sampleDir).next 1000 sampleMount).store 1 "d" =
        some ⟨1, "d", 2, modeDir ||| 0o755⟩ := by decide
    cases hd.symm.trans he
    rfl

def disturbedState : VfsState Bool :=
  exec (Op.next 1000)
    [.readDirAll true 2, .create false 2 ⟨"x", by decide⟩ (.ofMode 0o644) 9 ⟨5, 0⟩, .tick 10,
      .checkEmpty true sampleDir] sampleMount

/-- The service deletes a directory with a file in it, and so the removal by the
first client deletes the file of the other. -/
theorem rmdir_deletes_other_file :
    (deleteDirAfter fileInDir "d" false).1 = .ok () ∧
    entryAt (deleteDirAfter fileInDir "d" false).2 2 "g" = none ∧
    entryAt disturbedState.store 2 "x" = some ⟨2, "x", 9, 0o644⟩ ∧
    entryAt ((Op.rmdir true sampleDir ⟨9, 0⟩).next 1000 disturbedState).store 2 "x" = none ∧
    attrAt ((Op.rmdir true sampleDir ⟨9, 0⟩).next 1000 disturbedState).store 9 = none := by
  decide

end HugoFS.Vfs
