import HugoFS.Lib.ParentTree
import HugoFS.Meta.DeleteDir
import HugoFS.Meta.Rename

/-!
# The directory tree

Runs of `CreateInode` and `Rename` from the store that `init` builds. The directories form a tree
as long as no directory is moved below itself or replaced, and no name with a trailing slash
overwrites an entry.
-/

namespace HugoFS.Meta

open Relation Finset Runs

structure DirTree (s : Store) : Prop where
  one_entry : ∀ {i}, isDirAt s i = true → i ≠ rootIno → links s i = 1
  reachable : ∀ {i}, isDirAt s i = true → Below s rootIno i
  not_ancestor : ∀ {i}, isDirAt s i = true → ¬TransGen (HasChild s) i i

inductive TreeCall
  | createInode (req : CreateInodeReq) (ino : Ino) (now : Time)
  | rename (c : Caller) (req : RenameReq) (now : Time)

def TreeCall.run : TreeCall → Store → Store
  | .createInode req ino now, s => ((Meta.createInode req ino now).run s).2
  | .rename c req now, s => ((Meta.rename c req now).run s).2

def TreeCall.next (c : TreeCall) (st : NsState) : NsState where
  store := c.run st.store
  used := match c with
    | .createInode _ ino _ => insert ino st.used
    | .rename _ _ _ => st.used

def TreeCall.Fresh (used : Finset Ino) : TreeCall → Prop
  | .createInode _ ino _ => 1 < ino ∧ ino ∉ used
  | .rename _ _ _ => True

def TreeCall.KeepsTree (s : Store) : TreeCall → Prop
  | .createInode req _ _ => req.itemName ≠ trimSuffix req.itemName →
      ∀ e, entryAt s req.parentIno req.itemName = some e → isDirAt s e.ino = false
  | .rename _ req _ => req.flags = renameExchange ∨
      (∀ e, displacedDst s req = some e → isDirAt s e.ino = false) ∧
      (∀ e, clobbered s req = some e → isDirAt s e.ino = false) ∧
      ∀ e, entryAt s req.parentSrcIno (trimSuffix req.oldName) = some e →
        isDirAt s e.ino = true → ¬Below s e.ino req.parentDstIno

/-! ### The invariant -/

structure TreeSound (s : Store) (used : Finset Ino) : Prop where
  tree : ParentTree (fun i => isDirAt s i = true) (HasChild s) rootIno
  links_le : ∀ i, links s i ≤ 1
  links_dir : ∀ {i}, isDirAt s i = true → i ≠ rootIno → links s i = 1
  root_dir : isDirAt s rootIno = true
  dir_numbered : ∀ {i}, isDirAt s i = true → i = rootIno ∨ i ∈ used
  entry_numbered : ∀ {p n e}, entryAt s p n = some e → 1 < e.ino ∧ e.ino ∈ used

namespace TreeSound

variable {s s' : Store} {used : Finset Ino}

theorem dirTree (h : TreeSound s used) : DirTree s where
  one_entry := h.links_dir
  reachable hi := h.tree.reach hi
  not_ancestor _ := h.tree.acyclic _

theorem mono (h : TreeSound s used) {used' : Finset Ino} (hu : used ⊆ used') :
    TreeSound s used' where
  __ := h
  dir_numbered := fun hi => (h.dir_numbered hi).imp_right fun hm => hu hm
  entry_numbered := fun he => (h.entry_numbered he).imp_right fun hm => hu hm

theorem entry_unique (h : TreeSound s used) {p q : Ino} {n m : String} {e x : Entry}
    (he : entryAt s p n = some e) (hx : entryAt s q m = some x) (hi : x.ino = e.ino) :
    q = p ∧ m = n := by
  by_contra hne
  have hl := links_of_entryAt he e.ino
  have hpos : 0 < links (dropEntry s p n) e.ino :=
    links_pos.mpr ⟨q, m, x, by rw [entryAt_dropEntry, if_neg hne, hx], hi⟩
  have := h.links_le e.ino
  rw [if_pos rfl] at hl
  omega

end TreeSound

theorem treeSound_initStore (now : Time) (uid gid : UInt32) :
    TreeSound (initStore now uid gid) ∅ := by
  have hs := sound_initStore now uid gid
  have hno : ∀ u v, ¬HasChild (initStore now uid gid) u v := by
    rintro u v ⟨n, e, he, -⟩
    rw [entryAt_initStore] at he
    cases he
  have hroot : ∀ {i}, isDirAt (initStore now uid gid) i = true → i = rootIno := by
    intro i hi
    obtain ⟨a, ha, -⟩ := isDirAt_eq_true.mp hi
    exact (hs.numbered ha).resolve_right fun h => by cases h.2
  refine ⟨⟨fun h => absurd h (hno _ _), fun hi => ?_, fun x hx => ?_⟩, fun i => ?_, ?_,
    hs.root_dir, fun hi => .inl (hroot hi), fun he => ?_⟩
  · rw [hroot hi]
  · obtain ⟨c, -, hc⟩ := TransGen.tail'_iff.mp hx
    exact hno _ _ hc
  · rw [links, initStore, tally_putAttr, tally_empty]
    exact Nat.zero_le 1
  · exact fun hi hr => absurd (hroot hi) hr
  · rw [entryAt_initStore] at he
    cases he

/-! ### CreateInode -/

section Created

variable {s : Store} {used : Finset Ino} {req : CreateInodeReq} {m : ModifyAttr} {ino : Ino}
  {now : Time} {pAttr : Attr}

theorem links_createdStore_add (i : Ino) :
    links s i + (if ino = i then 1 else 0) = links (createdStore s req m ino now pAttr) i +
      hits (entryAt s req.parentIno req.itemName) fun e => e.ino == i := by
  have h := tally_dropEntry s req.parentIno req.itemName fun e => e.ino == i
  have hp : links (createdStore s req m ino now pAttr) i = links (dropEntry s req.parentIno
      req.itemName) i + if ino = i then 1 else 0 := by
    simp only [createdStore, links_putAttr, links_putEntry]
  rw [hp]
  show tally s _ + _ = tally _ _ + _ + _
  omega

theorem hasChild_createdStore {u v : Ino} (h : HasChild (createdStore s req m ino now pAttr) u v) :
    HasChild s u v ∨ u = req.parentIno ∧ v = ino := by
  obtain ⟨n, e, he, rfl⟩ := h
  rw [entryAt_createdStore] at he
  split_ifs at he with hk
  · cases he
    exact .inr ⟨hk.1, rfl⟩
  · exact .inl ⟨n, e, he, rfl⟩

section

variable (h : TreeSound s used) (hu : ino ∉ used)
  (hover : ∀ e, entryAt s req.parentIno req.itemName = some e → isDirAt s e.ino = false)
include h hu hover

theorem TreeSound.regrafts_created :
    Regrafts (fun i => isDirAt s i = true) (HasChild s)
      (HasChild (createdStore s req m ino now pAttr)) req.parentIno ino where
  sound {u v} hc := by
    refine (hasChild_createdStore hc).imp_left fun hc => ⟨hc, ?_⟩
    obtain ⟨n, e, he, rfl⟩ := hc
    rintro rfl
    exact hu (h.entry_numbered he).2
  kept {u v} hc hne hv := by
    obtain ⟨n, e, he, rfl⟩ := hc
    refine ⟨n, e, ?_, rfl⟩
    rw [entryAt_createdStore, if_neg, he]
    rintro ⟨rfl, rfl⟩
    rw [hover e he] at hv
    cases hv
  hung := by
    have he := @entryAt_createdStore s req m ino now pAttr req.parentIno req.itemName
    rw [if_pos ⟨rfl, rfl⟩] at he
    exact ⟨req.itemName, _, he, rfl⟩

theorem TreeSound.created (hp : attrAt s req.parentIno = some pAttr) (hd : pAttr.isDir = true)
    (h1 : 1 < ino) :
    TreeSound (createdStore s req m ino now pAttr) (insert ino used) := by
  have hpd : isDirAt s req.parentIno = true := by rw [isDirAt_of_attrAt hp, hd]
  have hroot : ino ≠ rootIno := by
    rintro rfl
    exact absurd h1 (by decide)
  have hnew : ¬isDirAt s ino = true := fun hc => (h.dir_numbered hc).elim hroot hu
  have hold : ∀ {i}, isDirAt s i = true →
      isDirAt (createdStore s req m ino now pAttr) i = true := by
    intro i hi
    rw [isDirAt_createdStore hp, if_neg, hi]
    rintro rfl
    exact hnew hi
  have hdir : ∀ {i}, isDirAt (createdStore s req m ino now pAttr) i = true →
      isDirAt s i = true ∨ i = ino := by
    intro i hi
    rw [isDirAt_createdStore hp] at hi
    split_ifs at hi with hii
    exacts [.inr hii, .inl hi]
  have hfresh : links s ino = 0 := by
    rw [links, tally_eq_zero]
    intro p n e he
    rw [beq_eq_false_iff_ne]
    rintro rfl
    exact hu (h.entry_numbered he).2
  refine ⟨?_, fun i => ?_, fun {i} hi hr => ?_, hold h.root_dir, fun hi => ?_, fun he => ?_⟩
  · refine h.tree.regraft (h.regrafts_created hu hover) hpd ?_ ?_ hdir
    · intro hb
      exact hnew (h.tree.eq_of_reach hnew hb ▸ hpd)
    · intro u v hc
      rcases hasChild_createdStore hc with hc | ⟨rfl, -⟩
      · exact hold (h.tree.source hc)
      · exact hold hpd
  · have hl := @links_createdStore_add s req m ino now pAttr i
    have hle := h.links_le i
    split_ifs at hl with hi
    · subst hi
      omega
    · omega
  · have hl := @links_createdStore_add s req m ino now pAttr i
    have hz : hits (entryAt s req.parentIno req.itemName) (fun e => e.ino == i) = 0 := by
      rcases he : entryAt s req.parentIno req.itemName with _ | e
      · rfl
      rw [hits_some, if_neg]
      rw [beq_iff_eq]
      rintro rfl
      rcases hdir hi with hi | hi
      · rw [hover e he] at hi
        cases hi
      · exact hu (hi ▸ (h.entry_numbered he).2)
    rcases hdir hi with hi | rfl
    · rw [h.links_dir hi hr, hz, if_neg] at hl
      · exact hl.symm
      · rintro rfl
        exact hnew hi
    · rw [hfresh, hz, if_pos rfl] at hl
      exact hl.symm
  · rcases hdir hi with hi | rfl
    · exact (h.dir_numbered hi).imp_right fun hm => mem_insert_of_mem hm
    · exact .inr (mem_insert_self _ _)
  · rw [entryAt_createdStore] at he
    split_ifs at he
    · cases he
      exact ⟨h1, mem_insert_self _ _⟩
    · exact (h.entry_numbered he).imp_right fun hm => mem_insert_of_mem hm

end

end Created

/-! ### Rename -/

theorem entryAt_movedEntries (s : Store) (req : RenameReq) (se : Entry) (p : Ino) (n : String) :
    entryAt (movedEntries s req se) p n =
      if p = req.parentDstIno ∧ n = req.newName then some (renamedEntry req se)
      else if p = req.parentDstIno ∧ n = trimSuffix req.newName then none
      else if p = req.parentSrcIno ∧ n = trimSuffix req.oldName then none
      else entryAt s p n := by
  simp only [movedEntries, entryAt_putEntry, entryAt_dropEntry]
  rfl

section Renamed

variable {s s' : Store} {used : Finset Ino} {req : RenameReq} {se : Entry} {spa dpa sa : Attr}
  {da : Option Attr}

theorem RenameShifts.isDirAt_eq (h : RenameShifts s s' req se spa dpa sa da)
    (hd : ∀ e, displacedDst s req = some e → isDirAt s e.ino = false) (i : Ino) :
    isDirAt s' i = isDirAt s i := by
  rw [isDirAt_eq_stat, isDirAt_eq_stat, h.stats]
  split_ifs with h1 h2 h3
  · rw [h1, stat_of_attrAt h.dstParent]
    rfl
  · rw [h2, stat_of_attrAt h.srcAttr]
  · rw [h3, stat_of_attrAt h.srcParent]
    rfl
  · rcases hda : da with _ | a
    · rfl
    rw [leftStat]
    split_ifs with h4
    · obtain ⟨de, hde, hdea, -⟩ := h.exists_dst hda
      have hai := attrAt_inode hdea
      -- the destination is not the source, so it was displaced
      have hsame : ¬SameEntry req := by
        rintro ⟨hp, hn⟩
        rw [hp, hn, h.src] at hde
        cases hde
        exact h2 (h4.trans hai)
      have hfile := hd de (by rw [displacedDst, if_neg hsame, hde])
      rw [isDirAt_of_attrAt hdea] at hfile
      have hm : modeIsDir a.mode = false := hfile
      rw [h4, stat_of_attrAt (h.stat_da hda), replacedStat]
      split_ifs <;> simp [hm]
    · rfl

section

variable (hs : TreeSound s used) (h : RenameShifts s s' req se spa dpa sa da)
  (hd : ∀ e, displacedDst s req = some e → isDirAt s e.ino = false)
  (hc : ∀ e, clobbered s req = some e → isDirAt s e.ino = false)
include hs h hd hc

theorem TreeSound.regrafts_renamed :
    Regrafts (fun i => isDirAt s i = true) (HasChild s) (HasChild s') req.parentDstIno se.ino where
  sound {u v} hcv := by
    obtain ⟨n, e, he, rfl⟩ := hcv
    rw [h.entries, entryAt_movedEntries] at he
    split_ifs at he with h1 h2 h3
    · cases he
      exact .inr ⟨h1.1, rfl⟩
    · exact .inl ⟨⟨n, e, he, rfl⟩, fun hi => h3 (hs.entry_unique h.src he hi)⟩
  kept {u v} hcv hne hv := by
    obtain ⟨n, e, he, rfl⟩ := hcv
    have hv' : ¬isDirAt s e.ino = false := by simp [hv]
    have hsrc : ¬(u = req.parentSrcIno ∧ n = trimSuffix req.oldName) := by
      rintro ⟨rfl, rfl⟩
      rw [h.src] at he
      cases he
      exact hne rfl
    have hdst : ¬(u = req.parentDstIno ∧ n = trimSuffix req.newName) := by
      rintro ⟨rfl, rfl⟩
      refine hv' (hd e ?_)
      rw [displacedDst, if_neg (fun hsame => hsrc ⟨hsame.1, hsame.2⟩), he]
    have hnew : ¬(u = req.parentDstIno ∧ n = req.newName) := by
      rintro ⟨rfl, rfl⟩
      refine hv' (hc e ?_)
      rw [clobbered, if_neg (not_or.mpr ⟨fun ht => hdst ⟨rfl, ht⟩, hsrc⟩), he]
    refine ⟨n, e, ?_, rfl⟩
    rw [h.entries, entryAt_movedEntries, if_neg hnew, if_neg hdst, if_neg hsrc, he]
  hung := by
    refine ⟨req.newName, renamedEntry req se, ?_, rfl⟩
    rw [h.entries, entryAt_movedEntries, if_pos ⟨rfl, rfl⟩]

theorem TreeSound.renamed (hb : isDirAt s se.ino = true → ¬Below s se.ino req.parentDstIno) :
    TreeSound s' used := by
  have hkind := h.isDirAt_eq hd
  have hpd : isDirAt s req.parentDstIno = true := by
    rw [isDirAt_of_attrAt h.dstParent, h.dstParent_isDir]
  have hg := hs.regrafts_renamed h hd hc
  have hlost : ∀ {i}, isDirAt s i = true → lost s req i = 0 := by
    intro i hi
    have hz : ∀ o : Option Entry, (∀ e, o = some e → isDirAt s e.ino = false) →
        hits o (fun e => e.ino == i) = 0 := by
      rintro (_ | e) ho
      · rfl
      · rw [hits_some, if_neg]
        rw [beq_iff_eq]
        rintro rfl
        rw [ho e rfl] at hi
        cases hi
    rw [lost, hz _ hd, hz _ hc]
  refine ⟨?_, fun i => ?_, fun {i} hi hr => ?_, (hkind _).trans hs.root_dir, fun {i} hi => ?_,
    fun {p n e} he => ?_⟩
  · refine hs.tree.regraft hg hpd ?_ ?_ fun {y} hy => .inl ((hkind y).symm.trans hy)
    · intro hbelow
      by_cases hsd : isDirAt s se.ino = true
      · exact hb hsd hbelow
      · exact hsd (hs.tree.eq_of_reach hsd hbelow ▸ hpd)
    · intro u v huv
      rw [hkind]
      rcases hg.sound huv with ⟨hold, -⟩ | ⟨rfl, -⟩
      · exact hs.tree.source hold
      · exact hpd
  · have hl := h.links_eq i
    have := hs.links_le i
    omega
  · rw [hkind] at hi
    have hl := h.links_eq i
    rw [hs.links_dir hi hr, hlost hi] at hl
    exact hl.symm
  · exact hs.dir_numbered ((hkind i).symm.trans hi)
  · rw [h.entries, entryAt_movedEntries] at he
    split_ifs at he
    · cases he
      show 1 < se.ino ∧ se.ino ∈ used
      exact hs.entry_numbered h.src
    · exact hs.entry_numbered he

end

theorem TreeSound.exchanged (hs : TreeSound s used) {de : Entry} {da : Attr}
    (h : RenameExchanges s s' req se de spa dpa sa da) : TreeSound s' used := by
  have hkind := h.isDirAt_eq
  have hchild : ∀ u v, HasChild s' u v ↔ HasChild s u v := by
    intro u v
    simp only [HasChild, h.entries]
  have hlinks : ∀ i, links s' i = links s i := fun i => tally_eq_of_entryAt h.entries
  refine ⟨hs.tree.congr (fun i => by rw [hkind]) hchild, fun i => ?_, fun {i} hi hr => ?_, ?_,
    fun {i} hi => ?_, fun {p n e} he => ?_⟩
  · rw [hlinks]
    exact hs.links_le i
  · rw [hlinks]
    exact hs.links_dir ((hkind i).symm.trans hi) hr
  · rw [hkind]
    exact hs.root_dir
  · exact hs.dir_numbered ((hkind i).symm.trans hi)
  · rw [h.entries] at he
    exact hs.entry_numbered he

end Renamed

/-! ### Runs -/

theorem TreeSound.next {st : NsState} {c : TreeCall} (h : TreeSound st.store st.used)
    (hf : c.Fresh st.used) (hok : c.KeepsTree st.store) :
    TreeSound (c.next st).store (c.next st).used := by
  cases c with
  | createInode req ino now =>
    obtain ⟨h1, hu⟩ := hf
    rcases createInode_cases req ino now st.store with ⟨e, hr⟩ | ⟨r, s', hx, hr⟩
    · simp only [TreeCall.next, TreeCall.run, hr]
      exact h.mono (subset_insert _ _)
    obtain ⟨pAttr, m, hp, hd, -, -, -, hz, -, rfl⟩ := createInodeTxn_ok.mp hx
    simp only [TreeCall.next, TreeCall.run, hr]
    refine h.created hu (fun e he => ?_) hp hd h1
    by_cases hn : req.itemName = trimSuffix req.itemName
    · -- the existence check has read this very entry
      have h0 := hz e (hn ▸ he)
      have := (h.entry_numbered he).1
      rw [h0] at this
      exact absurd this (by decide)
    · exact hok hn e he
  | rename c req now =>
    simp only [TreeCall.next, TreeCall.run]
    rcases hr : (rename c req now).run st.store with ⟨e | r, s'⟩
    · have hs := rename_failsClean c req now st.store e (by rw [hr])
      rw [hr] at hs
      rw [show s' = st.store from hs]
      exact h
    rcases rename_ok_cases hr with ⟨hfl, hcase⟩ | ⟨-, se, de, spa, dpa, sa, da, hx⟩
    · obtain ⟨hd, hc, hb⟩ := hok.resolve_left hfl
      rcases hcase with ⟨se, spa, dpa, sa, hm⟩ | ⟨se, de, spa, dpa, sa, da, hm⟩
      · exact h.renamed hm.shifts hd hc (hb se hm.src)
      · exact h.renamed hm.shifts hd hc (hb se hm.src)
    · exact h.exchanged hx

def TreeReach (ok : Store → TreeCall → Prop) (now : Time) (uid gid : UInt32) : NsState → Prop :=
  Reach TreeCall.next (fun st c => c.Fresh st.used ∧ ok st.store c)
    ⟨initStore now uid gid, ∅⟩

/-- In every run of `CreateInode` and `Rename` whose calls all keep to the
condition, the directories form a tree in every state reached. -/
theorem create_rename_dirTree {now : Time} {uid gid : UInt32} {st : NsState}
    (h : TreeReach (fun s c => c.KeepsTree s) now uid gid st) : DirTree st.store := by
  have hsound : TreeSound st.store st.used :=
    Reach.invariant (I := fun st => TreeSound st.store st.used)
      (fun _ _ hI hc => hI.next hc.1 hc.2) h (treeSound_initStore now uid gid)
  exact hsound.dirTree

/-! ### Sample runs -/

instance (used : Finset Ino) : (c : TreeCall) → Decidable (c.Fresh used)
  | .createInode _ ino _ => inferInstanceAs (Decidable (1 < ino ∧ ino ∉ used))
  | .rename _ _ _ => inferInstanceAs (Decidable True)

def mkdirCall (p : Ino) (n : String) (ino : Ino) : TreeCall :=
  .createInode ⟨p, n, some (.ofMode (modeDir ||| 0o755))⟩ ino ⟨1, 0⟩

def renameCall (ps : Ino) (old : String) (pd : Ino) (new : String) : TreeCall :=
  .rename ⟨0, 0⟩ ⟨ps, old, pd, new, 0⟩ ⟨2, 0⟩

def treeAfter (calls : List TreeCall) : NsState :=
  exec TreeCall.next calls ⟨initStore ⟨0, 0⟩ 0 0, ∅⟩

theorem not_below_of_empty {s : Store} {d i : Ino} (hi : i ≠ d)
    (h : (tally s fun e => e.parentIno == d) = 0) : ¬Below s d i := by
  intro hb
  rcases hb.cases_head with hd | ⟨c, ⟨n, e, he, -⟩, -⟩
  · exact hi hd.symm
  have := tally_eq_zero.mp h d n e he
  rw [(entryAt_key he).1] at this
  simp at this

theorem create_rename_dirTree_sample :
    DirTree (treeAfter [mkdirCall 1 "a" 2, mkdirCall 1 "b" 3, renameCall 1 "a" 3 "c"]).store := by
  refine @create_rename_dirTree ⟨0, 0⟩ 0 0 _ (reach_exec ?_)
  refine ⟨⟨by decide, fun h => absurd (by decide) h⟩, ⟨by decide, fun h => absurd (by decide) h⟩,
    ⟨trivial, .inr ⟨?_, ?_, ?_⟩⟩, trivial⟩
  · have hd : displacedDst (treeAfter [mkdirCall 1 "a" 2, mkdirCall 1 "b" 3]).store
        ⟨1, "a", 3, "c", 0⟩ = none := by decide
    intro e he
    cases hd.symm.trans he
  · have hc : clobbered (treeAfter [mkdirCall 1 "a" 2, mkdirCall 1 "b" 3]).store
        ⟨1, "a", 3, "c", 0⟩ = none := by decide
    intro e he
    cases hc.symm.trans he
  · have hs : entryAt (treeAfter [mkdirCall 1 "a" 2, mkdirCall 1 "b" 3]).store 1
        (trimSuffix "a") = some ⟨1, "a", 2, modeDir ||| 0o755⟩ := by decide
    intro e he _
    cases hs.symm.trans he
    exact not_below_of_empty (by decide) (by decide)

/-- A directory moved below its own child becomes its own ancestor; a replaced
empty directory keeps its attributes without an entry; a second creation of a name
with a trailing slash takes the entry away from the first. -/
theorem create_rename_breaks_tree :
    (TreeReach (fun _ _ => True) ⟨0, 0⟩ 0 0
        (treeAfter [mkdirCall 1 "a" 2, mkdirCall 2 "b" 3, renameCall 1 "a" 3 "c"]) ∧
      ¬DirTree (treeAfter [mkdirCall 1 "a" 2, mkdirCall 2 "b" 3, renameCall 1 "a" 3 "c"]).store) ∧
    (TreeReach (fun _ _ => True) ⟨0, 0⟩ 0 0
        (treeAfter [mkdirCall 1 "a" 2, mkdirCall 1 "b" 3, renameCall 1 "a" 1 "b"]) ∧
      ¬DirTree (treeAfter [mkdirCall 1 "a" 2, mkdirCall 1 "b" 3, renameCall 1 "a" 1 "b"]).store) ∧
    (TreeReach (fun _ _ => True) ⟨0, 0⟩ 0 0
        (treeAfter [mkdirCall 1 "a/" 2, mkdirCall 1 "a/" 3]) ∧
      ¬DirTree (treeAfter [mkdirCall 1 "a/" 2, mkdirCall 1 "a/" 3]).store) := by
  refine ⟨⟨reach_exec (by decide), fun h => ?_⟩,
    ⟨reach_exec (by decide), fun h => ?_⟩,
    ⟨reach_exec (by decide), fun h => ?_⟩⟩
  · refine h.not_ancestor (i := 2) (by decide) (.head (b := 3) ?_ (.single ?_)) <;> decide
  · exact absurd (h.one_entry (i := 3) (by decide) (by decide)) (by decide)
  · exact absurd (h.one_entry (i := 2) (by decide) (by decide)) (by decide)

end HugoFS.Meta
