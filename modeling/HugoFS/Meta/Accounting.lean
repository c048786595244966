import HugoFS.Meta.Effects
import HugoFS.Meta.Links
import HugoFS.Lib.Runs

/-!
# Creating, linking and unlinking

Runs of `CreateInode`, `Link` and `DeleteInode` from the store that `init` builds. `Sound` adds
to `Consistent` what the calls rely on. Link counts are 32-bit words, so a call may only raise
a count that is below the largest word.
-/

namespace HugoFS.Meta

open Option Nat Runs Attr Finset

structure Sound (s : Store) (used : Finset Ino) : Prop extends Consistent s where
  parent_dir : ∀ {p n e}, entryAt s p n = some e → isDirAt s p = true
  entry_mode : ∀ {p n e a}, entryAt s p n = some e → attrAt s e.ino = some a → e.mode = a.mode
  root_dir : isDirAt s rootIno = true
  numbered : ∀ {i a}, attrAt s i = some a → i = rootIno ∨ 1 < i ∧ i ∈ used

namespace Sound

variable {s : Store} {used : Finset Ino}

section

variable (h : Sound s used) {n : String} {p : Ino}
include h

theorem mono {used' : Finset Ino} (hu : used ⊆ used') : Sound s used' where
  __ := h
  numbered := fun ha => (h.numbered ha).imp_right fun hm => ⟨hm.1, hu hm.2⟩

theorem attrAt_fresh {ino : Ino} (h1 : 1 < ino) (hu : ino ∉ used) :
    attrAt s ino = none := by
  rw [eq_none_iff_forall_ne_some]
  intro a ha
  rcases h.numbered ha with rfl | ⟨-, hm⟩
  · exact absurd h1 (by decide)
  · exact hu hm

theorem entry_ino_ne_zero {e : Entry} (he : entryAt s p n = some e) : e.ino ≠ 0 := by
  intro h0
  obtain ⟨a, ha⟩ := h.entry_attr he
  rw [h0] at ha
  rcases h.numbered ha with hr | ⟨h1, -⟩
  · exact absurd hr (by decide)
  · exact absurd h1 (by decide)

theorem entryAt_none (hz : ∀ e, entryAt s p n = some e → e.ino = 0) : entryAt s p n = none := by
  rw [eq_none_iff_forall_ne_some]
  intro e he
  exact h.entry_ino_ne_zero he (hz e he)

theorem entry_isDir {e : Entry} (he : entryAt s p n = some e) : isDirAt s e.ino = e.isDir := by
  obtain ⟨a, ha⟩ := h.entry_attr he
  rw [isDirAt_of_attrAt ha, isDir, Entry.isDir, h.entry_mode he ha]

theorem subdirs_eq_dirEntries (p : Ino) :
    subdirs s p = tally s fun e => e.parentIno == p && e.isDir := by
  apply tally_congr
  intro q n e he
  rw [h.entry_isDir he]

theorem of_modes {s' : Store} (hc : Consistent s')
    (hmode : ∀ {i a}, attrAt s' i = some a → ∃ b, attrAt s i = some b ∧ b.mode = a.mode)
    (hdir : ∀ i, isDirAt s' i = isDirAt s i)
    (hentry : ∀ {p n e}, entryAt s' p n = some e →
      isDirAt s p = true ∧ ∀ {b}, attrAt s e.ino = some b → e.mode = b.mode) : Sound s' used where
  toConsistent := hc
  parent_dir he := (hdir _).trans (hentry he).1
  entry_mode he ha := by
    obtain ⟨b, hb, hm⟩ := hmode ha
    exact ((hentry he).2 hb).trans hm
  root_dir := (hdir _).trans h.root_dir
  numbered ha := by
    obtain ⟨b, hb, -⟩ := hmode ha
    exact h.numbered hb

end

end Sound

theorem entryAt_initStore (now : Time) (uid gid : UInt32) (p : Ino) (n : String) :
    entryAt (initStore now uid gid) p n = none := by
  rw [initStore, entryAt_putAttr, entryAt_empty]

theorem sound_initStore (now : Time) (uid gid : UInt32) :
    Sound (initStore now uid gid) ∅ := by
  have hdir : (rootAttr now uid gid).isDir = true := by
    change modeIsDir (modeDir ||| 0o755) = true
    decide
  have hattr : ∀ {i a}, attrAt (initStore now uid gid) i = some a →
      i = rootIno ∧ a = rootAttr now uid gid := by
    intro i a ha
    rw [initStore, attrAt_putAttr] at ha
    split_ifs at ha with hi
    · exact ⟨hi, (some.inj ha).symm⟩
    · cases ha
  have hzero : ∀ q, tally (initStore now uid gid) q = 0 := by
    intro q
    rw [initStore, tally_putAttr, tally_empty]
  refine ⟨⟨?_, ?_, ?_, ?_⟩, ?_, ?_, ?_, ?_⟩
  · intro p n e he
    rw [entryAt_initStore] at he
    cases he
  · intro i a ha hd
    rw [(hattr ha).2, hdir] at hd
    cases hd
  · intro i a ha _
    rw [subdirs, hzero, (hattr ha).2]
    rfl
  · intro i a ha hr
    exact absurd (hattr ha).1 hr
  · intro p n e he
    rw [entryAt_initStore] at he
    cases he
  · intro p n e a he
    rw [entryAt_initStore] at he
    cases he
  · have hroot : attrAt (initStore now uid gid) rootIno = some (rootAttr now uid gid) :=
      (attrAt_putAttr ∅ (rootAttr now uid gid) rootIno).trans (if_pos rfl)
    rw [isDirAt_of_attrAt hroot, hdir]
  · intro i a ha
    exact .inl (hattr ha).1

/-! ### The three calls keep the invariant -/

variable {a : Attr} {i : Ino}

theorem ne_of_attrAt_none {s : Store} {j : Ino} (hi : attrAt s i = some a)
    (hj : attrAt s j = none) : i ≠ j := by
  rintro rfl
  cases hi.symm.trans hj

section Created

variable {s : Store} {used : Finset Ino} {req : CreateInodeReq} {m : ModifyAttr} {ino : Ino}
  {now : Time} {pAttr : Attr}

theorem attrAt_createdStore (hp : attrAt s req.parentIno = some pAttr) (i : Ino) :
    attrAt (createdStore s req m ino now pAttr) i =
      if i = ino then some (newInode ino now (requested req m) pAttr).1
      else if i = req.parentIno then some (newInode ino now (requested req m) pAttr).2
      else attrAt s i := by
  simp [createdStore, attrAt_inode hp]

theorem entryAt_createdStore (p : Ino) (n : String) :
    entryAt (createdStore s req m ino now pAttr) p n =
      if p = req.parentIno ∧ n = req.itemName then
        some { parentIno := req.parentIno, name := req.itemName, ino := ino,
               mode := (requested req m).mode }
      else entryAt s p n := by
  simp [createdStore]

theorem isDirAt_createdStore (hp : attrAt s req.parentIno = some pAttr) (i : Ino) :
    isDirAt (createdStore s req m ino now pAttr) i =
      if i = ino then (requested req m).isDir else isDirAt s i := by
  rw [isDirAt, attrAt_createdStore hp]
  split_ifs with hi hpi
  · simp
  · subst hpi
    simp [isDirAt, hp]
  · rfl

theorem tally_createdStore (hfree : entryAt s req.parentIno req.itemName = none)
    (q : Entry → Bool) :
    tally (createdStore s req m ino now pAttr) q = tally s q +
      if q { parentIno := req.parentIno, name := req.itemName, ino := ino,
             mode := (requested req m).mode } then 1 else 0 := by
  simp only [createdStore, tally_putAttr]
  rw [tally_putEntry, dropEntry_of_entryAt_none hfree]

theorem links_createdStore (hfree : entryAt s req.parentIno req.itemName = none) (i : Ino) :
    links (createdStore s req m ino now pAttr) i = links s i + if ino = i then 1 else 0 := by
  rw [links, tally_createdStore hfree]
  simp [links]

theorem subdirs_createdStore (h : Sound s used) (hp : attrAt s req.parentIno = some pAttr)
    (hfree : entryAt s req.parentIno req.itemName = none) (hnone : attrAt s ino = none) (p : Ino) :
    subdirs (createdStore s req m ino now pAttr) p =
      subdirs s p + if req.parentIno = p ∧ (requested req m).isDir = true then 1 else 0 := by
  have hold : ∀ q n e, entryAt s q n = some e →
      isDirAt (createdStore s req m ino now pAttr) e.ino = isDirAt s e.ino := by
    intro q n e he
    obtain ⟨a, ha⟩ := h.entry_attr he
    rw [isDirAt_createdStore hp, if_neg]
    rintro rfl
    rw [hnone] at ha
    cases ha
  rw [subdirs, tally_createdStore hfree, ← subdirs_eq_tally hold p]
  simp [isDirAt_createdStore hp]

theorem Sound.subdirs_eq_zero (h : Sound s used) (hnone : attrAt s ino = none) :
    subdirs s ino = 0 := by
  rw [subdirs, tally_eq_zero]
  intro p n e he
  have hpd := h.parent_dir he
  rw [(entryAt_key he).1]
  by_contra hc
  simp only [Bool.not_eq_false, Bool.and_eq_true, beq_iff_eq] at hc
  rw [hc.1, isDirAt, hnone] at hpd
  cases hpd

section

variable (h : Sound s used) (hp : attrAt s req.parentIno = some pAttr) (hd : pAttr.isDir = true)
  (hfree : entryAt s req.parentIno req.itemName = none)
include h hp hd hfree

theorem Sound.consistent_created (hnone : attrAt s ino = none)
    (hwrap : (toAttr m).isDir = true → pAttr.nlink.toNat + 1 < 2 ^ 32) :
    Consistent (createdStore s req m ino now pAttr) := by
  have hdir : (requested req m).isDir = (toAttr m).isDir := rfl
  have hlinks0 : links s ino = 0 := h.links_eq_zero hnone
  have hsub0 : subdirs s ino = 0 := h.subdirs_eq_zero hnone
  have hne := ne_of_attrAt_none hp hnone
  refine ⟨?_, ?_, ?_, ?_⟩
  · intro p n e he
    rw [entryAt_createdStore] at he
    rw [attrAt_createdStore hp]
    split_ifs at he with hk
    · cases he
      exact ⟨_, if_pos rfl⟩
    obtain ⟨a, ha⟩ := h.entry_attr he
    split_ifs
    exacts [⟨_, rfl⟩, ⟨_, rfl⟩, ⟨a, ha⟩]
  · intro i a ha had
    rw [attrAt_createdStore hp] at ha
    rw [links_createdStore hfree]
    split_ifs at ha with hi hip
    · subst hi
      cases ha
      rw [newInode_isDir] at had
      rw [(newInode_nlinks ..).1, if_neg (by simp [had]), hlinks0, if_pos rfl]
      rfl
    · cases ha
      rw [newInode_parent_isDir, hd] at had
      cases had
    · rw [h.file_nlink ha had, if_neg (Ne.symm hi), add_zero]
  · intro i a ha had
    rw [attrAt_createdStore hp] at ha
    rw [subdirs_createdStore h hp hfree hnone]
    split_ifs at ha with hi hip
    · subst hi
      cases ha
      rw [newInode_isDir] at had
      rw [(newInode_nlinks ..).1, if_pos had, hsub0, if_neg (fun hc => hne hc.1)]
      rfl
    · subst hip
      cases ha
      have hn := h.dir_nlink hp hd
      rw [(newInode_nlinks ..).2]
      by_cases hm : (requested req m).isDir = true
      · have hw := hwrap (hdir ▸ hm)
        rw [if_pos hm, if_pos ⟨rfl, hm⟩, toNat_add_one hw, hn, add_assoc]
      · rw [if_neg hm, if_neg (fun hc => hm hc.2), hn, add_zero]
    · rw [h.dir_nlink ha had, if_neg (fun hc => hip hc.1.symm), add_zero]
  · intro i a ha hr
    rw [attrAt_createdStore hp] at ha
    rw [links_createdStore hfree]
    split_ifs at ha with hi hip
    · rw [if_pos hi.symm]
      omega
    · have := h.attr_entry hp (hip ▸ hr)
      rw [hip]
      omega
    · have := h.attr_entry ha hr
      omega

theorem Sound.created (h1 : 1 < ino) (hu : ino ∉ used)
    (hwrap : (toAttr m).isDir = true → pAttr.nlink.toNat + 1 < 2 ^ 32) :
    Sound (createdStore s req m ino now pAttr) (insert ino used) := by
  have hnone : attrAt s ino = none := h.attrAt_fresh h1 hu
  have hne := ne_of_attrAt_none hp hnone
  refine ⟨h.consistent_created hp hd hfree hnone hwrap, ?_, ?_, ?_, ?_⟩
  · intro p n e he
    rw [entryAt_createdStore] at he
    rw [isDirAt_createdStore hp]
    split_ifs at he with hk
    · rw [hk.1, if_neg hne, isDirAt_of_attrAt hp, hd]
    have hpd := h.parent_dir he
    split_ifs with hi
    · rw [hi, isDirAt, hnone] at hpd
      cases hpd
    · exact hpd
  · intro p n e a he ha
    rw [entryAt_createdStore] at he
    rw [attrAt_createdStore hp] at ha
    split_ifs at he with hk
    · cases he
      rw [if_pos rfl] at ha
      cases ha
      rw [(newInode_kept ..).2.1]
    split_ifs at ha with hi hip
    · obtain ⟨b, hb⟩ := h.entry_attr he
      rw [hi, hnone] at hb
      cases hb
    · cases ha
      rw [(newInode_kept ..).2.2.2]
      exact h.entry_mode he (hip ▸ hp)
    · exact h.entry_mode he ha
  · rw [isDirAt_createdStore hp, if_neg, h.root_dir]
    rintro rfl
    exact absurd h1 (by decide)
  · intro i a ha
    rw [attrAt_createdStore hp] at ha
    split_ifs at ha with hi hip
    · subst hi
      exact .inr ⟨h1, mem_insert_self _ _⟩
    · subst hip
      exact (h.numbered hp).imp_right fun hm => ⟨hm.1, mem_insert_of_mem hm.2⟩
    · exact (h.numbered ha).imp_right fun hm => ⟨hm.1, mem_insert_of_mem hm.2⟩

end

end Created

section Linked

variable {s : Store} {used : Finset Ino} {req : LinkReq} {now : Time} {pAttr target : Attr}

section

variable (hp : attrAt s req.newParentIno = some pAttr)
include hp

theorem attrAt_linkedStore (ht : attrAt s req.ino = some target) (i : Ino) :
    attrAt (linkedStore s req now pAttr target) i =
      if i = req.ino then some ((target.setNlink (target.nlink + 1)).setCtime now)
      else if i = req.newParentIno then some (pAttr.touch now)
      else attrAt s i := by
  simp [linkedStore, attrAt_inode hp, attrAt_inode ht]

omit hp in
theorem entryAt_linkedStore (p : Ino) (n : String) :
    entryAt (linkedStore s req now pAttr target) p n =
      if p = req.newParentIno ∧ n = req.newName then
        some { parentIno := req.newParentIno, name := req.newName, ino := target.inode,
               mode := target.mode }
      else entryAt s p n := by
  simp [linkedStore]

theorem mode_linkedStore (ht : attrAt s req.ino = some target) (i : Ino) :
    (attrAt (linkedStore s req now pAttr target) i).map mode =
      (attrAt s i).map mode := by
  rw [attrAt_linkedStore hp ht]
  split_ifs with hi hip
  · simp [hi, ht]
  · simp [hip, hp]
  · rfl

theorem isDirAt_linkedStore (ht : attrAt s req.ino = some target) (i : Ino) :
    isDirAt (linkedStore s req now pAttr target) i = isDirAt s i :=
  isDirAt_congr (mode_linkedStore hp ht i)

omit hp in
theorem tally_linkedStore (hfree : entryAt s req.newParentIno req.newName = none)
    (q : Entry → Bool) :
    tally (linkedStore s req now pAttr target) q = tally s q +
      if q { parentIno := req.newParentIno, name := req.newName, ino := target.inode,
             mode := target.mode } then 1 else 0 := by
  rw [linkedStore, tally_putEntry, dropEntry_of_entryAt_none (by simpa using hfree)]
  simp

omit hp in
theorem links_linkedStore (hfree : entryAt s req.newParentIno req.newName = none)
    (ht : attrAt s req.ino = some target) (i : Ino) :
    links (linkedStore s req now pAttr target) i = links s i + if req.ino = i then 1 else 0 := by
  rw [links, tally_linkedStore hfree]
  simp [links, attrAt_inode ht]

theorem subdirs_linkedStore (ht : attrAt s req.ino = some target) (htd : target.isDir = false)
    (hfree : entryAt s req.newParentIno req.newName = none) (p : Ino) :
    subdirs (linkedStore s req now pAttr target) p = subdirs s p := by
  rw [subdirs, tally_linkedStore hfree,
    ← subdirs_eq_tally (fun q n e _ => isDirAt_linkedStore hp ht e.ino) p]
  simp [isDirAt_linkedStore hp ht, attrAt_inode ht, isDirAt_of_attrAt ht, htd]

theorem exists_attrAt_of_linkedStore (ht : attrAt s req.ino = some target)
    (ha : attrAt (linkedStore s req now pAttr target) i = some a) :
    ∃ b, attrAt s i = some b ∧ b.mode = a.mode := by
  have hm : (attrAt (linkedStore s req now pAttr target) i).map mode = _ :=
    mode_linkedStore hp ht i
  rw [ha] at hm
  exact map_eq_some_iff.mp hm.symm

end

section

variable (h : Sound s used) (hp : attrAt s req.newParentIno = some pAttr)
  (hd : pAttr.isDir = true) (ht : attrAt s req.ino = some target) (htd : target.isDir = false)
  (hfree : entryAt s req.newParentIno req.newName = none)
  (hwrap : target.nlink.toNat + 1 < 2 ^ 32)
include h hp hd ht htd hfree hwrap

theorem Sound.consistent_linked :
    Consistent (linkedStore s req now pAttr target) := by
  refine ⟨?_, ?_, ?_, ?_⟩
  · intro p n e he
    rw [entryAt_linkedStore] at he
    rw [attrAt_linkedStore hp ht]
    split_ifs at he with hk
    · cases he
      exact ⟨_, if_pos (attrAt_inode ht)⟩
    obtain ⟨a, ha⟩ := h.entry_attr he
    split_ifs
    exacts [⟨_, rfl⟩, ⟨_, rfl⟩, ⟨a, ha⟩]
  · intro i a ha had
    rw [attrAt_linkedStore hp ht] at ha
    rw [links_linkedStore hfree ht]
    split_ifs at ha with hi hip
    · subst hi
      cases ha
      have hn := h.file_nlink ht htd
      rw [if_pos rfl, ← hn, setCtime_nlink, setNlink_nlink, toNat_add_one hwrap]
    · cases ha
      rw [touch_isDir, hd] at had
      cases had
    · rw [h.file_nlink ha had, if_neg (Ne.symm hi), add_zero]
  · intro i a ha had
    rw [attrAt_linkedStore hp ht] at ha
    rw [subdirs_linkedStore hp ht htd hfree]
    split_ifs at ha with hi hip
    · cases ha
      rw [setCtime_isDir, setNlink_isDir, htd] at had
      cases had
    · subst hip
      cases ha
      rw [touch_nlink, h.dir_nlink hp hd]
    · exact h.dir_nlink ha had
  · intro i a ha hr
    obtain ⟨b, hb, -⟩ := exists_attrAt_of_linkedStore hp ht ha
    have := h.attr_entry hb hr
    rw [links_linkedStore hfree ht]
    omega

theorem Sound.linked :
    Sound (linkedStore s req now pAttr target) used := by
  refine h.of_modes (h.consistent_linked hp hd ht htd hfree hwrap)
    (exists_attrAt_of_linkedStore hp ht) (isDirAt_linkedStore hp ht) fun {p n e} he => ?_
  rw [entryAt_linkedStore] at he
  split_ifs at he with hk
  · cases he
    refine ⟨by rw [hk.1, isDirAt_of_attrAt hp, hd], fun {b} hb => ?_⟩
    rw [attrAt_inode ht, ht] at hb
    cases hb
    rfl
  · exact ⟨h.parent_dir he, h.entry_mode he⟩

end

end Linked

section Deleted

variable {s : Store} {used : Finset Ino} {req : DeleteInodeReq} {now now' : Time}
  {pAttr attr : Attr} {entry : Entry}

theorem attrAt_deletedStore (hp : attrAt s req.parentIno = some pAttr)
    (ha : attrAt s entry.ino = some attr) (i : Ino) :
    attrAt (deletedStore s req now now' pAttr attr) i =
      if i = req.parentIno then some (pAttr.touch now).bumpEpoch
      else if i = entry.ino then
        if 1 < attr.nlink then some ((attr.setNlink (attr.nlink - 1)).setCtime now') else none
      else attrAt s i := by
  rw [deletedStore, unlinked]
  split_ifs <;> simp_all [attrAt_inode hp, attrAt_inode ha]

theorem entryAt_deletedStore (p : Ino) (n : String) :
    entryAt (deletedStore s req now now' pAttr attr) p n =
      if p = req.parentIno ∧ n = req.name then none else entryAt s p n := by
  rw [deletedStore, unlinked]
  split_ifs <;> simp_all

section

variable (he : entryAt s req.parentIno req.name = some entry)
include he

theorem tally_deletedStore (now now' : Time) (pAttr attr : Attr) (q : Entry → Bool) :
    tally s q = tally (deletedStore s req now now' pAttr attr) q + if q entry then 1 else 0 := by
  rw [tally_of_entryAt he, deletedStore, tally_putAttr, unlinked]
  split_ifs <;> simp

theorem links_deletedStore (now now' : Time) (pAttr attr : Attr) (i : Ino) :
    links s i =
      links (deletedStore s req now now' pAttr attr) i + if entry.ino = i then 1 else 0 := by
  rw [links, tally_deletedStore he now now' pAttr attr]
  simp [links]

omit he in
theorem isDirAt_deletedStore (hp : attrAt s req.parentIno = some pAttr)
    (ha : attrAt s entry.ino = some attr) (hd : attr.isDir = false) (i : Ino) :
    isDirAt (deletedStore s req now now' pAttr attr) i = isDirAt s i := by
  rw [isDirAt, attrAt_deletedStore hp ha]
  split_ifs with hip hi hn
  · simp [hip, isDirAt, hp]
  · simp [hi, isDirAt, ha, hd]
  · simp [hi, isDirAt, ha, hd]
  · rfl

theorem subdirs_deletedStore (hp : attrAt s req.parentIno = some pAttr)
    (ha : attrAt s entry.ino = some attr) (hd : attr.isDir = false) (p : Ino) :
    subdirs (deletedStore s req now now' pAttr attr) p = subdirs s p := by
  have hq := tally_deletedStore he now now' pAttr attr
    (fun e => e.parentIno == p && isDirAt s e.ino)
  rw [isDirAt_of_attrAt ha, hd] at hq
  simp only [Bool.and_false, Bool.false_eq_true, if_false, add_zero] at hq
  rw [subdirs, subdirs, hq]
  exact tally_congr fun q n e _ => by rw [isDirAt_deletedStore hp ha hd]

end

theorem exists_attrAt_of_deletedStore (hp : attrAt s req.parentIno = some pAttr)
    (ha : attrAt s entry.ino = some attr)
    (hia : attrAt (deletedStore s req now now' pAttr attr) i = some a) :
    ∃ b, attrAt s i = some b ∧ b.mode = a.mode := by
  rw [attrAt_deletedStore hp ha] at hia
  split_ifs at hia with hip hi hn
  · cases hia
    exact ⟨pAttr, hip ▸ hp, rfl⟩
  · cases hia
    exact ⟨attr, hi ▸ ha, rfl⟩
  · exact ⟨a, hia, rfl⟩

section

variable (h : Sound s used) (he : entryAt s req.parentIno req.name = some entry)
  (hp : attrAt s req.parentIno = some pAttr) (ha : attrAt s entry.ino = some attr)
include h he hp ha

theorem Sound.consistent_deleted (hd : attr.isDir = false) :
    Consistent (deletedStore s req now now' pAttr attr) := by
  have hpd : pAttr.isDir = true := by
    rw [← isDirAt_of_attrAt hp, h.parent_dir he]
  have hne : req.parentIno ≠ entry.ino := by
    intro hc
    rw [hc, ha] at hp
    cases hp
    rw [hd] at hpd
    cases hpd
  have hlink := links_deletedStore he now now' pAttr attr
  have hn := h.file_nlink ha hd
  refine ⟨?_, ?_, ?_, ?_⟩
  · intro p n e hpe
    have hpos : 0 < links (deletedStore s req now now' pAttr attr) e.ino :=
      links_pos.mpr ⟨p, n, e, hpe, rfl⟩
    rw [entryAt_deletedStore] at hpe
    split_ifs at hpe with hk
    obtain ⟨a, hea⟩ := h.entry_attr hpe
    rw [attrAt_deletedStore hp ha]
    split_ifs with hip hi hlt
    · exact ⟨_, rfl⟩
    · exact ⟨_, rfl⟩
    · -- the last name is gone, so no entry is left that could point here
      have := hlink entry.ino
      rw [if_pos rfl, ← hn, ← hi] at this
      rw [one_lt_iff_toNat] at hlt
      omega
    · exact ⟨a, hea⟩
  · intro i a hia had
    have hl := hlink i
    rw [attrAt_deletedStore hp ha] at hia
    split_ifs at hia with hip hi hlt
    · cases hia
      rw [bumpEpoch_isDir, touch_isDir, hpd] at had
      cases had
    · cases hia
      subst hi
      rw [if_pos rfl, ← hn] at hl
      have hsub := toNat_sub_one (one_lt_iff_toNat.mp hlt).le
      rw [setCtime_nlink, setNlink_nlink]
      omega
    · rw [if_neg (Ne.symm hi)] at hl
      rw [h.file_nlink hia had, hl, add_zero]
  · intro i a hia had
    rw [attrAt_deletedStore hp ha] at hia
    rw [subdirs_deletedStore he hp ha hd]
    split_ifs at hia with hip hi hlt
    · cases hia
      subst hip
      rw [bumpEpoch_nlink, touch_nlink, h.dir_nlink hp hpd]
    · cases hia
      rw [setCtime_isDir, setNlink_isDir, hd] at had
      cases had
    · exact h.dir_nlink hia had
  · intro i a hia hr
    have hl := hlink i
    obtain ⟨b, hb, -⟩ := exists_attrAt_of_deletedStore hp ha hia
    have hpos := h.attr_entry hb hr
    by_cases hi : entry.ino = i
    · subst hi
      rw [attrAt_deletedStore hp ha, if_neg (Ne.symm hne), if_pos rfl] at hia
      split_ifs at hia with hlt
      rw [if_pos rfl, ← hn] at hl
      rw [one_lt_iff_toNat] at hlt
      omega
    · rw [if_neg hi] at hl
      omega

theorem Sound.deleted (hed : entry.isDir = false) :
    Sound (deletedStore s req now now' pAttr attr) used := by
  have hd : attr.isDir = false := by
    rw [← isDirAt_of_attrAt ha, h.entry_isDir he, hed]
  refine h.of_modes (h.consistent_deleted he hp ha hd) (exists_attrAt_of_deletedStore hp ha)
    (isDirAt_deletedStore hp ha hd) fun {p n e} hpe => ?_
  rw [entryAt_deletedStore] at hpe
  split_ifs at hpe with hk
  exact ⟨h.parent_dir hpe, h.entry_mode hpe⟩

end

end Deleted

variable {s : Store} {st : NsState}

/-! ### Runs -/

inductive NsCall
  | createInode (req : CreateInodeReq) (ino : Ino) (now : Time)
  | link (req : LinkReq) (now : Time)
  | deleteInode (req : DeleteInodeReq) (now now' : Time)

def NsCall.run : NsCall → Store → Store
  | .createInode req ino now, s => ((Meta.createInode req ino now).run s).2
  | .link req now, s => ((Meta.link req now).run s).2
  | .deleteInode req now now', s => ((Meta.deleteInode req now now').run s).2

structure NsState where
  store : Store
  used : Finset Ino

def NsCall.Admissible (used : Finset Ino) : NsCall → Prop
  | .createInode req ino _ =>
    req.attr.isSome = true ∧ '/' ∉ req.itemName.toList ∧ 1 < ino ∧ ino ∉ used
  | .link req _ => '/' ∉ req.newName.toList
  | .deleteInode req _ _ => '/' ∉ req.name.toList

def nlinkBelowMax (s : Store) (i : Ino) : Bool :=
  (attrAt s i).all fun a => a.nlink.toNat + 1 < 2 ^ 32

def NsCall.NoWrap (s : Store) : NsCall → Prop
  | .createInode req _ _ =>
    (req.attr.any fun m => (toAttr m).isDir) = true → nlinkBelowMax s req.parentIno = true
  | .link req _ => nlinkBelowMax s req.ino = true
  | .deleteInode _ _ _ => True

theorem nlinkBelowMax_iff (ha : attrAt s i = some a) :
    nlinkBelowMax s i = true ↔ a.nlink.toNat + 1 < 2 ^ 32 := by
  simp [nlinkBelowMax, ha]

def NsCall.next (c : NsCall) (st : NsState) : NsState where
  store := c.run st.store
  used := match c with
    | .createInode _ ino _ => insert ino st.used
    | .link _ _ | .deleteInode _ _ _ => st.used

def NsReach (ok : Store → NsCall → Prop) (now : Time) (uid gid : UInt32) : NsState → Prop :=
  Reach NsCall.next (fun st c => c.Admissible st.used ∧ ok st.store c)
    ⟨initStore now uid gid, ∅⟩

instance (used : Finset Ino) (c : NsCall) : Decidable (c.Admissible used) := by
  cases c <;> dsimp only [NsCall.Admissible] <;> infer_instance

instance (s : Store) (c : NsCall) : Decidable (c.NoWrap s) := by
  cases c <;> dsimp only [NsCall.NoWrap] <;> infer_instance

theorem Sound.next (h : Sound st.store st.used) {c : NsCall}
    (hadm : c.Admissible st.used) (hok : c.NoWrap st.store) :
    Sound (c.next st).store (c.next st).used := by
  cases c with
  | createInode req ino now =>
    obtain ⟨-, hslash, h1, hu⟩ := hadm
    rcases createInode_cases req ino now st.store with ⟨e, hr⟩ | ⟨r, s', hx, hr⟩
    · simp only [NsCall.next, NsCall.run, hr]
      exact h.mono (subset_insert _ _)
    obtain ⟨pAttr, m, hp, hd, -, hm, -, hz, -, rfl⟩ := createInodeTxn_ok.mp hx
    rw [trimSuffix_of_notMem hslash] at hz
    simp only [NsCall.next, NsCall.run, hr]
    exact h.created hp hd (h.entryAt_none hz) h1 hu fun hmd =>
      (nlinkBelowMax_iff hp).mp (hok (by simp [hm, hmd]))
  | link req now =>
    rcases link_cases req now st.store with ⟨e, hr⟩ | ⟨pAttr, r, s', hp, hd, hx, hr⟩
    · simpa only [NsCall.next, NsCall.run, hr] using h
    obtain ⟨target, ht, htd, -, hz, -, rfl⟩ := linkTxn_ok.mp hx
    rw [trimSuffix_of_notMem hadm] at hz
    simp only [NsCall.next, NsCall.run, hr]
    exact h.linked hp hd ht htd (h.entryAt_none hz)
      ((nlinkBelowMax_iff ht).mp hok)
  | deleteInode req now now' =>
    rcases deleteInode_cases req now now' st.store with ⟨r, hr⟩ | ⟨entry, s', he, hed, hx, hr⟩
    · simpa only [NsCall.next, NsCall.run, hr] using h
    obtain ⟨pAttr, attr, hp, -, ha, rfl⟩ := deleteInodeTxn_ok.mp hx
    rw [(entryAt_key he).1] at hp
    rw [trimSuffix_of_notMem hadm] at he
    simp only [NsCall.next, NsCall.run, hr]
    exact h.deleted he hp ha hed

open NsCall

theorem NsReach.sound {now : Time} {uid gid : UInt32}
    (h : NsReach NoWrap now uid gid st) : Sound st.store st.used :=
  Reach.invariant (I := fun st => Sound st.store st.used)
    (fun _ _ hs hok => hs.next hok.1 hok.2) h (sound_initStore now uid gid)

/-- In every run of `CreateInode`, `Link` and `DeleteInode` that raises no link
count beyond a 32-bit word, every state reached has the four properties. A file
has at least one link, and it does not matter whether a child directory is read
off its entry or off its attributes. -/
theorem create_link_delete_consistent {now : Time} {uid gid : UInt32} {st : NsState}
    (h : NsReach NsCall.NoWrap now uid gid st) :
    Consistent st.store ∧
      (∀ i a, attrAt st.store i = some a → a.isDir = false → 1 ≤ a.nlink.toNat) ∧
      ∀ p, subdirs st.store p = tally st.store fun e => e.parentIno == p && e.isDir := by
  have hs := h.sound
  refine ⟨hs.toConsistent, ?_, hs.subdirs_eq_dirEntries⟩
  intro i a ha hd
  rw [hs.file_nlink ha hd]
  apply hs.attr_entry ha
  rintro rfl
  rw [← isDirAt_of_attrAt ha, hs.root_dir] at hd
  cases hd

def sampleCalls : List NsCall :=
  [.createInode ⟨1, "d", some (.ofMode (modeDir ||| 0o755))⟩ 2 ⟨1, 0⟩,
    .createInode ⟨2, "f", some (.ofMode 0o644)⟩ 3 ⟨2, 0⟩,
    .link ⟨3, 1, "g"⟩ ⟨3, 0⟩,
    .deleteInode ⟨2, "f"⟩ ⟨4, 0⟩ ⟨4, 1⟩]

def sampleState : NsState :=
  exec NsCall.next sampleCalls ⟨initStore ⟨0, 0⟩ 0 0, ∅⟩

theorem create_link_delete_consistent_sample :
    NsReach NsCall.NoWrap ⟨0, 0⟩ 0 0 sampleState ∧ Consistent sampleState.store := by
  have h : NsReach NsCall.NoWrap ⟨0, 0⟩ 0 0 sampleState :=
    reach_exec (by decide)
  exact ⟨h, (create_link_delete_consistent h).1⟩

/-! ### A count that wraps -/

def linkName (k : ℕ) : String := String.ofList (List.replicate (k + 1) 'a')

theorem linkName_injective : Function.Injective linkName := by
  intro j k h
  have := congrArg (fun n => n.toList.length) h
  simpa [linkName] using this

theorem slash_notMem_linkName (k : ℕ) : '/' ∉ (linkName k).toList := by
  simp [linkName]

structure ManyNames (k : ℕ) (st : NsState) : Prop where
  reach : NsReach (fun _ _ => True) ⟨0, 0⟩ 0 0 st
  root : ∃ a, attrAt st.store 1 = some a ∧ a.isDir = true ∧ a.flags &&& flagImmutable = 0
  file : ∃ a, attrAt st.store 2 = some a ∧ a.isDir = false ∧ a.nlink.toNat = (k + 1) % 2 ^ 32
  names : links st.store 2 = k + 1
  free : ∀ j, k ≤ j → entryAt st.store 1 (linkName j) = none

def fileState : NsState :=
  NsCall.next (.createInode ⟨1, "f", some (.ofMode 0o644)⟩ 2 ⟨0, 0⟩) ⟨initStore ⟨0, 0⟩ 0 0, ∅⟩

theorem manyNames_zero : ManyNames 0 fileState := by
  refine ⟨(Reach.refl _).step ⟨by decide, trivial⟩, ?_, ?_, by decide, ?_⟩
  · exact ⟨((attrAt fileState.store 1).get (by decide)), by simp, by decide, by decide⟩
  · exact ⟨((attrAt fileState.store 2).get (by decide)), by simp, by decide, by decide⟩
  · intro j _
    have hf : "f" ≠ linkName j := by
      intro h
      have : 'f' ∈ (linkName j).toList := h ▸ (by decide)
      simp [linkName] at this
    have hs : fileState.store = createdStore (initStore ⟨0, 0⟩ 0 0)
        ⟨1, "f", some (.ofMode 0o644)⟩ (.ofMode 0o644) 2 ⟨0, 0⟩ (rootAttr ⟨0, 0⟩ 0 0) := by
      decide
    rw [hs, entryAt_createdStore, if_neg (fun hc => hf hc.2.symm), initStore, entryAt_putAttr,
      entryAt_empty]

theorem ManyNames.succ {k : ℕ} (h : ManyNames k st) :
    ManyNames (k + 1) (next (.link ⟨2, 1, linkName k⟩ ⟨0, 0⟩) st) := by
  obtain ⟨pAttr, hp, hd, hf⟩ := h.root
  obtain ⟨target, ht, htd, hn⟩ := h.file
  have hslash := slash_notMem_linkName k
  have hfree : entryAt st.store 1 (linkName k) = none := h.free k le_rfl
  have hrun : run (.link ⟨2, 1, linkName k⟩ ⟨0, 0⟩) st.store =
      linkedStore st.store ⟨2, 1, linkName k⟩ ⟨0, 0⟩ pAttr target := by
    rw [run, link_ok hp hd hf (linkTxn_ok.mpr ⟨target, ht, htd, ?_, ?_, rfl, rfl⟩)]
    · intro h0
      have := congrArg (fun n => n.toList.length) h0
      simp [linkName] at this
    · rw [trimSuffix_of_notMem hslash, hfree]
      simp
  refine ⟨h.reach.step ⟨hslash, trivial⟩, ?_, ?_, ?_, ?_⟩ <;> rw [next, hrun]
  · refine ⟨pAttr.touch ⟨0, 0⟩, ?_, hd, hf⟩
    have hne : (1 : Ino) ≠ 2 := by decide
    rw [attrAt_linkedStore hp ht, if_neg hne, if_pos rfl]
  · refine ⟨(target.setNlink (target.nlink + 1)).setCtime ⟨0, 0⟩, ?_, htd, ?_⟩
    · rw [attrAt_linkedStore hp ht, if_pos rfl]
    · rw [setCtime_nlink, setNlink_nlink, UInt32.toNat_add, hn]
      exact mod_add_mod _ _ _
  · rw [links_linkedStore hfree ht, h.names, if_pos rfl]
  · intro j hj
    rw [entryAt_linkedStore, if_neg, h.free j (by omega)]
    rintro ⟨-, hc⟩
    have := linkName_injective hc
    omega

theorem exists_manyNames (k : ℕ) : ∃ st, ManyNames k st := by
  induction k with
  | zero => exact ⟨fileState, manyNames_zero⟩
  | succ k ih =>
    obtain ⟨st, h⟩ := ih
    exact ⟨_, h.succ⟩

/-- After one `CreateInode` and `2 ^ 32 - 1` calls of `Link` on the same file, its
link count is zero while it has `2 ^ 32` names. -/
theorem create_link_delete_wraps :
    ∃ st, NsReach (fun _ _ => True) ⟨0, 0⟩ 0 0 st ∧ links st.store 2 = 2 ^ 32 ∧
      (∃ a, attrAt st.store 2 = some a ∧ a.isDir = false ∧ a.nlink = 0) ∧
      ¬Consistent st.store := by
  obtain ⟨st, h⟩ := exists_manyNames (2 ^ 32 - 1)
  obtain ⟨a, ha, hd, hn⟩ := h.file
  have hl : links st.store 2 = 2 ^ 32 := h.names
  have h0 : a.nlink.toNat = 0 := hn
  refine ⟨st, h.reach, hl, ⟨a, ha, hd, UInt32.toNat_inj.mp h0⟩, ?_⟩
  intro hc
  have := hc.file_nlink ha hd
  rw [h0, hl] at this
  exact absurd this (by decide)

/-! ### Sample namespaces -/

def storeAfter (calls : List NsCall) : Store :=
  (exec NsCall.next calls ⟨initStore ⟨0, 0⟩ 0 0, ∅⟩).store

theorem consistent_storeAfter {calls : List NsCall}
    (h : Legal next (fun st c => c.Admissible st.used ∧ c.NoWrap st.store) calls
      ⟨initStore ⟨0, 0⟩ 0 0, ∅⟩) : Consistent (storeAfter calls) :=
  (NsReach.sound (reach_exec h)).toConsistent

def dirAndFile : List NsCall :=
  [.createInode ⟨1, "d", some (.ofMode (modeDir ||| 0o755))⟩ 2 ⟨1, 0⟩,
    .createInode ⟨1, "f", some (.ofMode 0o644)⟩ 3 ⟨2, 0⟩]

theorem not_consistent_of_file (i : Ino) (hi : (attrAt s i).isSome = true)
    (hd : ((attrAt s i).get hi).isDir = false)
    (hn : ((attrAt s i).get hi).nlink.toNat ≠ links s i) : ¬Consistent s :=
  fun h => hn (h.file_nlink (some_get hi).symm hd)

theorem not_consistent_of_dir (i : Ino) (hi : (attrAt s i).isSome = true)
    (hd : ((attrAt s i).get hi).isDir = true)
    (hn : ((attrAt s i).get hi).nlink.toNat ≠ 2 + subdirs s i) : ¬Consistent s :=
  fun h => hn (h.dir_nlink (some_get hi).symm hd)

theorem not_consistent_of_orphan (i : Ino) (hi : (attrAt s i).isSome = true)
    (hr : i ≠ rootIno) (hl : links s i = 0) : ¬Consistent s := by
  intro h
  have := h.attr_entry (some_get hi).symm hr
  omega

end HugoFS.Meta
