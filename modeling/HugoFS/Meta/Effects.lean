import HugoFS.Meta.Service

/-!
# What each call can do

For `CreateInode`, `Link` and `DeleteInode`: either the call reports an error and
leaves the store alone, or it found certain records and leaves a store that is
written here in terms of the elementary updates. Later proofs use these lemmas
and never unfold the programs.
-/

namespace HugoFS.Meta

open KV Call

/-! ### Names -/

theorem trimSuffix_of_notMem {n : String} (h : '/' ∉ n.toList) : trimSuffix n = n := by
  rw [trimSuffix, if_neg]
  intro hl
  exact h (List.mem_of_getLast? hl)

/-! ### CreateInode -/

section NewInode

variable (ino : Ino) (now : Time) (attr pAttr : Attr)

@[simp] theorem newInode_kept : (newInode ino now attr pAttr).1.inode = ino ∧
    (newInode ino now attr pAttr).1.mode = attr.mode ∧
    (newInode ino now attr pAttr).2.inode = pAttr.inode ∧
    (newInode ino now attr pAttr).2.mode = pAttr.mode := by
  unfold newInode
  dsimp only
  split_ifs <;> exact ⟨rfl, rfl, rfl, rfl⟩

@[simp] theorem newInode_isDir : (newInode ino now attr pAttr).1.isDir = attr.isDir := by
  simp [Attr.isDir]

@[simp] theorem newInode_parent_isDir : (newInode ino now attr pAttr).2.isDir = pAttr.isDir := by
  simp [Attr.isDir]

theorem newInode_parent_epoch : (newInode ino now attr pAttr).2.epoch = pAttr.epoch + 1 := by
  unfold newInode
  dsimp only
  split_ifs <;> rfl

theorem newInode_nlinks :
    (newInode ino now attr pAttr).1.nlink = (if attr.isDir then 2 else 1) ∧
      (newInode ino now attr pAttr).2.nlink =
        if attr.isDir then pAttr.nlink + 1 else pAttr.nlink := by
  have hd : ({ attr with inode := ino } : Attr).isDir = attr.isDir := rfl
  unfold newInode
  dsimp only
  rw [hd]
  split_ifs <;> exact ⟨rfl, rfl⟩

end NewInode

def requested (req : CreateInodeReq) (m : ModifyAttr) : Attr :=
  { toAttr m with parentIno := req.parentIno, name := req.itemName }

def createdStore (s : Store) (req : CreateInodeReq) (m : ModifyAttr) (ino : Ino) (now : Time)
    (pAttr : Attr) : Store :=
  let new := newInode ino now (requested req m) pAttr
  putAttr (putAttr (putEntry s
    { parentIno := req.parentIno, name := req.itemName, ino := ino,
      mode := (requested req m).mode }) new.2) new.1

variable {now : Time}

theorem createInodeTxn_ok {req : CreateInodeReq} {ino : Ino} {s s' : Store} {r : Attr} :
    (createInodeTxn req ino now).exec s = .ok (r, s') ↔
      ∃ pAttr m, attrAt s req.parentIno = some pAttr ∧ pAttr.isDir = true ∧
        pAttr.flags &&& flagImmutable = 0 ∧ req.attr = some m ∧ req.itemName ≠ "" ∧
        (∀ e, entryAt s req.parentIno (trimSuffix req.itemName) = some e → e.ino = 0) ∧
        r = (newInode ino now (requested req m) pAttr).1 ∧
        s' = createdStore s req m ino now pAttr := by
  rcases hm : req.attr with _ | m
  · simp [createInodeTxn, hm]
  by_cases hn : req.itemName = ""
  · simp [createInodeTxn, hm, hn]
  · simp [createInodeTxn, hm, hn, createdStore, requested, Option.any_eq_false]

theorem createInode_cases (req : CreateInodeReq) (ino : Ino) (now : Time) (s : Store) :
    (∃ e, (createInode req ino now).run s = (.error e, s)) ∨
      ∃ r s', (createInodeTxn req ino now).exec s = .ok (r, s') ∧
        (createInode req ino now).run s = (.ok r, s') := by
  rcases run_txn_cases (createInodeTxn req ino now) s with ⟨r, s', h, hr⟩ | h
  · exact .inr ⟨r, s', h, hr⟩
  · exact .inl h

/-! ### Link -/

def linkedStore (s : Store) (req : LinkReq) (now : Time) (pAttr target : Attr) : Store :=
  putEntry (putAttr (putAttr s (pAttr.touch now))
      ((target.setNlink (target.nlink + 1)).setCtime now))
    { parentIno := req.newParentIno, name := req.newName, ino := target.inode,
      mode := target.mode }

theorem linkTxn_ok {req : LinkReq} {pAttr : Attr} {s s' : Store} {r : Attr} :
    (linkTxn req now pAttr).exec s = .ok (r, s') ↔
      ∃ target, attrAt s req.ino = some target ∧ target.isDir = false ∧ req.newName ≠ "" ∧
        (∀ e, entryAt s req.newParentIno (trimSuffix req.newName) = some e → e.ino = 0) ∧
        r = (target.setNlink (target.nlink + 1)).setCtime now ∧
        s' = linkedStore s req now pAttr target := by
  by_cases hn : req.newName = ""
  · simp [linkTxn, hn]
  · simp [linkTxn, hn, linkedStore, Option.any_eq_false]

theorem link_cases (req : LinkReq) (now : Time) (s : Store) :
    (∃ e, (link req now).run s = (.error e, s)) ∨
      ∃ pAttr r s', attrAt s req.newParentIno = some pAttr ∧ pAttr.isDir = true ∧
        (linkTxn req now pAttr).exec s = .ok (r, s') ∧ (link req now).run s = (.ok r, s') := by
  rw [link, run_readAttr]
  rcases hp : attrAt s req.newParentIno with _ | pAttr
  · exact .inl ⟨_, rfl⟩
  dsimp only
  split_ifs with hd hf
  · exact .inl ⟨_, rfl⟩
  · exact .inl ⟨_, rfl⟩
  · rcases run_txn_cases (linkTxn req now pAttr) s with ⟨r, s', h, hr⟩ | h
    · exact .inr ⟨pAttr, r, s', rfl, by simpa using hd, h, hr⟩
    · exact .inl h

theorem link_ok {req : LinkReq} {s s' : Store} {pAttr r : Attr}
    (hp : attrAt s req.newParentIno = some pAttr) (hd : pAttr.isDir = true)
    (hf : pAttr.flags &&& flagImmutable = 0) (h : (linkTxn req now pAttr).exec s = .ok (r, s')) :
    (link req now).run s = (.ok r, s') := by
  rw [link, run_readAttr, hp]
  dsimp only
  rw [if_neg (by simp [hd]), if_neg (by simp [hf])]
  exact run_txn_ok h

/-! ### DeleteInode -/

def unlinked (s : Store) (attr : Attr) (now : Time) : Store :=
  if 1 < attr.nlink then putAttr s ((attr.setNlink (attr.nlink - 1)).setCtime now)
  else dropAttr s attr.inode

def deletedStore (s : Store) (req : DeleteInodeReq) (now now' : Time) (pAttr attr : Attr) :
    Store :=
  putAttr (unlinked (dropEntry s req.parentIno req.name) attr now')
    (pAttr.touch now).bumpEpoch

theorem deleteInodeTxn_ok {req : DeleteInodeReq} {entry : Entry} {now' : Time}
    {s s' : Store} {u : Unit} :
    (deleteInodeTxn req entry now now').exec s = .ok (u, s') ↔
      ∃ pAttr attr, attrAt s entry.parentIno = some pAttr ∧ req.name ≠ "" ∧
        attrAt s entry.ino = some attr ∧ s' = deletedStore s req now now' pAttr attr := by
  have hino : ∀ {a}, attrAt s entry.ino = some a → a.inode = entry.ino := attrAt_inode
  constructor
  · intro h
    simp only [deleteInodeTxn, Body.exec_bind_ok, exec_getAttr_ok, exec_deleteEntry_ok] at h
    obtain ⟨pAttr, _, ⟨hp, rfl⟩, _, _, ⟨hn, rfl⟩, attr, _, ⟨ha, rfl⟩, h⟩ := h
    rw [attrAt_dropEntry] at ha
    refine ⟨pAttr, attr, hp, hn, ha, ?_⟩
    rw [← hino ha] at h
    rw [deletedStore, unlinked]
    split_ifs at h ⊢ <;> simpa using h
  · rintro ⟨pAttr, attr, hp, hn, ha, rfl⟩
    simp only [deleteInodeTxn, Body.exec_bind_ok, exec_getAttr_ok, exec_deleteEntry_ok]
    refine ⟨pAttr, _, ⟨hp, rfl⟩, (), _, ⟨hn, rfl⟩, attr, _, ⟨by simpa using ha, rfl⟩, ?_⟩
    rw [deletedStore, unlinked, ← hino ha]
    split_ifs <;> simp

theorem deleteInode_cases (req : DeleteInodeReq) (now now' : Time) (s : Store) :
    (∃ r, (deleteInode req now now').run s = (r, s)) ∨
      ∃ entry s', entryAt s req.parentIno (trimSuffix req.name) = some entry ∧
        entry.isDir = false ∧ (deleteInodeTxn req entry now now').exec s = .ok ((), s') ∧
        (deleteInode req now now').run s = (.ok (), s') := by
  rw [deleteInode]
  split_ifs with h1 h2
  · exact .inl ⟨_, rfl⟩
  · exact .inl ⟨_, rfl⟩
  · rw [run_readEntry]
    split_ifs with hn
    · exact .inl ⟨_, rfl⟩
    rcases he : entryAt s req.parentIno (trimSuffix req.name) with _ | entry
    · exact .inl ⟨_, rfl⟩
    dsimp only
    split_ifs with hd
    · exact .inl ⟨_, rfl⟩
    rcases run_txn_cases (deleteInodeTxn req entry now now') s with
      ⟨_, s', h, hr⟩ | ⟨e, h⟩
    · exact .inr ⟨entry, s', rfl, by simpa using hd, h, hr⟩
    · exact .inl ⟨_, h⟩

end HugoFS.Meta
