import HugoFS.Meta.Concurrent
import HugoFS.Meta.Rename
import HugoFS.Meta.UpdateEffect

/-!
# The calls that write

All calls of the metadata service that change attributes or entries, and what each of
them leaves when it succeeds. A call that fails changes nothing.
-/

namespace HugoFS.Meta

open KV Finset

inductive MetaCall
  | op (o : MetaOp)
  | updateInodeAttr (c : Caller) (req : UpdateInodeAttrReq) (now : Time)

namespace MetaCall

def call : MetaCall → Request Reply
  | .op o => o.call
  | .updateInodeAttr c req now => (Meta.updateInodeAttr c req now).map .attr

def run (c : MetaCall) (s : Store) : Store := (c.call.run s).2

def succeeds (c : MetaCall) (s : Store) : Bool := (c.call.run s).1.isOk

def newIno : MetaCall → Option Ino
  | .op (.createInode _ ino _) => some ino
  | _ => none

def next (c : MetaCall) (st : NsState) : NsState where
  store := c.run st.store
  used := c.newIno.elim st.used fun ino => insert ino st.used

def Fresh (used : Finset Ino) (c : MetaCall) : Prop := ∀ i, c.newIno = some i → 1 < i ∧ i ∉ used

instance (used : Finset Ino) (c : MetaCall) : Decidable (c.Fresh used) :=
  Option.decidableForallMem (p := fun i => 1 < i ∧ i ∉ used) c.newIno

def Took (s s' : Store) : MetaCall → Prop
  | .op (.createInode req ino now) => ∃ pAttr m, attrAt s req.parentIno = some pAttr ∧
      pAttr.isDir = true ∧ req.itemName ≠ "" ∧
      (∀ e, entryAt s req.parentIno (trimSuffix req.itemName) = some e → e.ino = 0) ∧
      s' = createdStore s req m ino now pAttr
  | .op (.link req now) => ∃ pAttr target, attrAt s req.newParentIno = some pAttr ∧
      pAttr.isDir = true ∧ attrAt s req.ino = some target ∧ target.isDir = false ∧
      req.newName ≠ "" ∧
      (∀ e, entryAt s req.newParentIno (trimSuffix req.newName) = some e → e.ino = 0) ∧
      s' = linkedStore s req now pAttr target
  | .op (.deleteInode req now now') => (req.parentIno = 0 ∧ req.name = "/") ∧ s' = s ∨
      ¬(req.parentIno = 0 ∧ req.name = "/") ∧ ∃ entry pAttr attr, entryAt s req.parentIno (trimSuffix req.name) = some entry ∧
        entry.isDir = false ∧ attrAt s req.parentIno = some pAttr ∧
        attrAt s entry.ino = some attr ∧ s' = deletedStore s req now now' pAttr attr
  | .op (.deleteDirInode req now) => ∃ pAttr entry, attrAt s req.parentIno = some pAttr ∧
      entryAt s req.parentIno (trimSuffix req.name) = some entry ∧ entry.isFile = false ∧
      s' = deletedDirStore s entry pAttr now
  | .op (.rename c req now) => ∃ r, (Meta.rename c req now).run s = (.ok r, s')
  | .updateInodeAttr c req now => ∃ a r, attrAt s req.ino = some a ∧
      updateAttr c req now a = .ok r ∧ s' = putAttr s r

variable {c : MetaCall} {s : Store}

theorem failsClean (c : MetaCall) : c.call.FailsClean := by
  cases c with
  | op o => exact o.failsClean
  | updateInodeAttr c req now => exact (Call.failsClean_txn _).map _

theorem run_of_fails (h : c.succeeds s = false) : c.run s = s := by
  rw [succeeds] at h
  rcases hr : (c.call.run s).1 with e | r
  · exact c.failsClean s e hr
  · rw [hr] at h
    cases h

theorem run_map_of_succeeds {ρ : Type} {x : Request ρ} {f : ρ → Reply}
    (h : ((x.map f).run s).1.isOk = true) : ∃ r, x.run s = (.ok r, ((x.map f).run s).2) := by
  rw [Call.run_map] at h ⊢
  rcases hx : x.run s with ⟨e | r, s'⟩
  · rw [hx] at h
    cases h
  · exact ⟨r, rfl⟩

theorem deleteInode_took {req : DeleteInodeReq} {now now' : Time} {s' : Store}
    (h : (Meta.deleteInode req now now').run s = (.ok (), s')) :
    Took s s' (.op (.deleteInode req now now')) := by
  by_cases hroot : req.parentIno = 0 ∧ req.name = "/"
  · rw [Meta.deleteInode, if_pos hroot] at h
    cases h
    exact .inl ⟨hroot, rfl⟩
  refine .inr ⟨hroot, ?_⟩
  -- what is left are the refusals, which do not succeed, and the transaction
  rw [Meta.deleteInode, if_neg hroot] at h
  split_ifs at h
  · cases h
  rw [run_readEntry] at h
  split_ifs at h
  · cases h
  rcases he : entryAt s req.parentIno (trimSuffix req.name) with _ | entry <;> rw [he] at h
  · cases h
  dsimp only at h
  split_ifs at h with hd
  · cases h
  rcases Call.run_txn_cases (deleteInodeTxn req entry now now') s with ⟨_, t, hx, hr⟩ | ⟨e, hr⟩
  · rw [hr] at h
    cases h
    obtain ⟨pAttr, attr, hp, -, ha, rfl⟩ := deleteInodeTxn_ok.mp hx
    rw [(entryAt_key he).1] at hp
    exact ⟨entry, pAttr, attr, rfl, by simpa using hd, hp, ha, rfl⟩
  · rw [hr] at h
    cases h

theorem took (h : c.succeeds s = true) : Took s (c.run s) c := by
  rcases c with (⟨req, ino, now⟩ | ⟨req, now⟩ | ⟨req, now, now'⟩ | ⟨req, now⟩ | ⟨c, req, now⟩) |
    ⟨c, req, now⟩ <;> obtain ⟨r, hr⟩ := run_map_of_succeeds h
  · rcases createInode_cases req ino now s with ⟨e, he⟩ | ⟨r', s', hx, he⟩ <;>
      cases hr.symm.trans he
    obtain ⟨pAttr, m, hp, hd, -, -, hn, hz, -, hs⟩ := createInodeTxn_ok.mp hx
    exact ⟨pAttr, m, hp, hd, hn, hz, hs⟩
  · rcases link_cases req now s with ⟨e, he⟩ | ⟨pAttr, r', s', hp, hd, hx, he⟩ <;>
      cases hr.symm.trans he
    obtain ⟨target, ht, htd, hn, hz, -, hs⟩ := linkTxn_ok.mp hx
    exact ⟨pAttr, target, hp, hd, ht, htd, hn, hz, hs⟩
  · exact deleteInode_took hr
  · rcases deleteDirInode_cases req now s with ⟨⟨e, he⟩, -⟩ | ⟨pAttr, entry, hp, -, hen, hf, he⟩
    · cases hr.symm.trans he
    · exact ⟨pAttr, entry, hp, hen, hf, congrArg Prod.snd (hr.symm.trans he)⟩
  · exact ⟨r, hr⟩
  · obtain ⟨a, ha, hu, -⟩ := updateInodeAttr_stored hr
    exact ⟨a, r, ha, hu, ((updateInodeAttr_run ha).mp hr).2⟩

end MetaCall

/-! ### Modes and numbers -/

section Carried

variable {κ : Type} {f : UInt32 → κ} {i : Ino}

/-- An entry is new and has the mode of the attributes, or an entry with its inode and mode
was there before. Attributes are those of the new inode, or have the same `f` of the mode as
before. -/
structure ModesCarried (f : UInt32 → κ) (s s' : Store) (new : Option Ino) : Prop where
  entry : ∀ {p n e}, entryAt s' p n = some e →
    (∃ a, attrAt s' e.ino = some a ∧ a.mode = e.mode) ∨
      ∃ q m e₀, entryAt s q m = some e₀ ∧ e₀.ino = e.ino ∧ e₀.mode = e.mode
  attr : ∀ {i a}, attrAt s' i = some a →
    new = some i ∨ ∃ a₀, attrAt s i = some a₀ ∧ f a₀.mode = f a.mode

namespace ModesCarried

variable {s s' : Store} {new : Option Ino}

theorem refl (s : Store) (new : Option Ino) : ModesCarried f s s new where
  entry he := .inr ⟨_, _, _, he, rfl, rfl⟩
  attr ha := .inr ⟨_, ha, rfl⟩

theorem of_entries (hent : ∀ p n e, entryAt s' p n = some e → entryAt s p n = some e)
    (hattr : ∀ i a, attrAt s' i = some a → ∃ a₀, attrAt s i = some a₀ ∧ f a₀.mode = f a.mode) :
    ModesCarried f s s' new where
  entry he := .inr ⟨_, _, _, hent _ _ _ he, rfl, rfl⟩
  attr ha := .inr (hattr _ _ ha)

end ModesCarried

structure InosNumbered (s : Store) (used : Finset Ino) : Prop where
  attr : ∀ {i a}, attrAt s i = some a → i = rootIno ∨ i ∈ used
  entry : ∀ {p n e}, entryAt s p n = some e → e.ino = rootIno ∨ e.ino ∈ used
  above : ∀ i ∈ used, 1 < i

namespace InosNumbered

variable {s s' : Store} {used : Finset Ino} {new : Option Ino}

theorem not_fresh (hfresh : ∀ i, new = some i → 1 < i ∧ i ∉ used)
    (hi : i = rootIno ∨ i ∈ used) : new ≠ some i := by
  intro hnew
  obtain ⟨h1, hu⟩ := hfresh i hnew
  rcases hi with rfl | hm
  · exact absurd h1 (by decide)
  · exact hu hm

theorem carried (hn : InosNumbered s used) (h : ModesCarried f s s' new)
    (hfresh : ∀ i, new = some i → 1 < i ∧ i ∉ used) :
    InosNumbered s' (new.elim used fun ino => insert ino used) := by
  have hused : ∀ {i}, i ∈ used → i ∈ new.elim used fun ino => insert ino used := by
    intro i hi
    cases new with
    | none => exact hi
    | some ino => exact mem_insert_of_mem hi
  have hattr : ∀ {i a}, attrAt s' i = some a →
      i = rootIno ∨ i ∈ new.elim used fun ino => insert ino used := by
    intro i a ha
    rcases h.attr ha with rfl | ⟨a₀, ha₀, -⟩
    · exact .inr (mem_insert_self _ _)
    · exact (hn.attr ha₀).imp_right hused
  refine ⟨hattr, fun he => ?_, fun i hi => ?_⟩
  · rcases h.entry he with ⟨a, ha, -⟩ | ⟨q, m, e₀, he₀, hi, -⟩
    · exact hattr ha
    · exact hi ▸ (hn.entry he₀).imp_right hused
  · cases new with
    | none => exact hn.above i hi
    | some ino =>
      rcases mem_insert.mp hi with rfl | hi
      · exact (hfresh i rfl).1
      · exact hn.above i hi

end InosNumbered

variable {s s' s : Store} {req : RenameReq} {now : Time} {pAttr : Attr}

theorem inosNumbered_initStore (now : Time) (uid gid : UInt32) :
    InosNumbered (initStore now uid gid) ∅ where
  attr {i a} ha := by
    rw [initStore, attrAt_putAttr] at ha
    split_ifs at ha with hi
    · exact .inl hi
    · cases ha
  entry {p n e} he := by
    rw [initStore, entryAt_putAttr, entryAt_empty] at he
    cases he
  above i hi := by cases hi

theorem modesCarried_created {req : CreateInodeReq} {m : ModifyAttr} {ino : Ino}
    (hp : attrAt s req.parentIno = some pAttr) :
    ModesCarried f s (createdStore s req m ino now pAttr) (some ino) where
  entry {p n e} he := by
    rw [entryAt_createdStore] at he
    split_ifs at he
    · cases he
      exact .inl ⟨_, by rw [attrAt_createdStore hp, if_pos rfl], (newInode_kept ..).2.1⟩
    · exact .inr ⟨p, n, e, he, rfl, rfl⟩
  attr {i a} ha := by
    rw [attrAt_createdStore hp] at ha
    split_ifs at ha with hi hpi
    · exact .inl (congrArg some hi.symm)
    · cases ha
      exact .inr ⟨pAttr, hpi ▸ hp, by rw [(newInode_kept ..).2.2.2]⟩
    · exact .inr ⟨a, ha, rfl⟩

theorem modesCarried_linked {req : LinkReq} {target : Attr}
    (hp : attrAt s req.newParentIno = some pAttr) (ht : attrAt s req.ino = some target) :
    ModesCarried f s (linkedStore s req now pAttr target) none where
  entry {p n e} he := by
    rw [entryAt_linkedStore] at he
    split_ifs at he
    · cases he
      refine .inl ⟨(target.setNlink (target.nlink + 1)).setCtime now, ?_, rfl⟩
      rw [attrAt_linkedStore hp ht, if_pos (attrAt_inode ht)]
    · exact .inr ⟨p, n, e, he, rfl, rfl⟩
  attr {i a} ha := by
    rw [attrAt_linkedStore hp ht] at ha
    split_ifs at ha with hi hpi
    · cases ha
      exact .inr ⟨target, hi ▸ ht, rfl⟩
    · cases ha
      exact .inr ⟨pAttr, hpi ▸ hp, rfl⟩
    · exact .inr ⟨a, ha, rfl⟩

theorem modesCarried_deleted {req : DeleteInodeReq} {now now' : Time} {entry : Entry} {attr : Attr}
    (hp : attrAt s req.parentIno = some pAttr) (ha : attrAt s entry.ino = some attr) :
    ModesCarried f s (deletedStore s req now now' pAttr attr) none := by
  refine .of_entries (fun p n e he => ?_) fun i a hi => ?_
  · rw [entryAt_deletedStore] at he
    split_ifs at he
    exact he
  · rw [attrAt_deletedStore hp ha] at hi
    split_ifs at hi with hpi hei
    · cases hi
      exact ⟨pAttr, hpi ▸ hp, rfl⟩
    · cases hi
      exact ⟨attr, hei ▸ ha, rfl⟩
    · exact ⟨a, hi, rfl⟩

theorem modesCarried_deletedDir {p : Ino} {entry : Entry}
    (hp : attrAt s p = some pAttr) : ModesCarried f s (deletedDirStore s entry pAttr now) none := by
  refine .of_entries (fun q n e he => ?_) fun i a hi => ?_
  · rw [entryAt_deletedDirStore] at he
    split_ifs at he
    exact he
  · rw [attrAt_deletedDirStore hp] at hi
    split_ifs at hi with hpi
    · cases hi
      exact ⟨pAttr, hpi ▸ hp, rfl⟩
    · exact ⟨a, hi, rfl⟩

theorem mode_of_stat {a : Attr} (ha : attrAt s' i = some a)
    (h : ∀ m n, stat s' i = some (m, n) → ∃ n', stat s i = some (m, n')) :
    ∃ a₀, attrAt s i = some a₀ ∧ f a₀.mode = f a.mode := by
  obtain ⟨n', hst⟩ := h _ _ (stat_of_attrAt ha)
  obtain ⟨a₀, ha₀, heq⟩ := stat_eq_some.mp hst
  have hmode : a₀.mode = a.mode := congrArg Prod.fst heq
  exact ⟨a₀, ha₀, by rw [hmode]⟩

theorem RenameShifts.stat_mode {se : Entry} {spa dpa sa : Attr}
    {da : Option Attr} (h : RenameShifts s s' req se spa dpa sa da) {m n : UInt32}
    (hst : stat s' i = some (m, n)) : ∃ n', stat s i = some (m, n') := by
  rw [h.stats] at hst
  split_ifs at hst with hd hs hp
  · cases hst
    exact ⟨dpa.nlink, hd ▸ stat_of_attrAt h.dstParent⟩
  · cases hst
    exact ⟨sa.nlink, hs ▸ stat_of_attrAt h.srcAttr⟩
  · cases hst
    exact ⟨spa.nlink, hp ▸ stat_of_attrAt h.srcParent⟩
  · rcases hde : entryAt s req.parentDstIno (trimSuffix req.newName) with _ | de
    · rw [h.no_dst hde] at hst
      exact ⟨n, hst⟩
    obtain ⟨a, rfl, ha, -⟩ := h.dst de hde
    rw [leftStat, replacedStat] at hst
    split_ifs at hst with hi
    · cases hst
      exact ⟨a.nlink, by rw [hi, attrAt_inode ha, stat_of_attrAt ha]⟩
    · cases hst
      exact ⟨a.nlink, by rw [hi, attrAt_inode ha, stat_of_attrAt ha]⟩
    · exact ⟨n, hst⟩

theorem RenameShifts.modesCarried {se : Entry}
    {spa dpa sa : Attr} {da : Option Attr} (h : RenameShifts s s' req se spa dpa sa da) :
    ModesCarried f s s' none where
  entry {p n e} he := by
    rw [h.entries, movedEntries, entryAt_putEntry, entryAt_dropEntry, entryAt_dropEntry] at he
    split_ifs at he
    · cases he
      exact .inr ⟨_, _, se, h.src, rfl, rfl⟩
    · exact .inr ⟨p, n, e, he, rfl, rfl⟩
  attr ha := .inr (mode_of_stat ha fun _ _ => h.stat_mode)

theorem RenameExchanges.modesCarried {se de : Entry}
    {spa dpa sa da : Attr} (h : RenameExchanges s s' req se de spa dpa sa da) :
    ModesCarried f s s' none := by
  refine .of_entries (fun p n e he => h.entries p n ▸ he) fun i a ha =>
    mode_of_stat ha fun m n hst => ?_
  rw [h.stats] at hst
  split_ifs at hst with hd hs hp
  · cases hst
    exact ⟨dpa.nlink, hd ▸ stat_of_attrAt h.dstParent⟩
  · cases hst
    exact ⟨sa.nlink, hs ▸ stat_of_attrAt h.srcAttr⟩
  · cases hst
    exact ⟨spa.nlink, hp ▸ stat_of_attrAt h.srcParent⟩
  · exact ⟨n, hst⟩

theorem modesCarried_renamed {c : Caller}
    {r : RenameResp} (h : (rename c req now).run s = (.ok r, s')) : ModesCarried f s s' none := by
  rcases rename_ok_cases h with ⟨-, ⟨se, spa, dpa, sa, hm⟩ | ⟨se, de, spa, dpa, sa, da, hm⟩⟩ |
    ⟨-, se, de, spa, dpa, sa, da, hm⟩
  · exact hm.shifts.modesCarried
  · exact hm.shifts.modesCarried
  · exact hm.modesCarried

namespace MetaCall

variable {c : MetaCall} {s : Store}

theorem modesCarried_op (o : MetaOp) : ModesCarried f s ((op o).run s) (op o).newIno := by
  cases hok : (op o).succeeds s with
  | false =>
    rw [run_of_fails hok]
    exact .refl s _
  | true =>
    have ht := took hok
    cases o with
    | createInode req ino now =>
      obtain ⟨pAttr, m, hp, -, -, -, hs⟩ := ht
      rw [hs]
      exact modesCarried_created hp
    | link req now =>
      obtain ⟨pAttr, target, hp, -, htar, -, -, -, hs⟩ := ht
      rw [hs]
      exact modesCarried_linked hp htar
    | deleteInode req now now' =>
      rcases ht with ⟨-, hs⟩ | ⟨-, entry, pAttr, attr, -, -, hp, ha, hs⟩
      · rw [hs]
        exact .refl s none
      · rw [hs]
        exact modesCarried_deleted hp ha
    | deleteDirInode req now =>
      obtain ⟨pAttr, entry, hp, -, -, hs⟩ := ht
      rw [hs]
      exact modesCarried_deletedDir hp
    | rename c req now =>
      obtain ⟨r, hr⟩ := ht
      exact modesCarried_renamed hr

theorem modesCarried_update {cl : Caller} {req : UpdateInodeAttrReq} {now : Time}
    (hmode : (updateInodeAttr cl req now).succeeds s = true → ∀ a r, attrAt s req.ino = some a →
      updateAttr cl req now a = .ok r → f r.mode = f a.mode) :
    ModesCarried f s ((updateInodeAttr cl req now).run s) none := by
  cases hok : (updateInodeAttr cl req now).succeeds s with
  | false =>
    rw [run_of_fails hok]
    exact .refl s _
  | true =>
    obtain ⟨a, r, ha, hr, hs⟩ := took hok
    have hi : r.inode = req.ino := (updateAttr_inode hr).trans (attrAt_inode ha)
    rw [hs]
    refine .of_entries (fun p n e he => by rwa [entryAt_putAttr] at he) fun i b hb => ?_
    rw [attrAt_putAttr] at hb
    split_ifs at hb with heq
    · cases hb
      exact ⟨a, by rw [heq, hi, ha], (hmode hok a r ha hr).symm⟩
    · exact ⟨b, hb, rfl⟩

theorem numbered {st : NsState} (hn : InosNumbered st.store st.used) (hfresh : c.Fresh st.used) :
    InosNumbered (c.next st).store (c.next st).used := by
  have hc : ModesCarried (fun _ => ()) st.store (c.run st.store) c.newIno := by
    rcases c with o | ⟨cl, req, now⟩
    · exact modesCarried_op o
    · exact modesCarried_update fun _ _ _ _ _ => rfl
  exact hn.carried hc hfresh

end MetaCall

end Carried

end HugoFS.Meta
