import HugoFS.Meta.Effects
import HugoFS.Meta.Permissions
import HugoFS.Vfs.Attr

/-!
# Unix modes and Go modes

`Create` and `chmod` translate the unix mode with `ToFileMode`, which moves the special bits
`0o7000` to places of their own; `Mkdir` only adds the directory bit. The service tests the unix
places, and what is reported to the kernel is translated back from the Go places.
-/

namespace HugoFS.Vfs

open Meta Masks

/-! ### Translations -/

def sIFMT : UInt32 := 0o170000
def sIFSOCK : UInt32 := 0o140000
def sIFLNK : UInt32 := 0o120000
def sIFREG : UInt32 := 0o100000
def sIFBLK : UInt32 := 0o060000
def sIFDIR : UInt32 := 0o040000
def sIFCHR : UInt32 := 0o020000
def sIFIFO : UInt32 := 0o010000
def sISUID : UInt32 := 0o4000
def sISGID : UInt32 := 0o2000
def sISVTX : UInt32 := 0o1000

def fileType (t : UInt32) : UInt32 :=
  if t = sIFREG then 0
  else if t = sIFDIR then modeDir
  else if t = sIFCHR then modeCharDevice ||| modeDevice
  else if t = sIFBLK then modeDevice
  else if t = sIFIFO then modeNamedPipe
  else if t = sIFLNK then modeSymlink
  else if t = sIFSOCK then modeSocket
  else modeIrregular

def moveBit (src dst x : UInt32) : UInt32 := if x &&& src != 0 then dst else 0

def toFileMode (unixMode : UInt32) : UInt32 :=
  unixMode &&& 0o777 ||| fileType (unixMode &&& sIFMT) ||| moveBit sISUID modeSetuid unixMode |||
    moveBit sISGID modeSetgid unixMode ||| moveBit sISVTX modeSticky unixMode

def syscallType (mode : UInt32) : UInt32 :=
  if mode &&& modeDir != 0 then sIFDIR
  else if mode &&& modeDevice != 0 then
    if mode &&& modeCharDevice != 0 then sIFCHR else sIFBLK
  else if mode &&& modeNamedPipe != 0 then sIFIFO
  else if mode &&& modeSymlink != 0 then sIFLNK
  else if mode &&& modeSocket != 0 then sIFSOCK
  else sIFREG

def toSyscallMode (mode : UInt32) : UInt32 :=
  mode &&& 0o777 ||| syscallType mode ||| moveBit modeSetuid sISUID mode |||
    moveBit modeSetgid sISGID mode ||| moveBit modeSticky sISVTX mode

section Bits

variable {m x src dst k : UInt32}

theorem fileType_and (t : UInt32) :
    fileType t &&& (0o7777 ||| modeSetuid ||| modeSetgid ||| modeSticky) = 0 := by
  rw [fileType]
  split_ifs <;> decide

theorem syscallType_and (m : UInt32) : syscallType m &&& 0o7777 = 0 := by
  rw [syscallType]
  split_ifs <;> decide

theorem moveBit_and_of_zero (h : dst &&& k = 0) : moveBit src dst x &&& k = 0 := by
  rw [moveBit]
  split
  · exact h
  · exact UInt32.zero_and

theorem moveBit_and_of_self (h : dst &&& k = dst) : moveBit src dst x &&& k = moveBit src dst x := by
  rw [moveBit]
  split
  · exact h
  · exact UInt32.zero_and

theorem moveBit_moveBit {i : ℕ} (hs : src.toNat = 2 ^ i) (hd : dst ≠ 0) :
    moveBit dst src (moveBit src dst x) = x &&& src := by
  rcases and_bit hs x with h | h
  · simp [moveBit, h]
  have hne : src ≠ 0 := by
    rintro rfl
    exact (Nat.two_pow_pos i).ne hs
  simp [moveBit, h, hne, hd]

theorem toFileMode_and_low (m : UInt32) : toFileMode m &&& 0o7777 = m &&& 0o777 := by
  have htype : fileType (m &&& sIFMT) &&& 0o7777 = 0 :=
    and_eq_zero_of_sub (by decide) (fileType_and _)
  simp only [toFileMode, or_and, htype, UInt32.or_zero,
    moveBit_and_of_zero (show modeSetuid &&& 0o7777 = 0 by decide),
    moveBit_and_of_zero (show modeSetgid &&& 0o7777 = 0 by decide),
    moveBit_and_of_zero (show modeSticky &&& 0o7777 = 0 by decide), UInt32.and_assoc]
  rfl

theorem toFileMode_and_of_special (hk : (0o7000 : UInt32) &&& k = k) : toFileMode m &&& k = 0 := by
  refine and_eq_zero_of_sub hk ?_
  calc toFileMode m &&& 0o7000 = toFileMode m &&& 0o7777 &&& 0o7000 :=
        (and_and (by decide) _).symm
    _ = m &&& 0o777 &&& 0o7000 := by rw [toFileMode_and_low]
    _ = m &&& 0 := and_and (by decide) m
    _ = 0 := UInt32.and_zero

theorem toSyscallMode_and (m : UInt32) : toSyscallMode m &&& 0o7777 =
    m &&& 0o777 ||| moveBit modeSetuid sISUID m ||| moveBit modeSetgid sISGID m |||
      moveBit modeSticky sISVTX m := by
  simp only [toSyscallMode, or_and, syscallType_and, UInt32.or_zero,
    moveBit_and_of_self (show sISUID &&& 0o7777 = sISUID by decide),
    moveBit_and_of_self (show sISGID &&& 0o7777 = sISGID by decide),
    moveBit_and_of_self (show sISVTX &&& 0o7777 = sISVTX by decide), UInt32.and_assoc]
  rfl

theorem moveBit_congr {y : UInt32} (h : x &&& src = y &&& src) :
    moveBit src dst x = moveBit src dst y := by
  rw [moveBit, h, moveBit]

theorem toFileMode_and_special (m : UInt32) :
    toFileMode m &&& modeSetuid = moveBit sISUID modeSetuid m ∧
      toFileMode m &&& modeSetgid = moveBit sISGID modeSetgid m ∧
      toFileMode m &&& modeSticky = moveBit sISVTX modeSticky m := by
  have hzero : ∀ {k : UInt32}, (0o777 : UInt32) &&& k = 0 → m &&& 0o777 &&& k = 0 := by
    intro k hk
    rw [and_and hk, UInt32.and_zero]
  have htype : ∀ {k : UInt32},
      (0o7777 ||| modeSetuid ||| modeSetgid ||| modeSticky) &&& k = k →
        fileType (m &&& sIFMT) &&& k = 0 :=
    fun hk => and_eq_zero_of_sub hk (fileType_and _)
  refine ⟨?_, ?_, ?_⟩
  · simp only [toFileMode, or_and, hzero (show 0o777 &&& modeSetuid = 0 by decide),
      htype (show _ &&& modeSetuid = _ by decide),
      moveBit_and_of_self (show modeSetuid &&& modeSetuid = modeSetuid by decide),
      moveBit_and_of_zero (show modeSetgid &&& modeSetuid = 0 by decide),
      moveBit_and_of_zero (show modeSticky &&& modeSetuid = 0 by decide), UInt32.or_zero,
      UInt32.zero_or]
  · simp only [toFileMode, or_and, hzero (show 0o777 &&& modeSetgid = 0 by decide),
      htype (show _ &&& modeSetgid = _ by decide),
      moveBit_and_of_zero (show modeSetuid &&& modeSetgid = 0 by decide),
      moveBit_and_of_self (show modeSetgid &&& modeSetgid = modeSetgid by decide),
      moveBit_and_of_zero (show modeSticky &&& modeSetgid = 0 by decide), UInt32.or_zero,
      UInt32.zero_or]
  · simp only [toFileMode, or_and, hzero (show 0o777 &&& modeSticky = 0 by decide),
      htype (show _ &&& modeSticky = _ by decide),
      moveBit_and_of_zero (show modeSetuid &&& modeSticky = 0 by decide),
      moveBit_and_of_zero (show modeSetgid &&& modeSticky = 0 by decide),
      moveBit_and_of_self (show modeSticky &&& modeSticky = modeSticky by decide), UInt32.or_zero,
      UInt32.zero_or]

theorem toSyscallMode_toFileMode (m : UInt32) :
    toSyscallMode (toFileMode m) &&& 0o7777 = m &&& 0o7777 := by
  obtain ⟨huid, hgid, hvtx⟩ := toFileMode_and_special m
  have hperm : toFileMode m &&& 0o777 = m &&& 0o777 :=
    calc toFileMode m &&& 0o777 = toFileMode m &&& 0o7777 &&& 0o777 :=
          (and_and (by decide) _).symm
      _ = m &&& 0o777 &&& 0o777 := by rw [toFileMode_and_low]
      _ = m &&& 0o777 := and_and (by decide) m
  have hself : ∀ {src dst : UInt32}, moveBit src dst m = moveBit src dst m &&& dst := by
    intro src dst
    rw [moveBit_and_of_self UInt32.and_self]
  rw [toSyscallMode_and, hperm, moveBit_congr (huid.trans hself), moveBit_congr (hgid.trans hself),
    moveBit_congr (hvtx.trans hself), moveBit_moveBit (i := 11) rfl (by decide),
    moveBit_moveBit (i := 10) rfl (by decide), moveBit_moveBit (i := 9) rfl (by decide),
    ← and_or, ← and_or, ← and_or]
  rfl

end Bits

/-! ### Requests -/

def createInodeReq (now : Time) (owner : Caller) (parent : Ino) (name : String) (mode : UInt32)
    (target : String) (rdev : UInt32) : CreateInodeReq where
  parentIno := parent
  itemName := name
  attr := some { ModifyAttr.empty with
    atime := some now.sec
    ctime := some now.sec
    mtime := some now.sec
    atimens := some now.nsec
    ctimens := some now.nsec
    mtimens := some now.nsec
    uid := some owner.uid
    gid := some owner.gid
    mode := some mode
    linkTarget := some target
    rdev := some rdev }

def fsCreate (now : Time) (owner : Caller) (parent : Ino) (name : String) (mode rdev : UInt32) :
    CreateInodeReq :=
  createInodeReq now owner parent name (toFileMode mode) "" rdev

def fsMkdir (now : Time) (owner : Caller) (parent : Ino) (name : String) (mode : UInt32) :
    CreateInodeReq :=
  createInodeReq now owner parent name (modeDir ||| mode) "" 0

def getMode (a : Attr) : UInt32 := toSyscallMode (FsEntry.wrap a).mode

/-- An inode whose mode was given as the unix mode `m`: it was created, made as a directory,
or a request that names the mode and not the owner was accepted. -/
inductive Given (m : UInt32) : Attr → Prop
  | create {now now' : Time} {owner : Caller} {parent ino : Ino} {name : String} {rdev : UInt32}
      {s s' : Store} {r a : Attr}
      (hrun : (createInode (fsCreate now owner parent name m rdev) ino now').run s = (.ok r, s'))
      (ha : attrAt s' ino = some a) : Given m a
  | mkdir {now now' : Time} {owner : Caller} {parent ino : Ino} {name : String}
      {s s' : Store} {r a : Attr}
      (hrun : (createInode (fsMkdir now owner parent name m) ino now').run s = (.ok r, s'))
      (ha : attrAt s' ino = some a) : Given m a
  | chmod {now : Time} {c : Caller} {e : FsEntry} {ino : Ino} {set : UInt32}
      {s s' : Store} {r a : Attr} (hmode : set &&& setAttrMode ≠ 0)
      (howner : set &&& (setAttrUID ||| setAttrGID) = 0) (he : e.mode = toFileMode m)
      (hrun : (updateInodeAttr c (e.updateAttr ino set) now).run s = (.ok r, s'))
      (ha : attrAt s' ino = some a) : Given m a

inductive Chowned (m : UInt32) : Attr → Prop
  | mk {now now' now'' : Time} {owner c : Caller} {parent ino : Ino} {name : String}
      {rdev set : UInt32} {e : FsEntry} {s s' s'' : Store} {r r' a : Attr}
      (hcreate : (createInode (fsCreate now owner parent name m rdev) ino now').run s =
        (.ok r, s'))
      (hfile : r.isDir = false) (hroot : c.uid ≠ 0)
      (howner : set &&& (setAttrUID ||| setAttrGID) ≠ 0) (hmode : set &&& setAttrMode = 0)
      (hchown : (updateInodeAttr c (e.updateAttr ino set) now'').run s' = (.ok r', s''))
      (ha : attrAt s'' ino = some a) : Chowned m a

structure Faithful (a : Attr) (m : UInt32) : Prop where
  sticky : a.sticky = true ↔ m &&& 0o1000 ≠ 0
  setId : a.mode &&& 0o6000 ≠ 0 ↔ m &&& 0o6000 ≠ 0
  reported : getMode a &&& 0o7777 = m &&& 0o7777

section Given

variable {m : UInt32} {a r : Attr}

theorem created_mode {now now' : Time} {owner : Caller} {parent ino : Ino} {name target : String}
    {mode rdev : UInt32} {s s' : Store}
    (hrun : (createInode (createInodeReq now owner parent name mode target rdev) ino now').run s =
      (.ok r, s')) : attrAt s' ino = some r ∧ r.mode = mode := by
  obtain ⟨e, he⟩ | ⟨r', s'', hexec, heq⟩ := createInode_cases
    (createInodeReq now owner parent name mode target rdev) ino now' s
  · cases hrun.symm.trans he
  cases hrun.symm.trans heq
  obtain ⟨pAttr, attr, -, -, -, hattr, -, -, rfl, rfl⟩ := createInodeTxn_ok.mp hexec
  cases hattr
  refine ⟨?_, by rw [(newInode_kept ..).2.1]; rfl⟩
  rw [createdStore, attrAt_putAttr, if_pos (newInode_kept ..).1.symm]

theorem faithful_toFileMode (hmode : a.mode = toFileMode m) :
    Faithful a m ↔ m &&& 0o7000 = 0 := by
  have hsticky : a.sticky = false := by
    rw [Attr.sticky, stickyBit, hmode, toFileMode_and_of_special (by decide)]
    rfl
  have hsetId : a.mode &&& 0o6000 = 0 := by
    rw [hmode, toFileMode_and_of_special (by decide)]
  constructor
  · intro h
    have h1 : m &&& 0o1000 = 0 := by
      by_contra hne
      exact absurd (h.sticky.mpr hne) (by simp [hsticky])
    have h6 : m &&& 0o6000 = 0 := by
      by_contra hne
      exact h.setId.mpr hne hsetId
    rw [show (0o7000 : UInt32) = 0o1000 ||| 0o6000 by decide, and_or, h1, h6]
    rfl
  · intro h
    have h1 : m &&& 0o1000 = 0 := and_eq_zero_of_sub (by decide) h
    have h6 : m &&& 0o6000 = 0 := and_eq_zero_of_sub (by decide) h
    refine ⟨by simp [hsticky, h1], by simp [hsetId, h6], ?_⟩
    rw [getMode, FsEntry.wrap, hmode]
    exact toSyscallMode_toFileMode m

theorem faithful_mkdir (hm : m &&& 0o177777 = m) (hmode : a.mode = modeDir ||| m) :
    Faithful a m ↔ m &&& 0o7000 = 0 := by
  have hlow : ∀ {k : UInt32}, modeDir &&& k = 0 → a.mode &&& k = m &&& k := by
    intro k hk
    rw [hmode, or_and, hk, UInt32.zero_or]
  have hsticky : a.sticky = true ↔ m &&& 0o1000 ≠ 0 := by
    rw [Attr.sticky, stickyBit, hlow (by decide)]
    simp
  have hgo : ∀ {src dst : UInt32}, modeDir &&& src = 0 → (0o177777 : UInt32) &&& src = 0 →
      moveBit src dst a.mode = 0 := by
    intro src dst hd hs
    have h : a.mode &&& src = 0 := by
      rw [hlow hd, ← hm, and_and hs, UInt32.and_zero]
    simp [moveBit, h]
  have hreport : getMode a &&& 0o7777 = m &&& 0o777 := by
    show toSyscallMode a.mode &&& 0o7777 = m &&& 0o777
    rw [toSyscallMode_and, hgo (by decide) (by decide), hgo (by decide) (by decide),
      hgo (by decide) (by decide), hlow (by decide)]
    simp
  constructor
  · intro h
    have heq : m &&& 0o7777 = m &&& 0o777 := h.reported.symm.trans hreport
    calc m &&& 0o7000 = m &&& 0o7777 &&& 0o7000 := (and_and (by decide) m).symm
      _ = m &&& 0o777 &&& 0o7000 := by rw [heq]
      _ = m &&& 0 := and_and (by decide) m
      _ = 0 := UInt32.and_zero
  · intro h
    refine ⟨hsticky, by rw [hlow (by decide)], ?_⟩
    rw [hreport, show (0o7777 : UInt32) = 0o777 ||| 0o7000 by decide, and_or, h,
      UInt32.or_zero]

theorem updateAttr_has (e : FsEntry) (ino : Ino) (set bits : UInt32) :
    (e.updateAttr ino set).has bits = (set &&& bits != 0) := rfl

theorem chmod_mode {c : Caller} {e : FsEntry} {ino : Ino} {set : UInt32} {now : Time}
    (hmode : set &&& setAttrMode ≠ 0) (howner : set &&& (setAttrUID ||| setAttrGID) = 0)
    (he : e.mode = toFileMode m)
    (h : updateAttr c (e.updateAttr ino set) now a = .ok r) : r.mode = toFileMode m := by
  obtain ⟨v₁, v₂, v₃, v₄, v₅, v₆, h₁, h₂, h₃, h₄, h₅, h₆, -, hr, -⟩ := updateAttr_ok h
  have hno : ∀ {bits : UInt32}, (setAttrUID ||| setAttrGID) &&& bits = bits →
      (e.updateAttr ino set).has bits = false := by
    intro bits hbits
    simp [updateAttr_has, and_eq_zero_of_sub hbits howner]
  rw [updateSUGID_of_not (hno (by decide))] at h₁
  cases h₁
  rw [updateGID_of_not (hno (by decide))] at h₂
  cases h₂
  rw [updateUID_of_not (hno (by decide))] at h₃
  cases h₃
  rw [hr, (updateSize_rights h₆).mode, h₅.mode]
  refine updateMode_of_field (by simp [updateAttr_has, hmode]) ?_ ?_ h₄
  · show Except.ok e.mode = _
    rw [he]
  · exact toFileMode_and_of_special (by decide)

theorem chown_mode {c : Caller} {e : FsEntry} {ino : Ino} {set : UInt32} {now : Time}
    (hmode : set &&& setAttrMode = 0) (ha : a.mode = toFileMode m)
    (h : updateAttr c (e.updateAttr ino set) now a = .ok r) : r.mode = toFileMode m := by
  obtain ⟨v₁, v₂, v₃, v₄, v₅, v₆, h₁, h₂, h₃, h₄, h₅, h₆, -, hr, -⟩ := updateAttr_ok h
  have hs := updateSUGID_of_zero (by rw [ha]; exact toFileMode_and_of_special (by decide)) h₁
  rw [updateMode_of_not (by simp [updateAttr_has, hmode])] at h₄
  cases h₄
  rw [hr, (updateSize_rights h₆).mode, h₅.mode, (updateUID_ok h₃).1.2, (updateGID_ok h₂).1.2.2,
    hs.mode, ha]

end Given

/-- However the mode of an inode was given, the service and the kernel agree about it exactly
when it has no special bit. A file that was created with a set-id bit keeps it. -/
theorem special_bits_iff (m : UInt32) (hm : m &&& 0o177777 = m) :
    (∀ a, Given m a → (Faithful a m ↔ m &&& 0o7000 = 0)) ∧
      ∀ a, Chowned m a → (getMode a &&& 0o6000 = 0 ↔ m &&& 0o6000 = 0) := by
  constructor
  · intro a h
    cases h with
    | create hrun ha =>
      obtain ⟨hs, hmode⟩ := created_mode hrun
      cases ha.symm.trans hs
      exact faithful_toFileMode hmode
    | mkdir hrun ha =>
      obtain ⟨hs, hmode⟩ := created_mode hrun
      cases ha.symm.trans hs
      exact faithful_mkdir hm hmode
    | chmod hset howner he hrun ha =>
      obtain ⟨a₀, -, hr, hs⟩ := updateInodeAttr_stored hrun
      cases ha.symm.trans hs
      exact faithful_toFileMode (chmod_mode hset howner he hr)
  · intro a h
    cases h with
    | mk hcreate _ _ _ hset hchown ha =>
      obtain ⟨hs, hmode⟩ := created_mode hcreate
      obtain ⟨a₀, ha₀, hr, hs'⟩ := updateInodeAttr_stored hchown
      cases ha.symm.trans hs'
      cases ha₀.symm.trans hs
      have hmode' := chown_mode hset hmode hr
      have hreport : getMode a &&& 0o6000 = m &&& 0o6000 := by
        show toSyscallMode a.mode &&& 0o6000 = m &&& 0o6000
        rw [hmode']
        exact and_eq_of_sub (by decide) (toSyscallMode_toFileMode m)
      rw [hreport]

def sampleFile (m : UInt32) : Attr :=
  (newInode 2 ⟨0, 0⟩ { toAttr ModifyAttr.empty with
    uid := 1, gid := 1, mode := toFileMode m, parentIno := rootIno, name := "f" }
    (rootAttr ⟨0, 0⟩ 1 1)).1

theorem sampleFile_created (m : UInt32) :
    ∃ s', (createInode (fsCreate ⟨0, 0⟩ ⟨1, 1⟩ rootIno "f" m 0) 2 ⟨0, 0⟩).run
      (initStore ⟨0, 0⟩ 1 1) = (.ok (sampleFile m), s') := by
  refine ⟨_, KV.Call.run_txn_ok (createInodeTxn_ok.mpr ⟨rootAttr ⟨0, 0⟩ 1 1, _,
    attrAt_putAttr _ _ _, rfl, rfl, rfl, (by decide : "f" ≠ ""), ?_, rfl, rfl⟩)⟩
  intro e he
  simp [initStore] at he

/-- A file is created with the mode `0o755`. -/
theorem special_bits_sample : ∃ a, Given 0o100755 a ∧ Faithful a 0o100755 := by
  obtain ⟨s', hrun⟩ := sampleFile_created 0o100755
  have hgiven : Given 0o100755 (sampleFile 0o100755) := .create hrun (created_mode hrun).1
  exact ⟨_, hgiven, ((special_bits_iff 0o100755 (by decide)).1 _ hgiven).mpr (by decide)⟩

/-- The group of a file that was created with the mode `0o4755` is changed by its owner. The
service never sees the set-user bit, and it is still reported. -/
theorem special_bits_kept :
    (∃ a, Given 0o104755 a ∧ ¬Faithful a 0o104755) ∧
      ∃ a, Chowned 0o104755 a ∧ getMode a &&& 0o6000 = 0o4000 := by
  obtain ⟨s', hrun⟩ := sampleFile_created 0o104755
  obtain ⟨hs, hmode⟩ := created_mode hrun
  constructor
  · refine ⟨_, .create hrun hs, fun h => ?_⟩
    exact absurd ((faithful_toFileMode hmode).mp h) (by decide)
  · have hchown : (updateInodeAttr ⟨1, 1⟩
        ({ FsEntry.wrap (sampleFile 0o104755) with gid := 7 }.updateAttr 2 setAttrGID)
        ⟨0, 0⟩).run s' = _ := (updateInodeAttr_run hs).mpr ⟨rfl, rfl⟩
    obtain ⟨-, -, -, hs'⟩ := updateInodeAttr_stored hchown
    exact ⟨_, .mk hrun (by decide) (by decide) (by decide) (by decide) hchown hs', by decide⟩

end HugoFS.Vfs
