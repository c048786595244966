import HugoFS.Lib.Masks
import HugoFS.Meta.UpdateAttr

/-!
# Who may change the rights of an inode

`UpdateInodeAttr` checks the owner before it changes the group, root before it changes the user,
and for the mode compares the caller's group with the user of the inode. Whoever asks may drop
the set-id bits, and change the special bits where `os.FileMode` has them.
-/

namespace HugoFS.Meta

open KV UpdateVars Masks

section Steps

variable {c : Caller} {req : UpdateInodeAttrReq} {v v' : UpdateVars}

theorem UpdateVars.maskMode_dirty {mask : UInt32} (h : v.maskMode mask = .ok v') :
    v'.dirty = v.dirty := by
  obtain ⟨mode, -, h⟩ := bind_eq_ok.mp h
  cases h
  rfl

theorem clearSUGID_owner (h : clearSUGID c v = .ok v') :
    v'.dirty.inode = v.dirty.inode ∧ v'.dirty.uid = v.dirty.uid ∧ v'.dirty.gid = v.dirty.gid := by
  rw [clearSUGID] at h
  split at h
  · cases h
    exact ⟨rfl, rfl, rfl⟩
  · rw [maskMode_dirty h]
    exact ⟨rfl, rfl, rfl⟩

theorem updateSUGID_owner (h : updateSUGID c req v = .ok v') :
    v'.dirty.inode = v.dirty.inode ∧ v'.dirty.uid = v.dirty.uid ∧ v'.dirty.gid = v.dirty.gid := by
  have hclear : ∀ w : UpdateVars, w.dirty.inode = v.dirty.inode ∧ w.dirty.uid = v.dirty.uid ∧
      w.dirty.gid = v.dirty.gid → (if w.dirty.mode &&& 0o6000 != 0 &&
        req.has (setAttrUID ||| setAttrGID) then do
          let v ← clearSUGID c w
          pure { v with changed := true }
        else .ok w) = .ok v' →
      v'.dirty.inode = v.dirty.inode ∧ v'.dirty.uid = v.dirty.uid ∧
        v'.dirty.gid = v.dirty.gid := by
    intro w hw h
    split at h
    · obtain ⟨u, hu, h⟩ := bind_eq_ok.mp h
      cases h
      obtain ⟨hi, hu, hg⟩ := clearSUGID_owner hu
      exact ⟨hi.trans hw.1, hu.trans hw.2.1, hg.trans hw.2.2⟩
    · cases h
      exact hw
  refine hclear (if req.has (setAttrUID ||| setAttrGID) && req.has setAttrMode then
    v.set { v.dirty with mode := v.dirty.mode ||| (v.dirty.mode &&& 0o6000) } else v) ?_ h
  split <;> exact ⟨rfl, rfl, rfl⟩

theorem updateSUGID_of_zero (hm : v.dirty.mode &&& 0o6000 = 0) (h : updateSUGID c req v = .ok v') :
    v.SameRights v' := by
  simp only [updateSUGID, hm, UInt32.or_zero] at h
  split at h
  · simp only [UpdateVars.set, hm] at h
    cases h
    exact ⟨rfl, rfl, rfl, rfl, rfl⟩
  simp only [hm] at h
  cases h
  exact .refl v

theorem updateGID_ok (h : updateGID c req v = .ok v') :
    (v'.dirty.inode = v.dirty.inode ∧ v'.dirty.uid = v.dirty.uid ∧
      v'.dirty.mode = v.dirty.mode) ∧ (c.uid ≠ 0 → c.uid ≠ v.dirty.uid → v' = v) := by
  rw [updateGID] at h
  split at h
  · split at h
    · obtain ⟨_, -, h⟩ := bind_eq_ok.mp h
      cases h
    next hdenied =>
    obtain ⟨gid, -, h⟩ := bind_eq_ok.mp h
    cases h
    refine ⟨?_, fun h0 howner => absurd ?_ hdenied⟩
    · split <;> exact ⟨rfl, rfl, rfl⟩
    · simp [h0, howner]
  · cases h
    exact ⟨⟨rfl, rfl, rfl⟩, fun _ _ => rfl⟩

theorem updateUID_ok (h : updateUID c req v = .ok v') :
    (v'.dirty.inode = v.dirty.inode ∧ v'.dirty.mode = v.dirty.mode) ∧ (c.uid ≠ 0 → v' = v) := by
  rw [updateUID] at h
  split at h
  · obtain ⟨uid, -, h⟩ := bind_eq_ok.mp h
    split at h
    · split at h
      · obtain ⟨_, -, h⟩ := bind_eq_ok.mp h
        cases h
      next hroot =>
      cases h
      exact ⟨⟨rfl, rfl⟩, fun h0 => absurd (by simpa using h0) hroot⟩
    · cases h
      exact ⟨⟨rfl, rfl⟩, fun _ => rfl⟩
  · cases h
    exact ⟨⟨rfl, rfl⟩, fun _ => rfl⟩

theorem dropSetgid_dirty (h : dropSetgid c v = .ok v') : v'.dirty = v.dirty := by
  rw [dropSetgid] at h
  split at h
  · obtain ⟨mode, -, h⟩ := bind_eq_ok.mp h
    split at h
    · exact maskMode_dirty h
    · cases h
      rfl
  · cases h
    rfl

theorem updateMode_of_field {mode : UInt32} (hset : req.has setAttrMode = true)
    (hfield : v.field ModifyAttr.mode = .ok mode) (hmode : mode &&& 0o2000 = 0)
    (h : updateMode c req v = .ok v') : v'.dirty.mode = mode := by
  have hkeep : dropSetgid c v = .ok v := by
    rw [dropSetgid]
    split
    · simp [hfield, hmode, bind, Except.bind]
      rfl
    · rfl
  rw [updateMode, if_pos hset, hkeep] at h
  obtain ⟨w, hw, h⟩ := bind_eq_ok.mp h
  cases hw
  obtain ⟨mode', hmode', h⟩ := bind_eq_ok.mp h
  cases hfield.symm.trans hmode'
  split at h
  · split at h
    · cases h
    · cases h
      rfl
  next heq =>
  cases h
  exact (by simpa using heq : mode = v.dirty.mode).symm

theorem updateMode_ok (h : updateMode c req v = .ok v') :
    v'.dirty = v.dirty ∨ ∃ mode, v'.dirty = { v.dirty with mode := mode } ∧
      (c.uid ≠ 0 → c.gid ≠ v.dirty.uid → v.dirty.mode &&& 0o1777 = mode &&& 0o1777 ∧
        mode &&& 0o2000 ≤ v.dirty.mode &&& 0o2000 ∧
        mode &&& 0o4000 ≤ v.dirty.mode &&& 0o4000) := by
  rw [updateMode] at h
  split at h
  · obtain ⟨w, hw, h⟩ := bind_eq_ok.mp h
    obtain ⟨mode, -, h⟩ := bind_eq_ok.mp h
    split at h
    · split at h
      · cases h
      next hdenied =>
      cases h
      rw [dropSetgid_dirty hw] at hdenied
      refine .inr ⟨mode, ?_, fun h0 hg => ?_⟩
      · show { w.dirty with mode := mode } = { v.dirty with mode := mode }
        rw [dropSetgid_dirty hw]
      · simpa [h0, hg, UInt32.not_lt] using hdenied
    · cases h
      exact .inl (dropSetgid_dirty hw)
  · cases h
    exact .inl rfl

end Steps

/-! ### One request -/

section Request

variable {c : Caller} {req : UpdateInodeAttrReq} {now : Time} {a r : Attr}

theorem updateMode_owner {v v' : UpdateVars} (h : updateMode c req v = .ok v') :
    v'.dirty.inode = v.dirty.inode ∧ v'.dirty.uid = v.dirty.uid ∧ v'.dirty.gid = v.dirty.gid := by
  obtain heq | ⟨mode, heq, -⟩ := updateMode_ok h <;> rw [heq] <;> exact ⟨rfl, rfl, rfl⟩

theorem updateAttr_inode (h : updateAttr c req now a = .ok r) : r.inode = a.inode := by
  obtain ⟨v₁, v₂, v₃, v₄, v₅, v₆, h₁, h₂, h₃, h₄, h₅, h₆, hi, -⟩ := updateAttr_ok h
  rw [hi, (updateSize_rights h₆).inode, h₅.inode, (updateMode_owner h₄).1, (updateUID_ok h₃).1.1,
    (updateGID_ok h₂).1.1, (updateSUGID_owner h₁).1]

theorem updateAttr_uid (h0 : c.uid ≠ 0) (h : updateAttr c req now a = .ok r) : r.uid = a.uid := by
  obtain ⟨v₁, v₂, v₃, v₄, v₅, v₆, h₁, h₂, h₃, h₄, h₅, h₆, -, -, hu, -⟩ := updateAttr_ok h
  rw [hu, (updateSize_rights h₆).uid, h₅.uid, (updateMode_owner h₄).2.1, (updateUID_ok h₃).2 h0,
    (updateGID_ok h₂).1.2.1, (updateSUGID_owner h₁).2.1]

theorem updateAttr_gid (h0 : c.uid ≠ 0) (howner : c.uid ≠ a.uid)
    (h : updateAttr c req now a = .ok r) : r.gid = a.gid := by
  obtain ⟨v₁, v₂, v₃, v₄, v₅, v₆, h₁, h₂, h₃, h₄, h₅, h₆, -, -, -, hg, -⟩ := updateAttr_ok h
  obtain ⟨-, hu₁, hg₁⟩ := updateSUGID_owner h₁
  have hsame : v₂ = v₁ := (updateGID_ok h₂).2 h0 (by rwa [hu₁])
  rw [hg, (updateSize_rights h₆).gid, h₅.gid, (updateMode_owner h₄).2.2, (updateUID_ok h₃).2 h0,
    hsame, hg₁]

/-- The special bits as `os.FileMode` has them: `ModeSetuid`, `ModeSetgid` and `ModeSticky`. -/
def specialBits : UInt32 := modeSetuid ||| modeSetgid ||| modeSticky

/-- The permission and special bits of a stored mode, the latter in either place. -/
def rightsBits : UInt32 := 0o7777 ||| specialBits

/-- The request sets no mode, or one that has the stored `specialBits` and no unix set-gid bit,
for which all bits above would be masked away. -/
def SparesSpecial (a : Attr) (req : UpdateInodeAttrReq) : Prop :=
  req.has setAttrMode = true → ∀ m mode, req.attr = some m → m.mode = some mode →
    mode &&& specialBits = a.mode &&& specialBits ∧ mode &&& 0o2000 = 0

theorem updateMode_special {v v' : UpdateVars} (hreq : v.reqAttr = req.attr)
    (hspare : SparesSpecial v.dirty req) (h : updateMode c req v = .ok v') :
    v'.dirty.mode &&& specialBits = v.dirty.mode &&& specialBits := by
  by_cases hset : req.has setAttrMode = true
  · have hfield : ∃ mode, v.field ModifyAttr.mode = .ok mode := by
      rw [updateMode, if_pos hset] at h
      obtain ⟨w, hw, h⟩ := bind_eq_ok.mp h
      obtain ⟨mode, hmode, -⟩ := bind_eq_ok.mp h
      rw [dropSetgid] at hw
      split at hw
      · obtain ⟨mode', hmode', -⟩ := bind_eq_ok.mp hw
        exact ⟨mode', hmode'⟩
      · cases hw
        exact ⟨mode, hmode⟩
    obtain ⟨mode, hmode⟩ := hfield
    have hattr : ∃ m, req.attr = some m ∧ m.mode = some mode := by
      obtain ⟨m, hm, hmode⟩ := bind_eq_ok.mp hmode
      refine ⟨m, ?_, ?_⟩
      · rw [← hreq]
        exact deref_eq_ok.mp hm
      · exact deref_eq_ok.mp hmode
    obtain ⟨m, hm, hmm⟩ := hattr
    obtain ⟨hspecial, hno⟩ := hspare hset m mode hm hmm
    rw [updateMode_of_field hset hmode hno h, hspecial]
  · rw [updateMode, if_neg hset] at h
    cases h
    rfl

theorem updateAttr_mode (h0 : c.uid ≠ 0) (howner : c.uid ≠ a.uid) (hm : a.mode &&& 0o6000 = 0)
    (hgid : c.gid ≠ a.uid) (hspare : SparesSpecial a req) (h : updateAttr c req now a = .ok r) :
    r.mode &&& rightsBits = a.mode &&& rightsBits := by
  obtain ⟨v₁, v₂, v₃, v₄, v₅, v₆, h₁, h₂, h₃, h₄, h₅, h₆, -, hmode, -⟩ := updateAttr_ok h
  have hs := updateSUGID_of_zero hm h₁
  have h12 : v₂ = v₁ := (updateGID_ok h₂).2 h0 (by rwa [hs.uid])
  have h23 : v₃ = v₂ := (updateUID_ok h₃).2 h0
  have hm₃ : v₃.dirty.mode = a.mode := by rw [h23, h12, hs.mode]
  rw [hmode, (updateSize_rights h₆).mode, h₅.mode]
  have hspecial : v₄.dirty.mode &&& specialBits = v₃.dirty.mode &&& specialBits :=
    updateMode_special (by rw [h23, h12, hs.reqAttr])
      (fun hset m mode hreq hmode => by rw [hm₃]; exact hspare hset m mode hreq hmode) h₄
  rw [hm₃] at hspecial
  obtain heq | ⟨mode, heq, hallowed⟩ := updateMode_ok h₄
  · rw [heq, hm₃]
  rw [heq] at hspecial ⊢
  change mode &&& specialBits = a.mode &&& specialBits at hspecial
  change mode &&& rightsBits = a.mode &&& rightsBits
  have hu₃ : c.gid ≠ v₃.dirty.uid := by rwa [h23, h12, hs.uid]
  obtain ⟨hperm, hsgid, hsuid⟩ := hallowed h0 hu₃
  rw [hm₃] at hperm hsgid hsuid
  have ha2 : a.mode &&& 0o2000 = 0 := and_eq_zero_of_sub (by decide) hm
  have ha4 : a.mode &&& 0o4000 = 0 := and_eq_zero_of_sub (by decide) hm
  rw [ha2, UInt32.le_zero_iff] at hsgid
  rw [ha4, UInt32.le_zero_iff] at hsuid
  rw [show rightsBits = 0o1777 ||| 0o2000 ||| 0o4000 ||| specialBits by decide]
  simp only [and_or, hperm, hsgid, hsuid, ha2, ha4, hspecial]

def chmodReq (i : Ino) (mode : UInt32) : UpdateInodeAttrReq :=
  ⟨i, some (.ofMode mode), setAttrMode⟩

theorem chmodReq_has (i : Ino) (mode bits : UInt32) :
    (chmodReq i mode).has bits = (setAttrMode &&& bits != 0) := rfl

theorem updateAttr_chmod {i : Ino} {mode : UInt32} (now : Time)
    (hdrop : mode &&& 0o2000 = 0 ∨ c.gid = a.gid)
    (hpass : c.gid = a.uid ∨ a.mode &&& 0o1777 = mode &&& 0o1777 ∧
      mode &&& 0o2000 ≤ a.mode &&& 0o2000 ∧ mode &&& 0o4000 ≤ a.mode &&& 0o4000) :
    ∃ r, updateAttr c (chmodReq i mode) now a = .ok r ∧ r.mode = mode := by
  have hkeep : dropSetgid c ⟨a, some (.ofMode mode), false⟩ =
      .ok ⟨a, some (.ofMode mode), false⟩ := by
    have hno : (mode &&& 0o2000 != 0 && c.gid != a.gid) = false := by
      rcases hdrop with h | h <;> simp [h]
    rw [dropSetgid]
    split
    · show (if (mode &&& 0o2000 != 0 && c.gid != a.gid) = true then _ else _) = _
      rw [hno]
      rfl
    · rfl
  have hmode : ∃ v, updateMode c (chmodReq i mode) ⟨a, some (.ofMode mode), false⟩ = .ok v ∧
      v.dirty.mode = mode := by
    have hallowed : (c.uid != 0 && c.gid != a.uid && (a.mode &&& 0o1777 != mode &&& 0o1777 ||
        (decide (a.mode &&& 0o2000 < mode &&& 0o2000) ||
          decide (a.mode &&& 0o4000 < mode &&& 0o4000)))) = false := by
      rcases hpass with h | ⟨h₁, h₂, h₃⟩
      · simp [h]
      · simp [h₁, UInt32.not_lt.mpr h₂, UInt32.not_lt.mpr h₃]
    rw [updateMode, if_pos (by rw [chmodReq_has]; decide), hkeep]
    show ∃ v, (if (mode != a.mode) = true then _ else _) = _ ∧ _
    split
    · exact ⟨_, (if_neg (ne_true_of_eq_false hallowed)).trans rfl, rfl⟩
    · next heq => exact ⟨_, rfl, (by simpa using heq : mode = a.mode).symm⟩
  obtain ⟨v, hv, hvm⟩ := hmode
  have hrest : updateAttr c (chmodReq i mode) now a =
      .ok (if v.changed then (v.dirty.setCtime now).bumpEpoch else v.dirty.setCtime now) := by
    have hno : ∀ bits, setAttrMode &&& bits = 0 → (chmodReq i mode).has bits = false := by
      intro bits hbits
      simp [chmodReq_has, hbits]
    simp only [updateAttr, bind_eq_ok]
    exact ⟨_, updateSUGID_of_not (hno _ (by decide)), _, updateGID_of_not (hno _ (by decide)), _,
      updateUID_of_not (hno _ (by decide)), _, hv, _,
      updateTime_of_not (hno _ (by decide)) (hno _ (by decide)), _,
      updateTime_of_not (hno _ (by decide)) (hno _ (by decide)), _,
      updateFlags_of_not (hno _ (by decide)), _, updateSize_of_not (hno _ (by decide)), rfl⟩
  refine ⟨_, hrest, ?_⟩
  split <;> exact hvm

theorem updateInodeAttr_run {s s' : Store} (ha : attrAt s req.ino = some a) :
    (updateInodeAttr c req now).run s = (.ok r, s') ↔
      updateAttr c req now a = .ok r ∧ s' = putAttr s r := by
  have hexec : (updateInodeAttrTxn c req now).exec s = match updateAttr c req now a with
      | .ok r => .ok (r, putAttr s r)
      | .error e => .error e := by
    obtain ⟨rec, hrec, rfl⟩ := Option.map_eq_some_iff.mp ha
    rw [updateInodeAttrTxn, getAttr]
    show Body.exec _ s = _
    simp only [Bind.bind, Body.bind, Body.exec, hrec]
    cases updateAttr c req now rec.1 <;> rfl
  rw [updateInodeAttr, Call.run, hexec]
  cases updateAttr c req now a with
  | error e => simp
  | ok a' =>
    simp only [Prod.mk.injEq, Except.ok.injEq]
    constructor
    · rintro ⟨rfl, rfl⟩
      exact ⟨rfl, rfl⟩
    · rintro ⟨rfl, rfl⟩
      exact ⟨rfl, rfl⟩

theorem updateInodeAttr_stored {s s' : Store}
    (hrun : (updateInodeAttr c req now).run s = (.ok r, s')) :
    ∃ a, attrAt s req.ino = some a ∧ updateAttr c req now a = .ok r ∧
      attrAt s' req.ino = some r := by
  cases ha : attrAt s req.ino with
  | none =>
    have hnone : s.lookup (.attr req.ino) = none := Option.map_eq_none_iff.mp ha
    simp [updateInodeAttr, Call.run, updateInodeAttrTxn, getAttr, Bind.bind, Body.bind, Body.exec,
      hnone] at hrun
  | some a =>
    obtain ⟨hr, rfl⟩ := (updateInodeAttr_run ha).mp hrun
    have hi : req.ino = r.inode := ((updateAttr_inode hr).trans (attrAt_inode ha)).symm
    exact ⟨a, rfl, hr, by rw [attrAt_putAttr, if_pos hi]⟩

end Request

/-! ### The rights of an inode -/

/-- What a caller can do to the inode `i` with the attributes `a`, by the requests `ask`: when it
is neither root nor the owner, the permission and special bits, the user and the group stay; when
it is not root, the user stays. -/
structure RightsKept (ask : UpdateInodeAttrReq → Prop) (s : Store) (c : Caller) (i : Ino)
    (a : Attr) : Prop where
  stranger : c.uid ≠ 0 → c.uid ≠ a.uid → ∀ req now r s', ask req → req.ino = i →
    (updateInodeAttr c req now).run s = (.ok r, s') →
    ∃ a', attrAt s' i = some a' ∧ a'.mode &&& rightsBits = a.mode &&& rightsBits ∧
      a'.uid = a.uid ∧ a'.gid = a.gid
  user : c.uid ≠ 0 → ∀ req now r s', ask req → req.ino = i →
    (updateInodeAttr c req now).run s = (.ok r, s') →
    ∃ a', attrAt s' i = some a' ∧ a'.uid = a.uid

section Rights

variable {s : Store} {c : Caller} {i : Ino} {a : Attr} {ask : UpdateInodeAttrReq → Prop}

theorem RightsKept.mode_eq (h : RightsKept ask s c i a) (ha : attrAt s i = some a)
    (h0 : c.uid ≠ 0) (howner : c.uid ≠ a.uid) (mode : UInt32) (hask : ask (chmodReq i mode))
    (hdrop : mode &&& 0o2000 = 0) (hpass : c.gid = a.uid ∨ a.mode &&& 0o1777 = mode &&& 0o1777 ∧
      mode &&& 0o4000 = 0) : mode &&& rightsBits = a.mode &&& rightsBits := by
  have hpass : c.gid = a.uid ∨ a.mode &&& 0o1777 = mode &&& 0o1777 ∧
      mode &&& 0o2000 ≤ a.mode &&& 0o2000 ∧ mode &&& 0o4000 ≤ a.mode &&& 0o4000 := by
    refine hpass.imp_right fun h => ⟨h.1, ?_, ?_⟩
    · rw [hdrop]
      exact UInt32.zero_le
    · rw [h.2]
      exact UInt32.zero_le
  obtain ⟨r, hr, hmode⟩ := updateAttr_chmod (i := i) ⟨0, 0⟩ (.inl hdrop) hpass
  have hrun : (updateInodeAttr c (chmodReq i mode) ⟨0, 0⟩).run s = (.ok r, putAttr s r) :=
    (updateInodeAttr_run ha).mpr ⟨hr, rfl⟩
  obtain ⟨a', ha', hsame, -⟩ := h.stranger h0 howner _ _ _ _ hask rfl hrun
  obtain ⟨-, -, -, hs⟩ := updateInodeAttr_stored hrun
  cases ha'.symm.trans hs
  rw [← hmode, hsame]

theorem RightsKept.of_owner (ha : attrAt s i = some a)
    (hmode : c.uid ≠ 0 → c.uid ≠ a.uid → ∀ req now r, ask req → updateAttr c req now a = .ok r →
      r.mode &&& rightsBits = a.mode &&& rightsBits) : RightsKept ask s c i a := by
  have hstored : ∀ req now r s', req.ino = i → (updateInodeAttr c req now).run s = (.ok r, s') →
      attrAt s' i = some r ∧ updateAttr c req now a = .ok r := by
    rintro req now r s' rfl hrun
    obtain ⟨a', ha', hr, hs⟩ := updateInodeAttr_stored hrun
    cases ha.symm.trans ha'
    exact ⟨hs, hr⟩
  constructor
  · intro h0 howner req now r s' hask hi hrun
    obtain ⟨hs, hr⟩ := hstored req now r s' hi hrun
    exact ⟨r, hs, hmode h0 howner req now r hask hr, updateAttr_uid h0 hr,
      updateAttr_gid h0 howner hr⟩
  · intro h0 req now r s' _ hi hrun
    obtain ⟨hs, hr⟩ := hstored req now r s' hi hrun
    exact ⟨r, hs, updateAttr_uid h0 hr⟩

/-- The bits that a request keeps when it drops the set-id bits of unix. -/
theorem and_kept {x bits : UInt32} (hbits : (0o1777 ||| specialBits) &&& bits = 0) :
    x &&& (0o1777 ||| specialBits) &&& bits = 0 := by
  rw [Masks.and_and hbits, UInt32.and_zero]

theorem sparesSpecial_chmodReq {mode : UInt32}
    (hspecial : mode &&& specialBits = a.mode &&& specialBits) (hno : mode &&& 0o2000 = 0) :
    SparesSpecial a (chmodReq i mode) := by
  rintro - m mode' hm hmode
  cases hm
  cases hmode
  exact ⟨hspecial, hno⟩

/-- The rights of an inode are kept from nobody who asks for other special bits. From a caller
who is neither root nor the owner and leaves these alone they are kept exactly when the stored
mode has no unix set-id bit and the caller's group is not the number of the owner. -/
theorem rightsKept_iff (ha : attrAt s i = some a) :
    (RightsKept (fun _ => True) s c i a ↔ c.uid = 0 ∨ c.uid = a.uid) ∧
    (RightsKept (SparesSpecial a) s c i a ↔
      c.uid = 0 ∨ c.uid = a.uid ∨ a.mode &&& 0o6000 = 0 ∧ c.gid ≠ a.uid) := by
  have hself : ∀ x : UInt32, x &&& (0o1777 ||| specialBits) &&& 0o1777 = x &&& 0o1777 :=
    Masks.and_and (by decide)
  refine ⟨⟨fun h => ?_, fun h => .of_owner ha fun h0 howner => absurd h (not_or.mpr ⟨h0, howner⟩)⟩,
    ⟨fun h => ?_, fun h => .of_owner ha fun h0 howner req now r hask hr => ?_⟩⟩
  · -- a request for the bit of `ModeSetuid` that is not stored
    by_contra hother
    obtain ⟨h0, howner⟩ := not_or.mp hother
    have hmode := h.mode_eq ha h0 howner ((a.mode ^^^ modeSetuid) &&& (0o1777 ||| specialBits))
      trivial (and_kept (by decide)) (.inr ⟨?_, and_kept (by decide)⟩)
    · have hbit := Masks.and_eq_of_sub (m := modeSetuid) (by decide) hmode
      rw [Masks.and_and (k := modeSetuid) (by decide), Masks.xor_and, UInt32.and_self] at hbit
      rcases Masks.and_bit (b := modeSetuid) (i := 23) rfl a.mode with hz | hz
      · rw [hz] at hbit
        exact absurd hbit (by decide)
      · rw [hz] at hbit
        exact absurd hbit (by decide)
    · rw [hself, Masks.xor_and, show modeSetuid &&& 0o1777 = 0 by decide, UInt32.xor_zero]
  · by_cases h0 : c.uid = 0
    · exact .inl h0
    by_cases howner : c.uid = a.uid
    · exact .inr (.inl howner)
    have hkeep (x : UInt32) (hx : x &&& specialBits = a.mode &&& specialBits) :
        SparesSpecial a (chmodReq i (x &&& (0o1777 ||| specialBits))) :=
      sparesSpecial_chmodReq (by rw [Masks.and_and (k := specialBits) (by decide), hx])
        (and_kept (by decide))
    refine .inr (.inr ⟨?_, fun hgid => ?_⟩)
    · -- a request that drops the set-id bits passes the check
      have hmode := h.mode_eq ha h0 howner _ (hkeep a.mode rfl) (and_kept (by decide))
        (.inr ⟨(hself _).symm, and_kept (by decide)⟩)
      rw [← Masks.and_eq_of_sub (m := 0o6000) (n := rightsBits) (by decide) hmode]
      exact and_kept (by decide)
    · -- with the owner's number as its group the caller may store any mode
      have hany (x : UInt32) (hx : x &&& specialBits = 0) :
          (a.mode &&& specialBits ||| x) &&& (0o1777 ||| specialBits) &&& rightsBits =
            a.mode &&& rightsBits :=
        h.mode_eq ha h0 howner _ (hkeep _ (by
          rw [Masks.or_and, hx, UInt32.or_zero, Masks.and_and (k := specialBits) (by decide)]))
          (and_kept (by decide)) (.inl hgid)
      have hone := Masks.and_eq_of_sub (m := 1) (n := rightsBits) (by decide)
        ((hany 0 (by decide)).trans (hany 1 (by decide)).symm)
      rw [Masks.and_and (k := 1) (by decide), Masks.and_and (k := 1) (by decide), Masks.or_and,
        Masks.or_and, Masks.and_and (k := 0) (by decide), UInt32.and_zero] at hone
      exact absurd hone (by decide)
  · obtain ⟨hm, hgid⟩ := (h.resolve_left h0).resolve_left howner
    exact updateAttr_mode h0 howner hm hgid hask hr

theorem rightsKept_sample : let a := { rootAttr ⟨0, 0⟩ 1 1 with mode := specialBits ||| 0o755 }
    RightsKept (SparesSpecial a) (putAttr ∅ a) ⟨5, 7⟩ a.inode a :=
  (rightsKept_iff (attrAt_putAttr _ _ _)).2.mpr (by decide)

def setIdFile : Attr := { rootAttr ⟨0, 0⟩ 1 1 with inode := 2, mode := 0o6755 }

/-- The owner is the user 1. A caller with the group 1 may give the root directory any mode, one
with the group 7 drops the unix set-id bits of a file, and sets `ModeSetuid` on the root. -/
theorem rights_changed :
    ¬RightsKept (SparesSpecial (rootAttr ⟨0, 0⟩ 1 1)) (initStore ⟨0, 0⟩ 1 1) ⟨5, 1⟩ rootIno
        (rootAttr ⟨0, 0⟩ 1 1) ∧
      ¬RightsKept (SparesSpecial setIdFile) (putAttr ∅ setIdFile) ⟨5, 7⟩ 2 setIdFile ∧
      ¬RightsKept (fun _ => True) (initStore ⟨0, 0⟩ 1 1) ⟨5, 7⟩ rootIno
        (rootAttr ⟨0, 0⟩ 1 1) := by
  refine ⟨fun h => ?_, fun h => ?_, fun h => ?_⟩
  · have hmode := h.mode_eq (attrAt_putAttr _ _ _) (by decide) (by decide) 0o777
      (sparesSpecial_chmodReq (by decide) (by decide)) (by decide) (.inl rfl)
    exact absurd hmode (by decide)
  · have hmode := h.mode_eq (attrAt_putAttr _ _ _) (by decide) (by decide) 0o755
      (sparesSpecial_chmodReq (by decide) (by decide)) (by decide) (.inr (by decide))
    exact absurd hmode (by decide)
  · have hmode := h.mode_eq (attrAt_putAttr _ _ _) (by decide) (by decide)
      ((rootAttr ⟨0, 0⟩ 1 1).mode ||| modeSetuid) trivial (by decide) (.inr (by decide))
    exact absurd hmode (by decide)

end Rights

end HugoFS.Meta
