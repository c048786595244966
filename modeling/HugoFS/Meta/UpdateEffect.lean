import HugoFS.Meta.UpdateFields

/-!
# What an accepted update stores

The user, the group and the mode that an accepted request of `UpdateInodeAttr` leaves,
as functions of the request and of the attributes that were stored, and the changes that
make it count up the epoch.
-/

namespace HugoFS.Meta

open KV UpdateVars Option ModifyAttr UpdateVars.SameRequest

section New

variable (c : Caller) (req : UpdateInodeAttrReq) (a : Attr)

def UpdateInodeAttrReq.newGid : UInt32 :=
  if req.has setAttrGID then (req.sent ModifyAttr.gid).getD a.gid else a.gid

def UpdateInodeAttrReq.newUid : UInt32 :=
  if req.has setAttrUID then (req.sent ModifyAttr.uid).getD a.uid else a.uid

def clearedMode (m : UInt32) : UInt32 := if clearsSetId req a then m &&& setIdMask c a else m

def dropsSetgid (gid m : UInt32) : Bool := c.uid != 0 && (m &&& 0o2000 != 0 && c.gid != gid)

def droppedMode (gid m : UInt32) : UInt32 := if dropsSetgid c gid m then m &&& 0o5777 else m

def newMode : UInt32 :=
  if req.has setAttrMode then
    droppedMode c (req.newGid a) (clearedMode c req a ((req.sent ModifyAttr.mode).getD a.mode))
  else clearedMode c req a a.mode

def rightsChange : Bool :=
  req.namesOwner && (req.has setAttrMode || a.mode &&& 0o6000 != 0) || req.newGid a != a.gid ||
    req.newUid a != a.uid || newMode c req a != clearedMode c req a a.mode

def TimeField.changes (f : TimeField) : Bool :=
  req.has f.nowBit || req.has f.bit && ((req.sent f.reqSec).getD 0 < 0 ||
    (req.sent f.reqSec != some (f.sec a) || req.sent f.reqNsec != some (f.nsec a)))

def UpdateInodeAttrReq.changes : Bool :=
  rightsChange c req a || atimeField.changes req a || mtimeField.changes req a ||
    req.has setAttrFlag || req.has setAttrSize

end New

/-! ### Owner and mode -/

section Rights

variable {c : Caller} {req : UpdateInodeAttrReq} {now : Time} {a : Attr} {v v' : UpdateVars}

theorem updateSUGID_ok (h : updateSUGID c req (req.vars a) = .ok v') :
    v'.dirty = { a with mode := clearedMode c req a a.mode } ∧
      v'.sent mode = (req.sent mode).map (clearedMode c req a) ∧
      v'.changed = (req.namesOwner && (req.has setAttrMode || a.mode &&& 0o6000 != 0)) := by
  rw [UpdateInodeAttrReq.vars, updateSUGID_eq] at h
  cases hclear : clearsSetId req a with
  | true =>
    rw [hclear, if_pos rfl] at h
    obtain ⟨w, hw, h⟩ := bind_eq_ok.mp h
    cases h
    rw [maskMode_ok hw]
    simp only [clearsSetId, Bool.and_eq_true] at hclear
    have hmask : clearedMode c req a = fun m => m &&& setIdMask c a := by
      funext m
      simp [clearedMode, clearsSetId, hclear]
    rw [hmask]
    refine ⟨rfl, sent_mode_masked _ _, ?_⟩
    simp [hclear]
  | false =>
    rw [hclear, if_neg (by simp)] at h
    cases h
    have hid : clearedMode c req a = id := by
      funext m
      simp [clearedMode, hclear]
    rw [hid, map_id]
    exact ⟨rfl, rfl, rfl⟩

theorem updateGID_eq (h : updateGID c req v = .ok v') (gid : UInt32)
    (hgid : gid = if req.has setAttrGID then (v.sent ModifyAttr.gid).getD v.dirty.gid
      else v.dirty.gid) :
    v'.dirty = { v.dirty with gid := gid } ∧ v'.changed = (v.changed || gid != v.dirty.gid) := by
  rw [updateGID] at h
  split_ifs at h hgid with hbit hc
  · obtain ⟨uid, -, h⟩ := bind_eq_ok.mp h
    cases h
  · obtain ⟨g, hg, h⟩ := bind_eq_ok.mp h
    rw [field_eq_ok.mp hg, getD_some] at hgid
    subst hgid
    cases h
    by_cases hne : v.dirty.gid = gid
    · subst hne
      simp
    · rw [if_pos (by simpa using hne)]
      simp [UpdateVars.set, Ne.symm hne]
  · cases h
    subst hgid
    simp

theorem updateUID_eq (h : updateUID c req v = .ok v') (uid : UInt32)
    (huid : uid = if req.has setAttrUID then (v.sent ModifyAttr.uid).getD v.dirty.uid
      else v.dirty.uid) :
    v'.dirty = { v.dirty with uid := uid } ∧ v'.changed = (v.changed || uid != v.dirty.uid) := by
  rw [updateUID] at h
  split at h
  · next hbit =>
    rw [if_pos hbit] at huid
    obtain ⟨u, hu, h⟩ := bind_eq_ok.mp h
    rw [field_eq_ok.mp hu, getD_some] at huid
    subst huid
    split at h
    · next hne =>
      split at h
      · obtain ⟨gid, -, h⟩ := bind_eq_ok.mp h
        cases h
      cases h
      have hne : v.dirty.uid ≠ uid := by simpa using hne
      simp [UpdateVars.set, Ne.symm hne]
    · next hsame =>
      cases h
      have hsame : v.dirty.uid = uid := by simpa using hsame
      subst hsame
      simp
  · next hbit =>
    rw [if_neg hbit] at huid
    cases h
    subst huid
    simp

theorem dropSetgid_sent (h : dropSetgid c v = .ok v') :
    v'.dirty = v.dirty ∧ v'.changed = v.changed ∧
      v'.sent mode = (v.sent mode).map (droppedMode c v.dirty.gid) := by
  rw [dropSetgid] at h
  split_ifs at h with h0
  · obtain ⟨mode, hmode, h⟩ := bind_eq_ok.mp h
    have hsent := field_eq_ok.mp hmode
    split_ifs at h with hd
    · rw [maskMode_ok h, sent_mode_masked, hsent]
      refine ⟨rfl, rfl, ?_⟩
      simp [droppedMode, dropsSetgid, h0, hd]
    cases h
    rw [hsent]
    refine ⟨rfl, rfl, ?_⟩
    simp [droppedMode, dropsSetgid, hd]
  · cases h
    refine ⟨rfl, rfl, ?_⟩
    have hid : droppedMode c v.dirty.gid = id := by
      funext m
      simp [droppedMode, dropsSetgid, h0]
    rw [hid, map_id]
    rfl

theorem updateMode_eq (h : updateMode c req v = .ok v') (mode : UInt32)
    (hmode : mode = if req.has setAttrMode then
        droppedMode c v.dirty.gid ((v.sent ModifyAttr.mode).getD v.dirty.mode) else v.dirty.mode) :
    v'.dirty = { v.dirty with mode := mode } ∧ v'.changed = (v.changed || mode != v.dirty.mode) := by
  rw [updateMode] at h
  split_ifs at h hmode with hbit
  · obtain ⟨w, hw, h⟩ := bind_eq_ok.mp h
    obtain ⟨m, hm, h⟩ := bind_eq_ok.mp h
    obtain ⟨hdirty, hchanged, hsent⟩ := dropSetgid_sent hw
    rw [field_eq_ok.mp hm] at hsent
    obtain ⟨x, hx, hxm⟩ := map_eq_some_iff.mp hsent.symm
    rw [hx, getD_some, hxm] at hmode
    subst hmode
    rw [← hdirty, ← hchanged]
    split at h
    · next hne =>
      split_ifs at h
      cases h
      have hne : mode ≠ w.dirty.mode := by simpa using hne
      simp [UpdateVars.set, hne]
    · next hsame =>
      cases h
      have hsame : mode = v'.dirty.mode := by simpa using hsame
      subst hsame
      simp
  · cases h
    subst hmode
    simp

theorem updateRights_ok {v₁ v₂ v₃ v₄ : UpdateVars} (h₁ : updateSUGID c req (req.vars a) = .ok v₁)
    (h₂ : updateGID c req v₁ = .ok v₂) (h₃ : updateUID c req v₂ = .ok v₃)
    (h₄ : updateMode c req v₃ = .ok v₄) :
    v₄.dirty = { a with mode := newMode c req a, gid := req.newGid a, uid := req.newUid a } ∧
      v₄.changed = rightsChange c req a := by
  obtain ⟨hd₁, hm₁, hc₁⟩ := updateSUGID_ok h₁
  have hg : v₁.sent gid = req.sent gid :=
    (updateSUGID_request _ h₁).sent_eq fun _ => rfl
  have hu : v₂.sent uid = req.sent uid := by
    rw [sent, updateGID_request h₂]
    exact (updateSUGID_request _ h₁).sent_eq fun _ => rfl
  have hm : v₃.sent mode = (req.sent mode).map (clearedMode c req a) := by
    rw [sent, updateUID_request h₃, updateGID_request h₂]
    exact hm₁
  obtain ⟨hd₂, hc₂⟩ := updateGID_eq h₂ (req.newGid a) (by rw [hg, hd₁]; rfl)
  obtain ⟨hd₃, hc₃⟩ := updateUID_eq h₃ (req.newUid a) (by rw [hu, hd₂, hd₁]; rfl)
  obtain ⟨hd₄, hc₄⟩ := updateMode_eq h₄ (newMode c req a) (by
    rw [hm, hd₃, hd₂, hd₁, newMode, getD_map])
  refine ⟨?_, ?_⟩
  · rw [hd₄, hd₃, hd₂, hd₁]
  · rw [hc₄, hc₃, hc₂, hc₁, hd₃, hd₂, hd₁, rightsChange]

end Rights

/-! ### Times -/

variable {past : Except Err Bool}

section Times

variable {c : Caller} {req : UpdateInodeAttrReq} {now : Time} {a : Attr} {v v' : UpdateVars}
  {f : TimeField}

theorem setTime_change (hs : v.sent f.reqSec = req.sent f.reqSec)
    (hns : v.sent f.reqNsec = req.sent f.reqNsec) (h : setTime c f v = .ok v') :
    v'.changed = (v.changed || (req.sent f.reqSec != some (f.sec v.dirty) ||
        req.sent f.reqNsec != some (f.nsec v.dirty))) ∧
      ((req.sent f.reqSec != some (f.sec v.dirty) ||
        req.sent f.reqNsec != some (f.nsec v.dirty)) = false → v' = v) := by
  obtain ⟨sec, hsec, -⟩ := bind_eq_ok.mp h
  have hsec := field_eq_ok.mp hsec
  rw [setTime_eq hsec] at h
  rw [← hs, ← hns, hsec]
  rcases hn : v.sent f.reqNsec with _ | nsec <;> rw [hn] at h <;> dsimp only at h
  · split_ifs at h
    split at h <;> cases h
  split_ifs at h with hsame
  · cases h
    simp [hsame.1, hsame.2]
  split at h
  · cases h
  cases h
  have hne : (some sec != some (f.sec v.dirty) || some nsec != some (f.nsec v.dirty)) =
      true := by
    simp only [Bool.or_eq_true, bne_iff_ne, ne_eq, some.injEq]
    by_contra hno
    simp only [not_or, not_not] at hno
    exact hsame ⟨hno.1.symm, hno.2.symm⟩
  rw [hne]
  exact ⟨(Bool.or_true _).symm, fun hf => by cases hf⟩

theorem updateTime_change (hpast : ∀ b, past = .ok b → b = decide ((req.sent f.reqSec).getD 0 < 0))
    (hs : v.sent f.reqSec = req.sent f.reqSec) (hns : v.sent f.reqNsec = req.sent f.reqNsec)
    (ha : f.sec v.dirty = f.sec a ∧ f.nsec v.dirty = f.nsec a)
    (h : updateTime c req now f past v = .ok v') :
    v'.changed = (v.changed || f.changes req a) ∧ (f.changes req a = false → v' = v) := by
  have hnow : setTimeNow c now f v = .ok v' → v'.changed = true := by
    intro h
    rw [setTimeNow] at h
    split_ifs at h
    cases h
    rfl
  rw [updateTime] at h
  rw [TimeField.changes, ← ha.1, ← ha.2]
  cases hn : req.has f.nowBit with
  | true =>
    rw [hn] at h
    rw [hnow h]
    simp
  | false =>
    rw [hn] at h
    cases hb : req.has f.bit with
    | false =>
      rw [hb] at h
      cases h
      simp
    | true =>
      rw [hb] at h
      obtain ⟨b, hp, h⟩ := bind_eq_ok.mp (show (past >>= fun present =>
        if present then setTimeNow c now f v else setTime c f v) = .ok v' from h)
      have hb := hpast b hp
      by_cases hneg : (req.sent f.reqSec).getD 0 < 0
      · rw [hb, decide_eq_true hneg, if_pos rfl] at h
        rw [hnow h]
        simp [hneg]
      rw [hb, decide_eq_false hneg, if_neg Bool.false_ne_true] at h
      have hset := setTime_change hs hns h
      simpa [hneg] using hset

end Times

/-! ### The whole update -/

section Whole

variable {c : Caller} {req : UpdateInodeAttrReq} {now : Time} {a r : Attr} {v v' : UpdateVars}

theorem updateAtime_change (hr : (req.vars a).SameRequest v)
    (ha : v.dirty.atime = a.atime ∧ v.dirty.atimens = a.atimens)
    (h : updateAtime c req now v = .ok v') :
    v'.changed = (v.changed || atimeField.changes req a) ∧
      (atimeField.changes req a = false → v' = v) := by
  have hs : v.sent atime = req.sent atime := hr.sent_eq fun _ => rfl
  refine updateTime_change (fun b hb => ?_) hs (hr.sent_eq fun _ => rfl) ha h
  obtain ⟨m, hm, hb⟩ := bind_eq_ok.mp hb
  cases hb
  rw [show req.sent atimeField.reqSec = v.sent atime from hs.symm, sent, deref_eq_ok.mp hm]
  rfl

theorem updateMtime_change (hr : (req.vars a).SameRequest v)
    (ha : v.dirty.mtime = a.mtime ∧ v.dirty.mtimens = a.mtimens)
    (h : updateMtime c req now v = .ok v') :
    v'.changed = (v.changed || mtimeField.changes req a) ∧
      (mtimeField.changes req a = false → v' = v) := by
  have hs : v.sent mtime = req.sent mtime := hr.sent_eq fun _ => rfl
  refine updateTime_change (fun b hb => ?_) hs (hr.sent_eq fun _ => rfl) ha h
  obtain ⟨sec, hsec, hb⟩ := bind_eq_ok.mp hb
  cases hb
  rw [show req.sent mtimeField.reqSec = v.sent mtime from hs.symm,
    field_eq_ok.mp hsec]
  rfl

theorem updateFlags_change (h : updateFlags req v = .ok v') :
    v'.changed = (v.changed || req.has setAttrFlag) ∧ (req.has setAttrFlag = false → v' = v) ∧
      v'.dirty.epoch = v.dirty.epoch := by
  obtain ⟨hbit, rfl⟩ | ⟨hbit, flags, -, rfl⟩ := takeField_ok h <;> simp [hbit, UpdateVars.set]

theorem updateSize_change (h : updateSize req now v = .ok v') :
    v'.changed = (v.changed || req.has setAttrSize) ∧ (req.has setAttrSize = false → v' = v) ∧
      v'.dirty.epoch = v.dirty.epoch := by
  obtain ⟨hbit, rfl⟩ | ⟨hbit, size, -, rfl⟩ := takeField_ok h <;> simp [hbit, UpdateVars.set]

theorem updateTime_epoch {f : TimeField} (hf : ∀ x sec nsec, (f.put x sec nsec).epoch = x.epoch)
    (h : updateTime c req now f past v = .ok v') : v'.dirty.epoch = v.dirty.epoch := by
  obtain rfl | ⟨sec, nsec, rfl⟩ := updateTime_ok h
  · rfl
  · exact hf _ _ _

structure Updated (c : Caller) (req : UpdateInodeAttrReq) (now : Time) (a r : Attr) : Prop where
  mode : r.mode = newMode c req a
  epoch : r.epoch = if req.changes c a then a.epoch + 1 else a.epoch
  same : req.changes c a = false → r = a.setCtime now

theorem eq_of_rightsChange (h : rightsChange c req a = false) :
    { a with mode := newMode c req a, gid := req.newGid a, uid := req.newUid a } = a := by
  simp only [rightsChange, Bool.or_eq_false_iff, bne_eq_false_iff_eq] at h
  obtain ⟨⟨⟨hset, hg⟩, hu⟩, hm⟩ := h
  have hclear : clearsSetId req a = false := by
    rw [clearsSetId]
    cases ho : req.namesOwner with
    | false => simp
    | true =>
      rw [ho, Bool.true_and, Bool.or_eq_false_iff] at hset
      rw [hset.2]
      rfl
  have hid : clearedMode c req a a.mode = a.mode := by simp [clearedMode, hclear]
  rw [hg, hu, hm, hid]

theorem updateAttr_updated (h : updateAttr c req now a = .ok r) : Updated c req now a r := by
  simp only [updateAttr, bind_eq_ok] at h
  obtain ⟨v₁, h₁, v₂, h₂, v₃, h₃, v₄, h₄, v₅, h₅, v₆, h₆, v₇, h₇, v₈, h₈, h⟩ := h
  have hr₄ : (req.vars a).SameRequest v₄ :=
    (updateSUGID_request _ h₁).trans ((of_eq (updateGID_request h₂)).trans
      ((of_eq (updateUID_request h₃)).trans (updateMode_request h₄)))
  have hr₅ := hr₄.trans (.of_eq (updateAtime_rights h₅).reqAttr)
  obtain ⟨hd₄, hc₄⟩ := updateRights_ok h₁ h₂ h₃ h₄
  obtain ⟨hc₅, hs₅⟩ := updateAtime_change hr₄ (by rw [hd₄]; exact ⟨rfl, rfl⟩) h₅
  have hmtime : v₅.dirty.mtime = a.mtime ∧ v₅.dirty.mtimens = a.mtimens := by
    have hkeep : v₅.dirty.mtime = v₄.dirty.mtime ∧ v₅.dirty.mtimens = v₄.dirty.mtimens := by
      obtain rfl | ⟨sec, nsec, rfl⟩ := updateTime_ok h₅ <;> exact ⟨rfl, rfl⟩
    rw [hd₄] at hkeep
    exact hkeep
  obtain ⟨hc₆, hs₆⟩ := updateMtime_change hr₅ hmtime h₆
  obtain ⟨hc₇, hs₇, he₇⟩ := updateFlags_change h₇
  obtain ⟨hc₈, hs₈, he₈⟩ := updateSize_change h₈
  have hmode : v₈.dirty.mode = newMode c req a := by
    rw [(updateSize_rights h₈).mode, (updateFlags_rights h₇).mode, (updateMtime_rights h₆).mode,
      (updateAtime_rights h₅).mode, hd₄]
  have hepoch : v₈.dirty.epoch = a.epoch := by
    rw [he₈, he₇, updateTime_epoch (fun _ _ _ => rfl) h₆, updateTime_epoch (fun _ _ _ => rfl) h₅,
      hd₄]
  have hchanged : v₈.changed = req.changes c a := by
    rw [hc₈, hc₇, hc₆, hc₅, hc₄, UpdateInodeAttrReq.changes]
  rw [hchanged] at h
  cases h
  refine ⟨?_, ?_, fun hno => ?_⟩
  · split <;> exact hmode
  · split
    · exact congrArg (· + 1) hepoch
    · exact hepoch
  · rw [if_neg (by simp [hno])]
    simp only [UpdateInodeAttrReq.changes, Bool.or_eq_false_iff] at hno
    obtain ⟨⟨⟨⟨hrights, hat⟩, hmt⟩, hfl⟩, hsz⟩ := hno
    rw [hs₈ hsz, hs₇ hfl, hs₆ hmt, hs₅ hat, hd₄, eq_of_rightsChange hrights]

end Whole

end HugoFS.Meta
