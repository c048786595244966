import HugoFS.Meta.Service

/-!
# UpdateInodeAttr

The attributes of an inode are changed field by field, each under a bit of the
request's mask and with its own permission check. The fields of the request are
pointers: using one that is missing is a nil dereference, in a log message as well
as in an assignment.
-/

namespace HugoFS.Meta

open KV ModifyAttr

def setAttrMode : UInt32 := 1
def setAttrUID : UInt32 := 2
def setAttrGID : UInt32 := 4
def setAttrSize : UInt32 := 8
def setAttrAtime : UInt32 := 16
def setAttrMtime : UInt32 := 32
def setAttrAtimeNow : UInt32 := 128
def setAttrMtimeNow : UInt32 := 256
def setAttrFlag : UInt32 := 32768

structure UpdateInodeAttrReq where
  ino : Ino
  attr : Option ModifyAttr
  set : UInt32
deriving DecidableEq

def UpdateInodeAttrReq.has (req : UpdateInodeAttrReq) (bits : UInt32) : Bool :=
  req.set &&& bits != 0

def deref {α : Type} : Option α → Except Err α
  | some a => .ok a
  | none => .error .panic

structure UpdateVars where
  dirty : Attr
  reqAttr : Option ModifyAttr
  changed : Bool

namespace UpdateVars

def field {α : Type} (v : UpdateVars) (f : ModifyAttr → Option α) : Except Err α := do
  let m ← deref v.reqAttr
  deref (f m)

def maskMode (v : UpdateVars) (mask : UInt32) : Except Err UpdateVars := do
  let mode ← v.field ModifyAttr.mode
  pure { v with reqAttr := v.reqAttr.map fun m => { m with mode := some (mode &&& mask) } }

def set (v : UpdateVars) (a : Attr) : UpdateVars := { v with dirty := a, changed := true }

end UpdateVars

section Update

variable (c : Caller) (req : UpdateInodeAttrReq) (now : Time)

def clearSUGID (v : UpdateVars) : Except Err UpdateVars :=
  if v.dirty.isDir then .ok v
  else
    let mask : UInt32 := if c.uid != 0 || (v.dirty.mode >>> 3) &&& 1 != 0 then 0o1777 else 0o3777
    { v with dirty := { v.dirty with mode := v.dirty.mode &&& mask } }.maskMode mask

def updateSUGID (v : UpdateVars) : Except Err UpdateVars :=
  let owner := req.has (setAttrUID ||| setAttrGID)
  let v :=
    if owner && req.has setAttrMode then
      v.set { v.dirty with mode := v.dirty.mode ||| (v.dirty.mode &&& 0o6000) }
    else v
  if v.dirty.mode &&& 0o6000 != 0 && owner then do
    let v ← clearSUGID c v
    pure { v with changed := true }
  else .ok v

def updateGID (v : UpdateVars) : Except Err UpdateVars :=
  if req.has setAttrGID then
    if c.uid != 0 && c.uid != v.dirty.uid then do
      let _ ← v.field ModifyAttr.uid
      .error (.errno .EPERM)
    else do
      let gid ← v.field ModifyAttr.gid
      pure (if v.dirty.gid != gid then v.set { v.dirty with gid := gid } else v)
  else .ok v

def updateUID (v : UpdateVars) : Except Err UpdateVars :=
  if req.has setAttrUID then do
    let uid ← v.field ModifyAttr.uid
    if v.dirty.uid != uid then
      if c.uid != 0 then do
        let _ ← v.field ModifyAttr.gid
        .error (.errno .EPERM)
      else pure (v.set { v.dirty with uid := uid })
    else pure v
  else .ok v

def dropSetgid (v : UpdateVars) : Except Err UpdateVars :=
  if c.uid != 0 then do
    let mode ← v.field ModifyAttr.mode
    if mode &&& 0o2000 != 0 && c.gid != v.dirty.gid then v.maskMode 0o5777 else pure v
  else .ok v

def updateMode (v : UpdateVars) : Except Err UpdateVars :=
  if req.has setAttrMode then do
    let v ← dropSetgid c v
    let mode ← v.field ModifyAttr.mode
    if mode != v.dirty.mode then
      if c.uid != 0 && c.gid != v.dirty.uid &&
          (v.dirty.mode &&& 0o1777 != mode &&& 0o1777 ||
            (v.dirty.mode &&& 0o2000 < mode &&& 0o2000 ||
              v.dirty.mode &&& 0o4000 < mode &&& 0o4000)) then
        .error (.errno .EPERM)
      else pure (v.set { v.dirty with mode := mode })
    else pure v
  else .ok v

def timeDenied (v : UpdateVars) : Bool :=
  c.uid != v.dirty.uid && accessDenied c v.dirty modeMaskW

structure TimeField where
  bit : UInt32
  nowBit : UInt32
  reqSec : ModifyAttr → Option Int
  reqNsec : ModifyAttr → Option UInt32
  sec : Attr → Int
  nsec : Attr → UInt32
  put : Attr → Int → UInt32 → Attr

def atimeField : TimeField where
  bit := setAttrAtime
  nowBit := setAttrAtimeNow
  reqSec := ModifyAttr.atime
  reqNsec := ModifyAttr.atimens
  sec := Attr.atime
  nsec := Attr.atimens
  put a sec nsec := { a with atime := sec, atimens := nsec }

def mtimeField : TimeField where
  bit := setAttrMtime
  nowBit := setAttrMtimeNow
  reqSec := ModifyAttr.mtime
  reqNsec := ModifyAttr.mtimens
  sec := Attr.mtime
  nsec := Attr.mtimens
  put a sec nsec := { a with mtime := sec, mtimens := nsec }

def setTimeNow (f : TimeField) (v : UpdateVars) : Except Err UpdateVars :=
  if timeDenied c v then .error (.errno .EACCES)
  else .ok (v.set (f.put v.dirty now.sec now.nsec))

def setTime (f : TimeField) (v : UpdateVars) : Except Err UpdateVars := do
  let sec ← v.field f.reqSec
  let same ← if f.sec v.dirty != sec then pure false
    else do
      let nsec ← v.field f.reqNsec
      pure (f.nsec v.dirty == nsec)
  if same then pure v
  else if v.dirty.uid == 0 && c.uid != 0 then .error (.errno .EPERM)
  else if timeDenied c v then .error (.errno .EACCES)
  else do
    let nsec ← v.field f.reqNsec
    pure (v.set (f.put v.dirty sec nsec))

def updateTime (f : TimeField) (past : Except Err Bool) (v : UpdateVars) :
    Except Err UpdateVars := do
  let present ← if req.has f.nowBit then pure true
    else if req.has f.bit then past
    else pure false
  if present then setTimeNow c now f v
  else if req.has f.bit then setTime c f v
  else pure v

def updateAtime (v : UpdateVars) : Except Err UpdateVars :=
  updateTime c req now atimeField (do
    let m ← deref v.reqAttr
    pure (decide (m.atime.getD 0 < 0))) v

def updateMtime (v : UpdateVars) : Except Err UpdateVars :=
  updateTime c req now mtimeField (do
    let sec ← v.field ModifyAttr.mtime
    pure (decide (sec < 0))) v

def updateFlags (v : UpdateVars) : Except Err UpdateVars :=
  if req.has setAttrFlag then do
    let flags ← v.field ModifyAttr.flags
    pure (v.set { v.dirty with flags := flags })
  else .ok v

def updateSize (v : UpdateVars) : Except Err UpdateVars :=
  if req.has setAttrSize then do
    let size ← v.field ModifyAttr.size
    pure (v.set { v.dirty with size := size, mtime := now.sec, mtimens := now.nsec })
  else .ok v

def updateAttr (dirty : Attr) : Except Err Attr := do
  let v ← updateSUGID c req ⟨dirty, req.attr, false⟩
  let v ← updateGID c req v
  let v ← updateUID c req v
  let v ← updateMode c req v
  let v ← updateAtime c req now v
  let v ← updateMtime c req now v
  let v ← updateFlags req v
  let v ← updateSize req now v
  let a := v.dirty.setCtime now
  pure (if v.changed then a.bumpEpoch else a)

def updateInodeAttrTxn : Txn Attr := do
  let i := req.ino
  let dirty ← getAttr i fun _ => .status .notFound s!"inode:{i} not exists"
  match updateAttr c req now dirty with
  | .error e => .throw e
  | .ok a =>
    saveAttr a
    pure a

def updateInodeAttr : Request Attr := .txn (updateInodeAttrTxn c req now)

end Update

/-! ### What a request leaves -/

theorem bind_eq_ok {α β : Type} {x : Except Err α} {f : α → Except Err β} {b : β} :
    (x >>= f) = .ok b ↔ ∃ a, x = .ok a ∧ f a = .ok b := by
  cases x with
  | error e => simp [bind, Except.bind]
  | ok a => simp [bind, Except.bind]

theorem deref_eq_ok {α : Type} {x : Option α} {a : α} : deref x = .ok a ↔ x = some a := by
  cases x with
  | none => simp [deref]
  | some b => simp [deref]

section Effect

variable {c : Caller} {req : UpdateInodeAttrReq} {now : Time}
variable {v v' : UpdateVars} {f : TimeField} {past : Except Err Bool}

def TimeField.Touches (f : TimeField) (v v' : UpdateVars) : Prop :=
  v' = v ∨ ∃ sec nsec, v' = v.set (f.put v.dirty sec nsec)

theorem setTimeNow_ok (h : setTimeNow c now f v = .ok v') :
    f.Touches v v' := by
  rw [setTimeNow] at h
  split at h
  · cases h
  · cases h
    exact .inr ⟨_, _, rfl⟩

theorem setTime_ok (h : setTime c f v = .ok v') :
    f.Touches v v' := by
  rw [setTime] at h
  obtain ⟨sec, -, h⟩ := bind_eq_ok.mp h
  -- the comparison answers a boolean, after which only the last branch writes
  have hwrite : ∀ same : Bool, (if same then (pure v : Except Err UpdateVars)
      else if v.dirty.uid == 0 && c.uid != 0 then .error (.errno .EPERM)
      else if timeDenied c v then .error (.errno .EACCES)
      else do
        let nsec ← v.field f.reqNsec
        pure (v.set (f.put v.dirty sec nsec))) = .ok v' → f.Touches v v' := by
    intro same h
    split at h
    · cases h
      exact .inl rfl
    split at h
    · cases h
    split at h
    · cases h
    obtain ⟨nsec, -, h⟩ := bind_eq_ok.mp h
    cases h
    exact .inr ⟨sec, nsec, rfl⟩
  by_cases hsec : (f.sec v.dirty != sec) = true
  · exact hwrite false ((if_pos hsec).symm.trans h)
  · obtain ⟨nsec, -, h⟩ := bind_eq_ok.mp ((if_neg hsec).symm.trans h)
    exact hwrite _ h

theorem updateTime_ok (h : updateTime c req now f past v = .ok v') : f.Touches v v' := by
  have hset : ∀ present : Bool, (if present then setTimeNow c now f v
      else if req.has f.bit then setTime c f v else pure v) = .ok v' → f.Touches v v' := by
    intro present h
    split at h
    · exact setTimeNow_ok h
    split at h
    · exact setTime_ok h
    · cases h
      exact .inl rfl
  rw [updateTime] at h
  by_cases hnow : req.has f.nowBit = true
  · exact hset true ((if_pos hnow).symm.trans h)
  have h := (if_neg hnow).symm.trans h
  by_cases hbit : req.has f.bit = true
  · obtain ⟨present, -, h⟩ := bind_eq_ok.mp ((if_pos hbit).symm.trans h)
    exact hset present h
  · exact hset false ((if_neg hbit).symm.trans h)

structure UpdateVars.SameRights (v v' : UpdateVars) : Prop where
  inode : v'.dirty.inode = v.dirty.inode
  mode : v'.dirty.mode = v.dirty.mode
  uid : v'.dirty.uid = v.dirty.uid
  gid : v'.dirty.gid = v.dirty.gid
  reqAttr : v'.reqAttr = v.reqAttr

theorem UpdateVars.SameRights.refl (v : UpdateVars) : v.SameRights v := ⟨rfl, rfl, rfl, rfl, rfl⟩

theorem UpdateVars.SameRights.trans {v v' v'' : UpdateVars} (h : v.SameRights v')
    (h' : v'.SameRights v'') : v.SameRights v'' :=
  ⟨h'.inode.trans h.inode, h'.mode.trans h.mode, h'.uid.trans h.uid, h'.gid.trans h.gid,
    h'.reqAttr.trans h.reqAttr⟩

theorem updateAtime_rights (h : updateAtime c req now v = .ok v') :
    v.SameRights v' := by
  obtain rfl | ⟨sec, nsec, rfl⟩ := updateTime_ok h
  · exact .refl v'
  · exact ⟨rfl, rfl, rfl, rfl, rfl⟩

theorem updateMtime_rights (h : updateMtime c req now v = .ok v') :
    v.SameRights v' := by
  obtain rfl | ⟨sec, nsec, rfl⟩ := updateTime_ok h
  · exact .refl v'
  · exact ⟨rfl, rfl, rfl, rfl, rfl⟩

theorem takeField_ok {α : Type} {bit : Bool} {g : ModifyAttr → Option α} {put : α → Attr}
    (h : (if bit then do
        let x ← v.field g
        pure (v.set (put x))
      else .ok v) = .ok v') :
    bit = false ∧ v' = v ∨ bit = true ∧ ∃ x, v.field g = .ok x ∧ v' = v.set (put x) := by
  cases bit with
  | false =>
    cases h
    exact .inl ⟨rfl, rfl⟩
  | true =>
    obtain ⟨x, hx, h⟩ := bind_eq_ok.mp h
    cases h
    exact .inr ⟨rfl, x, hx, rfl⟩

theorem updateFlags_rights (h : updateFlags req v = .ok v') :
    v.SameRights v' := by
  obtain ⟨-, rfl⟩ | ⟨-, flags, -, rfl⟩ := takeField_ok h <;> exact ⟨rfl, rfl, rfl, rfl, rfl⟩

theorem updateSize_rights (h : updateSize req now v = .ok v') :
    v.SameRights v' := by
  obtain ⟨-, rfl⟩ | ⟨-, size, -, rfl⟩ := takeField_ok h <;> exact ⟨rfl, rfl, rfl, rfl, rfl⟩

theorem updateSize_ok (hsize : req.has setAttrSize = true)
    (h : updateSize req now v = .ok v') : v.field size = .ok v'.dirty.size := by
  obtain ⟨hno, -⟩ | ⟨-, size, hfield, rfl⟩ := takeField_ok h
  · cases hsize.symm.trans hno
  · exact hfield

theorem updateAttr_ok {dirty a : Attr} (h : updateAttr c req now dirty = .ok a) :
    ∃ v₁ v₂ v₃ v₄ v₅ v₆, updateSUGID c req ⟨dirty, req.attr, false⟩ = .ok v₁ ∧
      updateGID c req v₁ = .ok v₂ ∧ updateUID c req v₂ = .ok v₃ ∧ updateMode c req v₃ = .ok v₄ ∧
      v₄.SameRights v₅ ∧ updateSize req now v₅ = .ok v₆ ∧
      (a.inode = v₆.dirty.inode ∧ a.mode = v₆.dirty.mode ∧ a.uid = v₆.dirty.uid ∧
        a.gid = v₆.dirty.gid ∧ a.size = v₆.dirty.size) := by
  simp only [updateAttr, bind_eq_ok] at h
  obtain ⟨v₁, h₁, v₂, h₂, v₃, h₃, v₄, h₄, va, ha, vm, hm, vf, hf, vs, hs, h⟩ := h
  refine ⟨v₁, v₂, v₃, v₄, vf, vs, h₁, h₂, h₃, h₄, ?_, hs, ?_⟩
  · exact (updateAtime_rights ha).trans ((updateMtime_rights hm).trans (updateFlags_rights hf))
  · cases h
    split <;> exact ⟨rfl, rfl, rfl, rfl, rfl⟩

theorem updateSUGID_of_not (h : req.has (setAttrUID ||| setAttrGID) = false) :
    updateSUGID c req v = .ok v := by
  simp [updateSUGID, h]

theorem updateGID_of_not (h : req.has setAttrGID = false) :
    updateGID c req v = .ok v :=
  if_neg (by simp [h])

theorem updateUID_of_not (h : req.has setAttrUID = false) :
    updateUID c req v = .ok v :=
  if_neg (by simp [h])

theorem updateMode_of_not (h : req.has setAttrMode = false) :
    updateMode c req v = .ok v :=
  if_neg (by simp [h])

theorem updateTime_of_not (hnow : req.has f.nowBit = false) (hbit : req.has f.bit = false) :
    updateTime c req now f past v = .ok v := by
  simp [updateTime, hnow, hbit]
  rfl

theorem updateFlags_of_not (h : req.has setAttrFlag = false) :
    updateFlags req v = .ok v :=
  if_neg (by simp [h])

theorem updateSize_of_not (h : req.has setAttrSize = false) :
    updateSize req now v = .ok v :=
  if_neg (by simp [h])

theorem updateAttr_size {dirty a : Attr} (howner : req.has (setAttrUID ||| setAttrGID) = false)
    (hgid : req.has setAttrGID = false) (huid : req.has setAttrUID = false)
    (hmode : req.has setAttrMode = false) (hsize : req.has setAttrSize = true)
    (h : updateAttr c req now dirty = .ok a) :
    (do let m ← deref req.attr; deref m.size) = .ok a.size ∧ a.mode = dirty.mode := by
  obtain ⟨v₁, v₂, v₃, v₄, v₅, v₆, h₁, h₂, h₃, h₄, hrights, hs, -, hm, -, -, hsz⟩ :=
    updateAttr_ok h
  rw [updateSUGID_of_not howner] at h₁
  cases h₁
  rw [updateGID_of_not hgid] at h₂
  cases h₂
  rw [updateUID_of_not huid] at h₃
  cases h₃
  rw [updateMode_of_not hmode] at h₄
  cases h₄
  have hfield := updateSize_ok hsize hs
  rw [UpdateVars.field, hrights.reqAttr] at hfield
  rw [hsz, hm, (updateSize_rights hs).mode, hrights.mode]
  exact ⟨hfield, rfl⟩

end Effect

end HugoFS.Meta
