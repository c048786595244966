import HugoFS.Meta.Permissions

/-!
# The fields that an update reads

A request of `UpdateInodeAttr` names fields by the bits of its mask. The steps read other fields
as well, when they clear set-id bits or refuse an owner. A field that is read and was not sent
is a nil dereference.
-/

namespace HugoFS.Meta

open KV UpdateVars Option ModifyAttr

/-! ### The fields that are sent -/

def UpdateInodeAttrReq.sent {α : Type} (req : UpdateInodeAttrReq) (f : ModifyAttr → Option α) :
    Option α := req.attr.bind f

def ModifyAttr.strip (m : ModifyAttr) : ModifyAttr := { m with mode := none }

namespace UpdateVars

variable {α : Type} {v v' : UpdateVars} {f : ModifyAttr → Option α}

def sent (v : UpdateVars) (f : ModifyAttr → Option α) : Option α := v.reqAttr.bind f

theorem field_eq (v : UpdateVars) (f : ModifyAttr → Option α) : v.field f = deref (v.sent f) := by
  rw [field, sent]
  rcases v.reqAttr with _ | m <;> rfl

theorem field_eq_ok {x : α} : v.field f = .ok x ↔ v.sent f = some x := by
  rw [field_eq]
  rcases v.sent f with _ | y
  · exact iff_of_false (by rintro ⟨⟩) (by rintro ⟨⟩)
  · simp [deref]

theorem field_eq_panic : v.field f = .error .panic ↔ v.sent f = none := by
  rw [field_eq]
  rcases v.sent f with _ | y
  · exact iff_of_true rfl rfl
  · exact iff_of_false (by rintro ⟨⟩) (by rintro ⟨⟩)

structure SameRequest (v v' : UpdateVars) : Prop where
  strip : v'.reqAttr.map ModifyAttr.strip = v.reqAttr.map ModifyAttr.strip
  mode : (v'.sent ModifyAttr.mode).isSome = (v.sent ModifyAttr.mode).isSome

theorem SameRequest.refl (v : UpdateVars) : v.SameRequest v := ⟨rfl, rfl⟩

theorem SameRequest.of_eq (h : v'.reqAttr = v.reqAttr) : v.SameRequest v' := by
  constructor
  · rw [h]
  · rw [sent, sent, h]

theorem SameRequest.trans {v'' : UpdateVars} (h : v.SameRequest v') (h' : v'.SameRequest v'') :
    v.SameRequest v'' := ⟨h'.strip.trans h.strip, h'.mode.trans h.mode⟩

theorem SameRequest.sent_eq (h : v.SameRequest v')
    (hf : ∀ m, f m.strip = f m) : v'.sent f = v.sent f := by
  have hbind : ∀ w : UpdateVars, (w.reqAttr.map ModifyAttr.strip).bind f = w.sent f := by
    intro w
    rw [sent, bind_map]
    exact congrArg _ (funext hf)
  rw [← hbind, ← hbind, h.strip]

def masked (v : UpdateVars) (mask : UInt32) : UpdateVars :=
  { v with reqAttr := v.reqAttr.map fun m => { m with mode := m.mode.map (· &&& mask) } }

theorem maskMode_eq_panic {mask : UInt32} :
    v.maskMode mask = .error .panic ↔ v.sent mode = none := by
  rw [maskMode, field_eq]
  rcases v.sent mode with _ | m
  · exact iff_of_true rfl rfl
  · exact iff_of_false (by rintro ⟨⟩) (by rintro ⟨⟩)

theorem maskMode_ok {mask : UInt32} (h : v.maskMode mask = .ok v') : v' = v.masked mask := by
  obtain ⟨mode, hmode, h⟩ := bind_eq_ok.mp h
  obtain ⟨m, hm, hmm⟩ := bind_eq_some_iff.mp (field_eq_ok.mp hmode)
  cases h
  simp only [masked, hm, map_some, hmm]

theorem sameRequest_masked (v : UpdateVars) (mask : UInt32) : v.SameRequest (v.masked mask) := by
  constructor
  · rw [masked, map_map]
    rfl
  · rw [sent, sent, masked]
    rcases v.reqAttr with _ | m
    · rfl
    · simp

theorem sent_mode_masked (v : UpdateVars) (mask : UInt32) :
    (v.masked mask).sent mode = (v.sent mode).map (· &&& mask) := by
  rw [sent, sent, masked]
  rcases v.reqAttr with _ | m <;> rfl

end UpdateVars

theorem bind_eq_panic {α β : Type} {x : Except Err α} {f : α → Except Err β} :
    (x >>= f) = .error .panic ↔ x = .error .panic ∨ ∃ a, x = .ok a ∧ f a = .error .panic := by
  cases x with
  | error e => simp [bind, Except.bind]
  | ok a => simp [bind, Except.bind]

/-! ### Set-id bits -/

section SetId

variable (c : Caller) (req : UpdateInodeAttrReq) (a : Attr)

def UpdateInodeAttrReq.namesOwner : Bool := req.has (setAttrUID ||| setAttrGID)

def clearsSetId : Bool := a.mode &&& 0o6000 != 0 && req.namesOwner && !a.isDir

def setIdMask : UInt32 := if c.uid != 0 || (a.mode >>> 3) &&& 1 != 0 then 0o1777 else 0o3777

theorem updateSUGID_eq (m : Option ModifyAttr) :
    updateSUGID c req ⟨a, m, false⟩ =
      if clearsSetId req a then do
        let v ← maskMode ⟨{ a with mode := a.mode &&& setIdMask c a }, m,
          req.namesOwner && req.has setAttrMode⟩ (setIdMask c a)
        pure { v with changed := true }
      else .ok ⟨a, m, req.namesOwner && (req.has setAttrMode || a.mode &&& 0o6000 != 0)⟩ := by
  have hset : (if req.namesOwner && req.has setAttrMode then
        set ⟨a, m, false⟩ { a with mode := a.mode ||| (a.mode &&& 0o6000) }
      else ⟨a, m, false⟩ : UpdateVars) = ⟨a, m, req.namesOwner && req.has setAttrMode⟩ := by
    rw [Masks.or_and_self]
    cases req.namesOwner && req.has setAttrMode <;> rfl
  unfold updateSUGID
  dsimp only
  rw [show req.has (setAttrUID ||| setAttrGID) = req.namesOwner from rfl, hset]
  dsimp only
  by_cases h6 : (a.mode &&& 0o6000 != 0 && req.namesOwner) = true
  · rw [if_pos h6, clearSUGID]
    cases hd : a.isDir with
    | true =>
      have hno : clearsSetId req a = false := by simp [clearsSetId, hd]
      rw [if_pos rfl, hno, if_neg (by simp)]
      simp only [Bool.and_eq_true] at h6
      simp [h6.1, h6.2, bind, Except.bind, pure, Except.pure]
    | false =>
      have hyes : clearsSetId req a = true := by simp [clearsSetId, hd, h6]
      rw [if_neg (by simp), hyes, if_pos rfl]
      rfl
  · have hno : clearsSetId req a = false := by simp [clearsSetId, h6]
    rw [if_neg h6, hno, if_neg (by simp)]
    have hch : (req.namesOwner && req.has setAttrMode) =
        (req.namesOwner && (req.has setAttrMode || a.mode &&& 0o6000 != 0)) := by
      cases ho : req.namesOwner with
      | false => rfl
      | true =>
        simp only [ho, Bool.and_true, Bool.not_eq_true] at h6
        rw [h6, Bool.or_false]
    rw [hch]

end SetId

/-! ### Reads that find nothing -/

variable {past : Except Err Bool} {f : TimeField}

section Panics

variable {c : Caller} {req : UpdateInodeAttrReq} {now : Time} {a : Attr} {v v' : UpdateVars}

theorem updateSUGID_panic (m : Option ModifyAttr) :
    updateSUGID c req ⟨a, m, false⟩ = .error .panic ↔
      clearsSetId req a = true ∧ m.bind mode = none := by
  rw [updateSUGID_eq]
  cases clearsSetId req a with
  | true =>
    rw [if_pos rfl, bind_eq_panic, maskMode_eq_panic]
    simp [sent, pure, Except.pure]
  | false => simp

theorem updateGID_panic :
    updateGID c req v = .error .panic ↔ req.has setAttrGID = true ∧
      (if c.uid ≠ 0 ∧ c.uid ≠ v.dirty.uid then v.sent uid = none
        else v.sent gid = none) := by
  rw [updateGID]
  cases req.has setAttrGID with
  | false => simp
  | true =>
    by_cases hc : c.uid ≠ 0 ∧ c.uid ≠ v.dirty.uid
    · rw [if_pos rfl, if_pos (by simpa using hc), if_pos hc, bind_eq_panic,
        field_eq_panic]
      simp
    rw [if_pos rfl, if_neg (by simpa using hc), if_neg hc, bind_eq_panic,
      field_eq_panic]
    simp [pure, Except.pure]

theorem updateUID_panic :
    updateUID c req v = .error .panic ↔ req.has setAttrUID = true ∧
      (v.sent uid = none ∨ v.sent uid ≠ some v.dirty.uid ∧ c.uid ≠ 0 ∧
        v.sent gid = none) := by
  rw [updateUID]
  cases req.has setAttrUID with
  | false => simp
  | true =>
    rw [if_pos rfl, bind_eq_panic, field_eq_panic]
    rcases hu : v.sent uid with _ | uid
    · simp
    simp only [field_eq_ok, hu, reduceCtorEq, false_or, true_and, Option.some.injEq,
      exists_eq_left', ne_eq]
    by_cases hsame : v.dirty.uid = uid
    · simp [hsame, pure, Except.pure]
    by_cases h0 : c.uid = 0
    · simp [hsame, h0, pure, Except.pure]
    rw [if_pos (by simpa using hsame), if_pos (by simpa using h0), bind_eq_panic,
      field_eq_panic]
    simp [h0, Ne.symm hsame]

theorem dropSetgid_avoids (hm : (v.sent mode).isSome = true) :
    dropSetgid c v ≠ .error .panic := by
  intro h
  rw [dropSetgid] at h
  split_ifs at h
  rcases bind_eq_panic.mp h with h | ⟨mode, -, h⟩
  · rw [field_eq_panic.mp h] at hm
    cases hm
  split_ifs at h
  · rw [maskMode_eq_panic.mp h] at hm
    cases hm
  · cases h

theorem dropSetgid_request (h : dropSetgid c v = .ok v') : v.SameRequest v' := by
  rw [dropSetgid] at h
  split_ifs at h
  · obtain ⟨mode, -, h⟩ := bind_eq_ok.mp h
    split_ifs at h
    · rw [maskMode_ok h]
      exact v.sameRequest_masked _
    · cases h
      exact .refl v
  · cases h
    exact .refl v

theorem updateMode_avoids (hm : req.has setAttrMode = true → (v.sent mode).isSome = true) :
    updateMode c req v ≠ .error .panic := by
  intro h
  rw [updateMode] at h
  split_ifs at h with hset
  rcases bind_eq_panic.mp h with h | ⟨w, hw, h⟩
  · exact dropSetgid_avoids (hm hset) h
  rcases bind_eq_panic.mp h with h | ⟨mode, -, h⟩
  · have hsome := (dropSetgid_request hw).mode.trans (hm hset)
    rw [field_eq_panic.mp h] at hsome
    cases hsome
  · split_ifs at h <;> cases h

def TimeField.Given (f : TimeField) (req : UpdateInodeAttrReq) : Prop :=
  req.has f.bit = true → req.has f.nowBit = false → ¬(req.sent f.reqSec).getD 0 < 0 →
    (req.sent f.reqNsec).isSome = true

structure TimeField.Reads (f : TimeField) (req : UpdateInodeAttrReq) (past : Except Err Bool)
    (v : UpdateVars) : Prop where
  sec : req.has f.bit = true → (v.sent f.reqSec).isSome = true
  past : req.has f.bit = true → past = .ok (decide ((v.sent f.reqSec).getD 0 < 0))

def setTimeRefused (c : Caller) (v : UpdateVars) : Option Errno :=
  if v.dirty.uid == 0 && c.uid != 0 then some .EPERM
  else if timeDenied c v then some .EACCES
  else none

theorem setTime_eq {sec : Int} (hs : v.sent f.reqSec = some sec) :
    setTime c f v = match v.sent f.reqNsec with
      | none =>
        if f.sec v.dirty = sec then .error .panic
        else match setTimeRefused c v with
          | some e => .error (.errno e)
          | none => .error .panic
      | some nsec =>
        if f.sec v.dirty = sec ∧ f.nsec v.dirty = nsec then .ok v
        else match setTimeRefused c v with
          | some e => .error (.errno e)
          | none => .ok (v.set (f.put v.dirty sec nsec)) := by
  rw [setTime, field_eq, field_eq, hs, setTimeRefused]
  rcases v.sent f.reqNsec with _ | nsec
  · by_cases hsec : f.sec v.dirty = sec
    · simp [hsec, deref, bind, Except.bind]
    · cases (v.dirty.uid == 0 && c.uid != 0) <;> cases timeDenied c v <;>
        simp [hsec, deref, bind, Except.bind, pure, Except.pure]
  by_cases hsec : f.sec v.dirty = sec <;> by_cases hnsec : f.nsec v.dirty = nsec <;>
    cases (v.dirty.uid == 0 && c.uid != 0) <;> cases timeDenied c v <;>
      simp [hsec, hnsec, deref, bind, Except.bind, pure, Except.pure]

theorem updateTime_eq (hr : f.Reads req past v) :
    updateTime c req now f past v =
      if req.has f.nowBit = true ∨ req.has f.bit = true ∧ (v.sent f.reqSec).getD 0 < 0 then
        setTimeNow c now f v
      else if req.has f.bit = true then setTime c f v
      else .ok v := by
  rw [updateTime]
  cases hnow : req.has f.nowBit with
  | true => simp [bind, Except.bind, pure, Except.pure]
  | false =>
    cases hbit : req.has f.bit with
    | false => simp [bind, Except.bind, pure, Except.pure]
    | true =>
      rw [hr.past hbit]
      by_cases hp : (v.sent f.reqSec).getD 0 < 0 <;> simp [hp, bind, Except.bind]

theorem updateTime_avoids (hr : f.Reads req past v)
    (hgiven : req.has f.bit = true → req.has f.nowBit = false → ¬(v.sent f.reqSec).getD 0 < 0 →
      (v.sent f.reqNsec).isSome = true) :
    updateTime c req now f past v ≠ .error .panic := by
  intro h
  rw [updateTime_eq hr] at h
  split_ifs at h with hpast hbit
  · rw [setTimeNow] at h
    split_ifs at h
    cases h
  rw [not_or, not_and, Bool.not_eq_true] at hpast
  obtain ⟨nsec, hn⟩ := isSome_iff_exists.mp (hgiven hbit hpast.1 (hpast.2 hbit))
  obtain ⟨sec, hs⟩ := isSome_iff_exists.mp (hr.sec hbit)
  rw [setTime_eq hs, hn] at h
  dsimp only at h
  split_ifs at h
  split at h <;> cases h

theorem takeField_avoids {α : Type} {bit : Bool} {f : ModifyAttr → Option α} {put : α → Attr}
    (hf : bit = true → (v.sent f).isSome = true) :
    (if bit then do
        let x ← v.field f
        pure (v.set (put x))
      else .ok v : Except Err UpdateVars) ≠ .error .panic := by
  intro h
  split_ifs at h with hset
  rcases bind_eq_panic.mp h with h | ⟨x, -, h⟩
  · have hsome := hf hset
    rw [field_eq_panic.mp h] at hsome
    cases hsome
  · cases h

/-! The steps hand the request on; only the value of its mode changes. -/

theorem updateSUGID_request (m : Option ModifyAttr) (h : updateSUGID c req ⟨a, m, false⟩ = .ok v') :
    (⟨a, m, false⟩ : UpdateVars).SameRequest v' := by
  rw [updateSUGID_eq] at h
  split_ifs at h
  · obtain ⟨w, hw, h⟩ := bind_eq_ok.mp h
    cases h
    rw [maskMode_ok hw]
    exact ⟨(sameRequest_masked _ _).strip, (sameRequest_masked _ _).mode⟩
  · cases h
    exact .of_eq rfl

theorem updateGID_request (h : updateGID c req v = .ok v') : v'.reqAttr = v.reqAttr := by
  rw [updateGID] at h
  split_ifs at h
  · obtain ⟨uid, -, h⟩ := bind_eq_ok.mp h
    cases h
  · obtain ⟨gid, -, h⟩ := bind_eq_ok.mp h
    cases h
    split <;> rfl
  · cases h
    rfl

theorem updateUID_request (h : updateUID c req v = .ok v') : v'.reqAttr = v.reqAttr := by
  rw [updateUID] at h
  split at h
  · obtain ⟨uid, -, h⟩ := bind_eq_ok.mp h
    split at h
    · split at h
      · obtain ⟨gid, -, h⟩ := bind_eq_ok.mp h
        cases h
      · cases h
        rfl
    · cases h
      rfl
  · cases h
    rfl

theorem updateMode_request (h : updateMode c req v = .ok v') : v.SameRequest v' := by
  rw [updateMode] at h
  split_ifs at h
  · obtain ⟨w, hw, h⟩ := bind_eq_ok.mp h
    obtain ⟨mode, -, h⟩ := bind_eq_ok.mp h
    have hsame := dropSetgid_request hw
    split_ifs at h <;> cases h <;> exact ⟨hsame.strip, hsame.mode⟩
  · cases h
    exact .refl v

end Panics

structure UpdateInodeAttrReq.Named (req : UpdateInodeAttrReq) : Prop where
  mode : req.has setAttrMode = true → (req.sent ModifyAttr.mode).isSome = true
  uid : req.has setAttrUID = true → (req.sent ModifyAttr.uid).isSome = true
  gid : req.has setAttrGID = true → (req.sent ModifyAttr.gid).isSome = true
  size : req.has setAttrSize = true → (req.sent ModifyAttr.size).isSome = true
  atime : req.has setAttrAtime = true → (req.sent ModifyAttr.atime).isSome = true
  mtime : req.has setAttrMtime = true → (req.sent ModifyAttr.mtime).isSome = true
  flags : req.has setAttrFlag = true → (req.sent ModifyAttr.flags).isSome = true

def ReadsUnsent (c : Caller) (req : UpdateInodeAttrReq) (a : Attr) : Prop :=
  clearsSetId req a = true ∧ req.sent ModifyAttr.mode = none ∨
    req.has setAttrGID = true ∧ c.uid ≠ 0 ∧ c.uid ≠ a.uid ∧ req.sent ModifyAttr.uid = none ∨
    req.has setAttrUID = true ∧ c.uid ≠ 0 ∧ req.sent ModifyAttr.uid ≠ some a.uid ∧
      req.sent ModifyAttr.gid = none

section Reads

variable {c : Caller} {req : UpdateInodeAttrReq} {now : Time} {a : Attr}

def UpdateInodeAttrReq.vars (req : UpdateInodeAttrReq) (a : Attr) : UpdateVars := ⟨a, req.attr, false⟩

theorem atimeField_reads (hn : req.Named) {v : UpdateVars} (hr : (req.vars a).SameRequest v) :
    atimeField.Reads req (do
      let m ← deref v.reqAttr
      pure (decide (m.atime.getD 0 < 0))) v := by
  have hsec : req.has setAttrAtime = true → (v.sent atime).isSome = true := by
    intro hbit
    rw [hr.sent_eq fun _ => rfl]
    exact hn.atime hbit
  refine ⟨hsec, fun hbit => ?_⟩
  obtain ⟨sec, hs⟩ := isSome_iff_exists.mp (hsec hbit)
  obtain ⟨m, hm, hsec⟩ := bind_eq_some_iff.mp hs
  rw [show v.sent atimeField.reqSec = some sec from hs, hm]
  simp [deref, bind, Except.bind, pure, Except.pure, hsec]

theorem mtimeField_reads (hn : req.Named) {v : UpdateVars} (hr : (req.vars a).SameRequest v) :
    mtimeField.Reads req (do
      let sec ← v.field mtime
      pure (decide (sec < 0))) v := by
  have hsec : req.has setAttrMtime = true → (v.sent mtime).isSome = true := by
    intro hbit
    rw [hr.sent_eq fun _ => rfl]
    exact hn.mtime hbit
  refine ⟨hsec, fun hbit => ?_⟩
  obtain ⟨sec, hs⟩ := isSome_iff_exists.mp (hsec hbit)
  rw [field_eq, show v.sent mtimeField.reqSec = some sec from hs, hs]
  simp [deref, bind, Except.bind, pure, Except.pure]

theorem updateSUGID_ok_or_panic (c : Caller) (req : UpdateInodeAttrReq) (a : Attr)
    (m : Option ModifyAttr) :
    updateSUGID c req ⟨a, m, false⟩ = .error .panic ∨
      ∃ v, updateSUGID c req ⟨a, m, false⟩ = .ok v := by
  rw [updateSUGID_eq]
  split_ifs
  · rw [maskMode, field_eq]
    rcases sent _ mode with _ | mode
    · exact .inl rfl
    · exact .inr ⟨_, rfl⟩
  · exact .inr ⟨_, rfl⟩

theorem updateAttr_panics (hn : req.Named) (h : ReadsUnsent c req a) :
    updateAttr c req now a = .error .panic := by
  rcases updateSUGID_ok_or_panic c req a req.attr with h₁ | ⟨v₁, h₁⟩
  · exact bind_eq_panic.mpr (.inl h₁)
  have hr₁ : (req.vars a).SameRequest v₁ := updateSUGID_request _ h₁
  have hu₁ : v₁.dirty.uid = a.uid := (updateSUGID_owner h₁).2.1
  refine bind_eq_panic.mpr (.inr ⟨v₁, h₁, bind_eq_panic.mpr ?_⟩)
  rcases h with ⟨hclear, hsent⟩ | ⟨hbit, h0, hne, hsent⟩ | ⟨hbit, h0, hne, hsent⟩
  · cases ((updateSUGID_panic req.attr).mpr ⟨hclear, hsent⟩).symm.trans h₁
  · refine .inl (updateGID_panic.mpr ⟨hbit, ?_⟩)
    rw [if_pos ⟨h0, hu₁ ▸ hne⟩, hr₁.sent_eq fun _ => rfl]
    exact hsent
  · -- the group is not sent, so the mask does not name it
    have hgid : req.has setAttrGID = false := by
      by_contra hg
      have hsome := hn.gid (by simpa using hg)
      rw [hsent] at hsome
      cases hsome
    refine .inr ⟨v₁, updateGID_of_not hgid, bind_eq_panic.mpr (.inl ?_)⟩
    refine updateUID_panic.mpr ⟨hbit, .inr ?_⟩
    rw [hr₁.sent_eq fun _ => rfl, hr₁.sent_eq fun _ => rfl, hu₁]
    exact ⟨hne, h0, hsent⟩

theorem updateAttr_panic_iff (hn : req.Named)
    (hgiven : atimeField.Given req ∧ mtimeField.Given req) :
    updateAttr c req now a = .error .panic ↔ ReadsUnsent c req a := by
  constructor
  · intro h
    rcases bind_eq_panic.mp h with h | ⟨v₁, h₁, h⟩
    · exact .inl ((updateSUGID_panic _).mp h)
    have hr₁ : (req.vars a).SameRequest v₁ := updateSUGID_request _ h₁
    have hu₁ : v₁.dirty.uid = a.uid := (updateSUGID_owner h₁).2.1
    rcases bind_eq_panic.mp h with h | ⟨v₂, h₂, h⟩
    · obtain ⟨hbit, hsent⟩ := updateGID_panic.mp h
      rw [hr₁.sent_eq fun _ => rfl, hr₁.sent_eq fun _ => rfl, hu₁] at hsent
      split_ifs at hsent with hc
      · exact .inr (.inl ⟨hbit, hc.1, hc.2, hsent⟩)
      have hsome := hn.gid hbit
      rw [show req.sent gid = none from hsent] at hsome
      cases hsome
    have hr₂ := hr₁.trans (.of_eq (updateGID_request h₂))
    have hu₂ : v₂.dirty.uid = a.uid := (updateGID_ok h₂).1.2.1.trans hu₁
    rcases bind_eq_panic.mp h with h | ⟨v₃, h₃, h⟩
    · obtain ⟨hbit, hsent⟩ := updateUID_panic.mp h
      rw [hr₂.sent_eq fun _ => rfl, hr₂.sent_eq fun _ => rfl, hu₂] at hsent
      rcases hsent with hsent | ⟨hne, h0, hsent⟩
      · have hsome := hn.uid hbit
        rw [show req.sent uid = none from hsent] at hsome
        cases hsome
      · exact .inr (.inr ⟨hbit, h0, hne, hsent⟩)
    have hr₃ := hr₂.trans (.of_eq (updateUID_request h₃))
    -- the remaining steps read what the mask names
    rcases bind_eq_panic.mp h with h | ⟨v₄, h₄, h⟩
    · exact absurd h (updateMode_avoids fun hbit => hr₃.mode.trans (hn.mode hbit))
    have hr₄ := hr₃.trans (updateMode_request h₄)
    rcases bind_eq_panic.mp h with h | ⟨v₅, h₅, h⟩
    · refine absurd h (updateTime_avoids (atimeField_reads hn hr₄) ?_)
      rw [hr₄.sent_eq fun _ => rfl, hr₄.sent_eq fun _ => rfl]
      exact hgiven.1
    have hr₅ := hr₄.trans (.of_eq (updateAtime_rights h₅).reqAttr)
    rcases bind_eq_panic.mp h with h | ⟨v₆, h₆, h⟩
    · refine absurd h (updateTime_avoids (mtimeField_reads hn hr₅) ?_)
      rw [hr₅.sent_eq fun _ => rfl, hr₅.sent_eq fun _ => rfl]
      exact hgiven.2
    have hr₆ := hr₅.trans (.of_eq (updateMtime_rights h₆).reqAttr)
    rcases bind_eq_panic.mp h with h | ⟨v₇, h₇, h⟩
    · refine absurd h (takeField_avoids fun hbit => ?_)
      rw [hr₆.sent_eq fun _ => rfl]
      exact hn.flags hbit
    have hr₇ := hr₆.trans (.of_eq (updateFlags_rights h₇).reqAttr)
    rcases bind_eq_panic.mp h with h | ⟨v₈, -, h⟩
    · refine absurd h (takeField_avoids fun hbit => ?_)
      rw [hr₇.sent_eq fun _ => rfl]
      exact hn.size hbit
    · cases h
  · exact updateAttr_panics hn

end Reads

/-! ### Requests that are safe for everybody -/

section Root

variable {c : Caller} {req : UpdateInodeAttrReq} {now : Time} {a : Attr} {v : UpdateVars}

/-! Root is refused nothing: a step for it succeeds or finds a field missing. -/

theorem updateGID_root (h0 : c.uid = 0)
    (hsent : req.has setAttrGID = true → (v.sent gid).isSome = true) :
    ∃ v', updateGID c req v = .ok v' := by
  rw [updateGID]
  split_ifs with hbit hc
  · simp [h0] at hc
  · obtain ⟨gid, hg⟩ := isSome_iff_exists.mp (hsent hbit)
    rw [field_eq, hg]
    exact ⟨_, rfl⟩
  · exact ⟨v, rfl⟩

theorem updateUID_root (h0 : c.uid = 0)
    (hsent : req.has setAttrUID = true → (v.sent uid).isSome = true) :
    ∃ v', updateUID c req v = .ok v' := by
  rw [updateUID]
  split
  · next hbit =>
    obtain ⟨uid, hu⟩ := isSome_iff_exists.mp (hsent hbit)
    refine ⟨if v.dirty.uid != uid then v.set { v.dirty with uid := uid } else v, ?_⟩
    refine bind_eq_ok.mpr ⟨uid, field_eq_ok.mpr hu, ?_⟩
    simp only [h0, bne_self_eq_false, Bool.false_eq_true, if_false]
    split <;> rfl
  · exact ⟨v, rfl⟩

theorem updateMode_root (h0 : c.uid = 0)
    (hsent : req.has setAttrMode = true → (v.sent mode).isSome = true) :
    ∃ v', updateMode c req v = .ok v' := by
  rw [updateMode]
  split
  · next hbit =>
    obtain ⟨mode, hm⟩ := isSome_iff_exists.mp (hsent hbit)
    have hdrop : dropSetgid c v = .ok v := by
      rw [dropSetgid, if_neg (by simp [h0])]
    refine ⟨if mode != v.dirty.mode then v.set { v.dirty with mode := mode } else v, ?_⟩
    refine bind_eq_ok.mpr ⟨v, hdrop, bind_eq_ok.mpr ⟨mode, field_eq_ok.mpr hm, ?_⟩⟩
    simp only [h0, bne_self_eq_false, Bool.false_and, Bool.false_eq_true, if_false]
    split <;> rfl
  · exact ⟨v, rfl⟩

theorem setTimeRefused_root (h0 : c.uid = 0) : setTimeRefused c v = none := by
  simp [setTimeRefused, timeDenied, accessDenied, h0]

theorem updateTime_root (now : Time) (h0 : c.uid = 0) (hr : f.Reads req past v) :
    updateTime c req now f past v = .error .panic ∨ ∃ v', updateTime c req now f past v = .ok v' := by
  rw [updateTime_eq hr]
  split_ifs with hpast hbit
  · refine .inr ⟨_, if_neg ?_⟩
    simp [timeDenied, accessDenied, h0]
  · obtain ⟨sec, hs⟩ := isSome_iff_exists.mp (hr.sec hbit)
    rw [setTime_eq hs, setTimeRefused_root h0]
    rcases v.sent f.reqNsec with _ | nsec
    · exact .inl (ite_self _)
    dsimp only
    split_ifs
    · exact .inr ⟨_, rfl⟩
    · exact .inr ⟨_, rfl⟩
  · exact .inr ⟨v, rfl⟩

theorem updateTime_root_panics (h0 : c.uid = 0)
    (hr : f.Reads req past v) (hbit : req.has f.bit = true) (hnow : req.has f.nowBit = false)
    (hsec : ¬(v.sent f.reqSec).getD 0 < 0) (hns : v.sent f.reqNsec = none) :
    updateTime c req now f past v = .error .panic := by
  obtain ⟨sec, hs⟩ := isSome_iff_exists.mp (hr.sec hbit)
  rw [updateTime_eq hr, if_neg (by simp [hnow, hsec]), if_pos hbit, setTime_eq hs,
    setTimeRefused_root h0, hns]
  exact ite_self _

theorem updateRights_root (hn : req.Named) (h0 : c.uid = 0) (hclear : clearsSetId req a = false) :
    ∃ v₁ v₂ v₃ v₄, updateSUGID c req (req.vars a) = .ok v₁ ∧ updateGID c req v₁ = .ok v₂ ∧
      updateUID c req v₂ = .ok v₃ ∧ updateMode c req v₃ = .ok v₄ ∧
      (req.vars a).SameRequest v₄ := by
  obtain ⟨v₁, h₁⟩ : ∃ v₁, updateSUGID c req (req.vars a) = .ok v₁ := by
    refine ⟨_, (updateSUGID_eq c req a req.attr).trans (if_neg ?_)⟩
    rw [hclear]
    exact Bool.false_ne_true
  have hr₁ : (req.vars a).SameRequest v₁ := updateSUGID_request _ h₁
  obtain ⟨v₂, h₂⟩ := updateGID_root (v := v₁) h0 fun hbit => by
    rw [hr₁.sent_eq fun _ => rfl]
    exact hn.gid hbit
  have hr₂ := hr₁.trans (.of_eq (updateGID_request h₂))
  obtain ⟨v₃, h₃⟩ := updateUID_root (v := v₂) h0 fun hbit => by
    rw [hr₂.sent_eq fun _ => rfl]
    exact hn.uid hbit
  have hr₃ := hr₂.trans (.of_eq (updateUID_request h₃))
  obtain ⟨v₄, h₄⟩ := updateMode_root (v := v₃) h0 fun hbit => hr₃.mode.trans (hn.mode hbit)
  exact ⟨v₁, v₂, v₃, v₄, h₁, h₂, h₃, h₄, hr₃.trans (updateMode_request h₄)⟩

theorem updateAttr_root_panics (hn : req.Named) (h0 : c.uid = 0)
    (hclear : clearsSetId req a = false)
    (hmissing : ¬(atimeField.Given req ∧ mtimeField.Given req)) :
    updateAttr c req now a = .error .panic := by
  obtain ⟨v₁, v₂, v₃, v₄, h₁, h₂, h₃, h₄, hr₄⟩ := updateRights_root hn h0 hclear
  refine bind_eq_panic.mpr (.inr ⟨v₁, h₁, bind_eq_panic.mpr (.inr ⟨v₂, h₂, ?_⟩)⟩)
  refine bind_eq_panic.mpr (.inr ⟨v₃, h₃, bind_eq_panic.mpr (.inr ⟨v₄, h₄, ?_⟩)⟩)
  rcases updateTime_root now h0 (atimeField_reads hn hr₄) with h₅ | ⟨v₅, h₅⟩
  · exact bind_eq_panic.mpr (.inl h₅)
  have hr₅ := hr₄.trans (.of_eq (updateAtime_rights h₅).reqAttr)
  -- a time that is missing would have stopped the step
  have hgiven : ∀ {f : TimeField} {past : Except Err Bool} {v : UpdateVars},
      f.Reads req past v → v.sent f.reqSec = req.sent f.reqSec →
      v.sent f.reqNsec = req.sent f.reqNsec →
      updateTime c req now f past v ≠ .error .panic → f.Given req := by
    intro f past v hr hs hns hne hbit hnow hpos
    rw [isSome_iff_ne_none]
    intro hnone
    exact hne (updateTime_root_panics h0 hr hbit hnow (hs ▸ hpos) (hns.trans hnone))
  have hat : atimeField.Given req :=
    hgiven (atimeField_reads hn hr₄) (hr₄.sent_eq fun _ => rfl) (hr₄.sent_eq fun _ => rfl)
      fun he => (by cases he.symm.trans h₅)
  refine bind_eq_panic.mpr (.inr ⟨v₅, h₅, bind_eq_panic.mpr (.inl ?_)⟩)
  by_contra hne
  exact hmissing ⟨hat, hgiven (mtimeField_reads hn hr₅) (hr₅.sent_eq fun _ => rfl)
    (hr₅.sent_eq fun _ => rfl) hne⟩

structure UpdateInodeAttrReq.Complete (req : UpdateInodeAttrReq) : Prop where
  mode : req.namesOwner = true → (req.sent ModifyAttr.mode).isSome = true
  uid : req.has setAttrGID = true → (req.sent ModifyAttr.uid).isSome = true
  gid : req.has setAttrUID = true → (req.sent ModifyAttr.gid).isSome = true
  times : atimeField.Given req ∧ mtimeField.Given req

theorem UpdateInodeAttrReq.Complete.not_readsUnsent (h : req.Complete) : ¬ReadsUnsent c req a := by
  have hmiss : ∀ {α : Type} {o : Option α}, o.isSome = true → o ≠ none := by
    rintro α o hs rfl
    cases hs
  rintro (⟨hclear, hsent⟩ | ⟨hbit, -, -, hsent⟩ | ⟨hbit, -, -, hsent⟩)
  · simp only [clearsSetId, Bool.and_eq_true] at hclear
    exact hmiss (h.mode hclear.1.2) hsent
  · exact hmiss (h.uid hbit) hsent
  · exact hmiss (h.gid hbit) hsent

theorem updateInodeAttr_panic_iff {s : Store} :
    ((updateInodeAttr c req now).run s).1 = .error .panic ↔
      ∃ a, attrAt s req.ino = some a ∧ updateAttr c req now a = .error .panic := by
  rw [updateInodeAttr, Call.run_txn_fst_error, updateInodeAttrTxn]
  rcases hl : s.lookup (.attr req.ino) with _ | r
  · simp [getAttr, Bind.bind, Body.bind, Body.exec, hl, attrAt]
  rw [attrAt, hl]
  simp only [getAttr, Bind.bind, Body.bind, Body.exec, hl, map_some, Option.some.injEq,
    exists_eq_left']
  cases updateAttr c req now r.1 with
  | error e => simp [Body.exec]
  | ok a => exact iff_of_false (by rintro ⟨⟩) (by rintro ⟨⟩)

/-- A request that sends every field that its mask names. With the nanoseconds of its times
it dereferences nothing that is missing if and only if it does not read an unnamed field
that is not sent. It does so for no stored attributes and no caller if and only if it sends
every field that some step may read. -/
theorem updateInodeAttr_no_panic_iff (req : UpdateInodeAttrReq) (hn : req.Named) :
    (atimeField.Given req ∧ mtimeField.Given req → ∀ c now s a, attrAt s req.ino = some a →
      (((updateInodeAttr c req now).run s).1 ≠ .error .panic ↔ ¬ReadsUnsent c req a)) ∧
    ((∀ c now s, ((updateInodeAttr c req now).run s).1 ≠ .error .panic) ↔ req.Complete) := by
  have hone : atimeField.Given req ∧ mtimeField.Given req → ∀ c now s a,
      attrAt s req.ino = some a →
      (((updateInodeAttr c req now).run s).1 ≠ .error .panic ↔ ¬ReadsUnsent c req a) := by
    intro hgiven c now s a ha
    rw [ne_eq, not_iff_not, updateInodeAttr_panic_iff]
    constructor
    · rintro ⟨a', ha', h⟩
      rw [ha] at ha'
      cases ha'
      exact (updateAttr_panic_iff hn hgiven).mp h
    · exact fun h => ⟨a, ha, (updateAttr_panic_iff hn hgiven).mpr h⟩
  refine ⟨hone, fun hsafe => ?_, fun hc c now s h => ?_⟩
  · -- one caller and one file for each field
    have hno : ∀ c a, a.inode = req.ino → updateAttr c req ⟨0, 0⟩ a ≠ .error .panic := by
      intro c a hi h
      refine hsafe c ⟨0, 0⟩ (putAttr ∅ a) (updateInodeAttr_panic_iff.mpr ⟨a, ?_, h⟩)
      rw [attrAt_putAttr, if_pos hi.symm]
    refine ⟨fun hbit => ?_, fun hbit => ?_, fun hbit => ?_, ?_⟩
    · rw [isSome_iff_ne_none]
      intro hnone
      refine hno ⟨0, 0⟩ { bareAttr req.ino with mode := 0o4000 } rfl
        (updateAttr_panics hn (.inl ⟨?_, hnone⟩))
      have hset : clearsSetId req { bareAttr req.ino with mode := 0o4000 } =
          ((0o4000 : UInt32) &&& 0o6000 != 0 && req.namesOwner && !modeIsDir 0o4000) := rfl
      rw [hset, hbit]
      decide
    · rw [isSome_iff_ne_none]
      intro hnone
      have hne : (1 : UInt32) ≠ 0 := by decide
      exact hno ⟨1, 1⟩ (bareAttr req.ino) rfl
        (updateAttr_panics hn (.inr (.inl ⟨hbit, hne, hne, hnone⟩)))
    · rw [isSome_iff_ne_none]
      intro hnone
      obtain ⟨uid, hu⟩ := isSome_iff_exists.mp (hn.uid hbit)
      refine hno ⟨1, 1⟩ { bareAttr req.ino with uid := uid + 1 } rfl
        (updateAttr_panics hn (.inr (.inr ⟨hbit, by decide, ?_, hnone⟩)))
      rw [hu]
      simp
    · by_contra hmissing
      refine hno ⟨0, 0⟩ (bareAttr req.ino) rfl (updateAttr_root_panics hn rfl ?_ hmissing)
      have hset : clearsSetId req (bareAttr req.ino) =
          ((0 : UInt32) &&& 0o6000 != 0 && req.namesOwner && !modeIsDir 0) := rfl
      rw [hset]
      simp
  · obtain ⟨a, ha, -⟩ := updateInodeAttr_panic_iff.mp h
    exact (hone hc.times c now s a ha).mpr hc.not_readsUnsent h

end Root

theorem updateInodeAttr_no_panic_sample :
    ((updateInodeAttr ⟨0, 0⟩ ⟨2, some { ModifyAttr.ofMode 0o755 with uid := some 5, gid := some 5 },
      setAttrUID ||| setAttrGID⟩ ⟨0, 0⟩).run (putAttr ∅ setIdFile)).1 ≠ .error .panic := by
  have hn : UpdateInodeAttrReq.Named
      ⟨2, some { ModifyAttr.ofMode 0o755 with uid := some 5, gid := some 5 },
        setAttrUID ||| setAttrGID⟩ := by
    constructor <;> decide
  refine ((updateInodeAttr_no_panic_iff _ hn).2.mpr ⟨by decide, by decide, by decide, ?_⟩) _ _ _
  exact ⟨fun hbit => absurd hbit (by decide), fun hbit => absurd hbit (by decide)⟩

/-- Root changes the user of a set-user file, and a stranger asks for the group of a file
or for the user: each request sends the field that its mask names. -/
theorem updateInodeAttr_panics :
    ((updateInodeAttr ⟨0, 0⟩ ⟨2, some { ModifyAttr.empty with uid := some 5 }, setAttrUID⟩
      ⟨0, 0⟩).run (putAttr ∅ setIdFile)).1 = .error .panic ∧
    ((updateInodeAttr ⟨7, 7⟩ ⟨1, some { ModifyAttr.empty with gid := some 7 }, setAttrGID⟩
      ⟨0, 0⟩).run (initStore ⟨0, 0⟩ 0 0)).1 = .error .panic ∧
    ((updateInodeAttr ⟨7, 7⟩ ⟨1, some { ModifyAttr.empty with uid := some 7 }, setAttrUID⟩
      ⟨0, 0⟩).run (initStore ⟨0, 0⟩ 0 0)).1 = .error .panic := by
  decide

end HugoFS.Meta
