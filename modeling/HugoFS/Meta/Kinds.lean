import HugoFS.Meta.Calls

/-!
# The kind of a file is stored twice

The mode of an entry and the mode of the attributes both tell the kind of the inode.
`UpdateInodeAttr` masks the mode with words that hold permission bits only, and so turns what
is not a regular file into one.
-/

namespace HugoFS.Meta

open KV Runs MetaCall ModifyAttr InosNumbered

inductive FileKind
  | directory
  | regular
  | symlink
  | other
deriving DecidableEq

def fileKind (m : UInt32) : FileKind :=
  if modeIsDir m then .directory
  else if modeIsRegular m then .regular
  else if modeIsSymlink m then .symlink
  else .other

theorem fileKind_congr {m m' : UInt32} (h : m &&& modeType = m' &&& modeType) :
    fileKind m = fileKind m' := by
  have hbit : ∀ b, modeType &&& b = b → m &&& b = m' &&& b := by
    intro b hb
    rw [← hb, ← UInt32.and_assoc, h, UInt32.and_assoc]
  have hdir : modeIsDir m = modeIsDir m' := by rw [modeIsDir, hbit modeDir rfl, modeIsDir]
  have hreg : modeIsRegular m = modeIsRegular m' := by rw [modeIsRegular, h, modeIsRegular]
  have hlink : modeIsSymlink m = modeIsSymlink m' := by
    rw [modeIsSymlink, hbit modeSymlink rfl, modeIsSymlink]
  rw [fileKind, fileKind, hdir, hreg, hlink]

theorem fileKind_masked {m mask : UInt32} (h : mask &&& modeType = 0) :
    fileKind (m &&& mask) = .regular := by
  have h0 : m &&& mask &&& modeType = 0 &&& modeType := by
    rw [UInt32.and_assoc, h, UInt32.and_zero, UInt32.zero_and]
  rw [fileKind_congr h0]
  rfl

section Update

variable {c : Caller} {req : UpdateInodeAttrReq} {a : Attr}

def dropsType (c : Caller) (req : UpdateInodeAttrReq) (a : Attr) : Bool :=
  clearsSetId req a ||
    req.has setAttrMode && dropsSetgid c (req.newGid a) ((req.sent ModifyAttr.mode).getD a.mode)

theorem fileKind_newMode
    (hsent : ∀ m, req.sent mode = some m → m &&& modeType = a.mode &&& modeType) :
    fileKind (newMode c req a) = if dropsType c req a then .regular else fileKind a.mode := by
  have hmask : setIdMask c a &&& modeType = 0 := by
    rw [setIdMask]
    split_ifs <;> rfl
  have hasked : fileKind ((req.sent mode).getD a.mode) = fileKind a.mode := by
    cases hm : req.sent mode with
    | none => rfl
    | some m => exact fileKind_congr (hsent m hm)
  cases hclear : clearsSetId req a with
  | true =>
    -- whatever the last mask does to a mode without type bits
    have hdrop : ∀ m g, fileKind (droppedMode c g (m &&& setIdMask c a)) = .regular := by
      intro m g
      rw [droppedMode]
      split_ifs
      · exact fileKind_masked rfl
      · exact fileKind_masked hmask
    simp only [newMode, clearedMode, dropsType, hclear, if_true, Bool.true_or]
    split_ifs
    · exact hdrop _ _
    · exact fileKind_masked hmask
  | false =>
    simp only [newMode, clearedMode, dropsType, hclear, Bool.false_eq_true, if_false,
      Bool.false_or]
    cases hbit : req.has setAttrMode with
    | false => simp
    | true =>
      rw [if_pos rfl, Bool.true_and, droppedMode]
      split_ifs
      · exact fileKind_masked rfl
      · exact hasked

end Update

/-! ### Two stores -/

def KindsAgree (s : Store) : Prop :=
  ∀ p n e a, entryAt s p n = some e → attrAt s e.ino = some a → fileKind e.mode = fileKind a.mode

def SameKinds (s s' : Store) : Prop :=
  ∀ i a a', attrAt s i = some a → attrAt s' i = some a' → fileKind a'.mode = fileKind a.mode

section Carried

variable {s s' : Store} {new : Option Ino} {used : Finset Ino} (hn : InosNumbered s used)
  (hfresh : ∀ i, new = some i → 1 < i ∧ i ∉ used) (h : ModesCarried fileKind s s' new)
include hn hfresh h

theorem KindsAgree.carried (hk : KindsAgree s) : KindsAgree s' := by
  intro p n e a he ha
  rcases h.entry he with ⟨a', ha', hm⟩ | ⟨q, m, e₀, he₀, hi, hm⟩
  · rw [ha] at ha'
    cases ha'
    rw [hm]
  rcases h.attr ha with hnew | ⟨a₀, ha₀, hkind⟩
  · exact absurd hnew (not_fresh hfresh (hi ▸ hn.entry he₀))
  · rw [← hm, ← hkind]
    exact hk q m e₀ a₀ he₀ (hi ▸ ha₀)

theorem sameKinds_of_carried : SameKinds s s' := by
  intro i a a' ha ha'
  rcases h.attr ha' with hnew | ⟨a₀, ha₀, hkind⟩
  · exact absurd hnew (not_fresh hfresh (hn.attr ha))
  rw [ha] at ha₀
  cases ha₀
  exact hkind.symm

end Carried

/-! ### Runs -/

namespace MetaCall

def SendsType (s : Store) : MetaCall → Prop
  | .updateInodeAttr _ req _ => ∀ a ∈ attrAt s req.ino, ∀ m ∈ req.sent ModifyAttr.mode,
      m &&& modeType = a.mode &&& modeType
  | .op _ => True

def KeepsType (s : Store) : MetaCall → Prop
  | .updateInodeAttr c req now => (updateInodeAttr c req now).succeeds s = true →
      ∀ a ∈ attrAt s req.ino, dropsType c req a = true → fileKind a.mode = .regular
  | .op _ => True

instance (s : Store) : (c : MetaCall) → Decidable (c.SendsType s)
  | .updateInodeAttr _ req _ =>
    have : DecidablePred fun a : Attr => ∀ m ∈ req.sent ModifyAttr.mode,
        m &&& modeType = a.mode &&& modeType :=
      fun _ => Option.decidableForallMem _
    Option.decidableForallMem (attrAt s req.ino)
  | .op _ => inferInstanceAs (Decidable True)

instance (s : Store) : (c : MetaCall) → Decidable (c.KeepsType s)
  | .updateInodeAttr c req now => inferInstanceAs (Decidable
      ((updateInodeAttr c req now).succeeds s = true →
        ∀ a ∈ attrAt s req.ino, dropsType c req a = true → fileKind a.mode = .regular))
  | .op _ => inferInstanceAs (Decidable True)

variable {c : MetaCall} {s : Store}

theorem update_fileKind {cl : Caller} {req : UpdateInodeAttrReq} {now : Time} {a r : Attr}
    (hsend : (updateInodeAttr cl req now).SendsType s) (ha : attrAt s req.ino = some a)
    (hr : updateAttr cl req now a = .ok r) :
    fileKind r.mode = if dropsType cl req a then .regular else fileKind a.mode := by
  rw [(updateAttr_updated hr).mode]
  exact fileKind_newMode (hsend a ha)

theorem kindsCarried (hsend : c.SendsType s) (hkeep : c.KeepsType s) :
    ModesCarried fileKind s (c.run s) c.newIno := by
  rcases c with o | ⟨cl, req, now⟩
  · exact modesCarried_op o
  refine modesCarried_update fun hok a r ha hr => ?_
  rw [update_fileKind hsend ha hr]
  split_ifs with hd
  · exact (hkeep hok a ha hd).symm
  · rfl

theorem keepsType_of_sameKinds (hsend : c.SendsType s) (h : SameKinds s (c.run s)) :
    c.KeepsType s := by
  rcases c with o | ⟨c, req, now⟩
  · trivial
  intro hok a ha hd
  obtain ⟨a', r, ha', hr, hs⟩ := took hok
  have hi : r.inode = req.ino := (updateAttr_inode hr).trans (attrAt_inode ha')
  obtain rfl : a' = a := Option.some.inj (ha'.symm.trans ha)
  have hsame := h req.ino a' r ha' (by rw [hs, attrAt_putAttr, if_pos hi.symm])
  rw [← hsame, update_fileKind hsend ha' hr, if_pos hd]

end MetaCall

theorem kindsAgree_initStore (now : Time) (uid gid : UInt32) :
    KindsAgree (initStore now uid gid) := by
  intro p n e a he
  rw [initStore, entryAt_putAttr, entryAt_empty] at he
  cases he

/-- In a run of calls that send modes with the type bits of their inodes, the kinds agree in
every state and no call changes the kind of an inode if and only if no update drops the
type bits of what is not a regular file. -/
theorem kinds_agree_iff (now : Time) (uid gid : UInt32) (calls : List MetaCall)
    (hdom : Legal MetaCall.next (fun st c => c.Fresh st.used ∧ c.SendsType st.store) calls
      ⟨initStore now uid gid, ∅⟩) :
    Always MetaCall.next (fun st => KindsAgree st.store) calls ⟨initStore now uid gid, ∅⟩ ∧
      Legal MetaCall.next (fun st c => SameKinds st.store (c.run st.store)) calls
        ⟨initStore now uid gid, ∅⟩ ↔
    Legal MetaCall.next (fun st c => c.KeepsType st.store) calls
      ⟨initStore now uid gid, ∅⟩ := by
  refine always_and_legal_iff (I := fun st => InosNumbered st.store st.used ∧ KindsAgree st.store)
    (fun st h => h.2) ?_ (fun st c _ hd _ hT => MetaCall.keepsType_of_sameKinds hd.2 hT) hdom
    ⟨inosNumbered_initStore now uid gid, kindsAgree_initStore now uid gid⟩
  rintro st c ⟨hn, hk⟩ ⟨hfresh, hsend⟩ hkeep
  have hc := MetaCall.kindsCarried hsend hkeep
  exact ⟨⟨hn.carried hc hfresh, hk.carried hn hfresh hc⟩, sameKinds_of_carried hn hfresh hc⟩

def createOwned (m : UInt32) : MetaCall :=
  .op (.createInode ⟨1, "x", some { ModifyAttr.ofMode m with uid := some 7 }⟩ 2 ⟨1, 0⟩)

def chmodOwned (m : UInt32) : MetaCall :=
  .updateInodeAttr ⟨7, 7⟩ ⟨2, some (.ofMode m), setAttrMode⟩ ⟨2, 0⟩

def chownOwned (m : UInt32) : MetaCall :=
  .updateInodeAttr ⟨0, 0⟩ ⟨2, some { ModifyAttr.ofMode m with uid := some 5 }, setAttrUID⟩ ⟨2, 0⟩

theorem kinds_agree_sample :
    KindsAgree (exec MetaCall.next
      [createOwned (modeDir ||| 0o755), chmodOwned (modeDir ||| 0o700)]
      ⟨initStore ⟨0, 0⟩ 0 0, ∅⟩).store := by
  obtain ⟨⟨-, -, h⟩, -⟩ := (kinds_agree_iff ⟨0, 0⟩ 0 0
    [createOwned (modeDir ||| 0o755), chmodOwned (modeDir ||| 0o700)] (by decide)).mpr (by decide)
  exact h

/-- A directory whose owner asks for the set-group bit, and a symlink with the set-user bit
that changes its user, have the attributes of regular files; their entries do not. -/
theorem kinds_differ :
    (Legal MetaCall.next (fun st c => c.Fresh st.used ∧ c.SendsType st.store)
        [createOwned (modeDir ||| 0o755), chmodOwned (modeDir ||| 0o2755)]
        ⟨initStore ⟨0, 0⟩ 0 0, ∅⟩ ∧
      ¬KindsAgree (exec MetaCall.next
        [createOwned (modeDir ||| 0o755), chmodOwned (modeDir ||| 0o2755)]
        ⟨initStore ⟨0, 0⟩ 0 0, ∅⟩).store) ∧
    Legal MetaCall.next (fun st c => c.Fresh st.used ∧ c.SendsType st.store)
        [createOwned (modeSymlink ||| 0o4777), chownOwned (modeSymlink ||| 0o4777)]
        ⟨initStore ⟨0, 0⟩ 0 0, ∅⟩ ∧
      ¬KindsAgree (exec MetaCall.next
        [createOwned (modeSymlink ||| 0o4777), chownOwned (modeSymlink ||| 0o4777)]
        ⟨initStore ⟨0, 0⟩ 0 0, ∅⟩).store := by
  refine ⟨⟨by decide, fun h => ?_⟩, by decide, fun h => ?_⟩
  · have hdir := h 1 "x" ⟨1, "x", 2, modeDir ||| 0o755⟩ _ (by decide) rfl
    exact absurd hdir (by decide)
  · have hlink := h 1 "x" ⟨1, "x", 2, modeSymlink ||| 0o4777⟩ _ (by decide) rfl
    exact absurd hlink (by decide)

end HugoFS.Meta
