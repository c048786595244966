import HugoFS.Meta.Calls
import HugoFS.Meta.RenameAttrs

/-!
# Epochs

Each call of the service counts epochs up by hand, on some of the attributes that it saves.
For each call this module says when a successful one leaves no inode with more than its times
changed and an epoch that is not larger.
-/

namespace HugoFS.Meta

open KV Option Attr MetaCall

def Attr.SameButTimes (a b : Attr) : Prop :=
  { b with mtime := a.mtime, mtimens := a.mtimens, atime := a.atime, atimens := a.atimens,
           ctime := a.ctime, ctimens := a.ctimens } = a
deriving Decidable

def Attr.Rises (a b : Attr) : Prop := a.SameButTimes b ∨ a.epoch < b.epoch
deriving Decidable

def EpochsRise (s s' : Store) : Prop :=
  ∀ i a b, attrAt s i = some a → attrAt s' i = some b → a.Rises b

def maxEpoch : UInt32 := 0xFFFFFFFF

theorem epoch_lt_succ_iff {n : UInt32} : n < n + 1 ↔ n ≠ maxEpoch := by
  have hmax : n = maxEpoch ↔ ¬n.toNat + 1 < 2 ^ 32 := by
    rw [← UInt32.toNat_inj]
    have := n.toNat_lt
    change n.toNat = 4294967295 ↔ _
    omega
  rw [ne_eq, hmax, not_not, UInt32.lt_iff_toNat_lt]
  constructor
  · intro h
    by_contra hlt
    rw [toNat_add_one_of_max hlt] at h
    omega
  · intro h
    rw [toNat_add_one h]
    omega

namespace Attr

variable {a b : Attr} {now : Time} {n : UInt32}

theorem Rises.refl (a : Attr) : a.Rises a := .inl rfl

theorem SameButTimes.field {α : Type} (h : a.SameButTimes b) (f : Attr → α)
    (hf : f { b with mtime := a.mtime, mtimens := a.mtimens, atime := a.atime,
                     atimens := a.atimens, ctime := a.ctime, ctimens := a.ctimens } = f b) :
    f b = f a := by
  rw [← hf]
  exact congrArg f h

theorem rises_iff_of_bumped (h : b.epoch = a.epoch + 1) : a.Rises b ↔ a.epoch ≠ maxEpoch := by
  rw [← epoch_lt_succ_iff, ← h]
  refine ⟨fun hr => hr.resolve_left fun hs => ?_, .inr⟩
  exact word_succ_ne _ (h.symm.trans (hs.field epoch rfl))

theorem Rises.sameButTimes (hr : a.Rises b) (h : b.epoch = a.epoch) : a.SameButTimes b := by
  refine hr.resolve_right fun hlt => ?_
  rw [h] at hlt
  exact absurd hlt (UInt32.lt_irrefl _)

theorem rises_setNlink_iff : a.Rises ((a.setNlink n).touch now) ↔ n = a.nlink := by
  constructor
  · intro h
    exact (h.sameButTimes rfl).field nlink rfl
  · rintro rfl
    exact .inl rfl

end Attr

/-! ### The calls other than Rename -/

section Calls

variable {s s' : Store} {now : Time} {pAttr : Attr}

theorem epochsRise_iff_at {p : Ino} {a b : Attr} (ha : attrAt s p = some a)
    (hb : attrAt s' p = some b)
    (hrest : ∀ i x y, i ≠ p → attrAt s i = some x → attrAt s' i = some y → x.Rises y) :
    EpochsRise s s' ↔ a.Rises b := by
  constructor
  · intro h
    exact h p a b ha hb
  · intro h i x y hx hy
    by_cases hi : i = p
    · subst hi
      obtain rfl : a = x := some.inj (ha.symm.trans hx)
      obtain rfl : b = y := some.inj (hb.symm.trans hy)
      exact h
    · exact hrest i x y hi hx hy

theorem rises_of_eq {i : Ino} {x y : Attr} (hx : attrAt s i = some x) (hy : attrAt s i = some y) :
    x.Rises y := by
  obtain rfl : x = y := some.inj (hx.symm.trans hy)
  exact .refl x

theorem epochsRise_created {req : CreateInodeReq} {m : ModifyAttr} {ino : Ino}
    (hp : attrAt s req.parentIno = some pAttr) (hnew : attrAt s ino = none) :
    EpochsRise s (createdStore s req m ino now pAttr) ↔ pAttr.epoch ≠ maxEpoch := by
  have hne : req.parentIno ≠ ino := by
    rintro rfl
    rw [hp] at hnew
    cases hnew
  rw [← rises_iff_of_bumped (newInode_parent_epoch ino now (requested req m) pAttr)]
  refine epochsRise_iff_at hp ?_ fun i x y hi hx hy => ?_
  · rw [attrAt_createdStore hp, if_neg hne, if_pos rfl]
  · rw [attrAt_createdStore hp, if_neg hi] at hy
    split_ifs at hy with hino
    · rw [hino, hnew] at hx
      cases hx
    · exact rises_of_eq hx hy

theorem not_epochsRise_linked {req : LinkReq} {target : Attr}
    (hp : attrAt s req.newParentIno = some pAttr) (ht : attrAt s req.ino = some target) :
    ¬EpochsRise s (linkedStore s req now pAttr target) := by
  intro h
  have hr := h req.ino target _ ht (by rw [attrAt_linkedStore hp ht, if_pos rfl])
  exact word_succ_ne _ ((hr.sameButTimes rfl).field nlink rfl)

theorem epochsRise_deleted {req : DeleteInodeReq} {now' : Time} {entry : Entry} {attr : Attr}
    (hp : attrAt s req.parentIno = some pAttr) (ha : attrAt s entry.ino = some attr) :
    EpochsRise s (deletedStore s req now now' pAttr attr) ↔
      pAttr.epoch ≠ maxEpoch ∧ (entry.ino = req.parentIno ∨ ¬1 < attr.nlink) := by
  have hparent : pAttr.Rises (pAttr.touch now).bumpEpoch ↔ pAttr.epoch ≠ maxEpoch :=
    rises_iff_of_bumped rfl
  have hat : ∀ i, attrAt (deletedStore s req now now' pAttr attr) i = _ :=
    attrAt_deletedStore hp ha
  constructor
  · intro h
    refine ⟨hparent.mp (h _ _ _ hp (by rw [hat, if_pos rfl])), ?_⟩
    by_contra hno
    obtain ⟨hne, hlt⟩ := not_or.mp hno
    have hr := h _ _ _ ha (by rw [hat, if_neg hne, if_pos rfl, if_pos (not_not.mp hlt)])
    exact word_pred_ne _ ((hr.sameButTimes rfl).field nlink rfl)
  · rintro ⟨hmax, hor⟩ i x y hx hy
    rw [hat] at hy
    split_ifs at hy with hi he hlt
    · cases hy
      rw [hi, hp] at hx
      cases hx
      exact hparent.mpr hmax
    · rcases hor with heq | hle
      · exact absurd (he.trans heq) hi
      · exact absurd hlt hle
    · exact rises_of_eq hx hy

theorem epochsRise_deletedDir {p : Ino} {entry : Entry} (hp : attrAt s p = some pAttr) :
    EpochsRise s (deletedDirStore s entry pAttr now) ↔ pAttr.epoch ≠ maxEpoch := by
  have hparent : pAttr.Rises (deletedDirParent pAttr now) ↔ pAttr.epoch ≠ maxEpoch :=
    rises_iff_of_bumped rfl
  rw [← hparent]
  refine epochsRise_iff_at hp ?_ fun i x y hi hx hy => ?_
  · rw [attrAt_deletedDirStore hp, if_pos rfl]
  · rw [attrAt_deletedDirStore hp, if_neg hi] at hy
    split_ifs at hy
    exact rises_of_eq hx hy

theorem epochsRise_updated {c : Caller} {req : UpdateInodeAttrReq} {a r : Attr}
    (ha : attrAt s req.ino = some a) (hr : updateAttr c req now a = .ok r) :
    EpochsRise s (putAttr s r) ↔ (req.changes c a = true → a.epoch ≠ maxEpoch) := by
  have hi : r.inode = req.ino := (updateAttr_inode hr).trans (attrAt_inode ha)
  have hu := updateAttr_updated hr
  have hone : a.Rises r ↔ (req.changes c a = true → a.epoch ≠ maxEpoch) := by
    cases hch : req.changes c a with
    | true =>
      have he := hu.epoch
      rw [hch, if_pos rfl] at he
      rw [rises_iff_of_bumped he]
      exact ⟨fun h _ => h, fun h => h rfl⟩
    | false =>
      rw [hu.same hch]
      exact iff_of_true (.inl rfl) fun h => by cases h
  rw [← hone]
  refine epochsRise_iff_at ha ?_ fun i x y hne hx hy => ?_
  · rw [attrAt_putAttr, if_pos hi.symm]
  · rw [attrAt_putAttr, hi, if_neg hne] at hy
    exact rises_of_eq hx hy

end Calls

/-! ### Rename -/

def dstAttr (s : Store) (req : RenameReq) : Option Attr :=
  (entryAt s req.parentDstIno (trimSuffix req.newName)).bind fun de => attrAt s de.ino

def losesDir (s : Store) (req : RenameReq) : Bool :=
  (dstAttr s req).any fun da => if req.flags = renameExchange then movesDir req da else da.isDir

def DstKept (req : RenameReq) (da : Attr) : Prop :=
  if req.flags = renameExchange then
    req.parentSrcIno = req.parentDstIno ∨ da.parentIno = req.parentSrcIno ∨
      da.isDir = false ∧ da.parentIno = 0
  else da.isDir = true ∨ da.nlink = 1

structure RenameRises (s : Store) (req : RenameReq) (now : Time) (se : Entry)
    (spa dpa sa : Attr) : Prop where
  /-- The epoch of the new parent is not counted up, so its link count must stay. -/
  links : losesDir s req = movesDir req sa
  source : se.ino = req.parentDstIno ∧
      (movesDir req sa || dueForUpdate now dpa.mtime dpa.mtimens) = true ∨ sa.epoch ≠ maxEpoch
  srcParent : req.parentSrcIno = se.ino ∨ req.parentSrcIno = req.parentDstIno ∨
      (movesDir req sa || dueForUpdate now spa.mtime spa.ctimens) = false ∨ spa.epoch ≠ maxEpoch
  dst : ∀ da, dstAttr s req = some da → da.inode = se.ino ∨ da.inode = req.parentDstIno ∨
      da.inode = req.parentSrcIno ∨ DstKept req da

section Rename

variable {c : Caller} {req : RenameReq} {now : Time} {s s' : Store} {se : Entry}
  {spa dpa sa da : Attr} {v : RenameVars} {before : Ino → Option Attr}

theorem dstAttr_of_entry {de : Entry}
    (h : entryAt s req.parentDstIno (trimSuffix req.newName) = some de) :
    dstAttr s req = attrAt s de.ino := by
  rw [dstAttr, h]
  rfl

theorem dstAttr_stored (h : dstAttr s req = some da) : attrAt s da.inode = some da := by
  obtain ⟨de, -, hda⟩ := bind_eq_some_iff.mp h
  rw [attrAt_inode hda]
  exact hda

namespace RenameWay

section

variable (h : RenameWay s req now (startVars spa dpa sa) v before)
include h

open Bool

theorem vars : ∃ m da sup,
    v = ⟨spa.setNlink m, if losesDir s req then dpa.setNlink (dpa.nlink - 1) else dpa, sa, da,
      sup, losesDir s req⟩ ∧ (sup = true → losesDir s req = true) := by
  cases h with
  | moved hx hdst =>
    have hl : losesDir s req = false := by
      rw [losesDir, dstAttr, hdst]
      rfl
    rw [hl]
    exact ⟨spa.nlink, none, false, rfl, id⟩
  | replaced de da hx hdst hda hempty =>
    have hl : losesDir s req = da.isDir := by
      rw [losesDir, dstAttr_of_entry hdst, hda, any_some, if_neg hx]
    rw [hl, replacedVars, setCtime_isDir]
    cases da.isDir with
    | true => exact ⟨spa.nlink, _, false, rfl, fun h => by cases h⟩
    | false => exact ⟨spa.nlink, _, false, rfl, id⟩
  | exchanged de da da' hx hdst hda hda' =>
    have hl : losesDir s req = movesDir req da := by
      rw [losesDir, dstAttr_of_entry hdst, hda, any_some, if_pos hx]
    rw [hl]
    cases hm : movesDir req da with
    | true =>
      obtain ⟨hp, hd⟩ := and_eq_true_iff.mp hm
      refine ⟨spa.nlink + 1, some ((da.setCtime now).setParent req.parentSrcIno), true, ?_, id⟩
      rw [exchangeVars, if_pos hp, if_pos (by simpa using hd)]
      rfl
    | false =>
      refine ⟨spa.nlink, some da', false, ?_, id⟩
      have hv : ∃ x, exchangeVars req (startVars spa dpa sa) (da.setCtime now) =
          ⟨spa, dpa, sa, x, false, false⟩ := by
        rw [exchangeVars]
        split_ifs with hp hd
        · rw [movesDir, hp, Bool.true_and] at hm
          rw [setCtime_isDir, hm] at hd
          cases hd
        all_goals exact ⟨_, rfl⟩
      obtain ⟨x, hv⟩ := hv
      rw [hv] at hda' ⊢
      rw [show x = some da' from hda']
      rfl

theorem moved_vars : ∃ m n da sup,
    moveDir req v = ⟨spa.setNlink m, dpa.setNlink n, sa, da, sup,
      movesDir req sa || losesDir s req⟩ ∧
    (n = dpa.nlink ↔ losesDir s req = movesDir req sa) ∧
    (losesDir s req = movesDir req sa → sup = movesDir req sa) := by
  obtain ⟨m, da, sup, rfl, hsup⟩ := h.vars
  cases hg : movesDir req sa with
  | true =>
    rw [moveDir_of_moves hg]
    cases hl : losesDir s req with
    | true =>
      refine ⟨m - 1, dpa.nlink - 1 + 1, da, true, rfl, ?_, fun _ => rfl⟩
      rw [UInt32.sub_add_cancel]
      exact iff_of_true rfl rfl
    | false =>
      refine ⟨m - 1, dpa.nlink + 1, da, true, rfl, ?_, fun _ => rfl⟩
      exact iff_of_false (word_succ_ne _) false_ne_true
  | false =>
    rw [moveDir_of_stays hg]
    cases hl : losesDir s req with
    | true =>
      refine ⟨m, dpa.nlink - 1, da, sup, rfl, ?_, fun h => by cases h⟩
      exact iff_of_false (word_pred_ne _) fun h => by cases h
    | false =>
      refine ⟨m, dpa.nlink, da, sup, rfl, iff_of_true rfl rfl, fun _ => ?_⟩
      rw [hl] at hsup
      exact eq_false_iff.mpr fun hs => false_ne_true (hsup hs)

theorem before_eq {i : Ino}
    (hi : ∀ da, dstAttr s req = some da → i ≠ da.inode) : before i = attrAt s i := by
  cases h with
  | moved hx hdst => rfl
  | replaced de da hx hdst hda hempty =>
    have hne := hi da (by rw [dstAttr_of_entry hdst, hda])
    rw [replacedStore]
    split_ifs <;> simp [hne]
  | exchanged de da da' hx hdst hda hda' =>
    have hne := hi da (by rw [dstAttr_of_entry hdst, hda])
    rw [attrAt_putAttr, exchangeVars_da_inode hda', if_neg hne]

end

end RenameWay

theorem attrAt_replaced (now : Time) (ha : attrAt s da.inode = some da) :
    attrAt (replacedStore s (replacedAttr da now)) da.inode =
      if da.isDir = false ∧ 0 < da.nlink - 1 then some ((da.setCtime now).setNlink (da.nlink - 1))
      else if da.isFile = true ∨ da.isSymlink = true then none else some da := by
  cases hd : da.isDir with
  | true =>
    have hr : replacedAttr da now = da.setCtime now := if_pos hd
    have hfile : da.isFile = false := modeIsRegular_eq_false_of_isDir hd
    have hkind : (da.setCtime now).isFile = da.isFile ∧
        (da.setCtime now).isSymlink = da.isSymlink := ⟨rfl, rfl⟩
    rw [hr, replacedStore, setCtime_isDir, hd, hkind.1, hkind.2, hfile]
    cases da.isSymlink <;> simp [ha]
  | false =>
    have hr : replacedAttr da now = (da.setCtime now).setNlink (da.nlink - 1) :=
      if_neg (by simp [hd])
    have hkind : ((da.setCtime now).setNlink (da.nlink - 1)).isFile = da.isFile ∧
        ((da.setCtime now).setNlink (da.nlink - 1)).isSymlink = da.isSymlink := ⟨rfl, rfl⟩
    rw [hr, replacedStore, setNlink_isDir, setCtime_isDir, hd, hkind.1, hkind.2,
      setNlink_nlink]
    by_cases hpos : 0 < da.nlink - 1
    · rw [if_pos (by rw [decide_eq_true hpos]; rfl), if_pos ⟨rfl, hpos⟩, attrAt_putAttr]
      exact if_pos rfl
    have hno : ¬(false = false ∧ 0 < da.nlink - 1) := fun h => hpos h.2
    rw [if_neg (by rw [decide_eq_false hpos]; exact Bool.false_ne_true), if_neg hno]
    cases da.isFile <;> cases da.isSymlink <;> simp [ha]

namespace RenameWay

theorem before_rises (h : RenameWay s req now (startVars spa dpa sa) v before)
    (hda : dstAttr s req = some da) :
    (∀ x, before da.inode = some x → da.Rises x) ↔ DstKept req da := by
  have hstored := dstAttr_stored hda
  cases h with
  | moved hx hdst =>
    rw [dstAttr, hdst] at hda
    cases hda
  | replaced de da' hx hdst hda' hempty =>
    rw [dstAttr_of_entry hdst, hda'] at hda
    cases hda
    rw [DstKept, if_neg hx, attrAt_replaced now hstored]
    by_cases hsaved : da.isDir = false ∧ 0 < da.nlink - 1
    · rw [if_pos hsaved]
      refine iff_of_false (fun h => ?_) ?_
      · exact word_pred_ne _ (((h _ rfl).sameButTimes rfl).field nlink rfl)
      · rintro (hd | hone)
        · rw [hsaved.1] at hd
          cases hd
        · have hpos := hsaved.2
          rw [hone] at hpos
          exact absurd hpos (by decide)
    · rw [if_neg hsaved]
      refine iff_of_true (fun x hx' => ?_) ?_
      · split_ifs at hx'
        cases hx'
        exact .refl da
      · by_contra hno
        obtain ⟨hd, hone⟩ := not_or.mp hno
        refine hsaved ⟨by simpa using hd, UInt32.pos_iff_ne_zero.mpr fun h0 => hone ?_⟩
        rw [← UInt32.sub_add_cancel da.nlink 1, h0]
        rfl
  | exchanged de da₀ da' hx hdst hda₀ hda' =>
    rw [dstAttr_of_entry hdst, hda₀] at hda
    cases hda
    have hparent : da.Rises ((da.setCtime now).setParent req.parentSrcIno) ↔
        da.parentIno = req.parentSrcIno := by
      constructor
      · intro hr
        exact ((hr.sameButTimes rfl).field parentIno rfl).symm
      · intro heq
        rw [← heq]
        exact .inl rfl
    have hino : da'.inode = da.inode := exchangeVars_da_inode hda'
    have hone : (∀ x, attrAt (putAttr s da') da.inode = some x → da.Rises x) ↔ da.Rises da' := by
      rw [attrAt_putAttr, if_pos hino.symm]
      exact ⟨fun h => h da' rfl, fun h x hx' => some.inj hx' ▸ h⟩
    rw [hone, DstKept, if_pos hx]
    rw [exchangeVars, setCtime_isDir] at hda'
    split_ifs at hda' with hp hd hpos <;> cases hda'
    · have hp' : req.parentSrcIno ≠ req.parentDstIno := by simpa using hp
      rw [hparent]
      simp [hp', hd]
    · have hp' : req.parentSrcIno ≠ req.parentDstIno := by simpa using hp
      have h0 : da.parentIno ≠ 0 := UInt64.pos_iff_ne_zero.mp hpos
      rw [hparent]
      simp [hp', h0]
    · have h0 : da.parentIno = 0 := by
        by_contra hne
        exact hpos (UInt64.pos_iff_ne_zero.mpr hne)
      have hd' : da.isDir = false := by simpa using hd
      exact iff_of_true (.inl rfl) (.inr (.inr ⟨hd', h0⟩))
    · have hp' : req.parentSrcIno = req.parentDstIno := by simpa using hp
      exact iff_of_true (.inl rfl) (.inl hp')

end RenameWay

theorem dstKept_of_isDir (hda : dstAttr s req = some da) (hd : da.isDir = true)
    (hl : losesDir s req = false) : DstKept req da := by
  rw [losesDir, hda, any_some] at hl
  rw [DstKept]
  split_ifs at hl ⊢ with hx
  · rw [movesDir, hd, Bool.and_true] at hl
    exact .inl (by simpa using hl)
  · exact .inl hd

/-- What a rename that found these records leaves for each inode: `m` and `n` are the link
counts of the parents, `sup` says that the old parent is saved in any case, and `before` has the
attributes before the last saves. -/
structure RenameSaved (s s' : Store) (req : RenameReq) (now : Time) (se : Entry)
    (spa dpa sa : Attr) (before : Ino → Option Attr) (m n : UInt32) (sup : Bool) : Prop where
  found : RenameFound s req se spa dpa sa
  way : ∃ v, RenameWay s req now (startVars spa dpa sa) v before
  links : n = dpa.nlink ↔ losesDir s req = movesDir req sa
  saves : losesDir s req = movesDir req sa → sup = movesDir req sa
  attrs : ∀ i, attrAt s' i =
    if i = req.parentDstIno ∧ ((movesDir req sa || losesDir s req) ||
        dueForUpdate now dpa.mtime dpa.mtimens) = true then
      some ((dpa.setNlink n).touch now)
    else if i = se.ino then some (renamedAttr req (sa.setCtime now))
    else if i = req.parentSrcIno ∧ req.parentDstIno ≠ req.parentSrcIno ∧
        (sup || dueForUpdate now spa.mtime spa.ctimens) = true then
      some ((spa.setNlink m).touch now).bumpEpoch
    else before i

theorem rename_saved {r : RenameResp} (h : (rename c req now).run s = (.ok r, s')) :
    ∃ se spa dpa sa before m n sup, RenameSaved s s' req now se spa dpa sa before m n sup := by
  obtain ⟨se, spa, dpa, sa, v, before, hf, hway, hat⟩ := rename_ok_way h
  obtain ⟨m, n, da, sup, hv, hn, hsup⟩ := hway.moved_vars
  refine ⟨se, spa, dpa, sa, before, m, n, sup, hf, ⟨v, hway⟩, hn, hsup, fun i => ?_⟩
  rw [hat, hv, savedAttrs, touchVars]
  have hi : (sa.setCtime now).inode = se.ino := attrAt_inode (a := sa) hf.srcAttr
  have hdue : dueForUpdate now (dpa.setNlink n).mtime (dpa.setNlink n).mtimens =
      dueForUpdate now dpa.mtime dpa.mtimens := rfl
  have hdue' : dueForUpdate now (spa.setNlink m).mtime (spa.setNlink m).ctimens =
      dueForUpdate now spa.mtime spa.ctimens := rfl
  dsimp only
  rw [hi, hdue, hdue']
  by_cases hd : i = req.parentDstIno ∧ ((movesDir req sa || losesDir s req) ||
      dueForUpdate now dpa.mtime dpa.mtimens) = true
  · rw [if_pos hd, if_pos hd, if_pos hd.2]
  rw [if_neg hd, if_neg hd]
  by_cases hs : i = req.parentSrcIno ∧ req.parentDstIno ≠ req.parentSrcIno ∧
      (sup || dueForUpdate now spa.mtime spa.ctimens) = true
  · rw [if_pos hs, if_pos hs, if_pos hs.2.2]
  · rw [if_neg hs, if_neg hs]

theorem RenameFound.unique {se' : Entry} {spa' dpa' sa' : Attr}
    (h : RenameFound s req se spa dpa sa) (h' : RenameFound s req se' spa' dpa' sa') :
    se' = se ∧ spa' = spa ∧ dpa' = dpa ∧ sa' = sa := by
  obtain rfl : se' = se := some.inj (h'.src.symm.trans h.src)
  exact ⟨rfl, some.inj (h'.srcParent.symm.trans h.srcParent),
    some.inj (h'.dstParent.symm.trans h.dstParent),
    some.inj (h'.srcAttr.symm.trans h.srcAttr)⟩

namespace RenameSaved

variable {m n : UInt32} {sup : Bool}

theorem source_rises (req : RenameReq) (now : Time) (sa : Attr) :
    sa.Rises (renamedAttr req (sa.setCtime now)) ↔ sa.epoch ≠ maxEpoch :=
  rises_iff_of_bumped rfl

theorem srcParent_rises (now : Time) (spa : Attr) (m : UInt32) :
    spa.Rises ((spa.setNlink m).touch now).bumpEpoch ↔ spa.epoch ≠ maxEpoch :=
  rises_iff_of_bumped rfl

section

variable (h : RenameSaved s s' req now se spa dpa sa before m n sup)
include h

theorem attrs_of_links (hl : losesDir s req = movesDir req sa) (i : Ino) : attrAt s' i =
      if i = req.parentDstIno ∧
          (movesDir req sa || dueForUpdate now dpa.mtime dpa.mtimens) = true then
        some ((dpa.setNlink n).touch now)
      else if i = se.ino then some (renamedAttr req (sa.setCtime now))
      else if i = req.parentSrcIno ∧ req.parentDstIno ≠ req.parentSrcIno ∧
          (movesDir req sa || dueForUpdate now spa.mtime spa.ctimens) = true then
        some ((spa.setNlink m).touch now).bumpEpoch
      else before i := by
  rw [h.attrs, hl, Bool.or_self, h.saves hl]

theorem links_of_epochsRise (hE : EpochsRise s s') : losesDir s req = movesDir req sa := by
  by_contra hne
  have hany : (movesDir req sa || losesDir s req) = true := by
    cases hg : movesDir req sa <;> cases hl : losesDir s req <;> simp_all
  have hr := hE req.parentDstIno dpa _ h.found.dstParent (by
    rw [h.attrs, if_pos ⟨rfl, by rw [hany]; rfl⟩])
  exact hne (h.links.mp (rises_setNlink_iff.mp hr))

theorem rises (hE : EpochsRise s s') : RenameRises s req now se spa dpa sa := by
  have hlinks := h.links_of_epochsRise hE
  have hat := h.attrs_of_links hlinks
  have hf := h.found
  obtain ⟨v, hway⟩ := h.way
  refine ⟨hlinks, ?_, ?_, fun da hda => ?_⟩
  · by_contra hno
    obtain ⟨hpd, hmax⟩ := not_or.mp hno
    refine hmax ((source_rises req now sa).mp (hE se.ino sa _ hf.srcAttr ?_))
    rw [hat, if_neg hpd, if_pos rfl]
  · by_contra hno
    obtain ⟨hse, hno⟩ := not_or.mp hno
    obtain ⟨hpd, hno⟩ := not_or.mp hno
    obtain ⟨hdue, hmax⟩ := not_or.mp hno
    refine hmax ((srcParent_rises now spa m).mp (hE req.parentSrcIno spa _ hf.srcParent ?_))
    rw [hat, if_neg fun hp => hpd hp.1, if_neg hse,
      if_pos ⟨rfl, Ne.symm hpd, Bool.eq_true_of_not_eq_false hdue⟩]
  · by_contra hno
    obtain ⟨hse, hno⟩ := not_or.mp hno
    obtain ⟨hpd, hno⟩ := not_or.mp hno
    obtain ⟨hps, hkept⟩ := not_or.mp hno
    refine hkept ((hway.before_rises hda).mp fun x hx => ?_)
    refine hE da.inode da x (dstAttr_stored hda) ?_
    rw [hat, if_neg fun hp => hpd hp.1, if_neg hse, if_neg fun hp => hps hp.1, hx]

theorem dst_kept (hR : RenameRises s req now se spa dpa sa) (hda : dstAttr s req = some da)
    (hd : ¬(da.inode = req.parentDstIno ∧
      (movesDir req sa || dueForUpdate now dpa.mtime dpa.mtimens) = true))
    (hs : da.inode ≠ se.ino)
    (hp : ¬(da.inode = req.parentSrcIno ∧ req.parentDstIno ≠ req.parentSrcIno ∧
      (movesDir req sa || dueForUpdate now spa.mtime spa.ctimens) = true)) : DstKept req da := by
  have hx := dstAttr_stored hda
  rcases hR.dst da hda with hse | hpd | hps | hkept
  · exact absurd hse hs
  · rw [hpd, h.found.dstParent] at hx
    cases hx
    refine dstKept_of_isDir hda h.found.dstParent_isDir (hR.links.trans ?_)
    by_contra hne
    exact hd ⟨hpd, by rw [Bool.eq_true_of_not_eq_false hne]; rfl⟩
  · rw [hps, h.found.srcParent] at hx
    cases hx
    refine dstKept_of_isDir hda h.found.srcParent_isDir (hR.links.trans ?_)
    by_contra hne
    have hmove := Bool.eq_true_of_not_eq_false hne
    have hdiff : req.parentSrcIno ≠ req.parentDstIno := by
      simpa using (Bool.and_eq_true_iff.mp hmove).1
    exact hp ⟨hps, hdiff.symm, by rw [hmove]; rfl⟩
  · exact hkept

theorem epochsRise (hR : RenameRises s req now se spa dpa sa) : EpochsRise s s' := by
  intro i x y hx hy
  have hf := h.found
  obtain ⟨v, hway⟩ := h.way
  rw [h.attrs_of_links hR.links] at hy
  split_ifs at hy with hd hs hp
  · -- the new parent, with its old link count
    cases hy
    rw [hd.1, hf.dstParent] at hx
    cases hx
    exact rises_setNlink_iff.mpr (h.links.mpr hR.links)
  · -- the renamed inode
    cases hy
    rw [hs, hf.srcAttr] at hx
    cases hx
    rcases hR.source with ⟨hpd, hdue⟩ | hmax
    · exact absurd ⟨hs.trans hpd, hdue⟩ hd
    · exact (source_rises req now _).mpr hmax
  · -- the old parent
    cases hy
    rw [hp.1, hf.srcParent] at hx
    cases hx
    rcases hR.srcParent with hse | hpd | hdue | hmax
    · exact absurd (hp.1.trans hse) hs
    · exact absurd hpd.symm hp.2.1
    · rw [hdue] at hp
      cases hp.2.2
    · exact (srcParent_rises now _ m).mpr hmax
  · -- every other inode, the destination among them
    by_cases hdst : ∃ da, dstAttr s req = some da ∧ i = da.inode
    · obtain ⟨da, hda, rfl⟩ := hdst
      obtain rfl : da = x := some.inj ((dstAttr_stored hda).symm.trans hx)
      exact (hway.before_rises hda).mpr (h.dst_kept hR hda hd hs hp) y hy
    · rw [hway.before_eq fun da hda heq => hdst ⟨da, hda, heq⟩] at hy
      exact rises_of_eq hx hy

end

end RenameSaved

theorem epochsRise_renamed {r : RenameResp} (h : (rename c req now).run s = (.ok r, s')) :
    EpochsRise s s' ↔
      ∀ se spa dpa sa, RenameFound s req se spa dpa sa → RenameRises s req now se spa dpa sa := by
  obtain ⟨se, spa, dpa, sa, before, m, n, sup, hsaved⟩ := rename_saved h
  constructor
  · intro hE se' spa' dpa' sa' hf'
    obtain ⟨rfl, rfl, rfl, rfl⟩ := hsaved.found.unique hf'
    exact hsaved.rises hE
  · intro hR
    exact hsaved.epochsRise (hR se spa dpa sa hsaved.found)

end Rename

/-! ### All calls -/

/-- When a successful call leaves no stale epoch. `Link` counts a link of an inode and leaves
its epoch, and so does `DeleteInode` with an inode that has another link. -/
def MetaCall.RisesWhen (s : Store) : MetaCall → Prop
  | .op (.createInode req _ _) => ∀ p ∈ attrAt s req.parentIno, p.epoch ≠ maxEpoch
  | .op (.link _ _) => False
  | .op (.deleteInode req _ _) => req.parentIno = 0 ∧ req.name = "/" ∨
      (∀ p ∈ attrAt s req.parentIno, p.epoch ≠ maxEpoch) ∧
        ∀ e ∈ entryAt s req.parentIno (trimSuffix req.name),
          e.ino = req.parentIno ∨ ∀ a ∈ attrAt s e.ino, ¬1 < a.nlink
  | .op (.deleteDirInode req _) => ∀ p ∈ attrAt s req.parentIno, p.epoch ≠ maxEpoch
  | .op (.rename _ req now) => ∀ se spa dpa sa, RenameFound s req se spa dpa sa →
      RenameRises s req now se spa dpa sa
  | .updateInodeAttr c req _ =>
      ∀ a ∈ attrAt s req.ino, req.changes c a = true → a.epoch ≠ maxEpoch

theorem forall_mem_of_eq_some {α : Type} {o : Option α} {x : α} {P : α → Prop} (h : o = some x) :
    (∀ a ∈ o, P a) ↔ P x := by
  subst h
  simp

/-- A successful call, which takes a new number for a new inode, leaves every inode with a
larger epoch or with no more than its times changed if and only if the condition on the store
before it holds. -/
theorem epochs_rise_iff (c : MetaCall) (s : Store)
    (hnew : ∀ i, c.newIno = some i → attrAt s i = none) (hok : c.succeeds s = true) :
    EpochsRise s (c.run s) ↔ c.RisesWhen s := by
  have ht := MetaCall.took hok
  rcases c with (⟨req, ino, now⟩ | ⟨req, now⟩ | ⟨req, now, now'⟩ | ⟨req, now⟩ | ⟨c, req, now⟩) |
    ⟨c, req, now⟩
  · obtain ⟨pAttr, m, hp, -, -, -, hs⟩ := ht
    rw [hs, epochsRise_created hp (hnew ino rfl), MetaCall.RisesWhen, forall_mem_of_eq_some hp]
  · obtain ⟨pAttr, target, hp, -, htar, -, -, -, hs⟩ := ht
    rw [hs]
    exact iff_of_false (not_epochsRise_linked hp htar) id
  · rcases ht with ⟨h0, hs⟩ | ⟨h0, entry, pAttr, attr, he, -, hp, ha, hs⟩
    · rw [hs]
      exact iff_of_true (fun i a b ha hb => rises_of_eq ha hb) (.inl h0)
    · rw [hs, epochsRise_deleted hp ha, MetaCall.RisesWhen, or_iff_right h0,
        forall_mem_of_eq_some hp, forall_mem_of_eq_some he, forall_mem_of_eq_some ha]
  · obtain ⟨pAttr, entry, hp, -, -, hs⟩ := ht
    rw [hs, epochsRise_deletedDir hp, MetaCall.RisesWhen, forall_mem_of_eq_some hp]
  · obtain ⟨r, hr⟩ := ht
    exact epochsRise_renamed hr
  · obtain ⟨a, r, ha, hr, hs⟩ := ht
    rw [hs, epochsRise_updated ha hr, MetaCall.RisesWhen, forall_mem_of_eq_some ha]

def createFileCall : MetaCall := .op (.createInode ⟨1, "a", some (.ofMode 0o644)⟩ 2 ⟨1, 0⟩)

def linkFileCall : MetaCall := .op (.link ⟨2, 1, "b"⟩ ⟨2, 0⟩)

theorem epochs_rise_sample :
    EpochsRise (initStore ⟨0, 0⟩ 0 0) (createFileCall.run (initStore ⟨0, 0⟩ 0 0)) := by
  refine (epochs_rise_iff createFileCall _ (fun i hi => ?_) (by decide)).mpr ?_
  · cases hi
    decide
  · exact (forall_mem_of_eq_some rfl).mpr (by decide)

/-- A link, the deletion of one of two links, and a directory that moves to another parent:
the file and the new parent have another link count and the same epoch. -/
theorem epochs_stale :
    (linkFileCall.succeeds (createFileCall.run (initStore ⟨0, 0⟩ 0 0)) = true ∧
      ¬EpochsRise (createFileCall.run (initStore ⟨0, 0⟩ 0 0))
        (linkFileCall.run (createFileCall.run (initStore ⟨0, 0⟩ 0 0)))) ∧
    ((MetaCall.op (.deleteInode ⟨1, "a"⟩ ⟨3, 0⟩ ⟨3, 0⟩)).succeeds
        (linkFileCall.run (createFileCall.run (initStore ⟨0, 0⟩ 0 0))) = true ∧
      ¬EpochsRise (linkFileCall.run (createFileCall.run (initStore ⟨0, 0⟩ 0 0)))
        ((MetaCall.op (.deleteInode ⟨1, "a"⟩ ⟨3, 0⟩ ⟨3, 0⟩)).run
          (linkFileCall.run (createFileCall.run (initStore ⟨0, 0⟩ 0 0))))) ∧
    (MetaCall.op (.rename ⟨0, 0⟩ ⟨1, "a", 3, "a", 0⟩ ⟨2, 0⟩)).succeeds
        (treeAfter [mkdirCall 1 "a" 2, mkdirCall 1 "b" 3]).store = true ∧
      ¬EpochsRise (treeAfter [mkdirCall 1 "a" 2, mkdirCall 1 "b" 3]).store
        ((MetaCall.op (.rename ⟨0, 0⟩ ⟨1, "a", 3, "a", 0⟩ ⟨2, 0⟩)).run
          (treeAfter [mkdirCall 1 "a" 2, mkdirCall 1 "b" 3]).store) := by
  refine ⟨⟨by decide, fun h => ?_⟩, ⟨by decide, fun h => ?_⟩, by decide, fun h => ?_⟩
  · exact absurd (h 2 _ _ rfl rfl) (by decide)
  · exact absurd (h 2 _ _ rfl rfl) (by decide)
  · exact absurd (h 3 _ _ rfl rfl) (by decide)

end HugoFS.Meta
