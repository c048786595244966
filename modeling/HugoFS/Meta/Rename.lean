import HugoFS.Meta.Accounting
import HugoFS.Meta.RenameEffect

/-!
# When Rename keeps the namespace consistent

A successful `Rename` of a consistent store leaves a consistent store exactly when `RenameKeeps`
holds before it: every name an inode loses must be matched by a change of a stored link count.
-/

namespace HugoFS.Meta

open Option Attr Nat

variable {req : RenameReq} {de se e : Entry} {s s' : Store}

/-! ### Displaced entries -/

def SameEntry (req : RenameReq) : Prop :=
  req.parentDstIno = req.parentSrcIno ∧ trimSuffix req.newName = trimSuffix req.oldName
deriving Decidable

def displacedDst (s : Store) (req : RenameReq) : Option Entry :=
  if SameEntry req then none else entryAt s req.parentDstIno (trimSuffix req.newName)

def clobbered (s : Store) (req : RenameReq) : Option Entry :=
  if req.newName = trimSuffix req.newName ∨
      req.parentDstIno = req.parentSrcIno ∧ req.newName = trimSuffix req.oldName then none
  else entryAt s req.parentDstIno req.newName

def hits (o : Option Entry) (q : Entry → Bool) : ℕ := if o.any q then 1 else 0

@[simp] theorem hits_none (q : Entry → Bool) : hits none q = 0 := rfl

@[simp] theorem hits_some (e : Entry) (q : Entry → Bool) :
    hits (some e) q = if q e then 1 else 0 := rfl

theorem tally_dropEntry (t : Store) (p : Ino) (n : String) (q : Entry → Bool) :
    tally t q = tally (dropEntry t p n) q + hits (entryAt t p n) q := by
  rcases he : entryAt t p n with _ | e
  · rw [dropEntry_of_entryAt_none he, hits_none, add_zero]
  · rw [tally_of_entryAt he, hits_some]

theorem tally_movedEntries
    (hse : entryAt s req.parentSrcIno (trimSuffix req.oldName) = some se) (q : Entry → Bool) :
    tally s q + (if q (renamedEntry req se) then 1 else 0) =
      tally (movedEntries s req se) q + (if q se then 1 else 0) +
        hits (displacedDst s req) q + hits (clobbered s req) q := by
  have h1 := tally_of_entryAt hse q
  have h2 := tally_dropEntry (dropEntry s req.parentSrcIno (trimSuffix req.oldName))
    req.parentDstIno (trimSuffix req.newName) q
  have h3 := tally_dropEntry (dropEntry (dropEntry s req.parentSrcIno (trimSuffix req.oldName))
    req.parentDstIno (trimSuffix req.newName)) req.parentDstIno req.newName q
  have hd : entryAt (dropEntry s req.parentSrcIno (trimSuffix req.oldName))
      req.parentDstIno (trimSuffix req.newName) = displacedDst s req := by
    rw [entryAt_dropEntry, displacedDst]
    rfl
  have hc : entryAt (dropEntry (dropEntry s req.parentSrcIno (trimSuffix req.oldName))
      req.parentDstIno (trimSuffix req.newName)) req.parentDstIno req.newName =
        clobbered s req := by
    rw [entryAt_dropEntry, entryAt_dropEntry, clobbered]
    by_cases h1 : req.newName = trimSuffix req.newName
    · rw [if_pos ⟨rfl, h1⟩, if_pos (.inl h1)]
    rw [if_neg (fun h => h1 h.2)]
    by_cases h2 : req.parentDstIno = req.parentSrcIno ∧ req.newName = trimSuffix req.oldName
    · rw [if_pos h2, if_pos (.inr h2)]
    · rw [if_neg h2, if_neg (not_or.mpr ⟨h1, h2⟩)]
  rw [hd] at h2
  rw [hc] at h3
  rw [movedEntries, tally_putEntry]
  change tally s q + _ = tally (dropEntry _ req.parentDstIno req.newName) q + _ + _ + _ + _
  omega

theorem parentIno_of_displacedDst
    (h : displacedDst s req = some e) : e.parentIno = req.parentDstIno := by
  rw [displacedDst] at h
  split_ifs at h
  exact (entryAt_key h).1

theorem parentIno_of_clobbered (h : clobbered s req = some e) : e.parentIno = req.parentDstIno := by
  rw [clobbered] at h
  split_ifs at h
  exact (entryAt_key h).1

theorem hits_child {o : Option Entry} {pd : Ino} (ho : ∀ e, o = some e → e.parentIno = pd)
    (p : Ino) (d : Ino → Bool) :
    hits o (fun e => e.parentIno == p && d e.ino) =
      if pd = p then hits o (fun e => d e.ino) else 0 := by
  rcases o with _ | e
  · simp
  · have he := ho e rfl
    by_cases hp : pd = p <;> simp [he, hp]

/-! ### The common form of a move and a replacement -/

def leftStat (s : Store) (da : Option Attr) (i : Ino) : Option (UInt32 × UInt32) :=
  match da with
  | none => stat s i
  | some a => if i = a.inode then replacedStat a else stat s i

def dstNlink (req : RenameReq) (dpa sa : Attr) (da : Option Attr) : UInt32 :=
  if movesDir req sa then (if da.any Attr.isDir then dpa.nlink - 1 else dpa.nlink) + 1
  else if da.any Attr.isDir then dpa.nlink - 1 else dpa.nlink

def srcNlink (req : RenameReq) (spa sa : Attr) : UInt32 :=
  if movesDir req sa then spa.nlink - 1 else spa.nlink

structure RenameShifts (s s' : Store) (req : RenameReq) (se : Entry) (spa dpa sa : Attr)
    (da : Option Attr) : Prop extends RenameFound s req se spa dpa sa where
  dst : ∀ de, entryAt s req.parentDstIno (trimSuffix req.newName) = some de →
    ∃ a, da = some a ∧ attrAt s de.ino = some a ∧ (a.isDir = true → EmptyDir s de.ino)
  no_dst : entryAt s req.parentDstIno (trimSuffix req.newName) = none → da = none
  entries : ∀ p n, entryAt s' p n = entryAt (movedEntries s req se) p n
  stats : ∀ i, stat s' i =
    if i = req.parentDstIno then some (dpa.mode, dstNlink req dpa sa da)
    else if i = se.ino then some (sa.mode, sa.nlink)
    else if i = req.parentSrcIno then some (spa.mode, srcNlink req spa sa)
    else leftStat s da i

theorem RenameMoves.shifts {spa dpa sa : Attr}
    (h : RenameMoves s s' req se spa dpa sa) : RenameShifts s s' req se spa dpa sa none where
  __ := h
  dst de hde := by
    rw [h.no_dst] at hde
    cases hde
  no_dst _ := rfl
  stats i := by
    rw [h.stats]
    rfl

theorem RenameReplaces.shifts
    {spa dpa sa da : Attr} (h : RenameReplaces s s' req se de spa dpa sa da) :
    RenameShifts s s' req se spa dpa sa (some da) where
  __ := h
  dst de' hde := by
    rw [h.dst] at hde
    cases hde
    exact ⟨da, rfl, h.dstAttr, h.dst_empty⟩
  no_dst hde := by
    rw [h.dst] at hde
    cases hde
  stats i := by
    rw [h.stats, leftStat, attrAt_inode h.dstAttr]
    rfl

def lost (s : Store) (req : RenameReq) (i : Ino) : ℕ :=
  hits (displacedDst s req) (fun e => e.ino == i) + hits (clobbered s req) (fun e => e.ino == i)

def lostDirs (s : Store) (req : RenameReq) : ℕ :=
  hits (displacedDst s req) (fun e => isDirAt s e.ino) +
    hits (clobbered s req) (fun e => isDirAt s e.ino)

namespace RenameShifts

variable {s s' : Store} {req : RenameReq} {se : Entry} {spa dpa sa : Attr} {da : Option Attr}
  {i : Ino}

section

variable (h : RenameShifts s s' req se spa dpa sa da) {a : Attr}
include h

theorem links_eq (i : Ino) :
    links s i = links s' i + lost s req i := by
  have ht := tally_movedEntries h.src fun e => e.ino == i
  rw [← tally_eq_of_entryAt h.entries] at ht
  have he : (renamedEntry req se).ino = se.ino := rfl
  rw [he] at ht
  rw [links, links, lost]
  omega

theorem isDirAt_src :
    isDirAt s se.ino = sa.isDir := isDirAt_of_attrAt h.srcAttr

theorem kids_eq (p : Ino) :
    subdirs s p + (if req.parentDstIno = p ∧ sa.isDir = true then 1 else 0) =
      tally s' (fun e => e.parentIno == p && isDirAt s e.ino) +
        (if req.parentSrcIno = p ∧ sa.isDir = true then 1 else 0) +
        if req.parentDstIno = p then lostDirs s req else 0 := by
  have ht := tally_movedEntries h.src fun e => e.parentIno == p && isDirAt s e.ino
  rw [← tally_eq_of_entryAt h.entries,
    hits_child (fun e he => parentIno_of_displacedDst he) p (isDirAt s),
    hits_child (fun e he => parentIno_of_clobbered he) p (isDirAt s)] at ht
  have he : (renamedEntry req se).ino = se.ino := rfl
  have hp : (renamedEntry req se).parentIno = req.parentDstIno := rfl
  rw [he, hp, (entryAt_key h.src).1, h.isDirAt_src] at ht
  simp only [Bool.and_eq_true, beq_iff_eq] at ht
  rw [subdirs, lostDirs]
  split_ifs at ht ⊢ <;> omega

theorem exists_dst (ha : da = some a) :
    ∃ de, entryAt s req.parentDstIno (trimSuffix req.newName) = some de ∧
      attrAt s de.ino = some a ∧ (a.isDir = true → EmptyDir s de.ino) := by
  rcases hde : entryAt s req.parentDstIno (trimSuffix req.newName) with _ | de
  · rw [h.no_dst hde] at ha
    cases ha
  obtain ⟨b, hb, hab, he⟩ := h.dst de hde
  rw [ha] at hb
  cases hb
  exact ⟨de, rfl, hab, he⟩

theorem stat_da (ha : da = some a) :
    attrAt s a.inode = some a := by
  obtain ⟨de, -, hd, -⟩ := h.exists_dst ha
  rw [attrAt_inode hd, hd]

theorem da_ne_parents
    (ha : da = some a) : a.inode ≠ req.parentDstIno ∧ a.inode ≠ req.parentSrcIno := by
  obtain ⟨de, hde, hd, hempty⟩ := h.exists_dst ha
  rw [attrAt_inode hd]
  constructor
  · intro hc
    have hp := h.dstParent
    rw [← hc, hd] at hp
    cases hp
    rw [← hc, hempty h.dstParent_isDir] at hde
    cases hde
  · intro hc
    have hp := h.srcParent
    rw [← hc, hd] at hp
    cases hp
    have hsrc := h.src
    rw [← hc, hempty h.srcParent_isDir] at hsrc
    cases hsrc

theorem mode_eq {m n : UInt32} (hi : stat s' i = some (m, n)) : ∃ n', stat s i = some (m, n') := by
  rw [h.stats] at hi
  split_ifs at hi with h1 h2 h3
  · rw [h1, stat_of_attrAt h.dstParent]
    cases hi
    exact ⟨_, rfl⟩
  · rw [h2, stat_of_attrAt h.srcAttr]
    cases hi
    exact ⟨_, rfl⟩
  · rw [h3, stat_of_attrAt h.srcParent]
    cases hi
    exact ⟨_, rfl⟩
  · rcases hda : da with _ | a
    · rw [hda] at hi
      exact ⟨n, hi⟩
    rw [hda, leftStat] at hi
    split_ifs at hi with h4
    · rw [h4, stat_of_attrAt (h.stat_da hda)]
      rw [replacedStat] at hi
      split_ifs at hi <;> cases hi <;> exact ⟨_, rfl⟩
    · exact ⟨n, hi⟩

theorem subdirs_eq (hE : ∀ p n e, entryAt s' p n = some e → ∃ x, stat s' e.ino = some x) (p : Ino) :
    subdirs s' p = tally s' fun e => e.parentIno == p && isDirAt s e.ino := by
  apply subdirs_eq_tally
  intro q n e he
  obtain ⟨⟨m, k⟩, hx⟩ := hE q n e he
  obtain ⟨k', hx'⟩ := h.mode_eq hx
  rw [isDirAt_of_stat hx, isDirAt_of_stat hx']

end

theorem dstNlink_eq (hs : Consistent s) (h : RenameShifts s s' req se spa dpa sa da)
    (hw : movesDir req sa = true → da.any isDir = true ∨ dpa.nlink.toNat + 1 < 2 ^ 32) :
    (dstNlink req dpa sa da).toNat + (if da.any isDir then 1 else 0) =
      dpa.nlink.toNat + if movesDir req sa then 1 else 0 := by
  have hn := hs.dir_nlink h.dstParent h.dstParent_isDir
  have hlt := dpa.nlink.toNat_lt
  have hsub : (dpa.nlink - 1).toNat + 1 = dpa.nlink.toNat := toNat_sub_one (by omega)
  rw [dstNlink]
  split_ifs with hm hd hd
  · rw [toNat_add_one (by omega)]
    omega
  · rw [toNat_add_one ((hw hm).resolve_left hd)]
  · omega
  · rfl

theorem dirs_of_consistent (hs : Consistent s) (h : RenameShifts s s' req se spa dpa sa da)
    (h' : Consistent s') :
    lostDirs s req = (if da.any isDir then 1 else 0) ∧
      (movesDir req sa = true → se.ino ≠ req.parentSrcIno ∧
        (da.any isDir = true ∨ nlinkBelowMax s req.parentDstIno = true)) := by
  obtain ⟨hE, -, hD, -⟩ := consistent_iff_stat.mp h'
  have hn := hs.dir_nlink h.dstParent h.dstParent_isDir
  have hpd : stat s' req.parentDstIno = some (dpa.mode, dstNlink req dpa sa da) := by
    rw [h.stats, if_pos rfl]
  have hn' := hD _ _ _ hpd h.dstParent_isDir
  have hk := h.kids_eq req.parentDstIno
  rw [← h.subdirs_eq hE, if_pos rfl] at hk
  have hw : movesDir req sa = true → da.any isDir = true ∨ dpa.nlink.toNat + 1 < 2 ^ 32 := by
    intro hm
    by_contra hc
    rw [not_or] at hc
    rw [dstNlink, if_pos hm, if_neg hc.1, toNat_add_one_of_max hc.2] at hn'
    omega
  have hdst := h.dstNlink_eq hs hw
  refine ⟨?_, fun hm => ⟨?_, (hw hm).imp_right fun hb => (nlinkBelowMax_iff h.dstParent).mpr hb⟩⟩
  · by_cases hm : movesDir req sa = true
    · obtain ⟨hpp, hsd⟩ := movesDir_iff.mp hm
      rw [if_pos ⟨rfl, hsd⟩, if_neg (fun hc => hpp hc.1)] at hk
      rw [if_pos hm] at hdst
      omega
    rw [if_neg hm] at hdst
    rw [movesDir_iff, not_and_or, not_not] at hm
    rcases hm with hpp | hsd
    · rw [hpp] at hk
      omega
    · rw [if_neg (fun hc => hsd hc.2), if_neg (fun hc => hsd hc.2)] at hk
      omega
  · -- a directory entry that points back to its own directory
    intro hc
    obtain ⟨hpp, hsd⟩ := movesDir_iff.mp hm
    have hps : stat s' req.parentSrcIno = some (sa.mode, sa.nlink) := by
      rw [h.stats, if_neg hpp, if_pos hc.symm]
    have h1 := hD _ _ _ hps hsd
    have h2 := hs.dir_nlink (hc ▸ h.srcAttr) hsd
    have hk' := h.kids_eq req.parentSrcIno
    rw [← h.subdirs_eq hE, if_neg (fun hc => hpp hc.1.symm), if_pos ⟨rfl, hsd⟩,
      if_neg (Ne.symm hpp)] at hk'
    omega

theorem leftStat_of_ne (hi : ∀ a, da = some a → i ≠ a.inode) :
    leftStat s da i = stat s i := by
  rcases da with _ | a
  · rfl
  · exact if_neg (hi a rfl)

theorem dirs_ok (hs : Consistent s) (h : RenameShifts s s' req se spa dpa sa da)
    (hE : ∀ p n e, entryAt s' p n = some e → ∃ x, stat s' e.ino = some x)
    (hl : lostDirs s req = if da.any isDir then 1 else 0)
    (hm : movesDir req sa = true → se.ino ≠ req.parentSrcIno ∧
      (da.any isDir = true ∨ nlinkBelowMax s req.parentDstIno = true))
    {m n : UInt32} (hi : stat s' i = some (m, n)) (hd : modeIsDir m = true) :
    n.toNat = 2 + subdirs s' i := by
  have hk := h.kids_eq i
  rw [← h.subdirs_eq hE] at hk
  rw [h.stats] at hi
  split_ifs at hi with h1 h2 h3
  · cases hi
    have hn := hs.dir_nlink h.dstParent h.dstParent_isDir
    have hdst := h.dstNlink_eq hs fun hmt =>
      (hm hmt).2.imp_right fun hb => (nlinkBelowMax_iff h.dstParent).mp hb
    rw [if_pos h1.symm] at hk
    subst h1
    by_cases hmt : movesDir req sa = true
    · obtain ⟨hpp, hsd⟩ := movesDir_iff.mp hmt
      rw [if_pos ⟨rfl, hsd⟩, if_neg (fun hc => hpp hc.1)] at hk
      rw [if_pos hmt] at hdst
      omega
    rw [if_neg hmt] at hdst
    rw [movesDir_iff, not_and_or, not_not] at hmt
    rcases hmt with hpp | hsd
    · rw [hpp] at hk
      omega
    · rw [if_neg (fun hc => hsd hc.2), if_neg (fun hc => hsd hc.2)] at hk
      omega
  · cases hi
    have hn := hs.dir_nlink h.srcAttr hd
    subst h2
    rw [if_neg (fun hc => h1 hc.1.symm), if_neg (Ne.symm h1), if_neg] at hk
    · omega
    · rintro ⟨hc, -⟩
      exact (hm (movesDir_iff.mpr ⟨fun hpp => h1 (hc ▸ hpp), hd⟩)).1 hc.symm
  · cases hi
    have hn := hs.dir_nlink h.srcParent h.srcParent_isDir
    subst h3
    rw [if_neg (fun hc => h1 hc.1.symm), if_neg (Ne.symm h1)] at hk
    rw [srcNlink]
    by_cases hsd : sa.isDir = true
    · have hsub : (spa.nlink - 1).toNat + 1 = spa.nlink.toNat := toNat_sub_one (by omega)
      rw [if_pos ⟨rfl, hsd⟩] at hk
      rw [if_pos (movesDir_iff.mpr ⟨h1, hsd⟩)]
      omega
    rw [if_neg (fun hc => hsd hc.2)] at hk
    rw [if_neg (fun hc => hsd (movesDir_iff.mp hc).2)]
    omega
  · rw [if_neg (fun hc => h1 hc.1.symm), if_neg (fun hc => h3 hc.1.symm),
      if_neg (Ne.symm h1)] at hk
    -- a replaced directory keeps its count, if it is kept at all
    have hold : stat s i = some (m, n) := by
      by_cases hda : ∀ a, da = some a → i ≠ a.inode
      · rwa [leftStat_of_ne hda] at hi
      push Not at hda
      obtain ⟨a, ha, rfl⟩ := hda
      rw [ha, leftStat, if_pos rfl, replacedStat] at hi
      rw [stat_of_attrAt (h.stat_da ha)]
      split_ifs at hi with h4 h5
      · cases hi
        rw [isDir, hd] at h4
        simp at h4
      · exact hi
    obtain ⟨a, ha, hx⟩ := stat_eq_some.mp hold
    cases hx
    have := hs.dir_nlink ha hd
    omega

end RenameShifts

/-! ### The condition -/

def KeepsName (s : Store) (i : Ino) : Prop := i = rootIno ∨ 2 ≤ links s i
deriving Decidable

def isFileAt (s : Store) (i : Ino) : Bool := (attrAt s i).any Attr.isFile

def isSymlinkAt (s : Store) (i : Ino) : Bool := (attrAt s i).any Attr.isSymlink

/-- Replacing `de` by the inode of `se` is accounted for. A directory keeps its
attributes, so it needs another name; a file that is the source itself keeps its
link count; the last name of a device, pipe or socket leaves its attributes
behind. -/
def ReplaceOk (s : Store) (se de : Entry) : Prop :=
  if isDirAt s de.ino then
    de.ino = se.ino ∨
      if isSymlinkAt s de.ino then links s de.ino = 1 else KeepsName s de.ino
  else de.ino ≠ se.ino ∧
    (2 ≤ links s de.ino ∨ isFileAt s de.ino = true ∨ isSymlinkAt s de.ino = true)

def dstIsDir (s : Store) (req : RenameReq) : Bool :=
  (entryAt s req.parentDstIno (trimSuffix req.newName)).any fun de => isDirAt s de.ino

def DstOk (s : Store) (req : RenameReq) (se : Entry) : Prop :=
  match entryAt s req.parentDstIno (trimSuffix req.newName) with
  | none => clobbered s req = none
  | some de =>
    if SameEntry req then
      if isDirAt s se.ino then
        (clobbered s req).any (fun ce => isDirAt s ce.ino && KeepsName s ce.ino) = true
      else clobbered s req = none
    else clobbered s req = none ∧ ReplaceOk s se de

def MoveOk (s : Store) (req : RenameReq) (se : Entry) : Prop :=
  req.parentSrcIno ≠ req.parentDstIno → isDirAt s se.ino = true →
    se.ino ≠ req.parentSrcIno ∧
      (dstIsDir s req = true ∨ nlinkBelowMax s req.parentDstIno = true)

def RenameKeeps (s : Store) (req : RenameReq) : Prop :=
  ∀ se, entryAt s req.parentSrcIno (trimSuffix req.oldName) = some se →
    if req.flags = renameExchange then
      req.parentSrcIno = req.parentDstIno ∨
        ∀ de, entryAt s req.parentDstIno (trimSuffix req.newName) = some de →
          isDirAt s se.ino = isDirAt s de.ino
    else MoveOk s req se ∧ DstOk s req se

namespace RenameShifts

variable {s s' : Store} {req : RenameReq} {se : Entry} {spa dpa sa : Attr} {da : Option Attr}
variable {ce : Entry} {i : Ino} {a : Attr}

section

variable (h : RenameShifts s s' req se spa dpa sa da)
include h

theorem dstIsDir_eq :
    dstIsDir s req = da.any isDir := by
  rw [dstIsDir]
  rcases hde : entryAt s req.parentDstIno (trimSuffix req.newName) with _ | de
  · rw [h.no_dst hde]
    rfl
  obtain ⟨a, ha, hat, -⟩ := h.dst de hde
  rw [ha]
  exact isDirAt_of_attrAt hat

theorem moveOk_iff :
    MoveOk s req se ↔ (movesDir req sa = true → se.ino ≠ req.parentSrcIno ∧
      (da.any isDir = true ∨ nlinkBelowMax s req.parentDstIno = true)) := by
  rw [MoveOk, h.dstIsDir_eq, h.isDirAt_src]
  simp [movesDir]

theorem stat_of_file (hd : isDirAt s i = false) (hi : i = se.ino ∨ ∀ a, da = some a → i ≠ a.inode) :
    stat s' i = stat s i := by
  rw [h.stats]
  split_ifs with h1 h2 h3
  · rw [h1, isDirAt_of_attrAt h.dstParent, h.dstParent_isDir] at hd
    cases hd
  · rw [h2, stat_of_attrAt h.srcAttr]
  · rw [h3, isDirAt_of_attrAt h.srcParent, h.srcParent_isDir] at hd
    cases hd
  · exact leftStat_of_ne (hi.resolve_left h2)

omit h in
theorem lost_eq_zero (hs : Consistent s) (h : RenameShifts s s' req se spa dpa sa da)
    (h' : Consistent s') (ha : attrAt s i = some a)
    (hd : a.isDir = false) (hi : i = se.ino ∨ ∀ b, da = some b → i ≠ b.inode) :
    lost s req i = 0 := by
  have hst := h.stat_of_file ((isDirAt_of_attrAt ha).trans hd) hi
  rw [stat_of_attrAt ha] at hst
  have h1 := hs.file_nlink ha hd
  have h2 := (consistent_iff_stat.mp h').2.1 _ _ _ hst hd
  have h3 := h.links_eq i
  omega

theorem stat_isSome (ha : attrAt s i = some a) (hi : i = se.ino ∨ ∀ b, da = some b → i ≠ b.inode) :
    ∃ x, stat s' i = some x := by
  rw [h.stats]
  split_ifs with h1 h2 h3
  · exact ⟨_, rfl⟩
  · exact ⟨_, rfl⟩
  · exact ⟨_, rfl⟩
  · rw [leftStat_of_ne (hi.resolve_left h2)]
    exact ⟨_, stat_of_attrAt ha⟩

theorem stat_replaced
    (ha : da = some a) (hne : a.inode ≠ se.ino) : stat s' a.inode = replacedStat a := by
  obtain ⟨h1, h2⟩ := h.da_ne_parents ha
  rw [h.stats, if_neg h1, if_neg hne, if_neg h2, ha, leftStat, if_pos rfl]

omit h in
theorem lost_pos_of_clobbered (hc : clobbered s req = some ce) :
    0 < lost s req ce.ino := by
  rw [lost, hc, hits_some, if_pos (beq_self_eq_true _)]
  omega

omit h in
theorem entryAt_of_clobbered (hc : clobbered s req = some ce) :
    entryAt s req.parentDstIno req.newName = some ce := by
  rw [clobbered] at hc
  split_ifs at hc
  exact hc

section

variable (hs : Consistent s)
include hs

omit h in
theorem clobbered_isDir (h : RenameShifts s s' req se spa dpa sa da) (h' : Consistent s')
    (hc : clobbered s req = some ce) (hi : ce.ino = se.ino ∨ ∀ b, da = some b → ce.ino ≠ b.inode) :
    isDirAt s ce.ino = true := by
  obtain ⟨a, ha⟩ := hs.entry_attr (entryAt_of_clobbered hc)
  rw [isDirAt_of_attrAt ha]
  by_contra hd
  have := h.lost_eq_zero hs h' ha (by simpa using hd) hi
  have := lost_pos_of_clobbered hc
  omega

omit h in
theorem replaceOk_of_consistent (h : RenameShifts s s' req se spa dpa sa da) (h' : Consistent s')
    (hde : entryAt s req.parentDstIno (trimSuffix req.newName) = some de)
    (hne : ¬SameEntry req) (hc : clobbered s req = none) : ReplaceOk s se de := by
  obtain ⟨a, ha, hat, -⟩ := h.dst de hde
  have hi := attrAt_inode hat
  have hdd : displacedDst s req = some de := by rw [displacedDst, if_neg hne, hde]
  have hlost : lost s req de.ino = 1 := by
    rw [lost, hdd, hc, hits_some, if_pos (beq_self_eq_true _), hits_none]
  have hl := h.links_eq de.ino
  rw [hlost] at hl
  obtain ⟨-, hF, -, hO⟩ := consistent_iff_stat.mp h'
  rw [ReplaceOk, isDirAt_of_attrAt hat, isSymlinkAt, isFileAt, hat]
  by_cases hsame : de.ino = se.ino
  · by_cases hd : a.isDir = true
    · rw [if_pos hd]
      exact .inl hsame
    -- the link count of the source is written back unchanged
    have := h.lost_eq_zero hs h' hat (by simpa using hd) (.inl hsame)
    omega
  · have hst := h.stat_replaced ha (by rwa [hi])
    rw [hi, replacedStat] at hst
    split_ifs with hd hsym
    · right
      have hsym' : a.isSymlink = true := hsym
      rw [hd, hsym', Bool.or_true] at hst
      have hgone : attrAt s' de.ino = none := map_eq_none_iff.mp hst
      have := h'.links_eq_zero hgone
      omega
    · right
      have hsym' : a.isSymlink = false := by simpa using hsym
      have hfile : a.isFile = false := modeIsRegular_eq_false_of_isDir hd
      rw [hd, hsym', hfile] at hst
      by_cases hr : de.ino = rootIno
      · exact .inl hr
      · have := hO _ _ hst hr
        exact .inr (by omega)
    · refine ⟨hsame, ?_⟩
      by_contra hcon
      simp only [not_or, not_le, any_some, Bool.not_eq_true] at hcon
      obtain ⟨hlt, hfile, hsym⟩ := hcon
      have hd' : a.isDir = false := by simpa using hd
      have hn := hs.file_nlink hat hd'
      have hz : ¬0 < a.nlink - 1 := by
        rw [pos_iff_toNat]
        have := toNat_sub_one (n := a.nlink) (by omega)
        omega
      rw [hfile, hsym, if_neg (by simp [hz]), if_neg (by simp)] at hst
      have := hF _ _ _ hst hd'
      omega

omit hs in
theorem dst_of_sameEntry (hsame : SameEntry req) :
    entryAt s req.parentDstIno (trimSuffix req.newName) = some se := by
  rw [hsame.1, hsame.2, h.src]

omit hs in
theorem eq_or_ne_replaced (hsame : SameEntry req)
    (i : Ino) : i = se.ino ∨ ∀ b, da = some b → i ≠ b.inode := by
  obtain ⟨a, ha, hat, -⟩ := h.dst se (h.dst_of_sameEntry hsame)
  by_cases hi : i = se.ino
  · exact .inl hi
  refine .inr fun b hb => ?_
  cases ha.symm.trans hb
  rwa [attrAt_inode hat]

omit h in
theorem keepsName_of_clobbered (h : RenameShifts s s' req se spa dpa sa da)
    (h' : Consistent s') (hc : clobbered s req = some ce)
    (hi : ce.ino = se.ino ∨ ∀ b, da = some b → ce.ino ≠ b.inode) : KeepsName s ce.ino := by
  by_cases hr : ce.ino = rootIno
  · exact .inl hr
  obtain ⟨b, hb⟩ := hs.entry_attr (entryAt_of_clobbered hc)
  obtain ⟨x, hx⟩ := h.stat_isSome hb hi
  have h1 := (consistent_iff_stat.mp h').2.2.2 _ _ hx hr
  have h2 := lost_pos_of_clobbered hc
  have h3 := h.links_eq ce.ino
  exact .inr (by omega)

omit h in
theorem selfOk_of_consistent (h : RenameShifts s s' req se spa dpa sa da)
    (h' : Consistent s') (hsame : SameEntry req) :
    if isDirAt s se.ino then
      (clobbered s req).any (fun ce => isDirAt s ce.ino && KeepsName s ce.ino) = true
    else clobbered s req = none := by
  have hdd : displacedDst s req = none := by rw [displacedDst, if_pos hsame]
  obtain ⟨a, ha, hat, -⟩ := h.dst se (h.dst_of_sameEntry hsame)
  have hl := (h.dirs_of_consistent hs h').1
  rw [lostDirs, hdd, ha, any_some, hits_none, zero_add] at hl
  rw [isDirAt_of_attrAt hat]
  cases hc : clobbered s req with
  | none =>
    rw [hc, hits_none] at hl
    split_ifs with hd
    · rw [if_pos hd] at hl
      cases hl
    · rfl
  | some ce =>
    have hcd := h.clobbered_isDir hs h' hc (h.eq_or_ne_replaced hsame ce.ino)
    have hkeeps := h.keepsName_of_clobbered hs h' hc (h.eq_or_ne_replaced hsame ce.ino)
    rw [hc, hits_some, if_pos hcd] at hl
    split_ifs with hd
    · rw [any_some, hcd, Bool.true_and, decide_eq_true_iff]
      exact hkeeps
    · rw [if_neg hd] at hl
      cases hl

omit h in
theorem clobbered_eq_none_of_consistent (h : RenameShifts s s' req se spa dpa sa da)
    (h' : Consistent s') (hde : entryAt s req.parentDstIno (trimSuffix req.newName) = some de)
    (hne : ¬SameEntry req) : clobbered s req = none := by
  have hdd : displacedDst s req = some de := by rw [displacedDst, if_neg hne, hde]
  obtain ⟨a, ha, hat, -⟩ := h.dst de hde
  have hl := (h.dirs_of_consistent hs h').1
  rw [lostDirs, hdd, ha, any_some, hits_some, isDirAt_of_attrAt hat] at hl
  cases hc : clobbered s req with
  | none => rfl
  | some ce =>
    rw [hc, hits_some] at hl
    have hcd : ¬isDirAt s ce.ino = true := by
      intro hcd
      rw [if_pos hcd] at hl
      omega
    by_cases hce : ce.ino = se.ino ∨ ∀ b, da = some b → ce.ino ≠ b.inode
    · exact absurd (h.clobbered_isDir hs h' hc hce) hcd
    -- the file loses two names and its count drops by one
    rw [not_or, ha] at hce
    obtain ⟨hcs, hcb⟩ := hce
    push Not at hcb
    obtain ⟨b, hb, hcb⟩ := hcb
    cases hb
    rw [hcb, isDirAt_of_attrAt (h.stat_da ha)] at hcd
    have hd' : a.isDir = false := by simpa using hcd
    have hlost : lost s req a.inode = 2 := by
      rw [lost, hdd, hc, hits_some, hits_some, hcb, attrAt_inode hat]
      simp
    have hlk := h.links_eq a.inode
    have hn := hs.file_nlink (h.stat_da ha) hd'
    have hst := h.stat_replaced ha (hcb ▸ hcs)
    have hsub := toNat_sub_one (n := a.nlink) (by omega)
    have hpos : 0 < a.nlink - 1 := by
      rw [pos_iff_toNat]
      omega
    rw [replacedStat, hd', if_pos (by simp [hpos])] at hst
    have := (consistent_iff_stat.mp h').2.1 _ _ _ hst hd'
    omega

omit h in
theorem dstOk_of_consistent (h : RenameShifts s s' req se spa dpa sa da)
    (h' : Consistent s') : DstOk s req se := by
  rw [DstOk]
  cases hde : entryAt s req.parentDstIno (trimSuffix req.newName) with
  | none =>
    have hdd : displacedDst s req = none := by rw [displacedDst, hde, ite_self]
    have hda := h.no_dst hde
    have hl := (h.dirs_of_consistent hs h').1
    rw [lostDirs, hdd, hda, hits_none] at hl
    cases hc : clobbered s req with
    | none => rfl
    | some ce =>
      have := h.clobbered_isDir hs h' hc (.inr fun b hb => by rw [hda] at hb; cases hb)
      rw [hc, hits_some, if_pos this] at hl
      simp at hl
  | some de =>
    by_cases hsame : SameEntry req
    · exact (if_pos hsame).mpr (h.selfOk_of_consistent hs h' hsame)
    · have hc := h.clobbered_eq_none_of_consistent hs h' hde hsame
      exact (if_neg hsame).mpr ⟨hc, h.replaceOk_of_consistent hs h' hde hsame hc⟩

end

theorem replaceOk_of_dstOk (hok : DstOk s req se) (ha : da = some a) (hne : a.inode ≠ se.ino) :
    ∃ de, attrAt s de.ino = some a ∧ displacedDst s req = some de ∧
      clobbered s req = none ∧ ReplaceOk s se de := by
  obtain ⟨de, hde, hat, -⟩ := h.exists_dst ha
  rw [DstOk, hde] at hok
  dsimp only at hok
  by_cases hsame : SameEntry req
  · rw [SameEntry] at hsame
    rw [hsame.1, hsame.2, h.src] at hde
    cases hde
    exact absurd (attrAt_inode hat) hne
  · rw [if_neg hsame] at hok
    exact ⟨de, hat, by rw [displacedDst, if_neg hsame, hde], hok⟩

omit h in
theorem clobbered_of_dstOk (hok : DstOk s req se) (hc : clobbered s req = some ce) :
    displacedDst s req = none ∧ isDirAt s ce.ino = true ∧ KeepsName s ce.ino := by
  rw [DstOk] at hok
  rcases hde : entryAt s req.parentDstIno (trimSuffix req.newName) with _ | de
  · rw [hde, hc] at hok
    cases hok
  rw [hde] at hok
  dsimp only at hok
  split_ifs at hok with hsame hsd
  · rw [hc, any_some, Bool.and_eq_true, decide_eq_true_iff] at hok
    exact ⟨by rw [displacedDst, if_pos hsame], hok⟩
  · rw [hc] at hok
    cases hok
  · rw [hc] at hok
    cases hok.1

theorem lostDirs_of_dstOk
    (hok : DstOk s req se) : lostDirs s req = if da.any isDir then 1 else 0 := by
  rw [lostDirs]
  rcases hde : entryAt s req.parentDstIno (trimSuffix req.newName) with _ | de
  · rw [DstOk, hde] at hok
    have hcn : clobbered s req = none := hok
    rw [displacedDst, hde, ite_self, hcn, h.no_dst hde]
    rfl
  obtain ⟨a, ha, hat, -⟩ := h.dst de hde
  rw [DstOk, hde] at hok
  dsimp only at hok
  rw [ha, any_some]
  by_cases hsame : SameEntry req
  · have hse := hsame
    rw [SameEntry] at hse
    rw [hse.1, hse.2, h.src] at hde
    cases hde
    rw [if_pos hsame, isDirAt_of_attrAt hat] at hok
    rw [displacedDst, if_pos hsame, hits_none, zero_add]
    cases hd : a.isDir with
    | true =>
      rw [hd, if_pos rfl] at hok
      rcases hc : clobbered s req with _ | ce
      · rw [hc] at hok
        cases hok
      · rw [hc, any_some, Bool.and_eq_true] at hok
        rw [hits_some, if_pos hok.1, if_pos rfl]
    | false =>
      rw [hd, if_neg (by simp)] at hok
      rw [hok, hits_none, if_neg (by simp)]
  · rw [if_neg hsame] at hok
    rw [displacedDst, if_neg hsame, hde, hok.1, hits_some, hits_none, isDirAt_of_attrAt hat,
      add_zero]

theorem links_replaced (hdd : displacedDst s req = some de) (hc : clobbered s req = none) :
    links s de.ino = links s' de.ino + 1 := by
  rw [h.links_eq de.ino, lost, hdd, hc, hits_some, if_pos (beq_self_eq_true _), hits_none]

end

section

variable (hs : Consistent s) (h : RenameShifts s s' req se spa dpa sa da)
include hs h

theorem entry_attr_ok (hok : DstOk s req se) {p : Ino} {n : String} (he : entryAt s' p n = some e) :
    ∃ x, stat s' e.ino = some x := by
  have hpos : 0 < links s' e.ino := links_pos.mpr ⟨p, n, e, he, rfl⟩
  by_cases hse : e.ino = se.ino
  · exact h.stat_isSome (hse ▸ h.srcAttr) (.inl hse)
  have hold : entryAt s p n = some e := by
    rw [h.entries, movedEntries, entryAt_putEntry, entryAt_dropEntry, entryAt_dropEntry] at he
    split_ifs at he
    · cases he
      exact absurd rfl hse
    · exact he
  obtain ⟨b, hb⟩ := hs.entry_attr hold
  by_cases hda : ∀ a, da = some a → e.ino ≠ a.inode
  · exact h.stat_isSome hb (.inr hda)
  push Not at hda
  obtain ⟨a, ha, hi⟩ := hda
  obtain ⟨de, hat, hdd, hc, hr⟩ := h.replaceOk_of_dstOk hok ha (hi ▸ hse)
  have hl := h.links_replaced hdd hc
  rw [← attrAt_inode hat, ← hi] at hl
  rw [hi, h.stat_replaced ha (hi ▸ hse), replacedStat]
  rw [ReplaceOk, isDirAt_of_attrAt hat, isSymlinkAt, hat, any_some,
    ← attrAt_inode hat, ← hi] at hr
  cases hd : a.isDir with
  | true =>
    have hfile : a.isFile = false := modeIsRegular_eq_false_of_isDir hd
    rw [if_pos hd] at hr
    have hr := hr.resolve_left hse
    split_ifs at hr with hsym
    · omega
    · simp [hfile, hsym]
  | false =>
    have hn := hs.file_nlink (h.stat_da ha) hd
    rw [← hi] at hn
    have hsub := toNat_sub_one (n := a.nlink) (by omega)
    have h1 : 0 < a.nlink - 1 := by
      rw [pos_iff_toNat]
      omega
    exact ⟨_, if_pos (by simp [h1])⟩

theorem file_nlink_ok (hok : DstOk s req se) {m n : UInt32} (hi : stat s' i = some (m, n))
    (hm : modeIsDir m = false) : n.toNat = links s' i := by
  obtain ⟨n', hi'⟩ := h.mode_eq hi
  obtain ⟨b, hb, hx⟩ := stat_eq_some.mp hi'
  cases hx
  have hbd : isDirAt s i = false := (isDirAt_of_attrAt hb).trans hm
  have hn := hs.file_nlink hb hm
  have hl := h.links_eq i
  by_cases hda : i = se.ino ∨ ∀ a, da = some a → i ≠ a.inode
  · have hlost : lost s req i = 0 := by
      have h2 : hits (clobbered s req) (fun e => e.ino == i) = 0 := by
        rcases hc : clobbered s req with _ | ce
        · rfl
        have hcd := (clobbered_of_dstOk hok hc).2.1
        rw [hits_some, if_neg]
        simp only [beq_iff_eq]
        rintro rfl
        rw [hcd] at hbd
        cases hbd
      have h1 : hits (displacedDst s req) (fun e => e.ino == i) = 0 := by
        rcases hdd : displacedDst s req with _ | de
        · rfl
        rw [hits_some, if_neg]
        simp only [beq_iff_eq]
        rintro rfl
        rw [displacedDst] at hdd
        split_ifs at hdd with hsame
        obtain ⟨a, ha, hat, -⟩ := h.dst de hdd
        have hse : de.ino = se.ino :=
          hda.resolve_right fun hc => hc a ha (attrAt_inode hat).symm
        rw [DstOk, hdd] at hok
        dsimp only at hok
        rw [if_neg hsame, ReplaceOk, if_neg (by simp [hbd])] at hok
        exact hok.2.1 hse
      rw [lost, h1, h2]
    rw [h.stat_of_file hbd hda, hi'] at hi
    cases hi
    omega
  · rw [not_or] at hda
    obtain ⟨hse, hda⟩ := hda
    push Not at hda
    obtain ⟨a, ha, rfl⟩ := hda
    obtain ⟨de, hat, hdd, hc, hr⟩ := h.replaceOk_of_dstOk hok ha hse
    have hl' := h.links_replaced hdd hc
    rw [← attrAt_inode hat] at hl'
    have hab := h.stat_da ha
    rw [hb] at hab
    cases hab
    have hbd' : b.isDir = false := hm
    rw [h.stat_replaced ha hse, replacedStat, hbd'] at hi
    have hsub := toNat_sub_one (n := b.nlink) (by omega)
    split_ifs at hi with h1 h2
    · cases hi
      omega
    -- the last name of a device, pipe or socket
    simp only [Bool.not_false, Bool.true_and, decide_eq_true_eq, pos_iff_toNat] at h1
    rw [ReplaceOk, isDirAt_of_attrAt hat, if_neg (by simp [hbd']), isFileAt, isSymlinkAt,
      hat, ← attrAt_inode hat] at hr
    rw [Bool.or_eq_true] at h2
    rcases hr.2 with h3 | h3
    · omega
    · exact absurd h3 h2

theorem attr_entry_ok (hok : DstOk s req se) {x : UInt32 × UInt32} (hi : stat s' i = some x)
    (hr : i ≠ rootIno) : 0 < links s' i := by
  by_cases hse : i = se.ino
  · refine links_pos.mpr ⟨req.parentDstIno, req.newName, renamedEntry req se, ?_, hse.symm⟩
    rw [h.entries, movedEntries, entryAt_putEntry, if_pos ⟨rfl, rfl⟩]
  obtain ⟨n', hi'⟩ := h.mode_eq hi
  obtain ⟨b, hb, -⟩ := stat_eq_some.mp hi'
  have hpos := hs.attr_entry hb hr
  have hl := h.links_eq i
  rcases hc : clobbered s req with _ | ce
  · rcases hdd : displacedDst s req with _ | de
    · rw [lost, hc, hdd] at hl
      simp at hl
      omega
    by_cases hde : de.ino = i
    · subst hde
      have hdst := hdd
      rw [displacedDst] at hdst
      split_ifs at hdst with hsame
      obtain ⟨a, ha, hat, -⟩ := h.dst de hdst
      have hl' := h.links_replaced hdd hc
      rw [DstOk, hdst] at hok
      dsimp only at hok
      rw [if_neg hsame, ReplaceOk, isDirAt_of_attrAt hat, isSymlinkAt, isFileAt, hat] at hok
      have hst := h.stat_replaced ha (by rwa [attrAt_inode hat])
      rw [attrAt_inode hat, hi, replacedStat] at hst
      cases hd : a.isDir with
      | true =>
        rw [hd, if_pos rfl] at hok
        have hok := hok.2.resolve_left hse
        split_ifs at hok with hsym
        · have hsym' : a.isSymlink = true := hsym
          rw [hd, hsym'] at hst
          simp at hst
        · have := hok.resolve_left hr
          omega
      | false =>
        rw [hd, if_neg (by simp)] at hok
        have hn := hs.file_nlink hat hd
        have hsub := toNat_sub_one (n := a.nlink) (by omega)
        rw [hd] at hst
        split_ifs at hst with h1 h2
        · simp only [Bool.not_false, Bool.true_and, decide_eq_true_eq, pos_iff_toNat] at h1
          omega
        rw [Bool.or_eq_true] at h2
        rcases hok.2.2 with h3 | h3
        · omega
        · exact absurd h3 h2
    · rw [lost, hc, hdd] at hl
      simp [hde] at hl
      omega
  · obtain ⟨hdd, -, hk⟩ := clobbered_of_dstOk hok hc
    rw [lost, hc, hdd] at hl
    by_cases hce : ce.ino = i
    · subst hce
      have := hk.resolve_left hr
      simp at hl
      omega
    · simp [hce] at hl
      omega

theorem consistent_iff :
    Consistent s' ↔ MoveOk s req se ∧ DstOk s req se := by
  constructor
  · intro h'
    exact ⟨h.moveOk_iff.mpr (h.dirs_of_consistent hs h').2, h.dstOk_of_consistent hs h'⟩
  · rintro ⟨hm, hd⟩
    have hE : ∀ p n e, entryAt s' p n = some e → ∃ x, stat s' e.ino = some x :=
      fun p n e he => h.entry_attr_ok hs hd he
    refine consistent_iff_stat.mpr ⟨hE, ?_, ?_, ?_⟩
    · exact fun i m n hi hmd => h.file_nlink_ok hs hd hi hmd
    · exact fun i m n hi hmd =>
        h.dirs_ok hs hE (h.lostDirs_of_dstOk hd) (h.moveOk_iff.mp hm) hi hmd
    · exact fun i x hi hr => h.attr_entry_ok hs hd hi hr

end

end RenameShifts

variable {req : RenameReq}

/-! ### Exchanges -/

theorem isDirAt_eq_stat (s : Store) (i : Ino) :
    isDirAt s i = (stat s i).any fun x => modeIsDir x.1 := by
  rw [isDirAt, stat, any_map]
  rfl

theorem Consistent.congr {t : Store} (h : Consistent s)
    (he : ∀ p n, entryAt t p n = entryAt s p n) (hst : ∀ i, stat t i = stat s i) :
    Consistent t := by
  have hd : ∀ i, isDirAt t i = isDirAt s i := by
    intro i
    rw [isDirAt_eq_stat, hst, isDirAt_eq_stat]
  have hl : ∀ i, links t i = links s i := fun i => tally_eq_of_entryAt he
  have hk : ∀ p, subdirs t p = subdirs s p := by
    intro p
    rw [subdirs, tally_eq_of_entryAt he, subdirs]
    exact tally_congr fun _ _ e _ => by rw [hd]
  obtain ⟨h1, h2, h3, h4⟩ := consistent_iff_stat.mp h
  refine consistent_iff_stat.mpr ⟨?_, ?_, ?_, ?_⟩
  · intro p n e hpe
    rw [hst]
    exact h1 p n e (he p n ▸ hpe)
  · intro i m n hi
    rw [hl]
    exact h2 i m n (hst i ▸ hi)
  · intro i m n hi
    rw [hk]
    exact h3 i m n (hst i ▸ hi)
  · intro i x hi
    rw [hl]
    exact h4 i x (hst i ▸ hi)

theorem RenameExchanges.isDirAt_eq
    {spa dpa sa da : Attr} (h : RenameExchanges s s' req se de spa dpa sa da) (i : Ino) :
    isDirAt s' i = isDirAt s i := by
  rw [isDirAt_eq_stat, h.stats]
  split_ifs with h1 h2 h3
  · rw [h1, isDirAt_of_attrAt h.dstParent]
    rfl
  · rw [h2, isDirAt_of_attrAt h.srcAttr]
    rfl
  · rw [h3, isDirAt_of_attrAt h.srcParent]
    rfl
  · rw [← isDirAt_eq_stat]

theorem exchangedDstNlink_ne {dpa sa da : Attr}
    (hpp : req.parentSrcIno ≠ req.parentDstIno) (hpos : 0 < dpa.nlink.toNat)
    (hne : sa.isDir ≠ da.isDir) : (exchangedDstNlink req dpa sa da).toNat ≠ dpa.nlink.toNat := by
  have hlt := dpa.nlink.toNat_lt
  have hm : ∀ a : Attr, movesDir req a = a.isDir := by
    intro a
    simp [movesDir, hpp]
  rw [exchangedDstNlink, hm, hm]
  cases hsa : sa.isDir with
  | true =>
    have hda : da.isDir = false := by simpa [hsa] using hne.symm
    rw [hda, if_pos rfl, if_neg (by simp)]
    by_cases hw : dpa.nlink.toNat + 1 < 2 ^ 32
    · rw [toNat_add_one hw]
      omega
    · rw [toNat_add_one_of_max hw]
      omega
  | false =>
    have hda : da.isDir = true := by simpa [hsa] using hne.symm
    rw [hda, if_neg (by simp), if_pos rfl]
    have := toNat_sub_one hpos
    omega

theorem RenameExchanges.consistent_iff {spa dpa sa da : Attr} (hs : Consistent s)
    (h : RenameExchanges s s' req se de spa dpa sa da) :
    Consistent s' ↔
      req.parentSrcIno = req.parentDstIno ∨ isDirAt s se.ino = isDirAt s de.ino := by
  have hsd := isDirAt_of_attrAt h.srcAttr
  have hdd := isDirAt_of_attrAt h.dstAttr
  have hpd := (h.stats req.parentDstIno).trans (if_pos rfl)
  constructor
  · intro h'
    by_contra hc
    rw [not_or, hsd, hdd] at hc
    -- kinds and entries are as before, so the count of the new parent must be too
    have hk : subdirs s' req.parentDstIno = subdirs s req.parentDstIno := by
      rw [subdirs, tally_eq_of_entryAt h.entries, subdirs]
      exact tally_congr fun _ _ e _ => by rw [h.isDirAt_eq]
    have h1 := (consistent_iff_stat.mp h').2.2.1 _ _ _ hpd h.dstParent_isDir
    have h2 := hs.dir_nlink h.dstParent h.dstParent_isDir
    rw [hk, ← h2] at h1
    exact exchangedDstNlink_ne hc.1 (by omega) hc.2 h1
  · intro hc
    apply hs.congr h.entries
    intro i
    have hm : movesDir req sa = movesDir req da := by
      rw [movesDir, movesDir]
      rcases hc with hpp | hk
      · simp [hpp]
      · rw [← hsd, hk, hdd]
    have hdst : exchangedDstNlink req dpa sa da = dpa.nlink := by
      rw [exchangedDstNlink, hm]
      split_ifs
      · exact UInt32.sub_add_cancel _ _
      · rfl
    have hsrc : exchangedSrcNlink req spa sa da = spa.nlink := by
      rw [exchangedSrcNlink, hm]
      split_ifs
      · exact UInt32.add_sub_cancel _ _
      · rfl
    rw [h.stats, hdst, hsrc]
    split_ifs with h1 h2 h3
    · rw [h1, stat_of_attrAt h.dstParent]
    · rw [h2, stat_of_attrAt h.srcAttr]
    · rw [h3, stat_of_attrAt h.srcParent]
    · rfl

/-! ### The main result -/

/-- A successful `Rename` of a consistent namespace leaves a consistent namespace
exactly when `RenameKeeps` holds before the call. -/
theorem rename_consistent_iff {c : Caller} {req : RenameReq} {now : Time} {s s' : Store}
    {r : RenameResp} (hs : Consistent s) (h : (rename c req now).run s = (.ok r, s')) :
    Consistent s' ↔ RenameKeeps s req := by
  have hone : ∀ {se : Entry} {P : Entry → Prop},
      entryAt s req.parentSrcIno (trimSuffix req.oldName) = some se →
      ((∀ e, entryAt s req.parentSrcIno (trimSuffix req.oldName) = some e → P e) ↔ P se) := by
    intro se P hse
    constructor
    · exact fun hP => hP se hse
    · intro hP e he
      rw [hse] at he
      cases he
      exact hP
  rw [RenameKeeps]
  rcases rename_ok_cases h with ⟨hx, ⟨se, spa, dpa, sa, hm⟩ | ⟨se, de, spa, dpa, sa, da, hr⟩⟩ |
    ⟨hx, se, de, spa, dpa, sa, da, he⟩
  · rw [hone hm.src, if_neg hx]
    exact hm.shifts.consistent_iff hs
  · rw [hone hr.src, if_neg hx]
    exact hr.shifts.consistent_iff hs
  · rw [hone he.src, if_pos hx, he.consistent_iff hs]
    refine or_congr_right ⟨?_, fun hk => hk de he.dst⟩
    intro hk de' hde'
    rw [he.dst] at hde'
    cases hde'
    exact hk

def renameAfter (calls : List NsCall) (req : RenameReq) : Except Err RenameResp × Store :=
  (rename ⟨0, 0⟩ req ⟨9, 0⟩).run (storeAfter calls)

theorem exists_renameAfter {calls : List NsCall} {req : RenameReq}
    (h : (renameAfter calls req).1.isOk = true) :
    ∃ r, renameAfter calls req = (.ok r, (renameAfter calls req).2) := by
  rcases hr : renameAfter calls req with ⟨_ | r, t⟩
  · rw [hr] at h
    cases h
  · exact ⟨r, rfl⟩

theorem rename_consistent_iff_sample :
    Consistent (storeAfter dirAndFile) ∧
      (∃ r, renameAfter dirAndFile ⟨1, "f", 2, "g", 0⟩ =
        (.ok r, (renameAfter dirAndFile ⟨1, "f", 2, "g", 0⟩).2)) ∧
      (Consistent (renameAfter dirAndFile ⟨1, "f", 2, "g", 0⟩).2 ↔
        RenameKeeps (storeAfter dirAndFile) ⟨1, "f", 2, "g", 0⟩) := by
  have hs : Consistent (storeAfter dirAndFile) := consistent_storeAfter (by decide)
  obtain ⟨r, hr⟩ := @exists_renameAfter dirAndFile ⟨1, "f", 2, "g", 0⟩ (by decide)
  exact ⟨hs, ⟨r, hr⟩, rename_consistent_iff hs hr⟩

def RenameBreaks (calls : List NsCall) (req : RenameReq) : Prop :=
  Consistent (storeAfter calls) ∧ (renameAfter calls req).1.isOk = true ∧
    ¬Consistent (renameAfter calls req).2

/-- Renaming one name of a file onto another name of it keeps the link count of
two; replacing an empty directory or a pipe leaves its attributes behind;
renaming an empty directory onto itself costs its parent a link; exchanging a
directory with a file of another directory moves a link but no entry. -/
theorem rename_breaks_consistency :
    RenameBreaks
        [.createInode ⟨1, "f", some (.ofMode 0o644)⟩ 2 ⟨1, 0⟩, .link ⟨2, 1, "g"⟩ ⟨2, 0⟩]
        ⟨1, "f", 1, "g", 0⟩ ∧
      RenameBreaks dirAndFile ⟨1, "f", 1, "d", 0⟩ ∧
      RenameBreaks (dirAndFile ++
          [.createInode ⟨1, "p", some (.ofMode (modeNamedPipe ||| 0o644))⟩ 4 ⟨3, 0⟩])
        ⟨1, "f", 1, "p", 0⟩ ∧
      RenameBreaks dirAndFile ⟨1, "d", 1, "d", 0⟩ ∧
      RenameBreaks (dirAndFile ++
          [.createInode ⟨1, "e", some (.ofMode (modeDir ||| 0o755))⟩ 4 ⟨3, 0⟩,
            .createInode ⟨2, "g", some (.ofMode 0o644)⟩ 5 ⟨4, 0⟩])
        ⟨1, "e", 2, "g", renameExchange⟩ := by
  refine ⟨⟨?_, ?_, ?_⟩, ⟨?_, ?_, ?_⟩, ⟨?_, ?_, ?_⟩, ⟨?_, ?_, ?_⟩, ⟨?_, ?_, ?_⟩⟩
  · exact consistent_storeAfter (by decide)
  · decide
  · exact not_consistent_of_file 2 (by decide) (by decide) (by decide)
  · exact consistent_storeAfter (by decide)
  · decide
  · exact not_consistent_of_orphan 2 (by decide) (by decide) (by decide)
  · exact consistent_storeAfter (by decide)
  · decide
  · exact not_consistent_of_orphan 4 (by decide) (by decide) (by decide)
  · exact consistent_storeAfter (by decide)
  · decide
  · exact not_consistent_of_dir 1 (by decide) (by decide) (by decide)
  · exact consistent_storeAfter (by decide)
  · decide
  · exact not_consistent_of_dir 2 (by decide) (by decide) (by decide)

end HugoFS.Meta
