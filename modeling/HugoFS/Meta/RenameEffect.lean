import HugoFS.Meta.Effects
import HugoFS.Meta.Links

/-!
# What a successful Rename leaves behind

The outcome of `Rename` through two views: `stat` is the mode and link count of an inode, and
`tally` counts entries. `displaced` lists the entries that lose their place to the renamed one.
-/

namespace HugoFS.Meta

open KV Body Bool Attr Call

/-! ### Steps of the transaction -/

variable {se de : Entry}

section Steps

variable {c : Caller} {req : RenameReq} {now : Time} {s s' : Store} {u : Unit}
variable {v v' : RenameVars} {da : Attr}

theorem renameChecks_ok {spa dpa sa : Attr}
    (h : (renameChecks c req spa dpa sa).exec s = .ok (u, s')) :
    s = s' ∧ spa.isDir = true ∧ dpa.isDir = true := by
  simp only [renameChecks, exec_bind_ok, exec_failIf_ok] at h
  obtain ⟨_, _, ⟨hd, rfl⟩, _, _, ⟨-, rfl⟩, _, _, ⟨-, rfl⟩, _, _, ⟨-, rfl⟩, -, rfl⟩ := h
  simp only [or_eq_false_iff, not_eq_false'] at hd
  exact ⟨rfl, hd⟩

def replacedVars (v : RenameVars) (da : Attr) : RenameVars :=
  if da.isDir then
    { v with da := some da, dpa := v.dpa.setNlink (v.dpa.nlink - 1), dupdate := true }
  else { v with da := some (da.setNlink (da.nlink - 1)) }

theorem replaceVars_ok (h : (replaceVars v da).exec s = .ok (v', s')) :
    s = s' ∧ v' = replacedVars v da ∧ (da.isDir = true → EmptyDir s da.inode) := by
  rw [replaceVars] at h
  rw [replacedVars]
  split_ifs at h ⊢ with hd
  · simp only [exec_bind_ok, exec_failIf_ok, exec_pure_ok,
      exec_countEntries_ok] at h
    obtain ⟨n, _, ⟨rfl, rfl⟩, _, _, ⟨h0, rfl⟩, rfl, rfl⟩ := h
    refine ⟨rfl, rfl, fun _ => ?_⟩
    rw [← keys_bucket_card_eq_zero]
    simpa using h0
  · rw [exec_pure_ok] at h
    exact ⟨h.2.symm, h.1, fun hc => absurd hc hd⟩

theorem renameDst_none_ok (h : (renameDst c req now v none).exec s = .ok (v', s')) :
    s = s' ∧ req.flags ≠ renameExchange ∧ v' = v := by
  rw [renameDst] at h
  split_ifs at h with hx
  · exact absurd h (by simp)
  · rw [exec_pure_ok] at h
    exact ⟨h.2.symm, hx, h.1⟩

theorem renameDst_some_ok (h : (renameDst c req now v (some de)).exec s = .ok (v', s')) :
    s = s' ∧ ∃ da, attrAt s de.ino = some da ∧
      ((req.flags = renameExchange ∧ v' = exchangeVars req v (da.setCtime now)) ∨
        (req.flags ≠ renameExchange ∧ v' = replacedVars v (da.setCtime now) ∧
          (da.isDir = true → EmptyDir s da.inode))) := by
  simp only [renameDst, exec_bind_ok, exec_failIf_ok, exec_getAttr_ok,
    exec_pure_ok] at h
  obtain ⟨_, _, ⟨-, rfl⟩, da, _, ⟨hda, rfl⟩, _, _, ⟨-, rfl⟩, w, _, hw, _, _, ⟨-, rfl⟩,
    rfl, rfl⟩ := h
  rw [dstVars] at hw
  split_ifs at hw with hx
  · rw [exec_pure_ok] at hw
    exact ⟨hw.2.symm, da, hda, .inl ⟨hx, hw.1⟩⟩
  · obtain ⟨hs, hv, he⟩ := replaceVars_ok hw
    exact ⟨hs, da, hda, .inr ⟨hx, hv, he⟩⟩

theorem renameSticky_ok {v : RenameVars} (h : (renameSticky c v).exec s = .ok (u, s')) :
    s = s' := by
  rw [renameSticky] at h
  split_ifs at h with hc
  · rcases hd : v.da with _ | da
    · simp [hd] at h
    · simp only [hd, exec_failIf_ok] at h
      exact h.2
  · rw [exec_pure_ok] at h
    exact h.2.symm

def replacedStore (s : Store) (da : Attr) : Store :=
  if !da.isDir && 0 < da.nlink then putAttr s da
  else if da.isFile then dropAttr s da.inode
  else if da.isSymlink then dropAttr s da.inode
  else s

theorem dropReplaced_ok (h : (dropReplaced da).exec s = .ok (u, s')) :
    s' = replacedStore s da := by
  rw [dropReplaced] at h
  rw [replacedStore]
  split_ifs at h ⊢ <;> simpa using h

theorem exchangeEntries_ok (h : (exchangeEntries se (some da)).exec s = .ok (u, s')) :
    s' = putAttr (putEntry s se) da := by
  simpa [exchangeEntries] using h

theorem moveEntries_none_ok {da : Option Attr}
    (h : (moveEntries req se none da).exec s = .ok (u, s')) :
    req.newName ≠ "" ∧
      s' = putEntry (dropEntry s se.parentIno se.name) (renamedEntry req se) := by
  simp only [moveEntries, dropDst, exec_bind_ok, exec_deleteEntry_ok,
    exec_pure_ok, exec_saveEntry_ok] at h
  obtain ⟨_, _, ⟨-, rfl⟩, _, _, ⟨-, rfl⟩, hn, rfl⟩ := h
  exact ⟨hn, rfl⟩

theorem moveEntries_some_ok (h : (moveEntries req se (some de) (some da)).exec s = .ok (u, s')) :
    req.newName ≠ "" ∧
      s' = putEntry (dropEntry (replacedStore (dropEntry s se.parentIno se.name) da)
        de.parentIno de.name) (renamedEntry req se) := by
  simp only [moveEntries, dropDst, exec_bind_ok, exec_deleteEntry_ok,
    exec_saveEntry_ok] at h
  obtain ⟨_, _, ⟨-, rfl⟩, _, _, ⟨_, _, hd, -, rfl⟩, hn, rfl⟩ := h
  obtain rfl := dropReplaced_ok hd
  exact ⟨hn, rfl⟩

def finishStore (req : RenameReq) (v : RenameVars) (s : Store) : Store :=
  let s₁ := if req.parentDstIno != req.parentSrcIno && v.supdate then
    putAttr s v.spa.bumpEpoch else s
  let s₂ := putAttr s₁ (renamedAttr req v.sa)
  if v.dupdate then putAttr s₂ v.dpa else s₂

end Steps

def dstEntry (s : Store) (req : RenameReq) : Option Entry :=
  if req.newName = "" then none else entryAt s req.parentDstIno (trimSuffix req.newName)

variable {req : RenameReq} {r : RenameResp}

structure RenameFound (s : Store) (req : RenameReq) (se : Entry) (spa dpa sa : Attr) :
    Prop where
  src : entryAt s req.parentSrcIno (trimSuffix req.oldName) = some se
  srcParent : attrAt s req.parentSrcIno = some spa
  srcParent_isDir : spa.isDir = true
  dstParent : attrAt s req.parentDstIno = some dpa
  dstParent_isDir : dpa.isDir = true
  srcAttr : attrAt s se.ino = some sa

theorem renameTxn_ok {c : Caller} {now : Time} {s s' : Store}
    (h : (renameTxn c req now).exec s = .ok (r, s')) :
    ∃ se spa dpa sa v t s₁, RenameFound s req se spa dpa sa ∧
      (renameDst c req now ⟨spa, dpa, sa, none, false, false⟩ (dstEntry s req)).exec s =
        .ok (v, t) ∧
      (renameEntries req se (dstEntry s req) (touchVars now (moveDir req v)).da).exec t =
        .ok ((), s₁) ∧
      s' = finishStore req (touchVars now (moveDir req v)) s₁ := by
  simp only [renameTxn, exec_bind_ok, exec_getEntry_ok, exec_getAttr_ok,
    exec_findEntry_ok, exec_saveAttr_ok, exec_saveAttrIf_ok, exec_pure_ok] at h
  obtain ⟨se, _, ⟨-, hse, rfl⟩, spa, _, ⟨hspa, rfl⟩, dpa, _, ⟨hdpa, rfl⟩, sa, _, ⟨hsa, rfl⟩, h⟩ := h
  obtain ⟨_, _, hchk, de, _, ⟨rfl, rfl⟩, v, t, hdst, _, _, hst, h⟩ := h
  obtain ⟨_, s₁, hent, _, _, rfl, _, _, rfl, _, _, rfl, -, rfl⟩ := h
  obtain ⟨rfl, hd1, hd2⟩ := renameChecks_ok hchk
  obtain rfl := renameSticky_ok hst
  exact ⟨se, spa, dpa, sa, v, _, s₁, ⟨hse, hspa, hd1, hdpa, hd2, hsa⟩, hdst, hent, rfl⟩

/-! ### Link counts after the call -/

def movesDir (req : RenameReq) (sa : Attr) : Bool :=
  req.parentSrcIno != req.parentDstIno && sa.isDir

theorem movesDir_iff {req : RenameReq} {sa : Attr} :
    movesDir req sa = true ↔ req.parentSrcIno ≠ req.parentDstIno ∧ sa.isDir = true := by
  simp [movesDir]

section Vars

variable {req : RenameReq} {now : Time} {v : RenameVars}

@[simp] theorem touchVars_spa : (touchVars now v).spa.inode = v.spa.inode ∧
    (touchVars now v).spa.mode = v.spa.mode ∧ (touchVars now v).spa.nlink = v.spa.nlink := by
  unfold touchVars
  dsimp only
  split_ifs <;> exact ⟨rfl, rfl, rfl⟩

@[simp] theorem touchVars_dpa : (touchVars now v).dpa.inode = v.dpa.inode ∧
    (touchVars now v).dpa.mode = v.dpa.mode ∧ (touchVars now v).dpa.nlink = v.dpa.nlink := by
  unfold touchVars
  dsimp only
  split_ifs <;> exact ⟨rfl, rfl, rfl⟩

@[simp] theorem touchVars_sa_inode : (touchVars now v).sa.inode = v.sa.inode := rfl
@[simp] theorem touchVars_sa_mode : (touchVars now v).sa.mode = v.sa.mode := rfl
@[simp] theorem touchVars_sa_nlink : (touchVars now v).sa.nlink = v.sa.nlink := rfl
@[simp] theorem touchVars_da : (touchVars now v).da = v.da := rfl

theorem moveDir_of_moves (h : movesDir req v.sa = true) : moveDir req v =
    { v with
      spa := v.spa.setNlink (v.spa.nlink - 1)
      dpa := v.dpa.setNlink (v.dpa.nlink + 1)
      supdate := true
      dupdate := true } := if_pos h

theorem moveDir_of_stays (h : movesDir req v.sa = false) : moveDir req v = v :=
  if_neg (by simpa [movesDir] using h)

@[simp] theorem moveDir_da : (moveDir req v).da = v.da := by
  unfold moveDir
  split_ifs <;> rfl

end Vars

section Finish

variable {w : RenameVars} {s : Store}
  (hps : w.spa.inode = req.parentSrcIno) (hpd : w.dpa.inode = req.parentDstIno)
  (hspa : w.supdate = false → stat s req.parentSrcIno = some (w.spa.mode, w.spa.nlink))
  (hdpa : w.dupdate = false → stat s req.parentDstIno = some (w.dpa.mode, w.dpa.nlink))
  (hsa : w.dupdate = false → w.sa.inode = req.parentDstIno →
    (w.sa.mode, w.sa.nlink) = (w.dpa.mode, w.dpa.nlink))
include hps hpd hspa hdpa hsa

theorem stat_finishStore (i : Ino) :
    stat (finishStore req w s) i =
      if i = req.parentDstIno then some (w.dpa.mode, w.dpa.nlink)
      else if i = w.sa.inode then some (w.sa.mode, w.sa.nlink)
      else if i = req.parentSrcIno then some (w.spa.mode, w.spa.nlink)
      else stat s i := by
  have hri : (renamedAttr req w.sa).inode = w.sa.inode := rfl
  have hrm : (renamedAttr req w.sa).mode = w.sa.mode := rfl
  have hrn : (renamedAttr req w.sa).nlink = w.sa.nlink := rfl
  -- the store before the new parent is saved
  have hmid : ∀ j, j ≠ req.parentDstIno → stat (putAttr
      (if req.parentDstIno != req.parentSrcIno && w.supdate then
        putAttr s w.spa.bumpEpoch else s) (renamedAttr req w.sa)) j =
      if j = w.sa.inode then some (w.sa.mode, w.sa.nlink)
      else if j = req.parentSrcIno then some (w.spa.mode, w.spa.nlink)
      else stat s j := by
    intro j hj
    rw [stat_putAttr, hri, hrm, hrn]
    split_ifs with h1 h2 h3 h3
    · rfl
    · rw [stat_putAttr, if_pos (by simp [h3, hps])]
      rfl
    · rw [stat_putAttr, if_neg (by simpa [hps] using h3)]
    · subst h3
      apply hspa
      simpa [Ne.symm hj] using h2
    · rfl
  unfold finishStore
  dsimp only
  by_cases hi : i = req.parentDstIno
  · subst hi
    rw [if_pos rfl]
    cases hd : w.dupdate with
    | true => simp [hpd]
    | false =>
      rw [if_neg (by simp), stat_putAttr, hri, hrm, hrn]
      split_ifs with h1 h2
      · rw [hsa hd h1.symm]
      · have hne : req.parentDstIno ≠ req.parentSrcIno := by
          simp only [and_eq_true, bne_iff_ne] at h2
          exact h2.1
        rw [stat_putAttr, if_neg (by simpa [hps] using hne), hdpa hd]
      · exact hdpa hd
  · rw [if_neg hi, ← hmid i hi]
    cases w.dupdate with
    | true => rw [if_pos rfl, stat_putAttr, hpd, if_neg hi]
    | false => rw [if_neg (by simp)]

theorem stat_finishStore_move {now : Time} (i : Ino) :
    stat (finishStore req (touchVars now (moveDir req w)) s) i =
      if i = req.parentDstIno then
        some (w.dpa.mode, if movesDir req w.sa then w.dpa.nlink + 1 else w.dpa.nlink)
      else if i = w.sa.inode then some (w.sa.mode, w.sa.nlink)
      else if i = req.parentSrcIno then
        some (w.spa.mode, if movesDir req w.sa then w.spa.nlink - 1 else w.spa.nlink)
      else stat s i := by
  cases hm : movesDir req w.sa with
  | true =>
    rw [moveDir_of_moves hm]
    rw [stat_finishStore (by simpa using hps) (by simpa using hpd)
      (fun h => by simp [touchVars] at h) (fun h => by simp [touchVars] at h)
      (fun h => by simp [touchVars] at h)]
    simp
  | false =>
    rw [moveDir_of_stays hm]
    have hs : (touchVars now w).supdate = false → w.supdate = false :=
      fun h => (or_eq_false_iff.mp h).1
    have hd : (touchVars now w).dupdate = false → w.dupdate = false :=
      fun h => (or_eq_false_iff.mp h).1
    rw [stat_finishStore (by simpa using hps) (by simpa using hpd)
      (fun h => by simpa using hspa (hs h)) (fun h => by simpa using hdpa (hd h))
      (fun h hi => by simpa using hsa (hd h) hi)]
    simp

end Finish

/-! ### The three kinds of success -/

def movedEntries (s : Store) (req : RenameReq) (se : Entry) : Store :=
  putEntry (dropEntry (dropEntry s req.parentSrcIno (trimSuffix req.oldName))
    req.parentDstIno (trimSuffix req.newName)) (renamedEntry req se)

def replacedStat (da : Attr) : Option (UInt32 × UInt32) :=
  if !da.isDir && 0 < da.nlink - 1 then some (da.mode, da.nlink - 1)
  else if da.isFile || da.isSymlink then none
  else some (da.mode, da.nlink)

structure RenameMoves (s s' : Store) (req : RenameReq) (se : Entry) (spa dpa sa : Attr) :
    Prop extends RenameFound s req se spa dpa sa where
  no_dst : entryAt s req.parentDstIno (trimSuffix req.newName) = none
  entries : ∀ p n, entryAt s' p n = entryAt (movedEntries s req se) p n
  stats : ∀ i, stat s' i =
    if i = req.parentDstIno then
      some (dpa.mode, if movesDir req sa then dpa.nlink + 1 else dpa.nlink)
    else if i = se.ino then some (sa.mode, sa.nlink)
    else if i = req.parentSrcIno then
      some (spa.mode, if movesDir req sa then spa.nlink - 1 else spa.nlink)
    else stat s i

structure RenameReplaces (s s' : Store) (req : RenameReq) (se de : Entry)
    (spa dpa sa da : Attr) : Prop extends RenameFound s req se spa dpa sa where
  dst : entryAt s req.parentDstIno (trimSuffix req.newName) = some de
  dstAttr : attrAt s de.ino = some da
  dst_empty : da.isDir = true → EmptyDir s de.ino
  entries : ∀ p n, entryAt s' p n = entryAt (movedEntries s req se) p n
  stats : ∀ i, stat s' i =
    if i = req.parentDstIno then
      some (dpa.mode, if movesDir req sa then
          (if da.isDir then dpa.nlink - 1 else dpa.nlink) + 1
        else if da.isDir then dpa.nlink - 1 else dpa.nlink)
    else if i = se.ino then some (sa.mode, sa.nlink)
    else if i = req.parentSrcIno then
      some (spa.mode, if movesDir req sa then spa.nlink - 1 else spa.nlink)
    else if i = de.ino then replacedStat da
    else stat s i

def exchangedDstNlink (req : RenameReq) (dpa sa da : Attr) : UInt32 :=
  if movesDir req sa then (if movesDir req da then dpa.nlink - 1 else dpa.nlink) + 1
  else if movesDir req da then dpa.nlink - 1 else dpa.nlink

def exchangedSrcNlink (req : RenameReq) (spa sa da : Attr) : UInt32 :=
  if movesDir req sa then (if movesDir req da then spa.nlink + 1 else spa.nlink) - 1
  else if movesDir req da then spa.nlink + 1 else spa.nlink

structure RenameExchanges (s s' : Store) (req : RenameReq) (se de : Entry)
    (spa dpa sa da : Attr) : Prop extends RenameFound s req se spa dpa sa where
  dst : entryAt s req.parentDstIno (trimSuffix req.newName) = some de
  dstAttr : attrAt s de.ino = some da
  entries : ∀ p n, entryAt s' p n = entryAt s p n
  stats : ∀ i, stat s' i =
    if i = req.parentDstIno then some (dpa.mode, exchangedDstNlink req dpa sa da)
    else if i = se.ino then some (sa.mode, sa.nlink)
    else if i = req.parentSrcIno then some (spa.mode, exchangedSrcNlink req spa sa da)
    else stat s i

@[simp] theorem entryAt_finishStore (req : RenameReq) (w : RenameVars) (s : Store) (p : Ino)
    (n : String) : entryAt (finishStore req w s) p n = entryAt s p n := by
  unfold finishStore
  dsimp only
  split_ifs <;> simp

section Outcome

variable {c : Caller} {req : RenameReq} {now : Time} {s s' : Store}
variable {spa dpa sa : Attr} {se : Entry} {v : RenameVars} {t s₁ : Store}

section

variable (h : RenameFound s req se spa dpa sa)
include h

theorem RenameFound.stat_eq (hi : sa.inode = req.parentDstIno) :
    (sa.mode, sa.nlink) = (dpa.mode, dpa.nlink) := by
  have hsa := h.srcAttr
  rw [← attrAt_inode hsa, hi, h.dstParent] at hsa
  cases hsa
  rfl

theorem RenameFound.srcParent_inode : spa.inode = req.parentSrcIno :=
  attrAt_inode h.srcParent

theorem RenameFound.dstParent_inode : dpa.inode = req.parentDstIno :=
  attrAt_inode h.dstParent

end

theorem renameMoves_of_ok
    (hf : RenameFound s req se spa dpa sa) (hde : dstEntry s req = none)
    (hdst : (renameDst c req now ⟨spa, dpa, sa, none, false, false⟩ none).exec s = .ok (v, t))
    (hent : (renameEntries req se none (touchVars now (moveDir req v)).da).exec t =
      .ok ((), s₁)) :
    RenameMoves s (finishStore req (touchVars now (moveDir req v)) s₁) req se spa dpa sa := by
  obtain ⟨rfl, hx, rfl⟩ := renameDst_none_ok hdst
  rw [renameEntries, if_neg hx] at hent
  obtain ⟨hn, rfl⟩ := moveEntries_none_ok hent
  obtain ⟨hp, hname⟩ := entryAt_key hf.src
  rw [dstEntry, if_neg hn] at hde
  refine ⟨hf, hde, ?_, ?_⟩
  · intro p n
    rw [entryAt_finishStore, movedEntries, hp, hname,
      dropEntry_of_entryAt_none (p := req.parentDstIno)]
    rw [entryAt_dropEntry, hde, ite_self]
  · intro i
    rw [stat_finishStore_move hf.srcParent_inode hf.dstParent_inode
      (fun _ => by simpa using stat_of_attrAt hf.srcParent)
      (fun _ => by simpa using stat_of_attrAt hf.dstParent)
      (fun _ hi => hf.stat_eq hi)]
    simp [attrAt_inode hf.srcAttr]

def replacedAttr (da : Attr) (now : Time) : Attr :=
  if da.isDir then da.setCtime now else (da.setCtime now).setNlink (da.nlink - 1)

@[simp] theorem replacedAttr_inode (da : Attr) (now : Time) :
    (replacedAttr da now).inode = da.inode := by
  rw [replacedAttr]
  split_ifs <;> rfl

theorem stat_replacedStore {da : Attr} {i : Ino} (hda : stat s i = some (da.mode, da.nlink))
    (hi : da.inode = i) (now : Time) (j : Ino) :
    stat (replacedStore s (replacedAttr da now)) j =
      if j = i then replacedStat da else stat s j := by
  have hxi : (replacedAttr da now).inode = i := (replacedAttr_inode da now).trans hi
  have hxm : (replacedAttr da now).mode = da.mode := by
    rw [replacedAttr]
    split_ifs <;> rfl
  have hxn : da.isDir = false → (replacedAttr da now).nlink = da.nlink - 1 := by
    intro hd
    rw [replacedAttr, if_neg (by simp [hd])]
    rfl
  rw [replacedStore, replacedStat, isDir_eq_of_mode hxm, isFile, isSymlink, hxm,
    hxi, isFile, isSymlink]
  cases hd : da.isDir with
  | true =>
    have hfile : modeIsRegular da.mode = false := modeIsRegular_eq_false_of_isDir hd
    cases hsym : modeIsSymlink da.mode with
    | true => simp [hfile]
    | false =>
      simp only [hfile, Bool.not_true, Bool.false_and, Bool.false_eq_true, if_false,
        Bool.or_self]
      split_ifs with hj
      · rw [hj, hda]
      · rfl
  | false =>
    rw [hxn hd]
    by_cases hn : 0 < da.nlink - 1
    · simp [hn, hi, hxm, hxn hd]
    cases hfile : modeIsRegular da.mode <;> cases hsym : modeIsSymlink da.mode <;>
      simp [hn]
    rintro rfl
    exact hda

@[simp] theorem entryAt_replacedStore (s : Store) (da : Attr) (p : Ino) (n : String) :
    entryAt (replacedStore s da) p n = entryAt s p n := by
  rw [replacedStore]
  split_ifs <;> simp

theorem entryAt_of_dstEntry (h : dstEntry s req = some de) :
    entryAt s req.parentDstIno (trimSuffix req.newName) = some de := by
  rw [dstEntry] at h
  split_ifs at h
  exact h

section

variable (hf : RenameFound s req se spa dpa sa) (hde : dstEntry s req = some de)
  (hdst : (renameDst c req now ⟨spa, dpa, sa, none, false, false⟩ (some de)).exec s = .ok (v, t))
  (hent : (renameEntries req se (some de) (touchVars now (moveDir req v)).da).exec t = .ok ((), s₁))
include hf hde hdst hent

theorem renameReplaces_of_ok (hx : req.flags ≠ renameExchange) :
    ∃ da, RenameReplaces s (finishStore req (touchVars now (moveDir req v)) s₁) req se de
      spa dpa sa da := by
  obtain ⟨rfl, da, hda, ⟨hx', -⟩ | ⟨-, rfl, hempty⟩⟩ := renameDst_some_ok hdst
  · exact absurd hx' hx
  have hda' : (replacedVars ⟨spa, dpa, sa, none, false, false⟩ (da.setCtime now)).da =
      some (replacedAttr da now) := by
    rw [replacedVars, replacedAttr]
    cases hd : da.isDir <;> simp [hd]
  rw [renameEntries, if_neg hx, touchVars_da, moveDir_da, hda'] at hent
  obtain ⟨hn, rfl⟩ := moveEntries_some_ok hent
  obtain ⟨hp, hname⟩ := entryAt_key hf.src
  rw [dstEntry, if_neg hn] at hde
  obtain ⟨hp', hname'⟩ := entryAt_key hde
  -- a destination that may be replaced is neither of the two parents
  have hne : ∀ {q a n e}, attrAt s q = some a → a.isDir = true → entryAt s q n = some e →
      de.ino ≠ q := by
    intro q a n e hq had he hc
    rw [← hc, hda] at hq
    cases hq
    rw [← hc, ← attrAt_inode hda, hempty had n] at he
    cases he
  have hnps : req.parentSrcIno ≠ de.ino := (hne hf.srcParent hf.srcParent_isDir hf.src).symm
  have hnpd : req.parentDstIno ≠ de.ino := (hne hf.dstParent hf.dstParent_isDir hde).symm
  have hst : ∀ j, stat (replacedStore (dropEntry s se.parentIno se.name)
      (replacedAttr da now)) j = if j = de.ino then replacedStat da else stat s j := by
    intro j
    rw [stat_replacedStore (by simpa using stat_of_attrAt hda) (attrAt_inode hda),
      stat_dropEntry]
  refine ⟨da, hf, hde, hda, fun hd => attrAt_inode hda ▸ hempty hd, ?_, ?_⟩
  · intro p n
    rw [entryAt_finishStore, movedEntries, hp, hname, hp', hname', entryAt_putEntry,
      entryAt_putEntry, entryAt_dropEntry, entryAt_dropEntry]
    simp
  · intro i
    cases hd : da.isDir with
    | true =>
      have hv : replacedVars ⟨spa, dpa, sa, none, false, false⟩ (da.setCtime now) =
          ⟨spa, dpa.setNlink (dpa.nlink - 1), sa, some (da.setCtime now), false, true⟩ := by
        simp [replacedVars, hd]
      rw [hv, stat_finishStore_move hf.srcParent_inode hf.dstParent_inode
        (fun _ => by simpa [hst, hnps] using stat_of_attrAt hf.srcParent)
        (fun h => by simp at h) (fun h => by simp at h)]
      simp [attrAt_inode hf.srcAttr, hst]
    | false =>
      have hv : replacedVars ⟨spa, dpa, sa, none, false, false⟩ (da.setCtime now) =
          ⟨spa, dpa, sa, some ((da.setCtime now).setNlink (da.nlink - 1)), false, false⟩ := by
        simp [replacedVars, hd]
      rw [hv, stat_finishStore_move hf.srcParent_inode hf.dstParent_inode
        (fun _ => by simpa [hst, hnps] using stat_of_attrAt hf.srcParent)
        (fun _ => by simpa [hst, hnpd] using stat_of_attrAt hf.dstParent)
        (fun _ hi => hf.stat_eq hi)]
      simp [attrAt_inode hf.srcAttr, hst]

theorem renameExchanges_of_ok (hx : req.flags = renameExchange) :
    ∃ da, RenameExchanges s (finishStore req (touchVars now (moveDir req v)) s₁) req se de
      spa dpa sa da := by
  obtain ⟨rfl, da, hda, ⟨-, rfl⟩ | ⟨hx', -⟩⟩ := renameDst_some_ok hdst
  swap
  · exact absurd hx hx'
  obtain ⟨da', hda', hi, hm, hn⟩ : ∃ da',
      (exchangeVars req ⟨spa, dpa, sa, none, false, false⟩ (da.setCtime now)).da = some da' ∧
        da'.inode = de.ino ∧ da'.mode = da.mode ∧ da'.nlink = da.nlink := by
    have hi : da.inode = de.ino := attrAt_inode hda
    rw [exchangeVars]
    split_ifs <;> exact ⟨_, rfl, hi, rfl, rfl⟩
  rw [renameEntries, if_pos hx, touchVars_da, moveDir_da, hda'] at hent
  obtain rfl := exchangeEntries_ok hent
  obtain ⟨hp, hname⟩ := entryAt_key hf.src
  have hst : ∀ j, stat (putAttr (putEntry s se) da') j = stat s j := by
    intro j
    rw [stat_putAttr, stat_putEntry, hi, hm, hn]
    split_ifs with hj
    · rw [hj, stat_of_attrAt hda]
    · rfl
  refine ⟨da, hf, entryAt_of_dstEntry hde, hda, ?_, ?_⟩
  · intro p n
    rw [entryAt_finishStore, entryAt_putAttr, entryAt_putEntry, hp, hname]
    split_ifs with hk
    · rw [hk.1, hk.2, hf.src]
    · rfl
  · intro i
    cases hmv : movesDir req da with
    | true =>
      obtain ⟨hpp, hd⟩ := and_eq_true_iff.mp hmv
      have hv : exchangeVars req ⟨spa, dpa, sa, none, false, false⟩ (da.setCtime now) =
          ⟨spa.setNlink (spa.nlink + 1), dpa.setNlink (dpa.nlink - 1), sa,
            some ((da.setCtime now).setParent req.parentSrcIno), true, true⟩ := by
        rw [exchangeVars, if_pos hpp, if_pos (by simpa using hd)]
      rw [hv, stat_finishStore_move hf.srcParent_inode hf.dstParent_inode
        (fun h => by simp at h) (fun h => by simp at h) (fun h => by simp at h)]
      simp [attrAt_inode hf.srcAttr, hst, hmv, exchangedDstNlink, exchangedSrcNlink]
    | false =>
      obtain ⟨x, hv⟩ : ∃ x, exchangeVars req ⟨spa, dpa, sa, none, false, false⟩
          (da.setCtime now) = ⟨spa, dpa, sa, x, false, false⟩ := by
        rw [exchangeVars]
        split_ifs with hpp hd
        · rw [movesDir, hpp, Bool.true_and] at hmv
          rw [setCtime_isDir, hmv] at hd
          cases hd
        all_goals exact ⟨_, rfl⟩
      rw [hv, stat_finishStore_move hf.srcParent_inode hf.dstParent_inode
        (fun _ => by simpa [hst] using stat_of_attrAt hf.srcParent)
        (fun _ => by simpa [hst] using stat_of_attrAt hf.dstParent)
        (fun _ hi => hf.stat_eq hi)]
      simp [attrAt_inode hf.srcAttr, hst, hmv, exchangedDstNlink, exchangedSrcNlink]

end

theorem rename_failsClean (c : Caller) (req : RenameReq) (now : Time) :
    (rename c req now).FailsClean := by
  unfold rename
  split_ifs
  · exact failsClean_txn _
  · exact failsClean_done _
  · exact failsClean_done _

theorem renameTxn_of_rename_ok (h : (rename c req now).run s = (.ok r, s')) :
    (renameTxn c req now).exec s = .ok (r, s') := by
  rw [rename] at h
  split_ifs at h
  · rcases run_txn_cases (renameTxn c req now) s with ⟨r', t, hx, hr⟩ | ⟨e, hr⟩
    · rw [hr] at h
      cases h
      exact hx
    · rw [hr] at h
      cases h
  · cases h
  · cases h

theorem rename_ok_cases (h : (rename c req now).run s = (.ok r, s')) :
    (req.flags ≠ renameExchange ∧
      ((∃ se spa dpa sa, RenameMoves s s' req se spa dpa sa) ∨
        ∃ se de spa dpa sa da, RenameReplaces s s' req se de spa dpa sa da)) ∨
    (req.flags = renameExchange ∧
      ∃ se de spa dpa sa da, RenameExchanges s s' req se de spa dpa sa da) := by
  obtain ⟨se, spa, dpa, sa, v, t, s₁, hf, hdst, hent, rfl⟩ :=
    renameTxn_ok (renameTxn_of_rename_ok h)
  rcases hde : dstEntry s req with _ | de
  · rw [hde] at hdst hent
    have hne := (renameDst_none_ok hdst).2.1
    exact .inl ⟨hne, .inl ⟨se, spa, dpa, sa, renameMoves_of_ok hf hde hdst hent⟩⟩
  rw [hde] at hdst hent
  by_cases hxc : req.flags = renameExchange
  · obtain ⟨da, hda⟩ := renameExchanges_of_ok hf hde hdst hent hxc
    exact .inr ⟨hxc, se, de, spa, dpa, sa, da, hda⟩
  · obtain ⟨da, hda⟩ := renameReplaces_of_ok hf hde hdst hent hxc
    exact .inl ⟨hxc, .inr ⟨se, de, spa, dpa, sa, da, hda⟩⟩

theorem rename_movedEntries (h : (rename c req now).run s = (.ok r, s'))
    (hx : req.flags ≠ renameExchange) :
    ∃ se, entryAt s req.parentSrcIno (trimSuffix req.oldName) = some se ∧
      ∀ p n, entryAt s' p n = entryAt (movedEntries s req se) p n := by
  obtain ⟨-, ⟨se, spa, dpa, sa, hm⟩ | ⟨se, de, spa, dpa, sa, da, hm⟩⟩ | ⟨hxc, -⟩ := rename_ok_cases h
  · exact ⟨se, hm.src, hm.entries⟩
  · exact ⟨se, hm.src, hm.entries⟩
  · exact absurd hxc hx

end Outcome

end HugoFS.Meta
