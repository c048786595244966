import HugoFS.Meta.Tree

/-!
# The attributes after a Rename

`Rename` loads up to four attributes, changes them in memory and saves them one after the other,
so that a later save wins where two belong to one inode. From the last save for every inode
follow what a rename leaves, what an exchange leaves, and when the second sticky check panics.
-/

namespace HugoFS.Meta

open KV Option Attr

/-! ### The last save of each inode -/

section Saves

variable {c : Caller} {req : RenameReq} {now : Time} {s s' : Store}

def savedAttrs (req : RenameReq) (w : RenameVars) (before : Ino → Option Attr) (i : Ino) :
    Option Attr :=
  if i = req.parentDstIno ∧ w.dupdate = true then some w.dpa
  else if i = w.sa.inode then some (renamedAttr req w.sa)
  else if i = req.parentSrcIno ∧ req.parentDstIno ≠ req.parentSrcIno ∧ w.supdate = true then
    some w.spa.bumpEpoch
  else before i

theorem attrAt_saveIf (s : Store) (p : Prop) [Decidable p] (a : Attr) (i : Ino) :
    attrAt (if p then putAttr s a else s) i = if i = a.inode ∧ p then some a else attrAt s i := by
  by_cases hp : p
  · rw [if_pos hp, attrAt_putAttr]
    simp only [hp, and_true]
  · rw [if_neg hp, if_neg fun h => hp h.2]

theorem attrAt_finishStore {w : RenameVars} (hps : w.spa.inode = req.parentSrcIno)
    (hpd : w.dpa.inode = req.parentDstIno) :
    attrAt (finishStore req w s) = savedAttrs req w (attrAt s) := by
  funext i
  unfold finishStore savedAttrs
  dsimp only
  rw [attrAt_saveIf, attrAt_putAttr, attrAt_saveIf, hpd, bumpEpoch_inode, hps]
  simp only [Bool.and_eq_true, bne_iff_ne]
  rfl

inductive RenameWay (s : Store) (req : RenameReq) (now : Time) (v : RenameVars) :
    RenameVars → (Ino → Option Attr) → Prop
  | moved (hx : req.flags ≠ renameExchange)
      (hdst : entryAt s req.parentDstIno (trimSuffix req.newName) = none) :
      RenameWay s req now v v (attrAt s)
  | replaced (de : Entry) (da : Attr) (hx : req.flags ≠ renameExchange)
      (hdst : entryAt s req.parentDstIno (trimSuffix req.newName) = some de)
      (hda : attrAt s de.ino = some da) (hempty : da.isDir = true → EmptyDir s de.ino) :
      RenameWay s req now v (replacedVars v (da.setCtime now))
        (attrAt (replacedStore s (replacedAttr da now)))
  | exchanged (de : Entry) (da da' : Attr) (hx : req.flags = renameExchange)
      (hdst : entryAt s req.parentDstIno (trimSuffix req.newName) = some de)
      (hda : attrAt s de.ino = some da)
      (hda' : (exchangeVars req v (da.setCtime now)).da = some da') :
      RenameWay s req now v (exchangeVars req v (da.setCtime now)) (attrAt (putAttr s da'))

theorem attrAt_replacedStore (s t : Store) (h : attrAt s = attrAt t) (da : Attr) :
    attrAt (replacedStore s da) = attrAt (replacedStore t da) := by
  funext i
  rw [replacedStore, replacedStore]
  split_ifs <;> simp [h]

theorem exchangeVars_da_inode {req : RenameReq} {now : Time} {v : RenameVars} {da da' : Attr}
    (h : (exchangeVars req v (da.setCtime now)).da = some da') : da'.inode = da.inode := by
  rw [exchangeVars] at h
  split_ifs at h <;> cases h <;> rfl

@[simp] theorem replacedVars_sa (v : RenameVars) (da : Attr) : (replacedVars v da).sa = v.sa := by
  rw [replacedVars]
  split_ifs <;> rfl

@[simp] theorem exchangeVars_sa (v : RenameVars) (da : Attr) :
    (exchangeVars req v da).sa = v.sa := by
  rw [exchangeVars]
  split_ifs <;> rfl

theorem replacedVars_da (now : Time) (v : RenameVars) (da : Attr) :
    (replacedVars v (da.setCtime now)).da = some (replacedAttr da now) := by
  rw [replacedVars, replacedAttr, setCtime_isDir]
  split_ifs <;> rfl

theorem exchangeVars_da (req : RenameReq) (v : RenameVars) (da : Attr) :
    ∃ da', (exchangeVars req v da).da = some da' := by
  rw [exchangeVars]
  split_ifs <;> exact ⟨_, rfl⟩

namespace RenameWay

variable {v v' : RenameVars} {before : Ino → Option Attr}

section

variable (h : RenameWay s req now v v' before)
include h

theorem sa_eq : v'.sa = v.sa := by
  cases h with
  | moved hx hdst => rfl
  | replaced de da hx hdst hda hempty => exact replacedVars_sa _ _
  | exchanged de da da' hx hdst hda hda' => exact exchangeVars_sa _ _

theorem parents_inode : v'.spa.inode = v.spa.inode ∧ v'.dpa.inode = v.dpa.inode := by
  cases h with
  | moved hx hdst => exact ⟨rfl, rfl⟩
  | replaced de da hx hdst hda hempty =>
    rw [replacedVars]
    split_ifs <;> exact ⟨rfl, rfl⟩
  | exchanged de da da' hx hdst hda hda' =>
    rw [exchangeVars]
    split_ifs <;> exact ⟨rfl, rfl⟩

end

end RenameWay

@[simp] theorem moveDir_spa_inode (v : RenameVars) : (moveDir req v).spa.inode = v.spa.inode := by
  rw [moveDir]
  split_ifs <;> rfl

@[simp] theorem moveDir_dpa_inode (v : RenameVars) : (moveDir req v).dpa.inode = v.dpa.inode := by
  rw [moveDir]
  split_ifs <;> rfl

@[simp] theorem moveDir_sa (v : RenameVars) : (moveDir req v).sa = v.sa := by
  rw [moveDir]
  split_ifs <;> rfl

def startVars (spa dpa sa : Attr) : RenameVars := ⟨spa, dpa, sa, none, false, false⟩

theorem rename_ok_way {r : RenameResp} (h : (rename c req now).run s = (.ok r, s')) :
    ∃ se spa dpa sa v before, RenameFound s req se spa dpa sa ∧
      RenameWay s req now (startVars spa dpa sa) v before ∧
      attrAt s' = savedAttrs req (touchVars now (moveDir req v)) before := by
  obtain ⟨se, spa, dpa, sa, v, t, s₁, hf, hdst, hent, rfl⟩ :=
    renameTxn_ok (renameTxn_of_rename_ok h)
  suffices hway : RenameWay s req now (startVars spa dpa sa) v (attrAt s₁) by
    refine ⟨se, spa, dpa, sa, v, attrAt s₁, hf, hway, attrAt_finishStore ?_ ?_⟩
    · simpa using hway.parents_inode.1.trans hf.srcParent_inode
    · simpa using hway.parents_inode.2.trans hf.dstParent_inode
  rw [touchVars_da, moveDir_da] at hent
  rcases hde : dstEntry s req with _ | de
  · rw [hde] at hdst hent
    obtain ⟨rfl, hne, rfl⟩ := renameDst_none_ok hdst
    rw [renameEntries, if_neg hne] at hent
    obtain ⟨hn, rfl⟩ := moveEntries_none_ok hent
    rw [dstEntry, if_neg hn] at hde
    have hat : attrAt (putEntry (dropEntry s se.parentIno se.name) (renamedEntry req se)) =
        attrAt s := by
      funext i
      simp
    rw [hat]
    exact .moved hne hde
  · rw [hde] at hdst hent
    obtain ⟨rfl, da, hda, ⟨hxc, rfl⟩ | ⟨hxc, rfl, hempty⟩⟩ := renameDst_some_ok hdst
    · obtain ⟨da', hda'⟩ := exchangeVars_da req ⟨spa, dpa, sa, none, false, false⟩
        (da.setCtime now)
      rw [renameEntries, if_pos hxc, hda'] at hent
      obtain rfl := exchangeEntries_ok hent
      have hat : attrAt (putAttr (putEntry s se) da') = attrAt (putAttr s da') := by
        funext i
        simp
      rw [hat]
      exact .exchanged de da da' hxc (entryAt_of_dstEntry hde) hda hda'
    · rw [renameEntries, if_neg hxc, replacedVars_da] at hent
      obtain ⟨-, rfl⟩ := moveEntries_some_ok hent
      have hdrop : attrAt (dropEntry s se.parentIno se.name) = attrAt s := by
        funext i
        simp
      have hat : attrAt (putEntry (dropEntry (replacedStore (dropEntry s se.parentIno se.name)
          (replacedAttr da now)) de.parentIno de.name) (renamedEntry req se)) =
          attrAt (replacedStore s (replacedAttr da now)) := by
        rw [← attrAt_replacedStore _ _ hdrop]
        funext i
        simp
      rw [hat]
      exact .replaced de da hxc (entryAt_of_dstEntry hde) hda fun hd => attrAt_inode hda ▸ hempty hd

theorem attrAt_renamed {r : RenameResp} {se : Entry} {sa : Attr}
    (h : (rename c req now).run s = (.ok r, s'))
    (hsrc : entryAt s req.parentSrcIno (trimSuffix req.oldName) = some se)
    (hsa : attrAt s se.ino = some sa) (hne : se.ino ≠ req.parentDstIno) :
    attrAt s' se.ino = some (renamedAttr req (sa.setCtime now)) := by
  obtain ⟨se', spa, dpa, sa', v, before, hf, hway, hat⟩ := rename_ok_way h
  obtain rfl : se' = se := some.inj (hf.src.symm.trans hsrc)
  obtain rfl : sa' = sa := some.inj (hf.srcAttr.symm.trans hsa)
  have hw : (touchVars now (moveDir req v)).sa = sa'.setCtime now := by
    rw [touchVars, moveDir_sa, hway.sa_eq]
    rfl
  rw [hat, savedAttrs, if_neg fun hp => hne hp.1, hw, setCtime_inode,
    if_pos (attrAt_inode hsa).symm]

end Saves

/-! ### A rename to another name -/

def nlinkAt (s : Store) (i : Ino) : Option UInt32 := (attrAt s i).map Attr.nlink

theorem nlinkAt_of_stat {s : Store} {i : Ino} {m n : UInt32} (h : stat s i = some (m, n)) :
    nlinkAt s i = some n := by
  obtain ⟨a, ha, hx⟩ := stat_eq_some.mp h
  cases hx
  rw [nlinkAt, ha]
  rfl

theorem nlinkAt_congr {s s' : Store} {i : Ino} (h : stat s' i = stat s i) :
    nlinkAt s' i = nlinkAt s i := by
  rcases ha : stat s i with _ | ⟨m, n⟩
  · have hnone : ∀ {t}, stat t i = none → nlinkAt t i = none := by
      intro t ht
      rw [nlinkAt, map_eq_none_iff]
      exact map_eq_none_iff.mp ht
    rw [hnone ha, hnone (h.trans ha)]
  · rw [nlinkAt_of_stat ha, nlinkAt_of_stat (h.trans ha)]

def movedNlink (req : RenameReq) (sa : Attr) (i : Ino) (n : UInt32) : UInt32 :=
  if movesDir req sa = false then n
  else if i = req.parentSrcIno then n - 1
  else if i = req.parentDstIno then n + 1
  else n

section Moved

variable {c : Caller} {req : RenameReq} {now : Time} {s s' : Store} {r : RenameResp} {se : Entry}

theorem RenameMoves.nlinkAt_eq {spa dpa sa : Attr} (h : RenameMoves s s' req se spa dpa sa)
    (hps : sa.isDir = true → se.ino ≠ req.parentSrcIno) (i : Ino) :
    nlinkAt s' i = (nlinkAt s i).map (movedNlink req sa i) := by
  have hst := h.stats i
  have hmoves : movesDir req sa = true → req.parentSrcIno ≠ req.parentDstIno ∧ sa.isDir = true := by
    simp [movesDir]
  by_cases hi : i = req.parentDstIno
  · subst hi
    rw [if_pos rfl] at hst
    rw [nlinkAt_of_stat hst, nlinkAt_of_stat (stat_of_attrAt h.dstParent), map_some,
      movedNlink]
    cases hm : movesDir req sa with
    | true => simp [(hmoves hm).1.symm]
    | false => simp
  rw [if_neg hi] at hst
  by_cases hse : i = se.ino
  · subst hse
    rw [if_pos rfl] at hst
    rw [nlinkAt_of_stat hst, nlinkAt_of_stat (stat_of_attrAt h.srcAttr), map_some,
      movedNlink]
    cases hm : movesDir req sa with
    | true => simp [hps (hmoves hm).2, hi]
    | false => simp
  rw [if_neg hse] at hst
  by_cases hi' : i = req.parentSrcIno
  · subst hi'
    rw [if_pos rfl] at hst
    rw [nlinkAt_of_stat hst, nlinkAt_of_stat (stat_of_attrAt h.srcParent), map_some,
      movedNlink]
    cases hm : movesDir req sa <;> simp
  · rw [if_neg hi'] at hst
    have hid : movedNlink req sa i = id := by
      funext n
      simp [movedNlink, hi, hi']
    rw [nlinkAt_congr hst, hid, map_id]
    rfl

theorem entryAt_renamed (h : (rename c req now).run s = (.ok r, s'))
    (hx : req.flags ≠ renameExchange) (hold : '/' ∉ req.oldName.toList)
    (hnew : '/' ∉ req.newName.toList)
    (hsrc : entryAt s req.parentSrcIno req.oldName = some se) (p : Ino) (n : String) :
    entryAt s' p n =
      if p = req.parentDstIno ∧ n = req.newName then some (renamedEntry req se)
      else if p = req.parentSrcIno ∧ n = req.oldName then none
      else entryAt s p n := by
  obtain ⟨se', hsrc', hentries⟩ := rename_movedEntries h hx
  rw [trimSuffix_of_notMem hold, hsrc] at hsrc'
  cases hsrc'
  rw [hentries, entryAt_movedEntries, trimSuffix_of_notMem hold, trimSuffix_of_notMem hnew]
  split_ifs <;> rfl

/-- In a store whose directories form a tree, a successful `Rename` without exchange moves
one entry and nothing else. The renamed inode keeps its size, owner and mode and has its
new place recorded, and when nothing stood at the destination only the link counts of two
different parents of a directory change. -/
theorem rename_moves_entry (htree : DirTree s)
    (hflags : req.flags = 0 ∨ req.flags = renameNoReplace)
    (hold : '/' ∉ req.oldName.toList) (hnew : '/' ∉ req.newName.toList)
    (hsrc : entryAt s req.parentSrcIno req.oldName = some se)
    (hbelow : ¬Below s se.ino req.parentDstIno)
    (h : (rename c req now).run s = (.ok r, s')) :
    (∀ p n, entryAt s' p n =
      if p = req.parentDstIno ∧ n = req.newName then some (renamedEntry req se)
      else if p = req.parentSrcIno ∧ n = req.oldName then none
      else entryAt s p n) ∧
    ∃ sa sa', attrAt s se.ino = some sa ∧ attrAt s' se.ino = some sa' ∧
      (sa'.size = sa.size ∧ sa'.uid = sa.uid ∧ sa'.gid = sa.gid ∧ sa'.mode = sa.mode ∧
        sa'.name = req.newName ∧ sa'.parentIno = req.parentDstIno) ∧
      (entryAt s req.parentDstIno req.newName = none →
        ∀ i, nlinkAt s' i = (nlinkAt s i).map (movedNlink req sa i)) := by
  have hx : req.flags ≠ renameExchange := by
    rcases hflags with hf | hf <;> rw [hf] <;> decide
  have hpd : se.ino ≠ req.parentDstIno := by
    intro he
    exact hbelow (he ▸ Relation.ReflTransGen.refl)
  refine ⟨entryAt_renamed h hx hold hnew hsrc, ?_⟩
  have hsrc' : entryAt s req.parentSrcIno (trimSuffix req.oldName) = some se := by
    rw [trimSuffix_of_notMem hold, hsrc]
  obtain ⟨se', spa, dpa, sa, -, -, hf, -, -⟩ := rename_ok_way h
  obtain rfl : se' = se := some.inj (hf.src.symm.trans hsrc')
  refine ⟨sa, _, hf.srcAttr, attrAt_renamed h hsrc' hf.srcAttr hpd, ⟨rfl, rfl, rfl, rfl, rfl, rfl⟩, ?_⟩
  intro hnone i
  rcases rename_ok_cases h with ⟨-, ⟨se'', spa', dpa', sa', hm⟩ | ⟨se'', de, _, _, _, _, hm⟩⟩ | ⟨hxc, -⟩
  · obtain rfl : se'' = se' := some.inj (hm.src.symm.trans hsrc')
    obtain rfl : sa' = sa := some.inj (hm.srcAttr.symm.trans hf.srcAttr)
    refine hm.nlinkAt_eq (fun hd hps => ?_) i
    -- a directory with an entry for itself is its own ancestor
    have hdir : isDirAt s se''.ino = true := isDirAt_eq_true.mpr ⟨sa', hf.srcAttr, hd⟩
    exact htree.not_ancestor hdir (.single ⟨req.oldName, se'', hps ▸ hsrc, rfl⟩)
  · have hdst := hm.dst
    rw [trimSuffix_of_notMem hnew, hnone] at hdst
    cases hdst
  · exact absurd hxc hx

end Moved

theorem dirTree_two_dirs : DirTree (treeAfter [mkdirCall 1 "a" 2, mkdirCall 1 "b" 3]).store := by
  have hreach : TreeReach (fun s c => c.KeepsTree s) ⟨0, 0⟩ 0 0
      (treeAfter [mkdirCall 1 "a" 2, mkdirCall 1 "b" 3]) :=
    Runs.reach_exec ⟨⟨by decide, fun h => absurd (by decide) h⟩,
      ⟨by decide, fun h => absurd (by decide) h⟩, trivial⟩
  have hsound := Runs.Reach.invariant (I := fun st => TreeSound st.store st.used)
    (fun _ _ hI hc => hI.next hc.1 hc.2) hreach (treeSound_initStore ⟨0, 0⟩ 0 0)
  exact hsound.dirTree

theorem rename_moves_entry_sample :
    ∃ s', ((rename ⟨0, 0⟩ ⟨1, "a", 3, "c", 0⟩ ⟨2, 0⟩).run
        (treeAfter [mkdirCall 1 "a" 2, mkdirCall 1 "b" 3]).store).2 = s' ∧
      entryAt s' 3 "c" = some ⟨3, "c", 2, modeDir ||| 0o755⟩ ∧ entryAt s' 1 "a" = none := by
  have hsrc : entryAt (treeAfter [mkdirCall 1 "a" 2, mkdirCall 1 "b" 3]).store 1 "a" =
      some ⟨1, "a", 2, modeDir ||| 0o755⟩ := by decide
  have hok : ((rename ⟨0, 0⟩ ⟨1, "a", 3, "c", 0⟩ ⟨2, 0⟩).run
      (treeAfter [mkdirCall 1 "a" 2, mkdirCall 1 "b" 3]).store).1.isOk = true := by decide
  rcases hr : (rename ⟨0, 0⟩ ⟨1, "a", 3, "c", 0⟩ ⟨2, 0⟩).run
      (treeAfter [mkdirCall 1 "a" 2, mkdirCall 1 "b" 3]).store with ⟨e | r, s'⟩
  · rw [hr] at hok
    cases hok
  obtain ⟨hent, -⟩ := rename_moves_entry dirTree_two_dirs (.inl rfl) (by decide) (by decide) hsrc
    (not_below_of_empty (by decide) (by decide)) hr
  exact ⟨s', rfl, hent 3 "c", hent 1 "a"⟩

/-! ### An exchange -/

def Attr.SameButPlace (a b : Attr) : Prop :=
  { b with name := a.name, parentIno := a.parentIno, ctime := a.ctime, ctimens := a.ctimens,
           epoch := a.epoch } = a

structure Exchanged (s s' : Store) (req : RenameReq) (a b : Ino) : Prop where
  src : (entryAt s' req.parentSrcIno (trimSuffix req.oldName)).map Entry.ino = some b
  dst : (entryAt s' req.parentDstIno (trimSuffix req.newName)).map Entry.ino = some a
  others : ∀ p n, ¬(p = req.parentSrcIno ∧ n = trimSuffix req.oldName) →
    ¬(p = req.parentDstIno ∧ n = trimSuffix req.newName) → entryAt s' p n = entryAt s p n
  attrs : ∀ i, i = a ∨ i = b → ∀ x, attrAt s i = some x →
    ∃ x', attrAt s' i = some x' ∧ x.SameButPlace x'

section Exchange

variable {c : Caller} {req : RenameReq} {now : Time} {s s' : Store} {r : RenameResp} {ea eb : Entry}

theorem entryAt_exchanged (h : (rename c req now).run s = (.ok r, s'))
    (hx : req.flags = renameExchange) (p : Ino) (n : String) : entryAt s' p n = entryAt s p n := by
  rcases rename_ok_cases h with ⟨hne, -⟩ | ⟨-, se, de, spa, dpa, sa, da, hm⟩
  · exact absurd hx hne
  · exact hm.entries p n

theorem renamedAttr_sameButPlace (req : RenameReq) (a : Attr) (now : Time) :
    a.SameButPlace (renamedAttr req (a.setCtime now)) := rfl

def KeepsMtime (req : RenameReq) (now : Time) (x : Attr) : Prop :=
  req.parentSrcIno = req.parentDstIno ∧ dueForUpdate now x.mtime x.mtimens = false ∨
    x.mtime = now.sec ∧ x.mtimens = now.nsec

theorem savedAttrs_self {spa dpa : Attr} (hi : dpa.inode = req.parentDstIno)
    (hd : dpa.isDir = true) (before : Ino → Option Attr) :
    savedAttrs req (touchVars now (moveDir req
        (exchangeVars req (startVars spa dpa dpa) (dpa.setCtime now)))) before req.parentDstIno =
      if req.parentSrcIno ≠ req.parentDstIno ∨ dueForUpdate now dpa.mtime dpa.mtimens = true then
        some (dpa.touch now)
      else some (renamedAttr req (dpa.setCtime now)) := by
  by_cases hp : req.parentSrcIno = req.parentDstIno
  · have hv : moveDir req (exchangeVars req (startVars spa dpa dpa) (dpa.setCtime now)) =
        ⟨spa, dpa, dpa, some (dpa.setCtime now), false, false⟩ := by
      rw [exchangeVars, if_neg (by simpa using hp), moveDir, if_neg (by simp [hp])]
      rfl
    rw [hv, savedAttrs, if_pos (c := _ = (touchVars now _).sa.inode) hi.symm]
    simp only [touchVars, Bool.false_or, true_and, hp, ne_eq, not_true, false_or]
    split_ifs <;> rfl
  · have hv : moveDir req (exchangeVars req (startVars spa dpa dpa) (dpa.setCtime now)) =
        ⟨spa, dpa, dpa, some ((dpa.setCtime now).setParent req.parentSrcIno), true, true⟩ := by
      rw [exchangeVars, if_pos (by simpa using hp), setCtime_isDir, if_pos hd, moveDir,
        if_pos (by simpa [startVars, hd] using hp)]
      simp [startVars, setNlink]
    rw [hv, savedAttrs, if_pos ⟨rfl, rfl⟩, if_pos (.inl hp)]
    rfl

theorem exchange_keeps_attr_iff (h : (rename c req now).run s = (.ok r, s'))
    (hx : req.flags = renameExchange)
    (ha : entryAt s req.parentSrcIno (trimSuffix req.oldName) = some ea)
    (hb : entryAt s req.parentDstIno (trimSuffix req.newName) = some eb)
    (hab : ea.ino = eb.ino) {x : Attr} (hattr : attrAt s ea.ino = some x) :
    (∃ x', attrAt s' ea.ino = some x' ∧ x.SameButPlace x') ↔
      (ea.ino = req.parentDstIno → KeepsMtime req now x) := by
  by_cases hpd : ea.ino = req.parentDstIno
  swap
  · refine iff_of_true ?_ fun he => absurd he hpd
    exact ⟨_, attrAt_renamed h ha hattr hpd, renamedAttr_sameButPlace req x now⟩
  obtain ⟨se, spa, dpa, sa, v, before, hf, hway, hat⟩ := rename_ok_way h
  obtain rfl : se = ea := some.inj (hf.src.symm.trans ha)
  obtain rfl : sa = x := some.inj (hf.srcAttr.symm.trans hattr)
  obtain rfl : dpa = sa := by
    have hd := hf.dstParent
    rw [← hpd, hattr] at hd
    exact (some.inj hd).symm
  cases hway with
  | moved hne hdst => exact absurd hx hne
  | replaced de da hne hdst hda hempty => exact absurd hx hne
  | exchanged de da da' _ hdst hda hda' =>
    obtain rfl : de = eb := some.inj (hdst.symm.trans hb)
    obtain rfl : da = dpa := by
      rw [← hab, hattr] at hda
      exact (some.inj hda).symm
    rw [hat, hpd, savedAttrs_self hf.dstParent_inode hf.dstParent_isDir]
    constructor
    · rintro ⟨x', hx', hsame⟩ -
      split_ifs at hx' with hdue
      · cases hx'
        -- the modification time of the saved record is the present
        right
        have hmtime := congrArg mtime hsame
        have hmtimens := congrArg mtimens hsame
        exact ⟨hmtime.symm, hmtimens.symm⟩
      · left
        rw [not_or, not_not, Bool.not_eq_true] at hdue
        exact hdue
    · intro hkeep
      rcases hkeep rfl with ⟨hp, hdue⟩ | ⟨hm, hn⟩
      · rw [if_neg (by simp [hp, hdue])]
        exact ⟨_, rfl, renamedAttr_sameButPlace req da now⟩
      split_ifs
      · refine ⟨_, rfl, ?_⟩
        rw [SameButPlace, touch, ← hm, ← hn]
      · exact ⟨_, rfl, renamedAttr_sameButPlace req da now⟩

/-- A successful `Rename` with the exchange flag exchanges its two entries if and only if
they point to the same inode already, and that inode is not the directory of the
destination or keeps its modification time. -/
theorem rename_exchanges_iff (hx : req.flags = renameExchange)
    (ha : entryAt s req.parentSrcIno (trimSuffix req.oldName) = some ea)
    (hb : entryAt s req.parentDstIno (trimSuffix req.newName) = some eb)
    (h : (rename c req now).run s = (.ok r, s')) :
    Exchanged s s' req ea.ino eb.ino ↔
      ea.ino = eb.ino ∧ ∀ x, attrAt s ea.ino = some x → ea.ino = req.parentDstIno →
        KeepsMtime req now x := by
  have hent := entryAt_exchanged h hx
  constructor
  · intro hex
    have hsrc := hex.src
    rw [hent, ha] at hsrc
    have hab : ea.ino = eb.ino := some.inj hsrc
    refine ⟨hab, fun x hattr => ?_⟩
    exact (exchange_keeps_attr_iff h hx ha hb hab hattr).mp (hex.attrs _ (.inl rfl) x hattr)
  · rintro ⟨hab, hkeep⟩
    refine ⟨?_, ?_, fun p n _ _ => hent p n, ?_⟩
    · rw [hent, ha, ← hab]
      rfl
    · rw [hent, hb, hab]
      rfl
    · intro i hi x hattr
      obtain rfl : i = ea.ino := by
        rcases hi with hi | hi
        · exact hi
        · exact hi.trans hab.symm
      exact (exchange_keeps_attr_iff h hx ha hb hab hattr).mpr (hkeep x hattr)

end Exchange

def twoLinks : Store :=
  storeAfter [.createInode ⟨1, "a", some (.ofMode 0o644)⟩ 2 ⟨1, 0⟩, .link ⟨2, 1, "b"⟩ ⟨2, 0⟩]

theorem rename_exchanges_sample :
    ∃ s', ((rename ⟨0, 0⟩ ⟨1, "a", 1, "b", renameExchange⟩ ⟨3, 0⟩).run twoLinks).2 = s' ∧
      Exchanged twoLinks s' ⟨1, "a", 1, "b", renameExchange⟩ 2 2 := by
  have ha : entryAt twoLinks 1 (trimSuffix "a") = some ⟨1, "a", 2, 0o644⟩ := by decide
  have hb : entryAt twoLinks 1 (trimSuffix "b") = some ⟨1, "b", 2, 0o644⟩ := by decide
  have hok : ((rename ⟨0, 0⟩ ⟨1, "a", 1, "b", renameExchange⟩ ⟨3, 0⟩).run twoLinks).1.isOk =
      true := by decide
  rcases hr : (rename ⟨0, 0⟩ ⟨1, "a", 1, "b", renameExchange⟩ ⟨3, 0⟩).run twoLinks with ⟨e | r, s'⟩
  · rw [hr] at hok
    cases hok
  have hiff := rename_exchanges_iff rfl ha hb hr
  exact ⟨s', rfl, hiff.mpr ⟨rfl, fun x _ hpd => absurd hpd (by decide)⟩⟩

/-- The exchange of two directories succeeds and leaves both entries as they were. -/
theorem exchange_leaves_entries :
    ((rename ⟨0, 0⟩ ⟨1, "a", 1, "b", renameExchange⟩ ⟨2, 0⟩).run
      (treeAfter [mkdirCall 1 "a" 2, mkdirCall 1 "b" 3]).store).1.isOk = true ∧
    ¬Exchanged (treeAfter [mkdirCall 1 "a" 2, mkdirCall 1 "b" 3]).store
      ((rename ⟨0, 0⟩ ⟨1, "a", 1, "b", renameExchange⟩ ⟨2, 0⟩).run
        (treeAfter [mkdirCall 1 "a" 2, mkdirCall 1 "b" 3]).store).2
      ⟨1, "a", 1, "b", renameExchange⟩ 2 3 := by
  refine ⟨by decide, fun h => ?_⟩
  exact absurd h.src (by decide)

/-! ### The attributes of a missing destination -/

section Sticky

open Body (avoids_failIf avoids_pure avoids_throw)

variable {c : Caller} {req : RenameReq} {now : Time} {s : Store}

/-! Only the second sticky check can dereference nothing; every other part of the
transaction leaves with an error of its own or not at all. -/

theorem avoids_getAttr (i : Ino) (x : Errno) :
    (getAttr i fun _ => .errno x).Avoids .panic := by
  intro s h
  rcases hl : s.lookup (.attr i) with _ | r <;> simp [getAttr, Body.exec, hl] at h

theorem avoids_getEntry (p : Ino) (n : String) (x : Errno) :
    (getEntry p n fun _ => .errno x).Avoids .panic := by
  intro s h
  rw [getEntry] at h
  split_ifs at h with hn
  · cases h
  · rcases hl : s.lookup (.entry p (trimSuffix n)) with _ | r <;> simp [Body.exec, hl] at h

theorem avoids_findEntry (p : Ino) (n : String) : (findEntry p n).Avoids .panic := by
  intro s h
  rw [findEntry] at h
  split_ifs at h <;> cases h

theorem avoids_saveAttr (a : Attr) : (saveAttr a).Avoids .panic := by
  rintro s ⟨⟩

theorem avoids_saveAttrIf (b : Bool) (a : Attr) : (saveAttrIf b a).Avoids .panic := by
  cases b <;> rintro s ⟨⟩

theorem avoids_saveEntry (e : Entry) : (saveEntry e .store).Avoids .panic := by
  intro s h
  rw [saveEntry] at h
  split_ifs at h <;> cases h

theorem avoids_deleteEntry (p : Ino) (n : String) : (deleteEntry p n .store).Avoids .panic := by
  intro s h
  rw [deleteEntry] at h
  split_ifs at h <;> cases h

theorem avoids_renameChecks (spa dpa sa : Attr) :
    (renameChecks c req spa dpa sa).Avoids .panic := by
  refine .bind (avoids_failIf _ (by simp)) fun _ => ?_
  refine .bind (avoids_failIf _ (by simp)) fun _ => ?_
  refine .bind (avoids_failIf _ (by simp)) fun _ => ?_
  refine .bind (avoids_failIf _ (by simp)) fun _ => ?_
  exact avoids_failIf _ (by simp)

theorem avoids_dstVars (v : RenameVars) (da : Attr) : (dstVars req v da).Avoids .panic := by
  rw [dstVars, replaceVars]
  split_ifs
  · exact avoids_pure _ _
  · refine .bind (fun s h => by cases h) fun n => ?_
    exact .bind (avoids_failIf _ (by simp)) fun _ => avoids_pure _ _
  · exact avoids_pure _ _

theorem avoids_renameDst (v : RenameVars) (de : Option Entry) :
    (renameDst c req now v de).Avoids .panic := by
  cases de with
  | none =>
    rw [renameDst]
    split_ifs
    · exact avoids_throw (by simp)
    · exact avoids_pure _ _
  | some de =>
    refine .bind (avoids_failIf _ (by simp)) fun _ => ?_
    refine .bind (avoids_getAttr _ _) fun da => ?_
    refine .bind (avoids_failIf _ (by simp)) fun _ => ?_
    refine .bind (avoids_dstVars v _) fun v' => ?_
    exact .bind (avoids_failIf _ (by simp)) fun _ => avoids_pure _ _

theorem avoids_dropReplaced (da : Attr) : (dropReplaced da).Avoids .panic := by
  rw [dropReplaced]
  split_ifs <;> rintro s ⟨⟩

theorem avoids_dropDst (de : Option Entry) (da : Option Attr) : (dropDst de da).Avoids .panic := by
  cases de with
  | none => exact avoids_pure _ _
  | some de =>
    cases da with
    | none => exact avoids_pure _ _
    | some da => exact .bind (avoids_dropReplaced da) fun _ => avoids_deleteEntry _ _

theorem avoids_renameEntries (se : Entry) (de : Option Entry) (da : Option Attr) :
    (renameEntries req se de da).Avoids .panic := by
  rw [renameEntries]
  split_ifs
  · cases da with
    | none => rintro s ⟨⟩
    | some da => exact .bind (fun s h => by cases h) fun _ => avoids_saveAttr da
  · refine .bind (avoids_deleteEntry _ _) fun _ => ?_
    exact .bind (avoids_dropDst de da) fun _ => avoids_saveEntry _

theorem renameSticky_panic {v : RenameVars} :
    (renameSticky c v).exec s = .error .panic ↔
      c.uid ≠ 0 ∧ v.spa.sticky = true ∧ c.uid ≠ v.spa.uid ∧ v.da = none := by
  rw [renameSticky]
  by_cases hc : (c.uid != 0 && v.spa.sticky && c.uid != v.spa.uid) = true
  · rw [if_pos hc]
    simp only [Bool.and_eq_true, bne_iff_ne] at hc
    rcases hda : v.da with _ | da
    · exact iff_of_true rfl ⟨hc.1.1, hc.1.2, hc.2, rfl⟩
    · refine iff_of_false (avoids_failIf _ (by simp) s) ?_
      rintro ⟨-, -, -, ⟨⟩⟩
  · rw [if_neg hc]
    refine iff_of_false (by rintro ⟨⟩) fun h => hc ?_
    simp [h.1, h.2.1, h.2.2.1]

def renameFrozen (spa dpa sa : Attr) : Bool :=
  spa.hasFlag flagAppend || spa.hasFlag flagImmutable || dpa.hasFlag flagImmutable ||
    sa.hasFlag flagAppend || sa.hasFlag flagImmutable

def stickyDenied (c : Caller) (req : RenameReq) (spa sa : Attr) : Bool :=
  req.parentSrcIno != req.parentDstIno && spa.sticky && c.uid != 0 && c.uid != sa.uid &&
    (c.uid != spa.uid || sa.isDir)

theorem renameChecks_ok_iff {spa dpa sa : Attr} {u : Unit} {s' : Store} :
    (renameChecks c req spa dpa sa).exec s = .ok (u, s') ↔
      (spa.isDir = true ∧ dpa.isDir = true) ∧ accessDenied c spa (modeMaskW ||| modeMaskX) = false ∧
        accessDenied c dpa (modeMaskW ||| modeMaskX) = false ∧ renameFrozen spa dpa sa = false ∧
        stickyDenied c req spa sa = false ∧ s = s' := by
  simp only [renameChecks, Body.exec_bind_ok, Body.exec_failIf_ok, Bool.or_eq_false_iff,
    Bool.not_eq_false']
  constructor
  · rintro ⟨_, _, ⟨hd, rfl⟩, _, _, ⟨ha, rfl⟩, _, _, ⟨hb, rfl⟩, _, _, ⟨hf, rfl⟩, hs, rfl⟩
    exact ⟨hd, ha, hb, by simpa [renameFrozen] using hf, hs, rfl⟩
  · rintro ⟨hd, ha, hb, hf, hs, rfl⟩
    exact ⟨(), s, ⟨hd, rfl⟩, (), s, ⟨ha, rfl⟩, (), s, ⟨hb, rfl⟩, (), s,
      ⟨by simpa [renameFrozen] using hf, rfl⟩, hs, rfl⟩

def UsesMissingDst (c : Caller) (req : RenameReq) (s : Store) : Prop :=
  (req.flags = 0 ∨ req.flags = renameNoReplace) ∧ req.oldName ≠ "" ∧ dstEntry s req = none ∧
    ∃ se spa dpa sa, RenameFound s req se spa dpa sa ∧
      (c.uid ≠ 0 ∧ spa.sticky = true ∧ c.uid ≠ spa.uid) ∧
      accessDenied c spa (modeMaskW ||| modeMaskX) = false ∧
      accessDenied c dpa (modeMaskW ||| modeMaskX) = false ∧ renameFrozen spa dpa sa = false ∧
      (req.parentSrcIno = req.parentDstIno ∨ c.uid = sa.uid)

theorem stickyDenied_eq_false {spa sa : Attr}
    (h : c.uid ≠ 0 ∧ spa.sticky = true ∧ c.uid ≠ spa.uid) :
    stickyDenied c req spa sa = false ↔ req.parentSrcIno = req.parentDstIno ∨ c.uid = sa.uid := by
  obtain ⟨h0, hs, hu⟩ := h
  by_cases hp : req.parentSrcIno = req.parentDstIno
  · simp [stickyDenied, hp]
  by_cases ha : c.uid = sa.uid
  · simp [stickyDenied, ha]
  · simp [stickyDenied, hp, ha, h0, hs, hu]

theorem renameDst_da {v v' : RenameVars} {de : Option Entry} {t : Store}
    (hv : v.da = none) (h : (renameDst c req now v de).exec s = .ok (v', t)) :
    v'.da = none ↔ de = none := by
  cases de with
  | none =>
    obtain ⟨-, -, rfl⟩ := renameDst_none_ok h
    exact iff_of_true hv rfl
  | some de =>
    refine iff_of_false (fun hn => ?_) (by rintro ⟨⟩)
    obtain ⟨-, da, -, ⟨-, rfl⟩ | ⟨-, rfl, -⟩⟩ := renameDst_some_ok h
    · obtain ⟨da', hda'⟩ := exchangeVars_da req v (da.setCtime now)
      cases hda'.symm.trans hn
    · cases (replacedVars_da now v da).symm.trans hn

theorem avoids_renameTail (se : Entry) (de : Option Entry) (w : RenameVars) :
    Body.Avoids Err.panic (do
      renameEntries req se de w.da
      saveAttrIf (req.parentDstIno != req.parentSrcIno && w.supdate) w.spa.bumpEpoch
      saveAttr (renamedAttr req w.sa)
      saveAttrIf w.dupdate w.dpa
      pure { oldEntry := w.sa.toPbEntry
             newEntry := (renamedAttr req w.sa).toPbEntry
             deletedIno := (w.da.map fun da => da.inode).getD 0 } : Txn RenameResp) := by
  refine .bind (avoids_renameEntries se de w.da) fun _ => ?_
  refine .bind (avoids_saveAttrIf _ _) fun _ => ?_
  refine .bind (avoids_saveAttr _) fun _ => ?_
  exact .bind (avoids_saveAttrIf _ _) fun _ => avoids_pure _ _

theorem renameTxn_panic_iff :
    (renameTxn c req now).exec s = .error .panic ↔
      req.flags ≠ renameExchange ∧ req.oldName ≠ "" ∧ dstEntry s req = none ∧
        ∃ se spa dpa sa, RenameFound s req se spa dpa sa ∧
          (c.uid ≠ 0 ∧ spa.sticky = true ∧ c.uid ≠ spa.uid) ∧
          accessDenied c spa (modeMaskW ||| modeMaskX) = false ∧
          accessDenied c dpa (modeMaskW ||| modeMaskX) = false ∧
          renameFrozen spa dpa sa = false ∧
          (req.parentSrcIno = req.parentDstIno ∨ c.uid = sa.uid) := by
  constructor
  · intro h
    obtain ⟨se, _, hget, h⟩ := (avoids_getEntry _ _ _).exec_bind_error.mp h
    obtain ⟨hold, hse, rfl⟩ := exec_getEntry_ok.mp hget
    obtain ⟨spa, _, hget₁, h⟩ := (avoids_getAttr _ _).exec_bind_error.mp h
    obtain ⟨hspa, rfl⟩ := exec_getAttr_ok.mp hget₁
    obtain ⟨dpa, _, hget₂, h⟩ := (avoids_getAttr _ _).exec_bind_error.mp h
    obtain ⟨hdpa, rfl⟩ := exec_getAttr_ok.mp hget₂
    obtain ⟨sa, _, hget₃, h⟩ := (avoids_getAttr _ _).exec_bind_error.mp h
    obtain ⟨hsa, rfl⟩ := exec_getAttr_ok.mp hget₃
    obtain ⟨_, _, hchk, h⟩ := (avoids_renameChecks _ _ _).exec_bind_error.mp h
    obtain ⟨⟨hd1, hd2⟩, hacc1, hacc2, hfrozen, hsticky, rfl⟩ := renameChecks_ok_iff.mp hchk
    obtain ⟨de, _, hfind, h⟩ := (avoids_findEntry _ _).exec_bind_error.mp h
    obtain ⟨hde, rfl⟩ := exec_findEntry_ok.mp hfind
    obtain ⟨v, t, hdst, h⟩ := (avoids_renameDst _ _).exec_bind_error.mp h
    have h := (Body.exec_bind_error_of_avoids fun _ => avoids_renameTail _ _ _).mp h
    obtain ⟨h0, hs, hu, hda⟩ := renameSticky_panic.mp h
    obtain rfl : de = none := (renameDst_da rfl hdst).mp hda
    obtain ⟨rfl, hx, rfl⟩ := renameDst_none_ok hdst
    exact ⟨hx, hold, hde.symm, se, spa, dpa, sa, ⟨hse, hspa, hd1, hdpa, hd2, hsa⟩, ⟨h0, hs, hu⟩,
      hacc1, hacc2, hfrozen, (stickyDenied_eq_false ⟨h0, hs, hu⟩).mp hsticky⟩
  · rintro ⟨hx, hold, hnone, se, spa, dpa, sa, hf, hc, hacc1, hacc2, hfrozen, hown⟩
    have hchk : (renameChecks c req spa dpa sa).exec s = .ok ((), s) :=
      renameChecks_ok_iff.mpr ⟨⟨hf.srcParent_isDir, hf.dstParent_isDir⟩, hacc1, hacc2, hfrozen,
        (stickyDenied_eq_false hc).mpr hown, rfl⟩
    have hdst : (renameDst c req now (startVars spa dpa sa) none).exec s =
        .ok (startVars spa dpa sa, s) := by
      rw [renameDst, if_neg hx]
      rfl
    refine (avoids_getEntry _ _ _).exec_bind_error.mpr
      ⟨se, s, exec_getEntry_ok.mpr ⟨hold, hf.src, rfl⟩, ?_⟩
    refine (avoids_getAttr _ _).exec_bind_error.mpr ⟨spa, s, exec_getAttr_ok.mpr ⟨hf.srcParent, rfl⟩, ?_⟩
    refine (avoids_getAttr _ _).exec_bind_error.mpr ⟨dpa, s, exec_getAttr_ok.mpr ⟨hf.dstParent, rfl⟩, ?_⟩
    refine (avoids_getAttr _ _).exec_bind_error.mpr ⟨sa, s, exec_getAttr_ok.mpr ⟨hf.srcAttr, rfl⟩, ?_⟩
    refine (avoids_renameChecks _ _ _).exec_bind_error.mpr ⟨(), s, hchk, ?_⟩
    refine (avoids_findEntry _ _).exec_bind_error.mpr
      ⟨none, s, exec_findEntry_ok.mpr ⟨hnone.symm, rfl⟩, ?_⟩
    refine (avoids_renameDst _ _).exec_bind_error.mpr ⟨startVars spa dpa sa, s, hdst, ?_⟩
    refine (Body.exec_bind_error_of_avoids fun _ => avoids_renameTail _ _ _).mpr ?_
    exact renameSticky_panic.mpr ⟨hc.1, hc.2.1, hc.2.2, rfl⟩

/-- `Rename` dereferences no missing attributes if and only if the caller does not rename,
to a name that nothing has, out of a sticky directory that belongs to somebody else. -/
theorem rename_no_panic_iff (c : Caller) (req : RenameReq) (now : Time) (s : Store) :
    ((rename c req now).run s).1 ≠ .error .panic ↔ ¬UsesMissingDst c req s := by
  rw [not_iff_not, UsesMissingDst]
  rw [rename]
  by_cases hfl : req.flags = 0 ∨ req.flags = renameNoReplace ∨ req.flags = renameExchange
  · rw [if_pos hfl, Call.run_txn_fst_error, renameTxn_panic_iff]
    refine and_congr_left fun _ => ⟨fun hx => ?_, fun hf hx => ?_⟩
    · rcases hfl with hf | hf | hf
      · exact .inl hf
      · exact .inr hf
      · exact absurd hf hx
    · rw [hx] at hf
      exact absurd hf (by decide)
  · rw [if_neg hfl]
    refine iff_of_false (fun h => ?_) fun h => hfl ?_
    · split_ifs at h <;> cases h
    · rcases h.1 with hf | hf
      · exact .inl hf
      · exact .inr (.inl hf)

end Sticky

def stickyStore : Store :=
  putEntry (putAttr (putAttr ∅ { rootAttr ⟨0, 0⟩ 0 0 with mode := modeDir ||| 0o1777 })
    { toAttr (.ofMode 0o644) with inode := 2, uid := 7, nlink := 1 })
    { parentIno := 1, name := "f", ino := 2, mode := 0o644 }

/-- User 7 renames the own file in the sticky directory of root. -/
theorem rename_panics :
    ((rename ⟨7, 7⟩ ⟨1, "f", 1, "g", 0⟩ ⟨1, 0⟩).run stickyStore).1 = .error .panic := by
  decide

end HugoFS.Meta
