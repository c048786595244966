import HugoFS.Meta.Accounting

/-!
# DeleteDirInode

`doDeleteDir` means to recurse into child directories, but the items of its loop carry no mode,
so the recursion is dead (`doDeleteDir_succ`). `RemovesSubtree` is what the call is for, and
`DeleteDirKeeps` the condition under which it does that and keeps the namespace consistent.
-/

namespace HugoFS.Meta

open KV Finmap Bool Multiset

/-! ### What the call does -/

def HasChild (s : Store) (p c : Ino) : Prop := ∃ n e, entryAt s p n = some e ∧ e.ino = c

variable {s : Store}

theorem hasChild_iff {p c : Ino} :
    HasChild s p c ↔ 0 < tally s fun e => e.parentIno == p && e.ino == c := by
  simp only [HasChild, tally_pos, and_eq_true, beq_iff_eq]
  constructor
  · rintro ⟨n, e, he, hc⟩
    exact ⟨p, n, e, he, (entryAt_key he).1, hc⟩
  · rintro ⟨q, n, e, he, hp, hc⟩
    obtain rfl := (entryAt_key he).1.symm.trans hp
    exact ⟨n, e, he, hc⟩

instance (s : Store) (p c : Ino) : Decidable (HasChild s p c) :=
  decidable_of_iff _ hasChild_iff.symm

def Below (s : Store) (d i : Ino) : Prop := Relation.ReflTransGen (HasChild s) d i

theorem bareAttr_isDir (i : Ino) : (bareAttr i).isDir = false := by
  change modeIsDir 0 = false
  decide

theorem countP_childItems (m : Store) : (childItems m).countP (fun a => a.isDir) = 0 := by
  rw [countP_eq_zero]
  intro a ha
  obtain ⟨x, -, rfl⟩ := mem_map.mp ha
  simp [bareAttr_isDir]

theorem doDeleteDir_succ {ρ : Type} (fuel : ℕ) (p : Ino) (n : String) (next : Request ρ) :
    doDeleteDir (fuel + 1) p n next = readEntry p n fun
      | .error .notFound => next
      | .error .keyEqPrefix => .done (.error (unknownError .keyEqPrefix))
      | .ok entry =>
        if entry.isFile then
          .done (.error (.status .invalidArgument s!"inode:{p} is not a dir"))
        else .scan (inBucket entry.ino) fun children =>
          .write [.del (children.keys ∪ {.entry entry.parentIno entry.name})]
            (.write [.del (childAttrKeys children ∪ {.attr entry.ino})] next) := by
  rw [doDeleteDir]
  refine congrArg (readEntry p n) ?_
  funext r
  cases r with
  | error e => cases e <;> rfl
  | ok entry =>
    -- No item of the loop is a directory, so the iteration runs zero times.
    refine if_congr Iff.rfl rfl (congrArg (Call.scan (inBucket entry.ino)) ?_)
    funext children
    rw [countP_childItems, Function.iterate_zero, id_eq]

variable {n : String} {q i d : Ino}

open Key

theorem mem_keys_bucket :
    entry q n ∈ (s.restrict (inBucket d)).keys ↔ q = d ∧ (entryAt s q n).isSome = true := by
  rw [mem_keys, ← lookup_isSome, lookup_restrict]
  by_cases hq : q = d <;> simp [inBucket, entryAt, hq]

theorem attr_notMem_keys_bucket :
    attr i ∉ (s.restrict (inBucket d)).keys := by
  rw [mem_keys, ← lookup_isSome, lookup_restrict]
  simp [inBucket]

theorem attr_mem_childAttrKeys :
    attr i ∈ childAttrKeys (s.restrict (inBucket d)) ↔ HasChild s d i := by
  simp only [childAttrKeys, childItems, mem_toFinset, mem_map,
    exists_exists_and_eq_and]
  constructor
  · rintro ⟨⟨k, r⟩, hx, hi⟩
    have hl := lookup_eq_some_iff.mpr hx
    rw [lookup_restrict] at hl
    rcases k with j | ⟨q, n⟩
    · simp [inBucket] at hl
    by_cases hq : q = d
    · subst hq
      rw [if_pos (by simp [inBucket])] at hl
      exact ⟨n, r.1, lookup_entry_eq_some.mp hl, attr.inj hi⟩
    · simp [inBucket, hq] at hl
  · rintro ⟨n, e, he, rfl⟩
    obtain ⟨r, hr, rfl⟩ := Option.map_eq_some_iff.mp he
    refine ⟨⟨.entry d n, r⟩, ?_, rfl⟩
    rw [← lookup_eq_some_iff, lookup_restrict, if_pos (by simp [inBucket]), hr]

theorem entry_notMem_childAttrKeys {m : Store} :
    entry q n ∉ childAttrKeys m := by
  simp [childAttrKeys]

def deletedDirStore (s : Store) (e : Entry) (pAttr : Attr) (now : Time) : Store :=
  applyWrites
    [.del ((s.restrict (inBucket e.ino)).keys ∪ {.entry e.parentIno e.name}),
      .del (childAttrKeys (s.restrict (inBucket e.ino)) ∪ {.attr e.ino}),
      .put (.attr pAttr.inode) (.ofAttr (deletedDirParent pAttr now))] s

theorem deleteDirInode_cases (req : DeleteDirInodeReq) (now : Time) (s : Store) :
    ((∃ err, (deleteDirInode req now).run s = (.error err, s)) ∧
      (attrAt s req.parentIno = none ∨ req.name = "" ∨
        entryAt s req.parentIno (trimSuffix req.name) = none ∨
        ∃ e, entryAt s req.parentIno (trimSuffix req.name) = some e ∧ e.isFile = true)) ∨
    ∃ pAttr e, attrAt s req.parentIno = some pAttr ∧ req.name ≠ "" ∧
      entryAt s req.parentIno (trimSuffix req.name) = some e ∧ e.isFile = false ∧
      (deleteDirInode req now).run s = (.ok (), deletedDirStore s e pAttr now) := by
  rw [deleteDirInode, run_readAttr]
  rcases hp : attrAt s req.parentIno with _ | pAttr
  · exact .inl ⟨⟨_, rfl⟩, .inl rfl⟩
  dsimp only
  rw [run_readEntry]
  split_ifs with hn
  · exact .inl ⟨⟨_, rfl⟩, .inr (.inl hn)⟩
  rcases he : entryAt s req.parentIno (trimSuffix req.name) with _ | e
  · exact .inl ⟨⟨_, rfl⟩, .inr (.inr (.inl rfl))⟩
  dsimp only
  rw [doDeleteDir_succ, run_readEntry, if_neg hn, he]
  dsimp only
  split_ifs with hf
  · exact .inl ⟨⟨_, rfl⟩, .inr (.inr (.inr ⟨e, rfl, hf⟩))⟩
  · exact .inr ⟨pAttr, e, rfl, hn, rfl, by simpa using hf, rfl⟩

def AttrDeleted (s : Store) (e : Entry) (i : Ino) : Prop := i = e.ino ∨ HasChild s e.ino i
deriving Decidable

section Views

variable {s : Store} {e : Entry} {pAttr : Attr} {now : Time} {p : Ino}

theorem entryAt_deletedDirStore (q : Ino) (n : String) :
    entryAt (deletedDirStore s e pAttr now) q n =
      if q = e.ino ∨ q = e.parentIno ∧ n = e.name then none else entryAt s q n := by
  simp only [deletedDirStore, applyWrites_cons, applyWrites_nil]
  change entryAt (putAttr _ (deletedDirParent pAttr now)) q n = _
  rw [entryAt_putAttr, entryAt, Write.lookup_apply_of_notMem
    (by simp [Write.keys, entry_notMem_childAttrKeys]), Write.apply, lookup_restrict]
  simp only [Finset.mem_union, mem_keys_bucket, Finset.mem_singleton, entry.injEq,
    decide_not, Bool.not_eq_eq_eq_not, Bool.not_true, decide_eq_false_iff_not]
  by_cases hk : q = e.parentIno ∧ n = e.name
  · simp [hk]
  by_cases hq : q = e.ino
  · subst hq
    rcases h : s.lookup (.entry e.ino n) with _ | r <;> simp [entryAt, h]
  · simp [hk, hq, entryAt]

theorem attrAt_deletedDirStore (hp : attrAt s p = some pAttr) (i : Ino) :
    attrAt (deletedDirStore s e pAttr now) i =
      if i = p then some (deletedDirParent pAttr now)
      else if AttrDeleted s e i then none
      else attrAt s i := by
  have hi : (deletedDirParent pAttr now).inode = p := attrAt_inode hp (a := pAttr)
  simp only [deletedDirStore, applyWrites_cons, applyWrites_nil]
  change attrAt (putAttr _ (deletedDirParent pAttr now)) i = _
  rw [attrAt_putAttr, hi]
  by_cases hip : i = p
  · rw [if_pos hip, if_pos hip]
  rw [if_neg hip, if_neg hip, attrAt, Write.apply, lookup_restrict]
  have hold : ((Write.del ((s.restrict (inBucket e.ino)).keys ∪
      {.entry e.parentIno e.name})).apply s).lookup (.attr i) = s.lookup (.attr i) :=
    Write.lookup_apply_of_notMem (by simp [Write.keys, attr_notMem_keys_bucket]) s
  have hmem : attr i ∈ childAttrKeys (s.restrict (inBucket e.ino)) ∪ {.attr e.ino} ↔
      AttrDeleted s e i := by
    simp [attr_mem_childAttrKeys, AttrDeleted]
  simp only [hmem, hold, decide_eq_true_eq, ite_not]
  split_ifs <;> rfl

end Views

/-! ### What the call is for -/

structure RemovesSubtree (s s' : Store) (p : Ino) (e : Entry) : Prop where
  entry_gone : ∀ {q n}, Below s e.ino q ∨ q = e.parentIno ∧ n = e.name → entryAt s' q n = none
  entry_kept : ∀ {q n}, ¬Below s e.ino q → ¬(q = e.parentIno ∧ n = e.name) →
    entryAt s' q n = entryAt s q n
  attr_kept : ∀ {i}, ¬Below s e.ino i → i ≠ p → attrAt s' i = attrAt s i
  parent_kept : ¬Below s e.ino p → (attrAt s' p).isSome = (attrAt s p).isSome

def inDeleted (e : Entry) (q : Ino) (n : String) : Bool :=
  q == e.ino || q == e.parentIno && n == e.name

theorem inDeleted_iff {e : Entry} :
    inDeleted e q n = true ↔ q = e.ino ∨ q = e.parentIno ∧ n = e.name := by
  simp [inDeleted]

/-- The condition on the store before the call, for a directory entry `e` of the
parent `p`: child directories are empty, no inode in or directly below the
directory has another name, the parent loses just the one link that its count
loses, and the parent keeps a name. The last two can only fail when the directory
contains its own parent or is it. -/
structure DeleteDirKeeps (s : Store) (p : Ino) (e : Entry) : Prop where
  shallow : ∀ {c n x}, HasChild s e.ino c → entryAt s c n = some x → inDeleted e c n = true
  unshared : ∀ {q n x}, entryAt s q n = some x → inDeleted e q n = false →
    AttrDeleted s e x.ino → x.ino = p
  parent_links : (tally s fun x => (if isDirAt s p then x.parentIno == p && isDirAt s x.ino
    else x.ino == p) && inDeleted e x.parentIno x.name) = 1
  parent_named : p = rootIno ∨
    ∃ q n x, entryAt s q n = some x ∧ inDeleted e q n = false ∧ x.ino = p

theorem deleteDirKeeps_iff {p : Ino} {e : Entry} :
    DeleteDirKeeps s p e ↔
      (tally s fun x => decide (HasChild s e.ino x.parentIno) &&
        !inDeleted e x.parentIno x.name) = 0 ∧
      (tally s fun x => !inDeleted e x.parentIno x.name && decide (AttrDeleted s e x.ino) &&
        x.ino != p) = 0 ∧
      (tally s fun x => (if isDirAt s p then x.parentIno == p && isDirAt s x.ino
        else x.ino == p) && inDeleted e x.parentIno x.name) = 1 ∧
      (p = rootIno ∨ 0 < tally s fun x => !inDeleted e x.parentIno x.name && x.ino == p) := by
  have hkey : ∀ {q n x}, entryAt s q n = some x → x.parentIno = q ∧ x.name = n := entryAt_key
  simp only [tally_eq_zero, tally_pos]
  constructor
  · rintro ⟨h1, h2, h3, h4⟩
    refine ⟨fun q n x hx => ?_, fun q n x hx => ?_, h3, h4.imp_right ?_⟩
    · obtain ⟨rfl, rfl⟩ := hkey hx
      by_cases hc : HasChild s e.ino x.parentIno
      · simp [h1 hc hx]
      · simp [hc]
    · obtain ⟨rfl, rfl⟩ := hkey hx
      by_contra hc
      simp only [not_eq_false, and_eq_true, not_eq_true', decide_eq_true_eq,
        bne_iff_ne] at hc
      exact hc.2 (h2 hx hc.1.1 hc.1.2)
    · rintro ⟨q, n, x, hx, hk, hxp⟩
      obtain ⟨rfl, rfl⟩ := hkey hx
      exact ⟨_, _, x, hx, by simp [hk, hxp]⟩
  · rintro ⟨h1, h2, h3, h4⟩
    refine ⟨fun {c n x} hc hx => ?_, fun {q n x} hx hk hdel => ?_, h3, h4.imp_right ?_⟩
    · have h := h1 c n x hx
      rw [(hkey hx).1, (hkey hx).2] at h
      simpa [hc] using h
    · have h := h2 q n x hx
      rw [(hkey hx).1, (hkey hx).2] at h
      simpa [hk, hdel] using h
    · rintro ⟨q, n, x, hx, hc⟩
      rw [(hkey hx).1, (hkey hx).2] at hc
      simp only [and_eq_true, not_eq_true', beq_iff_eq] at hc
      exact ⟨q, n, x, hx, hc.1, hc.2⟩

instance (s : Store) (p : Ino) (e : Entry) : Decidable (DeleteDirKeeps s p e) :=
  decidable_of_iff _ deleteDirKeeps_iff.symm

section Keeps

variable {s : Store} {e : Entry} {pAttr : Attr} {now : Time} {p : Ino}

theorem entryAt_deletedDirStore_keep (q : Ino) (n : String) :
    entryAt (deletedDirStore s e pAttr now) q n =
      if !inDeleted e q n then entryAt s q n else none := by
  rw [entryAt_deletedDirStore]
  simp only [← inDeleted_iff]
  cases inDeleted e q n <;> rfl

theorem entryAt_deletedDirStore_some {x : Entry} :
    entryAt (deletedDirStore s e pAttr now) q n = some x ↔
      entryAt s q n = some x ∧ inDeleted e q n = false := by
  rw [entryAt_deletedDirStore_keep]
  cases inDeleted e q n <;> simp

theorem attrDeleted_of_inDeleted {x : Entry} (he : entryAt s e.parentIno e.name = some e)
    (hx : entryAt s q n = some x) (hd : inDeleted e q n = true) : AttrDeleted s e x.ino := by
  rcases inDeleted_iff.mp hd with rfl | ⟨rfl, rfl⟩
  · exact .inr ⟨n, x, hx, rfl⟩
  rw [he] at hx
  cases hx
  exact .inl rfl

theorem below_iff (h : ∀ {c n x}, HasChild s e.ino c → entryAt s c n = some x →
      inDeleted e c n = true) (he : entryAt s e.parentIno e.name = some e) (i : Ino) :
    Below s e.ino i ↔ AttrDeleted s e i := by
  constructor
  · intro hb
    induction hb with
    | refl => exact .inl rfl
    | tail _ hstep ih =>
      obtain ⟨n, x, hx, rfl⟩ := hstep
      rcases ih with rfl | hc
      · exact .inr ⟨n, x, hx, rfl⟩
      · exact attrDeleted_of_inDeleted he hx (h hc hx)
  · rintro (rfl | hc)
    · exact .refl
    · exact .single hc

theorem removesSubtree_iff (hp : attrAt s p = some pAttr)
    (he : entryAt s e.parentIno e.name = some e) :
    RemovesSubtree s (deletedDirStore s e pAttr now) p e ↔
      ∀ c n x, HasChild s e.ino c → entryAt s c n = some x → inDeleted e c n = true := by
  constructor
  · intro h c n x hc hx
    have hg := h.entry_gone (n := n) (.inl (.single hc))
    rw [entryAt_deletedDirStore_keep, hx] at hg
    simpa using hg
  · intro h
    have hb := below_iff (fun {c n x} => h c n x) he
    refine ⟨?_, ?_, ?_, ?_⟩
    · intro q n hq
      rw [entryAt_deletedDirStore_keep]
      rcases hx : entryAt s q n with _ | x
      · simp
      have hdel : inDeleted e q n = true := by
        rcases hq with hq | hq
        · rcases (hb q).mp hq with rfl | hc
          · simp [inDeleted]
          · exact h q n x hc hx
        · exact inDeleted_iff.mpr (.inr hq)
      simp [hdel]
    · intro q n hq hk
      rw [entryAt_deletedDirStore, if_neg]
      rintro (rfl | hc)
      · exact hq .refl
      · exact hk hc
    · intro i hi hip
      rw [hb] at hi
      rw [attrAt_deletedDirStore hp, if_neg hip, if_neg hi]
    · intro _
      rw [attrAt_deletedDirStore hp, if_pos rfl, hp]
      rfl

theorem isDirAt_deletedDirStore (hp : attrAt s p = some pAttr) (hi : AttrDeleted s e i → i = p) :
    isDirAt (deletedDirStore s e pAttr now) i = isDirAt s i := by
  rw [isDirAt, attrAt_deletedDirStore hp]
  split_ifs with hip hdel
  · subst hip
    simp [isDirAt, hp, deletedDirParent]
  · exact absurd (hi hdel) hip
  · rfl

theorem tally_eq_deletedDirStore_add (s : Store) (e : Entry) (pAttr : Attr) (now : Time)
    (q : Entry → Bool) :
    tally s q = (tally s fun x => q x && inDeleted e x.parentIno x.name) +
      tally (deletedDirStore s e pAttr now) q := by
  rw [tally_of_keep entryAt_deletedDirStore_keep, ← tally_eq_add]

theorem links_deletedDirStore (he : entryAt s e.parentIno e.name = some e)
    (hi : ¬AttrDeleted s e i) : links (deletedDirStore s e pAttr now) i = links s i := by
  have hz : (tally s fun x => x.ino == i && inDeleted e x.parentIno x.name) = 0 := by
    rw [tally_eq_zero]
    intro q n x hx
    by_contra hc
    simp only [not_eq_false, and_eq_true, beq_iff_eq, (entryAt_key hx).1,
      (entryAt_key hx).2] at hc
    exact hi (hc.1 ▸ attrDeleted_of_inDeleted he hx hc.2)
  rw [links, links, tally_eq_deletedDirStore_add s e pAttr now, hz,
    Nat.zero_add]

section

variable (now) (hp : attrAt s p = some pAttr)
  (hu : ∀ {q n x}, entryAt s q n = some x → inDeleted e q n = false → AttrDeleted s e x.ino →
    x.ino = p)
include hp hu

theorem subdirs_deletedDirStore (i : Ino) :
    (tally s fun x => x.parentIno == i && isDirAt s x.ino && inDeleted e x.parentIno x.name) +
      subdirs (deletedDirStore s e pAttr now) i = subdirs s i := by
  have hdir : ∀ q n x, entryAt (deletedDirStore s e pAttr now) q n = some x →
      isDirAt s x.ino = isDirAt (deletedDirStore s e pAttr now) x.ino := by
    intro q n x hx
    obtain ⟨hx, hk⟩ := entryAt_deletedDirStore_some.mp hx
    exact (isDirAt_deletedDirStore hp (hu hx hk)).symm
  rw [subdirs_eq_tally hdir, subdirs, tally_eq_deletedDirStore_add s e pAttr
    now fun x => x.parentIno == i && isDirAt s x.ino]

theorem subdirs_deletedDirStore_of_ne (hep : e.parentIno = p) (hip : i ≠ p)
    (hdel : ¬AttrDeleted s e i) :
    subdirs (deletedDirStore s e pAttr now) i = subdirs s i := by
  have hzero : (tally s fun x => x.parentIno == i && isDirAt s x.ino &&
      inDeleted e x.parentIno x.name) = 0 := by
    rw [tally_eq_zero]
    intro q n x hx
    by_contra hc
    simp only [not_eq_false, and_eq_true, beq_iff_eq, inDeleted_iff] at hc
    obtain ⟨⟨hparent, -⟩, hq | hq⟩ := hc
    · exact hdel (.inl (hparent.symm.trans hq))
    · exact hip (hparent.symm.trans (hq.1.trans hep))
  have hsplit := subdirs_deletedDirStore now hp hu i
  omega

theorem parent_nlink_iff (h : Consistent s) :
    ((pAttr.nlink - 1).toNat = if isDirAt s p then 2 + subdirs (deletedDirStore s e pAttr now) p
      else links (deletedDirStore s e pAttr now) p) ↔
    (tally s fun x => (if isDirAt s p then x.parentIno == p && isDirAt s x.ino
      else x.ino == p) && inDeleted e x.parentIno x.name) = 1 := by
  have hdir := isDirAt_of_attrAt hp
  cases hd : pAttr.isDir
  · rw [hd] at hdir
    have hn := h.file_nlink hp hd
    have hsplit := tally_eq_deletedDirStore_add s e pAttr now fun x => x.ino == p
    simp only [hdir, false_eq_true, if_false]
    rw [links] at hn ⊢
    by_cases h1 : 1 ≤ pAttr.nlink.toNat
    · have := toNat_sub_one h1
      omega
    have hz : pAttr.nlink = 0 := UInt32.toNat_inj.mp (by simpa using h1)
    have hw : (pAttr.nlink - 1).toNat = 4294967295 := by
      rw [hz]
      rfl
    omega
  · rw [hd] at hdir
    have hn := h.dir_nlink hp hd
    have hsplit := subdirs_deletedDirStore now hp hu p
    have hsub := toNat_sub_one (n := pAttr.nlink) (by omega)
    simp only [hdir, if_true]
    omega

end

theorem consistent_deletedDirStore_iff (h : Consistent s) (hp : attrAt s p = some pAttr)
    (he : entryAt s e.parentIno e.name = some e) (hep : e.parentIno = p) :
    Consistent (deletedDirStore s e pAttr now) ↔
      (∀ q n x, entryAt s q n = some x → inDeleted e q n = false →
        AttrDeleted s e x.ino → x.ino = p) ∧
      (tally s fun x => (if isDirAt s p then x.parentIno == p && isDirAt s x.ino
        else x.ino == p) && inDeleted e x.parentIno x.name) = 1 ∧
      (p = rootIno ∨ ∃ q n x, entryAt s q n = some x ∧ inDeleted e q n = false ∧ x.ino = p) := by
  have hparent : attrAt (deletedDirStore s e pAttr now) p = some (deletedDirParent pAttr now) := by
    rw [attrAt_deletedDirStore hp, if_pos rfl]
  have hpdir : (deletedDirParent pAttr now).isDir = isDirAt s p := by
    rw [isDirAt_of_attrAt hp]
    rfl
  constructor
  · intro h'
    have hu : ∀ q n x, entryAt s q n = some x → inDeleted e q n = false →
        AttrDeleted s e x.ino → x.ino = p := by
      intro q n x hx hk hdel
      obtain ⟨a, ha⟩ := h'.entry_attr (entryAt_deletedDirStore_some.mpr ⟨hx, hk⟩)
      rw [attrAt_deletedDirStore hp, if_pos hdel] at ha
      by_contra hne
      rw [if_neg hne] at ha
      cases ha
    refine ⟨hu, (parent_nlink_iff now hp (fun {q n x} => hu q n x) h).mp ?_, ?_⟩
    · cases hd : isDirAt s p
      · exact h'.file_nlink hparent (hpdir.trans hd)
      · exact h'.dir_nlink hparent (hpdir.trans hd)
    · by_cases hr : p = rootIno
      · exact .inl hr
      obtain ⟨q, n, x, hx, hxp⟩ := links_pos.mp (h'.attr_entry hparent hr)
      obtain ⟨hx, hk⟩ := entryAt_deletedDirStore_some.mp hx
      exact .inr ⟨q, n, x, hx, hk, hxp⟩
  · rintro ⟨hu, hl, hr⟩
    have hnlink := (parent_nlink_iff now hp (fun {q n x} => hu q n x) h).mpr hl
    -- Attributes other than the parent's are those of inodes that lost nothing.
    have hother : ∀ {i a}, attrAt (deletedDirStore s e pAttr now) i = some a → i ≠ p →
        ¬AttrDeleted s e i ∧ attrAt s i = some a := by
      intro i a ha hip
      rw [attrAt_deletedDirStore hp, if_neg hip] at ha
      split_ifs at ha with hdel
      exact ⟨hdel, ha⟩
    refine ⟨?_, ?_, ?_, ?_⟩
    · intro q n x hx
      obtain ⟨hx, hk⟩ := entryAt_deletedDirStore_some.mp hx
      by_cases hdel : AttrDeleted s e x.ino
      · exact ⟨_, hu q n x hx hk hdel ▸ hparent⟩
      obtain ⟨a, ha⟩ := h.entry_attr hx
      rw [attrAt_deletedDirStore hp, if_neg hdel]
      split_ifs
      exacts [⟨_, rfl⟩, ⟨a, ha⟩]
    · intro i a ha hd
      by_cases hip : i = p
      · subst hip
        cases hparent.symm.trans ha
        rw [← hpdir, hd] at hnlink
        exact hnlink
      · obtain ⟨hdel, ha⟩ := hother ha hip
        rw [links_deletedDirStore he hdel, h.file_nlink ha hd]
    · intro i a ha hd
      by_cases hip : i = p
      · subst hip
        cases hparent.symm.trans ha
        rw [← hpdir, hd] at hnlink
        exact hnlink
      obtain ⟨hdel, ha⟩ := hother ha hip
      rw [h.dir_nlink ha hd,
        subdirs_deletedDirStore_of_ne now hp (fun {q n x} => hu q n x) hep hip hdel]
    · intro i a ha hne
      by_cases hip : i = p
      · subst hip
        obtain ⟨q, n, x, hx, hk, hxp⟩ := hr.resolve_left hne
        exact links_pos.mpr ⟨q, n, x, entryAt_deletedDirStore_some.mpr ⟨hx, hk⟩, hxp⟩
      obtain ⟨hdel, ha⟩ := hother ha hip
      rw [links_deletedDirStore he hdel]
      exact h.attr_entry ha hne

end Keeps

/-- A successful call for a directory removes just the subtree and keeps the
namespace consistent exactly under `DeleteDirKeeps`. A name that is not a
directory is refused exactly when the parent is missing, the name is empty, or
there is no entry or one of a regular file: symlinks and devices are deleted. -/
theorem deleteDirInode_removes_subtree_iff (s : Store) (req : DeleteDirInodeReq) (now : Time) :
    (∀ (s' : Store) (e : Entry), Consistent s →
      entryAt s req.parentIno (trimSuffix req.name) = some e → isDirAt s e.ino = true →
      (deleteDirInode req now).run s = (.ok (), s') →
      (RemovesSubtree s s' req.parentIno e ∧ Consistent s' ↔
        DeleteDirKeeps s req.parentIno e)) ∧
    ((∀ e, entryAt s req.parentIno (trimSuffix req.name) = some e →
        isDirAt s e.ino = false) →
      ((∃ err, (deleteDirInode req now).run s = (.error err, s)) ↔
        attrAt s req.parentIno = none ∨ req.name = "" ∨
          ∀ e, entryAt s req.parentIno (trimSuffix req.name) = some e → e.isFile = true)) := by
  constructor
  · intro s' e h he _ hrun
    rcases deleteDirInode_cases req now s with ⟨⟨err, herr⟩, -⟩ | ⟨pAttr, e', hp, -, he', -, hok⟩
    · rw [hrun] at herr
      cases herr
    cases he.symm.trans he'
    cases hrun.symm.trans hok
    obtain ⟨hep, hen⟩ := entryAt_key he
    have hself : entryAt s e.parentIno e.name = some e := by rw [hep, hen, he]
    rw [removesSubtree_iff hp hself, consistent_deletedDirStore_iff h hp hself hep]
    constructor
    · rintro ⟨h1, h2, h3, h4⟩
      exact ⟨fun {c n x} => h1 c n x, fun {q n x} => h2 q n x, h3, h4⟩
    · rintro ⟨h1, h2, h3, h4⟩
      exact ⟨fun c n x => h1, fun q n x => h2, h3, h4⟩
  · intro _
    rcases deleteDirInode_cases req now s with ⟨herr, hwhy⟩ | ⟨pAttr, e, hp, hn, he, hf, hok⟩
    · refine iff_of_true herr ?_
      rcases hwhy with h | h | h | ⟨e, he, hf⟩
      · exact .inl h
      · exact .inr (.inl h)
      · exact .inr (.inr (by simp [h]))
      · refine .inr (.inr fun e' he' => ?_)
        cases he.symm.trans he'
        exact hf
    · refine iff_of_false ?_ ?_
      · rintro ⟨err, herr⟩
        rw [hok] at herr
        cases herr
      · rintro (h | h | h)
        · rw [hp] at h
          cases h
        · exact hn h
        · rw [h e he] at hf
          cases hf

def deleteDirAfter (calls : List NsCall) (n : String) (recursively : Bool) :
    Except Err Unit × Store :=
  (deleteDirInode ⟨1, n, recursively⟩ ⟨9, 0⟩).run (storeAfter calls)

def fileInDir : List NsCall :=
  dirAndFile ++ [.createInode ⟨2, "g", some (.ofMode 0o644)⟩ 4 ⟨3, 0⟩]

theorem deleteDirInode_removes_subtree_sample :
    DeleteDirKeeps (storeAfter fileInDir) 1 ⟨1, "d", 2, modeDir ||| 0o755⟩ ∧
    (RemovesSubtree (storeAfter fileInDir) (deleteDirAfter fileInDir "d" true).2 1
        ⟨1, "d", 2, modeDir ||| 0o755⟩ ∧
      Consistent (deleteDirAfter fileInDir "d" true).2) ∧
    ((∃ err, deleteDirAfter fileInDir "f" true = (.error err, storeAfter fileInDir)) ↔
      attrAt (storeAfter fileInDir) 1 = none ∨ "f" = "" ∨
        ∀ e, entryAt (storeAfter fileInDir) 1 (trimSuffix "f") = some e → e.isFile = true) := by
  have hc : Consistent (storeAfter fileInDir) := consistent_storeAfter (by decide)
  have hk : DeleteDirKeeps (storeAfter fileInDir) 1 ⟨1, "d", 2, modeDir ||| 0o755⟩ := by decide
  have hf : entryAt (storeAfter fileInDir) 1 (trimSuffix "f") = some ⟨1, "f", 3, 0o644⟩ := by
    decide
  refine ⟨hk, ((deleteDirInode_removes_subtree_iff _ ⟨1, "d", true⟩ ⟨9, 0⟩).1 _ _ hc (by decide)
    (by decide) (by decide)).mpr hk,
    (deleteDirInode_removes_subtree_iff _ ⟨1, "f", true⟩ ⟨9, 0⟩).2 ?_⟩
  intro e he
  cases hf.symm.trans he
  decide

def dirInDir : List NsCall :=
  dirAndFile ++ [.createInode ⟨2, "e", some (.ofMode (modeDir ||| 0o755))⟩ 4 ⟨3, 0⟩,
    .createInode ⟨4, "g", some (.ofMode 0o644)⟩ 5 ⟨4, 0⟩]

def linkedOutside : List NsCall := fileInDir ++ [.link ⟨4, 1, "h"⟩ ⟨4, 0⟩]

def symlinkInRoot : List NsCall :=
  dirAndFile ++ [.createInode ⟨1, "l", some (.ofMode (modeSymlink ||| 0o777))⟩ 4 ⟨3, 0⟩]

/-- With a directory inside the directory, the file in it stays behind, below an
inode that is gone. With a second name of the file outside, that name dangles. A
symlink is deleted instead of being refused, at the cost of a link of its parent. -/
theorem deleteDirInode_breaks :
    (Consistent (storeAfter dirInDir) ∧ (deleteDirAfter dirInDir "d" true).1 = .ok () ∧
      ¬RemovesSubtree (storeAfter dirInDir) (deleteDirAfter dirInDir "d" true).2 1
        ⟨1, "d", 2, modeDir ||| 0o755⟩) ∧
    (Consistent (storeAfter linkedOutside) ∧
      (deleteDirAfter linkedOutside "d" true).1 = .ok () ∧
      ¬Consistent (deleteDirAfter linkedOutside "d" true).2) ∧
    (Consistent (storeAfter symlinkInRoot) ∧ isDirAt (storeAfter symlinkInRoot) 4 = false ∧
      (deleteDirAfter symlinkInRoot "l" true).1 = .ok () ∧
      ¬Consistent (deleteDirAfter symlinkInRoot "l" true).2) := by
  refine ⟨⟨?_, ?_, ?_⟩, ⟨?_, ?_, ?_⟩, ⟨?_, ?_, ?_, ?_⟩⟩
  · exact consistent_storeAfter (by decide)
  · decide
  · intro h
    have hbelow : Below (storeAfter dirInDir) 2 4 :=
      .single ⟨"e", ⟨2, "e", 4, modeDir ||| 0o755⟩, by decide, rfl⟩
    have hgone := h.entry_gone (n := "g") (.inl hbelow)
    exact absurd hgone (by decide)
  · exact consistent_storeAfter (by decide)
  · decide
  · intro h
    have hname : entryAt (deleteDirAfter linkedOutside "d" true).2 1 "h" =
        some ⟨1, "h", 4, 0o644⟩ := by decide
    obtain ⟨a, ha⟩ := h.entry_attr hname
    have hnone : attrAt (deleteDirAfter linkedOutside "d" true).2 4 = none := by decide
    cases hnone.symm.trans ha
  · exact consistent_storeAfter (by decide)
  · decide
  · decide
  · exact not_consistent_of_dir 1 (by decide) (by decide) (by decide)

end HugoFS.Meta
