import HugoFS.Meta.Calls

/-!
# Listing a directory and looking up its names

`ListItemUnderInode` reads the bucket of a directory, `Lookup` the key of one entry, and for the
root it answers with what `init` has kept. They agree as long as names read back as they were
written, inodes outlive their entries, and the root does not change.
-/

namespace HugoFS.Meta

open KV Finmap Runs Option MetaCall Attr Except InosNumbered

/-! ### The calls that read -/

def Attr.toPb (a : Attr) : Attr := { a with parentIno := 0, name := "" }

structure GetInodeAttrResp where
  parentIno : Ino
  name : String
  attr : Attr
deriving DecidableEq

def getInodeAttr (i : Ino) : Request GetInodeAttrResp :=
  readAttr i fun
    | none => .done (.error (.status .notFound s!"inode:{i} not exists"))
    | some a => .done (.ok ⟨a.parentIno, a.name, a.toPb⟩)

structure ServiceState extends NsState where
  root : Attr
  root_inode : root.inode = rootIno

theorem rootAttr_inode (now : Time) (uid gid : UInt32) : (rootAttr now uid gid).inode = rootIno := rfl

def newService (now : Time) (uid gid : UInt32) (s : Store) : ServiceState :=
  match h : attrAt s rootIno with
  | none =>
    ⟨⟨putAttr s (rootAttr now uid gid), ∅⟩, rootAttr now uid gid, rootAttr_inode now uid gid⟩
  | some a => ⟨⟨s, ∅⟩, a, attrAt_inode h⟩

def MetaCall.serve (c : MetaCall) (st : ServiceState) : ServiceState :=
  { st with toNsState := c.next st.toNsState }

def cannotFind (p : Ino) (name : String) : String :=
  s!"cannot find entry: \x7bparent_ino: {p}, name: {name}\x7d"

def ServiceState.lookup (st : ServiceState) (p : Ino) (itemName : String) : Request Attr :=
  if p = 0 ∨ itemName = "" then .done (.error (.status .invalidArgument "invalid request"))
  else
    let name := if p = rootIno ∧ itemName = ".." then "." else itemName
    if name = "." ∧ p = rootIno then .done (.ok st.root.toPb)
    else readEntry p name fun
      | .error .notFound => .done (.error (.status .notFound (cannotFind p name)))
      | .error .keyEqPrefix =>
        let e := StoreErr.msg .keyEqPrefix
        .done (.error (.status .internal (cannotFind p name ++ s!"; err: {e}")))
      | .ok entry => readAttr entry.ino fun
        | none => .done (.error (.status .notFound (cannotFind p name)))
        | some a => .done (.ok a.toPb)

structure ListItem where
  ino : Ino
  name : String
  mode : UInt32
  attr : Option Attr

def listItem {ρ : Type} (plus : Bool) (e : Entry) (next : ListItem → Request ρ) : Request ρ :=
  if plus then
    let i := e.ino
    readAttr i fun
      | none => .done (.error (.status .notFound s!"inode:{i} not exists"))
      | some a => next ⟨e.ino, e.name, e.mode, some a.toPb⟩
  else next ⟨e.ino, e.name, e.mode, none⟩

def listLoop (plus : Bool) : List Entry → List ListItem → Request (List ListItem)
  | [], result => .done (.ok result)
  | e :: es, result => listItem plus e fun item => listLoop plus es (result ++ [item])

def listItemUnderInode (order : Store → List Entry) (ino : Ino) (plus : Bool) :
    Request (List ListItem) :=
  .scan (inBucket ino) fun entryMap => listLoop plus (order entryMap) []

def recEntry : (k : Key) × Rec k → Option Entry
  | ⟨.attr _, _⟩ => none
  | ⟨.entry _ _, r⟩ => some r.1

def entriesOf (m : Store) : Multiset Entry := m.entries.filterMap recEntry

def IsRange (order : Store → List Entry) : Prop := ∀ m, (order m : Multiset Entry) = entriesOf m

/-! ### What the calls return -/

variable {p : Ino}

theorem mem_entriesOf {s : Store} {e : Entry} :
    e ∈ entriesOf (s.restrict (inBucket p)) ↔ entryAt s p e.name = some e := by
  rw [entriesOf, Multiset.mem_filterMap]
  constructor
  · rintro ⟨⟨k, r⟩, hx, hr⟩
    have hl := lookup_eq_some_iff.mpr hx
    rw [lookup_restrict] at hl
    rcases k with i | ⟨q, n⟩
    · cases hr
    cases hr
    split_ifs at hl with hq
    obtain rfl : q = p := by simpa [inBucket] using hq
    have hn : r.1.name = n := r.2.2
    rw [hn, entryAt, hl]
    rfl
  · intro he
    obtain ⟨r, hr, hre⟩ := map_eq_some_iff.mp he
    refine ⟨⟨.entry p e.name, r⟩, ?_, congrArg some hre⟩
    rw [← lookup_eq_some_iff, lookup_restrict, if_pos (by simp [inBucket])]
    exact hr

theorem nodup_names (s : Store) (p : Ino) :
    ((entriesOf (s.restrict (inBucket p))).map Entry.name).Nodup := by
  refine Multiset.Nodup.map_on (fun x hx y hy hxy => ?_) ?_
  · have hex := mem_entriesOf.mp hx
    rw [hxy, mem_entriesOf.mp hy] at hex
    exact (some.inj hex).symm
  · refine Multiset.Nodup.filterMap recEntry (fun x y e hx hy => ?_) (nodup_entries _)
    rcases x with ⟨i | ⟨q, n⟩, r⟩
    · cases hx
    rcases y with ⟨i | ⟨q', n'⟩, r'⟩
    · cases hy
    obtain rfl : r.1 = e := some.inj hx
    have hr : r'.1 = r.1 := some.inj hy
    obtain rfl : q' = q := by rw [← r.2.1, ← r'.2.1, hr]
    obtain rfl : n' = n := by rw [← r.2.2, ← r'.2.2, hr]
    obtain rfl : r' = r := Subtype.ext hr
    rfl

variable {st : ServiceState} {now : Time} {n : String} {req : DeleteInodeReq} {i : Ino}

section Reads

variable {s : Store}

def plusItem (s : Store) (e : Entry) : ListItem :=
  ⟨e.ino, e.name, e.mode, (attrAt s e.ino).map Attr.toPb⟩

open List

theorem run_listLoop (es : List Entry) (result items : List ListItem) :
    (listLoop true es result).run s = (.ok items, s) ↔
      (∀ e ∈ es, (attrAt s e.ino).isSome = true) ∧ items = result ++ es.map (plusItem s) := by
  induction es generalizing result with
  | nil =>
    rw [map_nil, append_nil]
    constructor
    · intro h
      cases h
      exact ⟨fun e he => (not_mem_nil he).elim, rfl⟩
    · rintro ⟨-, rfl⟩
      rfl
  | cons e es ih =>
    rw [listLoop, listItem, if_pos rfl, run_readAttr]
    rcases ha : attrAt s e.ino with _ | a
    · refine iff_of_false (by rintro ⟨⟩) ?_
      rintro ⟨h, -⟩
      have he := h e (mem_cons_self ..)
      rw [ha] at he
      cases he
    · dsimp only
      rw [ih, forall_mem_cons, ha, map_cons, plusItem, ha, append_assoc]
      simp only [isSome_some, true_and, map_some, cons_append, nil_append]

def IsRootName (p : Ino) (n : String) : Prop := p = rootIno ∧ (n = "." ∨ n = "..")

instance (p : Ino) (n : String) : Decidable (IsRootName p n) :=
  inferInstanceAs (Decidable (_ ∧ _))

theorem lookup_ok_iff {b : Attr} :
    ((st.lookup p n).run s).1 = .ok b ↔ p ≠ 0 ∧ n ≠ "" ∧
      if IsRootName p n then b = st.root.toPb
      else ∃ e a, entryAt s p (trimSuffix n) = some e ∧ attrAt s e.ino = some a ∧ b = a.toPb := by
  rw [ServiceState.lookup]
  by_cases h0 : p = 0 ∨ n = ""
  · rw [if_pos h0]
    refine iff_of_false (by rintro ⟨⟩) fun h => ?_
    exact h0.elim h.1 h.2.1
  rw [if_neg h0]
  have hpn : p ≠ 0 ∧ n ≠ "" := not_or.mp h0
  rw [← and_assoc, and_iff_right hpn]
  by_cases hroot : IsRootName p n
  · rw [if_pos hroot]
    obtain ⟨rfl, rfl | rfl⟩ := hroot
    · exact ⟨fun h => (ok.inj h).symm, fun h => h ▸ rfl⟩
    · exact ⟨fun h => (ok.inj h).symm, fun h => h ▸ rfl⟩
  rw [if_neg hroot]
  have hdots : ¬(p = rootIno ∧ n = "..") := fun h => hroot ⟨h.1, .inr h.2⟩
  have hdot : ¬(n = "." ∧ p = rootIno) := fun h => hroot ⟨h.2, .inl h.1⟩
  simp only [hdots, if_false, hdot]
  rw [run_readEntry, if_neg hpn.2]
  rcases he : entryAt s p (trimSuffix n) with _ | e
  · refine iff_of_false (by rintro ⟨⟩) ?_
    rintro ⟨e, a, he', -⟩
    cases he'
  dsimp only
  rw [run_readAttr]
  rcases ha : attrAt s e.ino with _ | a
  · refine iff_of_false (by rintro ⟨⟩) ?_
    rintro ⟨e', a, he', ha', -⟩
    cases he'
    rw [ha] at ha'
    cases ha'
  · constructor
    · intro h
      exact ⟨e, a, rfl, ha, (ok.inj h).symm⟩
    · rintro ⟨e', a', he', ha', rfl⟩
      cases he'
      rw [ha] at ha'
      cases ha'
      rfl

end Reads

/-! ### Agreement -/

def ProperName (p : Ino) (n : String) : Prop := trimSuffix n = n ∧ ¬IsRootName p n

instance (p : Ino) (n : String) : Decidable (ProperName p n) :=
  inferInstanceAs (Decidable (_ ∧ _))

structure SameNames (st : ServiceState) (p : Ino) (items : List ListItem) : Prop where
  once : (items.map ListItem.name).Nodup
  found : ∀ item ∈ items, ∃ a, item.attr = some a ∧
    ((st.lookup p item.name).run st.store).1 = .ok a
  listed : ∀ n a, ProperName p n → ((st.lookup p n).run st.store).1 = .ok a →
    ∃ item ∈ items, item.name = n ∧ item.attr = some a

def ListingAgrees (st : ServiceState) (p : Ino) : Prop :=
  ∀ order, IsRange order → ∃ items,
    (listItemUnderInode order p true).run st.store = (.ok items, st.store) ∧ SameNames st p items

def RootAgrees (st : ServiceState) : Prop :=
  ∀ n, n = "." ∨ n = ".." → ((st.lookup rootIno n).run st.store).1 =
    ((getInodeAttr rootIno).run st.store).1.map GetInodeAttrResp.attr

theorem listingAgrees_iff :
    ListingAgrees st p ↔ ∀ n e, entryAt st.store p n = some e → ∃ a,
      attrAt st.store e.ino = some a ∧ ((st.lookup p n).run st.store).1 = .ok a.toPb := by
  have hmem : ∀ {order}, IsRange order → ∀ {e},
      e ∈ order (st.store.restrict (inBucket p)) ↔ entryAt st.store p e.name = some e := by
    intro order hr e
    rw [← Multiset.mem_coe, hr, mem_entriesOf]
  constructor
  · intro h n e he
    have hr : IsRange fun m => (entriesOf m).toList := fun m => Multiset.coe_toList _
    obtain ⟨items, hrun, hsame⟩ := h _ hr
    obtain ⟨hattr, hitems⟩ := (run_listLoop _ _ _).mp hrun
    have hin : e ∈ (entriesOf (st.store.restrict (inBucket p))).toList := by
      rw [hmem hr, (entryAt_key he).2]
      exact he
    obtain ⟨a, ha⟩ := isSome_iff_exists.mp (hattr e hin)
    obtain ⟨b, hb, hl⟩ := hsame.found (plusItem st.store e) (by
      rw [hitems]
      exact List.mem_map_of_mem hin)
    rw [plusItem, ha] at hb
    cases hb
    have hname : (plusItem st.store e).name = n := (entryAt_key he).2
    rw [hname] at hl
    exact ⟨a, ha, hl⟩
  · intro h order hr
    have hattr : ∀ e ∈ order (st.store.restrict (inBucket p)),
        (attrAt st.store e.ino).isSome = true := by
      intro e he
      obtain ⟨a, ha, -⟩ := h _ _ ((hmem hr).mp he)
      rw [ha]
      rfl
    refine ⟨_, (run_listLoop _ _ _).mpr ⟨hattr, rfl⟩, ?_, ?_, ?_⟩
    · rw [List.nil_append, List.map_map]
      have hnd := nodup_names st.store p
      rw [← hr, Multiset.map_coe, Multiset.coe_nodup] at hnd
      exact hnd
    · intro item hitem
      obtain ⟨e, he, rfl⟩ := List.mem_map.mp hitem
      obtain ⟨a, ha, hl⟩ := h _ _ ((hmem hr).mp he)
      exact ⟨a.toPb, by rw [plusItem, ha]; rfl, hl⟩
    · intro n b hn hl
      obtain ⟨-, -, hfound⟩ := lookup_ok_iff.mp hl
      rw [if_neg hn.2, hn.1] at hfound
      obtain ⟨e, a, he, ha, rfl⟩ := hfound
      have hname := (entryAt_key he).2
      refine ⟨plusItem st.store e, List.mem_map_of_mem ((hmem hr).mpr ?_), hname, ?_⟩
      · rw [hname]
        exact he
      · rw [plusItem, ha]
        rfl

theorem rootAgrees_iff :
    RootAgrees st ↔ (attrAt st.store rootIno).map .toPb = some st.root.toPb := by
  have hroot : ∀ n, n = "." ∨ n = ".." →
      ((st.lookup rootIno n).run st.store).1 = .ok st.root.toPb := by
    intro n hn
    rw [lookup_ok_iff, if_pos ⟨rfl, hn⟩]
    refine ⟨by decide, ?_, rfl⟩
    rintro rfl
    exact absurd hn (by decide)
  have hget : ((getInodeAttr rootIno).run st.store).1.map GetInodeAttrResp.attr =
      .ok st.root.toPb ↔ (attrAt st.store rootIno).map .toPb = some st.root.toPb := by
    rw [getInodeAttr, run_readAttr]
    rcases attrAt st.store rootIno with _ | a
    · exact iff_of_false (by rintro ⟨⟩) (by rintro ⟨⟩)
    · exact ⟨fun h => congrArg some (ok.inj h), fun h => congrArg ok (some.inj h)⟩
  rw [← hget]
  constructor
  · intro h
    rw [← h "." (.inl rfl), hroot "." (.inl rfl)]
  · intro h n hn
    rw [h, hroot n hn]

/-! ### The conditions -/

namespace MetaCall

def NoMove : MetaCall → Prop
  | .op (.createInode _ _ _) => True
  | .op (.link _ _) => True
  | .op (.deleteInode _ _ _) => True
  | .op (.deleteDirInode _ _) => False
  | .op (.rename _ _ _) => False
  | .updateInodeAttr _ _ _ => True

def ListingGuard (s : Store) : MetaCall → Prop
  | .op (.createInode req _ _) => ProperName req.parentIno req.itemName
  | .op (.link req _) => ProperName req.newParentIno req.newName
  | .op (.deleteInode req _ _) => ∀ e ∈ entryAt s req.parentIno (trimSuffix req.name),
      (∀ a ∈ attrAt s e.ino, 1 < a.nlink) ∨ links (dropEntry s req.parentIno req.name) e.ino = 0
  | .op (.deleteDirInode _ _) => True
  | .op (.rename _ _ _) => True
  | .updateInodeAttr _ _ _ => True

def KeepsListing (s : Store) (c : MetaCall) : Prop := c.succeeds s = true → c.ListingGuard s

def RootGuard (s : Store) : MetaCall → Prop
  | .op (.createInode req _ _) => req.parentIno ≠ rootIno
  | .op (.link req now) => req.ino ≠ rootIno ∧
      (req.newParentIno = rootIno → ∀ a ∈ attrAt s rootIno, a.touch now = a)
  | .op (.deleteInode req _ _) => req.parentIno = 0 ∧ req.name = "/" ∨
      req.parentIno ≠ rootIno ∧
        ∀ e ∈ entryAt s req.parentIno (trimSuffix req.name), e.ino ≠ rootIno
  | .op (.deleteDirInode _ _) => True
  | .op (.rename _ _ _) => True
  | .updateInodeAttr c req now => req.ino = rootIno →
      ∀ a ∈ attrAt s rootIno, req.changes c a = false ∧ a.setCtime now = a

def KeepsRoot (s : Store) (c : MetaCall) : Prop := c.succeeds s = true → c.RootGuard s

instance (c : MetaCall) : Decidable c.NoMove := by
  unfold NoMove
  split <;> infer_instance

instance (s : Store) (c : MetaCall) : Decidable (c.ListingGuard s) := by
  unfold ListingGuard
  split <;> infer_instance

instance (s : Store) (c : MetaCall) : Decidable (c.RootGuard s) := by
  unfold RootGuard
  split <;> infer_instance

instance (s : Store) (c : MetaCall) : Decidable (c.KeepsListing s) :=
  inferInstanceAs (Decidable (_ → _))

instance (s : Store) (c : MetaCall) : Decidable (c.KeepsRoot s) :=
  inferInstanceAs (Decidable (_ → _))

end MetaCall

/-! ### Names -/

structure ListSound (s : Store) (used : Finset Ino) : Prop extends InosNumbered s used where
  name : ∀ {p n e}, entryAt s p n = some e → n ≠ "" ∧ ProperName p n
  parent : ∀ {p n e}, entryAt s p n = some e → p ≠ 0 ∧ e.ino ≠ p
  attrs : ∀ {p n e}, entryAt s p n = some e → ∃ a, attrAt s e.ino = some a

namespace ListSound

variable {s s' : Store} {used used' : Finset Ino}

section

variable (h : ListSound s used)
include h

theorem numbered_ne_zero (hi : i = rootIno ∨ i ∈ used) : i ≠ 0 := by
  rintro rfl
  rcases hi with hi | hi
  · exact absurd hi (by decide)
  · exact absurd (h.above 0 hi) (by decide)

omit h in
theorem target_ne_parent {pAttr target : Attr} (hp : attrAt s p = some pAttr)
    (hd : pAttr.isDir = true) (ht : attrAt s i = some target) (htd : target.isDir = false) :
    target.inode ≠ p := by
  rintro rfl
  rw [attrAt_inode ht, ht] at hp
  cases hp
  rw [hd] at htd
  cases htd

theorem entryAt_none (hz : ∀ e, entryAt s p n = some e → e.ino = 0) : entryAt s p n = none := by
  rcases he : entryAt s p n with _ | e
  · rfl
  · exact absurd (hz e he) (h.numbered_ne_zero (h.entry he))

omit h in
theorem listingAgrees (h : ListSound st.store st.used) (p : Ino) :
    ListingAgrees st p := by
  rw [listingAgrees_iff]
  intro n e he
  obtain ⟨a, ha⟩ := h.attrs he
  obtain ⟨hn, hproper⟩ := h.name he
  refine ⟨a, ha, lookup_ok_iff.mpr ⟨(h.parent he).1, hn, ?_⟩⟩
  rw [if_neg hproper.2, hproper.1]
  exact ⟨e, a, he, ha, rfl⟩

theorem add (hn : InosNumbered s' used')
    (hattr : ∀ {i a}, attrAt s i = some a → ∃ a', attrAt s' i = some a')
    (hent : ∀ {p n e}, entryAt s' p n = some e → entryAt s p n = some e ∨
      (n ≠ "" ∧ ProperName p n) ∧ (p ≠ 0 ∧ e.ino ≠ p) ∧ ∃ a, attrAt s' e.ino = some a) :
    ListSound s' used' where
  toInosNumbered := hn
  name he := by
    rcases hent he with he | ⟨hname, -⟩
    · exact h.name he
    · exact hname
  parent he := by
    rcases hent he with he | ⟨-, hparent, -⟩
    · exact h.parent he
    · exact hparent
  attrs he := by
    rcases hent he with he | ⟨-, -, hattrs⟩
    · obtain ⟨a, ha⟩ := h.attrs he
      exact hattr ha
    · exact hattrs

theorem deleted {now' : Time} {entry : Entry} {pAttr attr : Attr}
    (hp : attrAt s req.parentIno = some pAttr) (ha : attrAt s entry.ino = some attr)
    (hn : InosNumbered (deletedStore s req now now' pAttr attr) used')
    (hguard : 1 < attr.nlink ∨ links (dropEntry s req.parentIno req.name) entry.ino = 0) :
    ListSound (deletedStore s req now now' pAttr attr) used' := by
  have hent : ∀ {q m x}, entryAt (deletedStore s req now now' pAttr attr) q m = some x →
      entryAt s q m = some x ∧ entryAt (dropEntry s req.parentIno req.name) q m = some x := by
    intro q m x hx
    rw [entryAt_deletedStore] at hx
    rw [entryAt_dropEntry]
    split_ifs at hx ⊢
    exact ⟨hx, hx⟩
  refine ⟨hn, fun hx => h.name (hent hx).1, fun hx => h.parent (hent hx).1, fun {q m x} hx => ?_⟩
  rw [attrAt_deletedStore hp ha]
  split_ifs with hpi hei hlt
  · exact ⟨_, rfl⟩
  · exact ⟨_, rfl⟩
  · -- the inode is gone, so nothing points to it
    have hpos : 0 < links (dropEntry s req.parentIno req.name) entry.ino :=
      links_pos.mpr ⟨q, m, x, (hent hx).2, hei⟩
    rcases hguard with hlt' | hzero
    · exact absurd hlt' hlt
    · rw [hzero] at hpos
      exact absurd hpos (Nat.lt_irrefl 0)
  · exact h.attrs (hent hx).1

theorem created {req : CreateInodeReq} {m : ModifyAttr} {ino : Ino}
    {pAttr : Attr} (hp : attrAt s req.parentIno = some pAttr)
    (hn : InosNumbered (createdStore s req m ino now pAttr) used') (hino : ino ≠ req.parentIno)
    (hname : req.itemName ≠ "") (hguard : ProperName req.parentIno req.itemName) :
    ListSound (createdStore s req m ino now pAttr) used' := by
  refine h.add hn (fun {i a} ha => ?_) fun {p n e} he => ?_
  · rw [attrAt_createdStore hp]
    split_ifs
    · exact ⟨_, rfl⟩
    · exact ⟨_, rfl⟩
    · exact ⟨a, ha⟩
  · rw [entryAt_createdStore] at he
    split_ifs at he with hk
    · cases he
      obtain ⟨rfl, rfl⟩ := hk
      refine .inr ⟨⟨hname, hguard⟩, ⟨h.numbered_ne_zero (h.attr hp), hino⟩, ?_⟩
      rw [attrAt_createdStore hp, if_pos rfl]
      exact ⟨_, rfl⟩
    · exact .inl he

theorem linked {req : LinkReq} {pAttr target : Attr}
    (hp : attrAt s req.newParentIno = some pAttr) (ht : attrAt s req.ino = some target)
    (hn : InosNumbered (linkedStore s req now pAttr target) used')
    (htarget : target.inode ≠ req.newParentIno) (hname : req.newName ≠ "")
    (hguard : ProperName req.newParentIno req.newName) :
    ListSound (linkedStore s req now pAttr target) used' := by
  refine h.add hn (fun {i a} ha => ?_) fun {p n e} he => ?_
  · rw [attrAt_linkedStore hp ht]
    split_ifs
    · exact ⟨_, rfl⟩
    · exact ⟨_, rfl⟩
    · exact ⟨a, ha⟩
  · rw [entryAt_linkedStore] at he
    split_ifs at he with hk
    · cases he
      obtain ⟨rfl, rfl⟩ := hk
      refine .inr ⟨⟨hname, hguard⟩, ⟨h.numbered_ne_zero (h.attr hp), htarget⟩, ?_⟩
      rw [attrAt_linkedStore hp ht, if_pos (attrAt_inode ht)]
      exact ⟨_, rfl⟩
    · exact .inl he

theorem saved {r : Attr} (hn : InosNumbered (putAttr s r) used') :
    ListSound (putAttr s r) used' := by
  refine h.add hn (fun {i a} ha => ?_) fun {p n e} he => ?_
  · rw [attrAt_putAttr]
    split_ifs
    · exact ⟨r, rfl⟩
    · exact ⟨a, ha⟩
  · rw [entryAt_putAttr] at he
    exact .inl he

end

theorem next {st : NsState} {c : MetaCall} (h : ListSound st.store st.used)
    (hfresh : c.Fresh st.used) (hmove : c.NoMove) (hkeep : c.KeepsListing st.store) :
    ListSound (c.next st).store (c.next st).used := by
  have hn := numbered h.toInosNumbered hfresh
  have hsame : c.run st.store = st.store → ListSound (c.next st).store (c.next st).used := by
    intro hs
    have hs : (c.next st).store = st.store := hs
    exact h.add hn (fun ha => ⟨_, by rw [hs, ha]⟩) fun he => .inl (hs ▸ he)
  cases hok : c.succeeds st.store with
  | false => exact hsame (run_of_fails hok)
  | true =>
    have ht := took hok
    have hguard := hkeep hok
    rcases c with (⟨req, ino, now⟩ | ⟨req, now⟩ | ⟨req, now, now'⟩ | ⟨req, now⟩ | ⟨c, req, now⟩) |
      ⟨c, req, now⟩
    · obtain ⟨pAttr, m, hp, -, hname, -, hs⟩ := ht
      have hino : ino ≠ req.parentIno := fun heq =>
        not_fresh hfresh (h.attr hp) (congrArg some heq)
      rw [show (MetaCall.next _ st).store = _ from hs] at hn ⊢
      exact h.created hp hn hino hname hguard
    · obtain ⟨pAttr, target, hp, hd, htar, htd, hname, -, hs⟩ := ht
      rw [show (MetaCall.next _ st).store = _ from hs] at hn ⊢
      exact h.linked hp htar hn (target_ne_parent hp hd htar htd) hname hguard
    · rcases ht with ⟨-, hs⟩ | ⟨-, entry, pAttr, attr, he, -, hp, ha, hs⟩
      · exact hsame hs
      · rw [show (MetaCall.next _ st).store = _ from hs] at hn ⊢
        exact h.deleted hp ha hn ((hguard entry he).imp_left fun hlt => hlt attr ha)
    · exact hmove.elim
    · exact hmove.elim
    · obtain ⟨a, r, ha, hr, hs⟩ := ht
      rw [show (MetaCall.next _ st).store = _ from hs] at hn ⊢
      exact h.saved hn

end ListSound

section Names

variable {st : ServiceState} {c : MetaCall}

theorem properName_of_found {s : Store} {a : Attr} (hi : a.inode = i)
    (hroot : p = rootIno → i ≠ rootIno)
    (hnone : trimSuffix n ≠ n → entryAt s p (trimSuffix n) = none)
    (h : ((st.lookup p n).run s).1 = .ok a.toPb) : ProperName p n := by
  obtain ⟨-, -, h⟩ := lookup_ok_iff.mp h
  split_ifs at h with hr
  · have hino := congrArg inode h
    change a.inode = st.root.inode at hino
    rw [hi, st.root_inode] at hino
    exact absurd hino (hroot hr.1)
  refine ⟨?_, hr⟩
  by_contra ht
  obtain ⟨e, -, he, -⟩ := h
  rw [hnone ht] at he
  cases he

theorem keepsListing_of_agrees (hs : ListSound st.store st.used) (hfresh : c.Fresh st.used)
    (h : ∀ p, ListingAgrees (c.serve st) p) : c.KeepsListing st.store := by
  intro hok
  have ht := took hok
  have hfound : ∀ p n e, entryAt (c.run st.store) p n = some e → ∃ a,
      attrAt (c.run st.store) e.ino = some a ∧
        (((c.serve st).lookup p n).run (c.run st.store)).1 = .ok a.toPb :=
    fun p => listingAgrees_iff.mp (h p)
  rcases c with (⟨req, ino, now⟩ | ⟨req, now⟩ | ⟨req, now, now'⟩ | ⟨req, now⟩ | ⟨c, req, now⟩) |
    ⟨c, req, now⟩
  · obtain ⟨pAttr, m, hp, -, -, hz, hs'⟩ := ht
    obtain ⟨a, ha, hl⟩ := hfound req.parentIno req.itemName _ (by
      rw [hs', entryAt_createdStore, if_pos ⟨rfl, rfl⟩])
    refine properName_of_found (attrAt_inode ha) (fun _ heq => ?_) (fun htrim => ?_) hl
    · exact not_fresh hfresh (.inl heq) rfl
    · rw [hs', entryAt_createdStore, if_neg fun hk => htrim hk.2]
      exact hs.entryAt_none hz
  · obtain ⟨pAttr, target, hp, hd, htar, htd, -, hz, hs'⟩ := ht
    obtain ⟨a, ha, hl⟩ := hfound req.newParentIno req.newName _ (by
      rw [hs', entryAt_linkedStore, if_pos ⟨rfl, rfl⟩])
    refine properName_of_found (attrAt_inode ha) (fun hroot heq => ?_) (fun htrim => ?_) hl
    · exact ListSound.target_ne_parent hp hd htar htd (heq.trans hroot.symm)
    · rw [hs', entryAt_linkedStore, if_neg fun hk => htrim hk.2]
      exact hs.entryAt_none hz
  · intro e he
    rcases ht with ⟨hp0, -⟩ | ⟨-, entry, pAttr, attr, he', -, hp, ha, hs'⟩
    · exact absurd hp0.1 (hs.parent he).1
    obtain rfl : entry = e := some.inj (he'.symm.trans he)
    by_contra hno
    obtain ⟨hlt, hzero⟩ := not_or.mp hno
    -- another entry points to the inode, whose attributes are gone
    obtain ⟨q, m, x, hx, hxi⟩ := links_pos.mp (Nat.pos_of_ne_zero hzero)
    obtain ⟨a, ha', -⟩ := hfound q m x (by
      rw [hs', entryAt_deletedStore, ← entryAt_dropEntry]
      exact hx)
    rw [hs', attrAt_deletedStore hp ha, hxi, if_neg (hs.parent he).2, if_pos rfl] at ha'
    split_ifs at ha' with hnlink
    refine hlt fun b hb => ?_
    obtain rfl : attr = b := some.inj (ha.symm.trans hb)
    exact hnlink
  · trivial
  · trivial
  · trivial

end Names

/-! ### The root -/

section Root

variable {st : ServiceState} {c : MetaCall}

theorem Attr.toPb_field {α : Type} {a b : Attr} (f : Attr → α) (hf : ∀ x : Attr, f x.toPb = f x)
    (h : a.toPb = b.toPb) : f a = f b := by
  rw [← hf a, h, hf b]

theorem Attr.eq_of_toPb {a b : Attr} (h : a.toPb = b.toPb) (hp : a.parentIno = b.parentIno)
    (hn : a.name = b.name) : a = b := by
  have hb : ∀ x : Attr, { x.toPb with parentIno := x.parentIno, name := x.name } = x := fun _ => rfl
  rw [← hb a, ← hb b, h, hp, hn]

def RootExact (root : Attr) (s' : Store) (G : Prop) : Prop :=
  ((attrAt s' rootIno).map Attr.toPb = some root.toPb → G) ∧ (G → attrAt s' rootIno = some root)

section Steps

variable {s s' : Store} {root : Attr}

theorem epoch_of_toPb {x : Attr} (h : (some x).map .toPb = some root.toPb) :
    x.epoch = root.epoch :=
  toPb_field epoch (fun _ => rfl) (some.inj h)

theorem nlink_of_toPb {x : Attr} (h : (some x).map .toPb = some root.toPb) :
    x.nlink = root.nlink :=
  toPb_field nlink (fun _ => rfl) (some.inj h)

section

variable (hroot : attrAt s rootIno = some root)
include hroot

theorem rootExact_create {req : CreateInodeReq} {ino : Ino} (hfresh : ino ≠ rootIno)
    (ht : Took s s' (.op (.createInode req ino now))) :
    RootExact root s' (RootGuard s (.op (.createInode req ino now))) := by
  obtain ⟨pAttr, m, hp, -, -, -, rfl⟩ := ht
  rw [RootExact, attrAt_createdStore hp, if_neg hfresh.symm]
  refine ⟨fun h heq => ?_, fun hne => ?_⟩
  · rw [heq, hroot] at hp
    cases hp
    rw [if_pos heq.symm] at h
    have he := epoch_of_toPb h
    rw [newInode_parent_epoch] at he
    exact word_succ_ne _ he
  · rw [if_neg (Ne.symm hne), hroot]

theorem rootExact_link {req : LinkReq} (ht : Took s s' (.op (.link req now))) :
    RootExact root s' (RootGuard s (.op (.link req now))) := by
  obtain ⟨pAttr, target, hp, hd, htar, htd, -, -, rfl⟩ := ht
  rw [RootExact, attrAt_linkedStore hp htar]
  refine ⟨fun h => ?_, fun hg => ?_⟩
  · by_cases hi : rootIno = req.ino
    · rw [if_pos hi] at h
      rw [← hi, hroot] at htar
      cases htar
      exact absurd (nlink_of_toPb h) (word_succ_ne _)
    rw [if_neg hi] at h
    refine ⟨Ne.symm hi, fun hpi a ha => ?_⟩
    rw [if_pos hpi.symm] at h
    rw [hpi, hroot] at hp
    cases hp
    obtain rfl : root = a := some.inj (hroot.symm.trans ha)
    exact eq_of_toPb (some.inj h) rfl rfl
  · rw [if_neg (Ne.symm hg.1)]
    split_ifs with hpi
    · have htouch := hg.2 hpi.symm root hroot
      rw [← hpi, hroot] at hp
      cases hp
      rw [htouch]
    · exact hroot

theorem rootExact_delete {now' : Time} (ht : Took s s' (.op (.deleteInode req now now'))) :
    RootExact root s' (RootGuard s (.op (.deleteInode req now now'))) := by
  rcases ht with ⟨h0, rfl⟩ | ⟨h0, entry, pAttr, attr, he, -, hp, ha, rfl⟩
  · exact ⟨fun _ => .inl h0, fun _ => hroot⟩
  rw [RootExact, attrAt_deletedStore hp ha]
  refine ⟨fun h => .inr ?_, fun hg => ?_⟩
  · by_cases hpi : rootIno = req.parentIno
    · rw [if_pos hpi] at h
      rw [← hpi, hroot] at hp
      cases hp
      exact absurd (epoch_of_toPb h) (word_succ_ne _)
    rw [if_neg hpi] at h
    refine ⟨Ne.symm hpi, fun e he' heq => ?_⟩
    obtain rfl : entry = e := some.inj (he.symm.trans he')
    rw [if_pos heq.symm] at h
    rw [heq, hroot] at ha
    cases ha
    split_ifs at h
    · exact absurd (nlink_of_toPb h) (word_pred_ne _)
    · cases h
  · rcases hg with hg | ⟨hpi, hei⟩
    · exact absurd hg h0
    · rw [if_neg (Ne.symm hpi), if_neg (Ne.symm (hei entry he)), hroot]

theorem rootExact_update {c : Caller} {req : UpdateInodeAttrReq}
    (ht : Took s s' (.updateInodeAttr c req now)) :
    RootExact root s' (RootGuard s (.updateInodeAttr c req now)) := by
  obtain ⟨a, r, ha, hr, rfl⟩ := ht
  have hi : r.inode = req.ino := (updateAttr_inode hr).trans (attrAt_inode ha)
  have hu := updateAttr_updated hr
  rw [RootExact, attrAt_putAttr, hi]
  refine ⟨fun h heq b hb => ?_, fun hg => ?_⟩
  · rw [if_pos heq.symm] at h
    rw [heq, hroot] at ha
    cases ha
    obtain rfl : root = b := some.inj (hroot.symm.trans hb)
    have he := epoch_of_toPb h
    rw [hu.epoch] at he
    cases hch : req.changes c root with
    | true =>
      rw [hch, if_pos rfl] at he
      exact absurd he (word_succ_ne _)
    | false =>
      rw [hu.same hch] at h
      exact ⟨rfl, eq_of_toPb (some.inj h) rfl rfl⟩
  · split_ifs with heq
    · rw [← heq, hroot] at ha
      cases ha
      obtain ⟨hch, htime⟩ := hg heq.symm root hroot
      rw [hu.same hch, htime]
    · exact hroot

theorem MetaCall.rootGuard_iff
    (hfresh : c.newIno ≠ some rootIno) (hmove : c.NoMove) (ht : Took s s' c) :
    RootExact root s' (c.RootGuard s) := by
  rcases c with (⟨req, ino, now⟩ | ⟨req, now⟩ | ⟨req, now, now'⟩ | ⟨req, now⟩ | ⟨c, req, now⟩) |
    ⟨c, req, now⟩
  · exact rootExact_create hroot (fun hi => hfresh (congrArg some hi)) ht
  · exact rootExact_link hroot ht
  · exact rootExact_delete hroot ht
  · exact hmove.elim
  · exact hmove.elim
  · exact rootExact_update hroot ht

end

end Steps

theorem rootAgrees_serve (hroot : attrAt st.store rootIno = some st.root)
    (hfresh : c.Fresh st.used) (hmove : c.NoMove) :
    (RootAgrees (c.serve st) → c.KeepsRoot st.store) ∧
      (c.KeepsRoot st.store → attrAt (c.serve st).store rootIno = some (c.serve st).root) := by
  have hnew : c.newIno ≠ some rootIno := not_fresh hfresh (.inl rfl)
  have hstore : (c.serve st).store = c.run st.store := rfl
  rw [hstore]
  cases hok : c.succeeds st.store with
  | false =>
    rw [run_of_fails hok]
    refine ⟨fun _ h => ?_, fun _ => hroot⟩
    rw [hok] at h
    cases h
  | true =>
    obtain ⟨hbreak, hkeep⟩ := rootGuard_iff hroot hnew hmove (took hok)
    exact ⟨fun h _ => hbreak (rootAgrees_iff.mp h), fun h => hkeep (h hok)⟩

end Root

/-! ### Runs -/

theorem attrAt_newService (now : Time) (uid gid : UInt32) (s : Store) :
    attrAt (newService now uid gid s).store rootIno = some (newService now uid gid s).root := by
  rw [newService]
  split
  · rw [attrAt_putAttr, if_pos (rootAttr_inode now uid gid).symm]
  · next ha => exact ha

theorem listSound_newService (now : Time) (uid gid : UInt32) :
    ListSound (newService now uid gid ∅).store (newService now uid gid ∅).used := by
  have hno : ∀ {p n e}, entryAt (initStore now uid gid) p n ≠ some e := by
    intro p n e he
    rw [initStore, entryAt_putAttr, entryAt_empty] at he
    cases he
  exact ⟨inosNumbered_initStore now uid gid, fun he => (hno he).elim, fun he => (hno he).elim,
    fun he => (hno he).elim⟩

/-- A service on an empty store lists every directory as it looks it up, in every state of a
run, if and only if all names that are made are proper and no inode is deleted while another
entry points to it. A service on any store answers for the root with what is stored, in every
state, if and only if no call changes the attributes of the root. -/
theorem listing_agrees_iff (now : Time) (uid gid : UInt32) (calls : List MetaCall) :
    (Legal MetaCall.serve (fun st c => c.Fresh st.used ∧ c.NoMove) calls
        (newService now uid gid ∅) →
      (Always MetaCall.serve (fun st => ∀ p, ListingAgrees st p) calls
          (newService now uid gid ∅) ↔
        Legal MetaCall.serve (fun st c => c.KeepsListing st.store) calls
          (newService now uid gid ∅))) ∧
    ∀ s, Legal MetaCall.serve (fun st c => c.Fresh st.used ∧ c.NoMove) calls
        (newService now uid gid s) →
      (Always MetaCall.serve RootAgrees calls (newService now uid gid s) ↔
        Legal MetaCall.serve (fun st c => c.KeepsRoot st.store) calls
          (newService now uid gid s)) := by
  constructor
  · intro hdom
    refine always_iff_legal (I := fun st => ListSound st.store st.used)
      (fun _ h => h.listingAgrees) ?_ ?_ hdom (listSound_newService now uid gid)
    · intro st c h hd hk
      exact h.next hd.1 hd.2 hk
    · intro st c h hd
      exact keepsListing_of_agrees h hd.1
  · intro s hdom
    refine always_iff_legal (I := fun st => attrAt st.store rootIno = some st.root)
      ?_ ?_ ?_ hdom (attrAt_newService now uid gid s)
    · intro st h
      rw [rootAgrees_iff, h]
      rfl
    · intro st c h hd
      exact (rootAgrees_serve h hd.1 hd.2).2
    · intro st c h hd
      exact (rootAgrees_serve h hd.1 hd.2).1

def createInRoot (n : String) (ino : Ino) : MetaCall :=
  .op (.createInode ⟨1, n, some (.ofMode 0o644)⟩ ino ⟨1, 0⟩)

def relinkInRoot : List MetaCall :=
  [createInRoot "a" 2, .op (.link ⟨2, 1, "b"⟩ ⟨2, 0⟩), .op (.deleteInode ⟨1, "a"⟩ ⟨3, 0⟩ ⟨3, 0⟩)]

def linkInDir : List MetaCall :=
  [.op (.createInode ⟨2, "a", some (.ofMode 0o644)⟩ 4 ⟨3, 0⟩), .op (.link ⟨4, 2, "b"⟩ ⟨4, 0⟩)]

theorem listing_agrees_sample :
    (∀ p, ListingAgrees (exec MetaCall.serve relinkInRoot (newService ⟨0, 0⟩ 0 0 ∅)) p) ∧
      RootAgrees (exec MetaCall.serve linkInDir (newService ⟨0, 0⟩ 0 0 (storeAfter dirAndFile))) := by
  obtain ⟨-, -, -, h⟩ := ((listing_agrees_iff ⟨0, 0⟩ 0 0 relinkInRoot).1 (by decide)).mpr (by decide)
  obtain ⟨-, -, hroot⟩ := ((listing_agrees_iff ⟨0, 0⟩ 0 0 linkInDir).2 (storeAfter dirAndFile)
    (by decide)).mpr (by decide)
  exact ⟨h, hroot⟩

/-- A file in the root makes the attributes that the service keeps for the root out of date.
A name with a trailing slash is listed and not found, and a name that is kept for the root is
found with other attributes. -/
theorem listing_disagrees :
    ¬RootAgrees (exec MetaCall.serve [createInRoot "a" 2] (newService ⟨0, 0⟩ 0 0 ∅)) ∧
    (isDirAt (exec MetaCall.serve [createInRoot "a/" 2] (newService ⟨0, 0⟩ 0 0 ∅)).store 1 = true ∧
      ¬ListingAgrees (exec MetaCall.serve [createInRoot "a/" 2] (newService ⟨0, 0⟩ 0 0 ∅)) 1) ∧
    isDirAt (exec MetaCall.serve [createInRoot "." 2] (newService ⟨0, 0⟩ 0 0 ∅)).store 1 = true ∧
      ¬ListingAgrees (exec MetaCall.serve [createInRoot "." 2] (newService ⟨0, 0⟩ 0 0 ∅)) 1 := by
  refine ⟨fun h => ?_, ⟨by decide, fun h => ?_⟩, by decide, fun h => ?_⟩
  · exact absurd (rootAgrees_iff.mp h) (by decide)
  · obtain ⟨a, -, hl⟩ := listingAgrees_iff.mp h "a/" ⟨1, "a/", 2, 0o644⟩ (by decide)
    obtain ⟨-, -, e, -, he, -⟩ := lookup_ok_iff.mp hl
    have hnone : entryAt (exec MetaCall.serve [createInRoot "a/" 2]
        (newService ⟨0, 0⟩ 0 0 ∅)).store 1 (trimSuffix "a/") = none := by decide
    rw [hnone] at he
    cases he
  · obtain ⟨a, ha, hl⟩ := listingAgrees_iff.mp h "." ⟨1, ".", 2, 0o644⟩ (by decide)
    obtain ⟨-, -, hroot⟩ := lookup_ok_iff.mp hl
    have hi := Attr.toPb_field Attr.inode (fun _ => rfl) hroot
    rw [attrAt_inode ha] at hi
    exact absurd hi (by decide)

end HugoFS.Meta
