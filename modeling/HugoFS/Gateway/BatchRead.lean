import HugoFS.Gateway.Sharing
import HugoFS.Storage.ReadMany

/-!
# Reading several blocks of a file

`BatchRead` picks the asked indexes from the block map of the inode and reads blocks with the
same primary and first secondary volume in one request. The answer names blocks by their ids,
and `doRead` maps an id back to the first index of the group that has it. `Cluster.Batchable`
is when this comes to the same as one `Read` for each index.
-/

namespace HugoFS.Gateway

open Finmap List Function Prod BlockMeta
open HugoFS.Meta (Ino)
open HugoFS.Storage

/-! ### The call -/

abbrev BlockIdPairs := List (ℕ × BlockID)

def BlockIdPairs.index (p : BlockIdPairs) (id : BlockID) : ℕ :=
  match p.find? fun item => item.2 = id with
  | some item => item.1
  | none => 0

def BlockMeta.groupKey (m : BlockMeta) : Option (ℕ × ℕ) :=
  m.secondaryVolumeIds.head?.map fun vol => (m.primaryVolumeId, vol)

def pairsOf (list : List (ℕ × BlockMeta)) : BlockIdPairs :=
  list.map fun item => (item.2.blockIndexInFile, item.2.blockId)

structure ReadTry where
  choice : ℕ → ReadChoice
  sched : ReadSchedule

structure GroupChoice where
  shuffle : Shuffle
  inPlace : Bool
  first : ReadTry
  second : ReadTry

structure BatchOrder where
  entries : List (ℕ × BlockMeta)
  keys : List (ℕ × ℕ)
  choice : ℕ × ℕ → GroupChoice

namespace BatchOrder

def group (o : BatchOrder) (k : ℕ × ℕ) : List (ℕ × BlockMeta) :=
  o.entries.filter fun e => e.2.groupKey = some k

def groups (o : BatchOrder) : List (List (ℕ × BlockMeta) × GroupChoice) :=
  o.keys.map fun k => (o.group k, o.choice k)

structure Walks (o : BatchOrder) (picked : InoBlockMap) : Prop where
  once : (o.entries.map Prod.fst).Nodup
  entries : ∀ i m, (i, m) ∈ o.entries ↔ picked.lookup i = some m
  keysOnce : o.keys.Nodup
  keys : ∀ k, k ∈ o.keys ↔ ∃ e ∈ o.entries, e.2.groupKey = some k
  kept : ∀ k, (o.choice k).first.sched.Keeps (o.group k).length ∧
    (o.choice k).second.sched.Keeps (o.group k).length

end BatchOrder

namespace Cluster

variable {ν : Type} [DecidableEq ν]

def doReadMany (getNode : ℕ → Option ν) (cl : Cluster ν) (vol : ℕ) (pairs : BlockIdPairs)
    (t : ReadTry) : Option (Except ReadError (Finmap fun _ : ℕ => Bytes)) × Cluster ν :=
  match getNode vol with
  | none => (some (.error .noSuchVolume), cl)
  | some x =>
    let r := (cl.nodes x).readMany (pairs.map Prod.snd) t.choice t.sched
    (r.1.map fun
      | .error e => .error (.node e)
      | .ok blocks =>
        .ok (blocks.foldl (fun m blk => m.insert (BlockIdPairs.index pairs blk.id) blk.data) ∅),
      cl.setNode x r.2)

def doReadEither (getNode : ℕ → Option ν) (cl : Cluster ν) (vol₀ vol₁ : ℕ) (pairs : BlockIdPairs)
    (ch : GroupChoice) : Option (Except ReadError (Finmap fun _ : ℕ => Bytes)) × Cluster ν :=
  let r₀ := cl.doReadMany getNode vol₀ pairs ch.first
  match r₀.1 with
  | some (.error _) => r₀.2.doReadMany getNode vol₁ pairs ch.second
  | _ => r₀

def readGroup (getNode : ℕ → Option ν) (cl : Cluster ν) (ino : Ino) (list : List (ℕ × BlockMeta))
    (ch : GroupChoice) : Option (Except ReadError (Finmap fun _ : ℕ => Bytes)) × Cluster ν :=
  match list with
  | [] => (some (.error .outOfRange), cl)
  | (i, m) :: _ =>
    let volIds := ch.shuffle.apply m.volumes
    let m' := if ch.inPlace then
        { m with secondaryVolumeIds := volIds.take m.secondaryVolumeIds.length }
      else m
    let cl' := { cl with
      blockMetaCache :=
        cl.blockMetaCache.insert ino ((cl.ensureBlockMetaCached ino).insert i m') }
    match volIds with
    | vol₀ :: vol₁ :: _ => cl'.doReadEither getNode vol₀ vol₁ (pairsOf list) ch
    | _ => (some (.error .outOfRange), cl')

def readGroups (getNode : ℕ → Option ν) (ino : Ino) :
    List (List (ℕ × BlockMeta) × GroupChoice) → Cluster ν → (Finmap fun _ : ℕ => Bytes) →
      Option (Except ReadError (Finmap fun _ : ℕ => Bytes)) × Cluster ν
  | [], cl, r => (some (.ok r), cl)
  | (list, ch) :: groups, cl, r =>
    let o := cl.readGroup getNode ino list ch
    match o.1 with
    | some (.ok m) => readGroups getNode ino groups o.2 (m ∪ r)
    | some (.error e) => (some (.error e), o.2)
    | none => (none, o.2)

def picked (cl : Cluster ν) (ino : Ino) (idxs : List ℕ) : InoBlockMap :=
  (cl.ensureBlockMetaCached ino).restrict fun i => i ∈ idxs

def batchRead (getNode : ℕ → Option ν) (cl : Cluster ν) (ino : Ino) (idxs : List ℕ)
    (o : BatchOrder) : Option (Except ReadError (Finmap fun _ : ℕ => Bytes)) × Cluster ν :=
  let cl' := { cl with
    blockMetaCache := cl.blockMetaCache.insert ino (cl.ensureBlockMetaCached ino) }
  if cl.picked ino idxs = ∅ then (some (.ok ∅), cl')
  else if o.entries.any fun e => e.2.groupKey.isNone then (some (.error .outOfRange), cl')
  else readGroups getNode ino o.groups cl' ∅

end Cluster

/-! ### When it agrees with `Read` -/

section Condition

variable {ν : Type} [DecidableEq ν] (getNode : ℕ → Option ν) (cl : Cluster ν)

def Cluster.Holds (vol : ℕ) (b : BlockID) : Prop :=
  ∃ x, getNode vol = some x ∧ b ∈ (cl.nodes x).blockMetas

structure Cluster.Healthy (sha256 : Bytes → BlockID) (C : Set Bytes) (ino : Ino) : Prop where
  nodes : ∀ x, (cl.nodes x).Sound sha256 C
  keyed : ∀ i m, (cl.ensureBlockMetaCached ino).lookup i = some m → m.blockIndexInFile = i
  stored : ∀ i m, (cl.ensureBlockMetaCached ino).lookup i = some m →
    ∀ vol ∈ m.volumes, cl.Holds getNode vol m.blockId

def Cluster.BatchAgrees (ino : Ino) (idxs : List ℕ) : Prop :=
  ∀ o : BatchOrder, o.Walks (cl.picked ino idxs) →
    ∃ r, (cl.batchRead getNode ino idxs o).1 = some (.ok r) ∧
      (∀ i ∈ idxs, i ∈ cl.ensureBlockMetaCached ino → ∀ s inPlace ch, ∃ d,
        (cl.read getNode (ino, i) s inPlace ch).1 = some (.ok d) ∧ r.lookup i = some d) ∧
      ∀ i, i ∉ idxs ∨ i ∉ cl.ensureBlockMetaCached ino → r.lookup i = none

structure Cluster.Batchable (picked : InoBlockMap) : Prop where
  copies : ∀ i m, picked.lookup i = some m → m.secondaryVolumeIds ≠ []
  distinct : ∀ i m j m', picked.lookup i = some m → picked.lookup j = some m' →
    m.groupKey = m'.groupKey → m.blockId = m'.blockId → i = j
  covered : ∀ i m, picked.lookup i = some m → ∀ vol₀ vol₁ rest,
    (vol₀ :: vol₁ :: rest).Perm m.volumes → ∃ vol ∈ [vol₀, vol₁],
      ∀ j m', picked.lookup j = some m' → m'.groupKey = m.groupKey →
        cl.Holds getNode vol m'.blockId

end Condition

/-! ### The answers to a request -/

variable {r : Finmap fun _ : ℕ => Bytes}

section Answers

variable {ν : Type} [DecidableEq ν] {sha256 : Bytes → BlockID} {C : Set Bytes}
  {getNode : ℕ → Option ν} {cl : Cluster ν}
variable {g : BlockIdPairs} {ch : GroupChoice} {list : List (ℕ × BlockMeta)}

structure Collects (sha256 : Bytes → BlockID) (C : Set Bytes) (groups : List BlockIdPairs)
    (r : Finmap fun _ : ℕ => Bytes) : Prop where
  found : ∀ g ∈ groups, ∀ p ∈ g, BlockIdPairs.index g p.2 ∈ r
  only : ∀ i d, r.lookup i = some d →
    ∃ g ∈ groups, ∃ p ∈ g, BlockIdPairs.index g p.2 = i ∧ Content sha256 C p.2 d

theorem Collects.nil : Collects sha256 C [] ∅ := ⟨by simp, by simp⟩

theorem Collects.of_blocks {blocks : List Block}
    (hids : (blocks.map Block.id).Perm (g.map snd))
    (hcontent : ∀ blk ∈ blocks, Content sha256 C blk.id blk.data) :
    Collects sha256 C [g]
      (blocks.foldl (fun m blk => m.insert (BlockIdPairs.index g blk.id) blk.data) ∅) where
  found := by
    intro g' hg' p hp
    obtain rfl := mem_singleton.mp hg'
    obtain ⟨blk, hblk, hid⟩ := mem_map.mp (hids.mem_iff.mpr (mem_map_of_mem hp))
    rw [← hid]
    exact mem_foldl_insert hblk
  only := by
    intro i d hi
    obtain ⟨blk, hblk, hindex, rfl⟩ := lookup_foldl_insert_eq_some hi
    obtain ⟨p, hp, hid⟩ := mem_map.mp (hids.mem_iff.mp (mem_map_of_mem hblk))
    refine ⟨g, mem_singleton_self g, p, hp, ?_⟩
    rw [hid]
    exact ⟨hindex, hcontent blk hblk⟩

theorem Collects.join {groups : List BlockIdPairs}
    {m : Finmap fun _ : ℕ => Bytes} (hg : Collects sha256 C [g] m)
    (h : Collects sha256 C groups r) : Collects sha256 C (g :: groups) (m ∪ r) where
  found := by
    intro g' hg' p hp
    rw [mem_union]
    rcases mem_cons.mp hg' with rfl | hg'
    · exact .inl (hg.found g' (mem_singleton_self g') p hp)
    · exact .inr (h.found g' hg' p hp)
  only := by
    intro i d hi
    by_cases him : i ∈ m
    · rw [lookup_union_left him] at hi
      obtain ⟨g', hg', hrest⟩ := hg.only i d hi
      obtain rfl := mem_singleton.mp hg'
      exact ⟨g', mem_cons_self, hrest⟩
    rw [lookup_union_right him] at hi
    obtain ⟨g', hg', hrest⟩ := h.only i d hi
    exact ⟨g', mem_cons_of_mem _ hg', hrest⟩

theorem BlockIdPairs.index_mem {p : ℕ × BlockID} (hp : p ∈ g) :
    (BlockIdPairs.index g p.2, p.2) ∈ g := by
  rw [BlockIdPairs.index]
  cases hfind : g.find? fun item => item.2 = p.2 with
  | none => exact absurd (find?_eq_none.mp hfind p hp) (by simp)
  | some q =>
    have hq : q.2 = p.2 := by simpa using find?_some hfind
    rw [← hq]
    exact mem_of_find?_eq_some hfind

structure Answers (sha256 : Bytes → BlockID) (C : Set Bytes) (cl : Cluster ν) (g : BlockIdPairs)
    (can : Prop) (o : Option (Except ReadError (Finmap fun _ : ℕ => Bytes)) × Cluster ν) :
    Prop where
  nodes : ∀ x, (o.2.nodes x).Sound sha256 C
  tracked : ∀ x, (o.2.nodes x).blockMetas = (cl.nodes x).blockMetas
  served : can → ∃ r, o.1 = some (.ok r) ∧ Collects sha256 C [g] r
  refused : ¬can → ∃ e, o.1 = some (.error e)

def Cluster.HoldsAll (getNode : ℕ → Option ν) (cl : Cluster ν) (vol : ℕ) (g : BlockIdPairs) : Prop :=
  ∀ p ∈ g, cl.Holds getNode vol p.2

theorem Cluster.doReadMany_answers (getNode : ℕ → Option ν)
    (hnodes : ∀ x, (cl.nodes x).Sound sha256 C) (vol : ℕ) (hg : g ≠ []) {t : ReadTry}
    (ht : t.sched.Keeps g.length) :
    Answers sha256 C cl g (cl.HoldsAll getNode vol g) (cl.doReadMany getNode vol g t) := by
  cases hx : getNode vol with
  | none =>
    have hno : ¬cl.HoldsAll getNode vol g := by
      intro hall
      obtain ⟨p, hp⟩ := exists_mem_of_ne_nil g hg
      obtain ⟨x, hx', -⟩ := hall p hp
      rw [hx] at hx'
      cases hx'
    rw [doReadMany, hx]
    exact ⟨hnodes, fun _ => rfl, fun h => absurd h hno, fun _ => ⟨_, rfl⟩⟩
  | some x =>
    have hall : cl.HoldsAll getNode vol g ↔ ∀ b ∈ g.map snd, b ∈ (cl.nodes x).blockMetas := by
      simp only [HoldsAll, Holds, hx, Option.some.injEq, exists_eq_left', forall_mem_map]
    have hlen : (g.map snd).length = g.length := length_map _
    rw [← hlen] at ht
    obtain ⟨hsound, hmetas, hserved, hrefused⟩ :=
      (hnodes x).readMany (g.map snd) t.choice ht
    rw [doReadMany, hx]
    constructor
    · exact (forall_update_iff cl.nodes fun _ n => n.Sound sha256 C).mpr
        ⟨hsound, fun y _ => hnodes y⟩
    · exact (forall_update_iff cl.nodes fun y n =>
        n.blockMetas = (cl.nodes y).blockMetas).mpr ⟨hmetas, fun _ _ => rfl⟩
    · intro hcan
      obtain ⟨blocks, hreply, hids, hcontent⟩ := hserved (hall.mp hcan)
      simp only [hreply, Option.map_some]
      exact ⟨_, rfl, .of_blocks hids hcontent⟩
    · intro hcannot
      have hex : ∃ b ∈ g.map snd, b ∉ (cl.nodes x).blockMetas := by
        simpa only [hall, not_forall, exists_prop] using hcannot
      simp only [hrefused hex, Option.map_some]
      exact ⟨_, rfl⟩

omit [DecidableEq ν] in
theorem Cluster.holdsAll_congr {cl' : Cluster ν}
    (h : ∀ x, (cl'.nodes x).blockMetas = (cl.nodes x).blockMetas) (vol : ℕ) (g : BlockIdPairs) :
    cl'.HoldsAll getNode vol g ↔ cl.HoldsAll getNode vol g := by
  simp only [HoldsAll, Holds, h]

theorem Cluster.doReadEither_answers (getNode : ℕ → Option ν) (cl : Cluster ν)
    (hnodes : ∀ x, (cl.nodes x).Sound sha256 C) (vol₀ vol₁ : ℕ) (hg : g ≠ [])
    (h₀ : ch.first.sched.Keeps g.length) (h₁ : ch.second.sched.Keeps g.length) :
    Answers sha256 C cl g (cl.HoldsAll getNode vol₀ g ∨ cl.HoldsAll getNode vol₁ g)
      (cl.doReadEither getNode vol₀ vol₁ g ch) := by
  have hfirst := doReadMany_answers getNode hnodes vol₀ hg h₀
  rw [doReadEither]
  by_cases hcan : cl.HoldsAll getNode vol₀ g
  · obtain ⟨r, hreply, hr⟩ := hfirst.served hcan
    simp only [hreply]
    exact ⟨hfirst.nodes, hfirst.tracked, fun _ => ⟨r, hreply, hr⟩,
      fun hno => absurd (.inl hcan) hno⟩
  obtain ⟨e, hreply⟩ := hfirst.refused hcan
  have hsecond := doReadMany_answers getNode hfirst.nodes vol₁ hg h₁
  rw [holdsAll_congr hfirst.tracked] at hsecond
  simp only [hreply]
  exact ⟨hsecond.nodes, fun x => (hsecond.tracked x).trans (hfirst.tracked x),
    fun hor => hsecond.served (hor.resolve_left hcan), fun hno => hsecond.refused (mt .inr hno)⟩

/-! ### The groups -/

def Cluster.CanRead (getNode : ℕ → Option ν) (cl : Cluster ν) (list : List (ℕ × BlockMeta))
    (ch : GroupChoice) : Prop :=
  ∃ e vol₀ vol₁ rest, list.head? = some e ∧ ch.shuffle.apply e.2.volumes = vol₀ :: vol₁ :: rest ∧
    (cl.HoldsAll getNode vol₀ (pairsOf list) ∨ cl.HoldsAll getNode vol₁ (pairsOf list))

structure GroupOk (list : List (ℕ × BlockMeta)) (ch : GroupChoice) : Prop where
  nonempty : list ≠ []
  copies : ∀ e ∈ list, e.2.secondaryVolumeIds ≠ []
  first : ch.first.sched.Keeps list.length
  second : ch.second.sched.Keeps list.length

theorem Cluster.readGroup_answers (getNode : ℕ → Option ν)
    (hnodes : ∀ x, (cl.nodes x).Sound sha256 C) (ino : Ino) (hok : GroupOk list ch) :
    Answers sha256 C cl (pairsOf list) (cl.CanRead getNode list ch)
      (cl.readGroup getNode ino list ch) := by
  obtain ⟨⟨i, m⟩, es, rfl⟩ := exists_cons_of_ne_nil hok.nonempty
  obtain ⟨vol₀, vol₁, rest, hvols⟩ :=
    m.apply_volumes (hok.copies (i, m) mem_cons_self) ch.shuffle
  have hcan : cl.CanRead getNode ((i, m) :: es) ch ↔
      cl.HoldsAll getNode vol₀ (pairsOf ((i, m) :: es)) ∨
        cl.HoldsAll getNode vol₁ (pairsOf ((i, m) :: es)) := by
    constructor
    · rintro ⟨e, vol₀', vol₁', rest', he, hvols', hor⟩
      cases he
      rw [hvols] at hvols'
      cases hvols'
      exact hor
    · exact fun hor => ⟨_, vol₀, vol₁, rest, rfl, hvols, hor⟩
  have hlen : (pairsOf ((i, m) :: es)).length = ((i, m) :: es).length := length_map _
  rw [hcan, readGroup]
  simp only [hvols]
  generalize cl.blockMetaCache.insert ino _ = cache
  have hans := doReadEither_answers getNode { cl with blockMetaCache := cache } hnodes vol₀ vol₁
    (cons_ne_nil _ _) (hlen ▸ hok.first) (hlen ▸ hok.second)
  exact ⟨hans.nodes, hans.tracked, hans.served, hans.refused⟩

theorem Cluster.readGroups_spec (getNode : ℕ → Option ν) (ino : Ino) (cl : Cluster ν)
    {groups : List (List (ℕ × BlockMeta) × GroupChoice)} (hok : ∀ g ∈ groups, GroupOk g.1 g.2)
    (hnodes : ∀ x, (cl.nodes x).Sound sha256 C) {done : List BlockIdPairs}
    (hr : Collects sha256 C done r) :
    ((∀ g ∈ groups, cl.CanRead getNode g.1 g.2) →
      ∃ r', (readGroups getNode ino groups cl r).1 = some (.ok r')) ∧
    ∀ r', (readGroups getNode ino groups cl r).1 = some (.ok r') →
      Collects sha256 C ((groups.map fun g => pairsOf g.1).reverse ++ done) r' := by
  induction groups generalizing cl done r with
  | nil =>
    refine ⟨fun _ => ⟨r, rfl⟩, fun r' hr' => ?_⟩
    cases hr'
    exact hr
  | cons g groups ih =>
    obtain ⟨list, ch⟩ := g
    obtain ⟨hg, hgroups⟩ := forall_mem_cons.mp hok
    have hans := readGroup_answers getNode hnodes ino hg
    rw [readGroups]
    by_cases hcan : cl.CanRead getNode list ch
    · obtain ⟨m, hreply, hm⟩ := hans.served hcan
      obtain ⟨hends, hcollects⟩ := ih _ hgroups hans.nodes (hm.join hr)
      simp only [hreply]
      refine ⟨fun hall => hends fun g' hg' => ?_, fun r' hr' => ?_⟩
      · simp only [CanRead, holdsAll_congr hans.tracked]
        exact hall g' (mem_cons_of_mem _ hg')
      · simpa using hcollects r' hr'
    · obtain ⟨e, hreply⟩ := hans.refused hcan
      simp only [hreply]
      refine ⟨fun hall => absurd (hall _ mem_cons_self) hcan, fun r' hr' => ?_⟩
      cases hr'

theorem Cluster.readGroups_refused (getNode : ℕ → Option ν) (ino : Ino) (cl : Cluster ν)
    (hok : GroupOk list ch)
    (hnodes : ∀ x, (cl.nodes x).Sound sha256 C) (hcannot : ¬cl.CanRead getNode list ch)
    (groups : List (List (ℕ × BlockMeta) × GroupChoice)) (r : Finmap fun _ : ℕ => Bytes) :
    ∃ e, (readGroups getNode ino ((list, ch) :: groups) cl r).1 = some (.error e) := by
  obtain ⟨e, hreply⟩ := (readGroup_answers getNode hnodes ino hok).refused hcannot
  refine ⟨e, ?_⟩
  rw [readGroups]
  simp only [hreply]

end Answers

/-! ### Walks over the picked blocks -/

variable {m : BlockMeta}

theorem BlockMeta.groupKey_eq_none :
    m.groupKey = none ↔ m.secondaryVolumeIds = [] := by
  rw [groupKey, Option.map_eq_none_iff, head?_eq_none_iff]

theorem BlockMeta.exists_groupKey (h : m.secondaryVolumeIds ≠ []) :
    ∃ k, m.groupKey = some k :=
  Option.ne_none_iff_exists'.mp (mt groupKey_eq_none.mp h)

namespace BatchOrder

variable {picked : InoBlockMap} {o : BatchOrder} {k : ℕ × ℕ} {i : ℕ} {m : BlockMeta}

theorem mem_group (h : o.Walks picked) :
    (i, m) ∈ o.group k ↔ picked.lookup i = some m ∧ m.groupKey = some k := by
  rw [group, mem_filter, h.entries, decide_eq_true_iff]

theorem Walks.mem_keys (h : o.Walks picked) :
    k ∈ o.keys ↔ ∃ i m, picked.lookup i = some m ∧ m.groupKey = some k := by
  rw [h.keys]
  constructor
  · rintro ⟨⟨i, m⟩, he, hk⟩
    exact ⟨i, m, (h.entries i m).mp he, hk⟩
  · rintro ⟨i, m, hm, hk⟩
    exact ⟨(i, m), (h.entries i m).mpr hm, hk⟩

theorem Walks.mem_pairsOf (h : o.Walks picked)
    (hkeyed : ∀ i m, picked.lookup i = some m → m.blockIndexInFile = i) {b : BlockID} :
    (i, b) ∈ pairsOf (o.group k) ↔
      ∃ m, picked.lookup i = some m ∧ m.groupKey = some k ∧ m.blockId = b := by
  rw [pairsOf, mem_map]
  constructor
  · rintro ⟨⟨j, m⟩, hj, heq⟩
    obtain ⟨hm, hk⟩ := (mem_group h).mp hj
    cases heq
    exact ⟨m, by rw [hkeyed j m hm]; exact hm, hk, rfl⟩
  · rintro ⟨m, hm, hk, rfl⟩
    exact ⟨(i, m), (mem_group h).mpr ⟨hm, hk⟩, by rw [hkeyed i m hm]⟩

theorem Walks.groupOk (h : o.Walks picked)
    (hcopies : ∀ i m, picked.lookup i = some m → m.secondaryVolumeIds ≠ []) (hk : k ∈ o.keys) :
    GroupOk (o.group k) (o.choice k) where
  nonempty := by
    obtain ⟨i, m, hm, hkey⟩ := h.mem_keys.mp hk
    exact ne_nil_of_mem ((mem_group h).mpr ⟨hm, hkey⟩)
  copies := by
    rintro ⟨i, m⟩ he
    exact hcopies i m ((mem_group h).mp he).1
  first := (h.kept k).1
  second := (h.kept k).2

def plain (entries : List (ℕ × BlockMeta)) (keys : List (ℕ × ℕ)) (s : Shuffle) : BatchOrder where
  entries
  keys
  choice k :=
    let t : ReadTry := ⟨fun _ => {},
      ⟨0, Appends.inOrder (entries.filter fun e => e.2.groupKey = some k).length⟩⟩
    ⟨s, false, t, t⟩

theorem walks_plain {l : List (ℕ × BlockMeta)} {ks : List (ℕ × ℕ)} (hl : (l.map fst).Nodup)
    (hmem : ∀ i m, (i, m) ∈ l ↔ picked.lookup i = some m)
    (hks : ks.Perm (l.filterMap fun e => e.2.groupKey).dedup) (s : Shuffle) :
    (plain l ks s).Walks picked where
  once := hl
  entries := hmem
  keysOnce := hks.nodup_iff.mpr (nodup_dedup _)
  keys k := by
    change k ∈ ks ↔ _
    rw [hks.mem_iff, mem_dedup, mem_filterMap]
    rfl
  kept _ := ⟨ReadSchedule.keeps_inOrder 0 _, ReadSchedule.keeps_inOrder 0 _⟩

theorem exists_walks_first (s : Shuffle) (hm : picked.lookup i = some m) :
    ∃ o es, BatchOrder.Walks o picked ∧ o.entries = (i, m) :: es ∧
      (∀ k, m.groupKey = some k → ∃ ks, o.keys = k :: ks) ∧ ∀ k, (o.choice k).shuffle = s := by
  obtain ⟨l, hnodup, hmem⟩ := picked.exists_list
  have hin := (hmem i m).mpr hm
  have hperm := perm_cons_erase hin
  have hfst := (hperm.map fst).nodup_iff.mp hnodup
  have hmem' : ∀ j m', (j, m') ∈ (i, m) :: l.erase (i, m) ↔ picked.lookup j = some m' :=
    fun j m' => hperm.symm.mem_iff.trans (hmem j m')
  cases hk : m.groupKey with
  | none => exact ⟨_, _, walks_plain hfst hmem' (.refl _) s, rfl, by simp, fun _ => rfl⟩
  | some k =>
    have hin' : k ∈ (((i, m) :: l.erase (i, m)).filterMap fun e => e.2.groupKey).dedup :=
      mem_dedup.mpr (mem_filterMap.mpr ⟨(i, m), mem_cons_self, hk⟩)
    have hkey := perm_cons_erase hin'
    refine ⟨_, _, walks_plain hfst hmem' hkey.symm s, rfl, fun k' hk' => ?_, fun _ => rfl⟩
    cases hk'
    exact ⟨_, rfl⟩

end BatchOrder

/-! ### The whole call -/

section Batch

variable {ν : Type} [DecidableEq ν] {sha256 : Bytes → BlockID} {C : Set Bytes}
  {getNode : ℕ → Option ν} {cl : Cluster ν} {ino : Ino} {idxs : List ℕ} {o : BatchOrder} {i : ℕ}

namespace Cluster

omit [DecidableEq ν] in
theorem lookup_picked : (cl.picked ino idxs).lookup i = some m ↔
    i ∈ idxs ∧ (cl.ensureBlockMetaCached ino).lookup i = some m := by
  rw [picked, lookup_restrict]
  by_cases hi : i ∈ idxs <;> simp [hi]

omit [DecidableEq ν] in
theorem Healthy.picked_keyed (h : cl.Healthy getNode sha256 C ino) (idxs : List ℕ) (i : ℕ)
    (m : BlockMeta) (hm : (cl.picked ino idxs).lookup i = some m) : m.blockIndexInFile = i :=
  h.keyed i m (lookup_picked.mp hm).2

theorem batchRead_eq (getNode : ℕ → Option ν) (ho : o.Walks (cl.picked ino idxs))
    (hcopies : ∀ i m, (cl.picked ino idxs).lookup i = some m → m.secondaryVolumeIds ≠ []) :
    ∃ cache, (cl.batchRead getNode ino idxs o).1 =
      (readGroups getNode ino o.groups { cl with blockMetaCache := cache } ∅).1 := by
  refine ⟨cl.blockMetaCache.insert ino (cl.ensureBlockMetaCached ino), ?_⟩
  have hnone : (o.entries.any fun e => e.2.groupKey.isNone) = false := by
    rw [any_eq_false]
    rintro ⟨i, m⟩ he
    rw [Option.isNone_iff_eq_none, groupKey_eq_none]
    exact hcopies i m ((ho.entries i m).mp he)
  rw [batchRead, hnone]
  split_ifs with hempty
  · -- no block, no group
    have hkeys : o.keys = [] := by
      rw [eq_nil_iff_forall_not_mem]
      intro k hk
      obtain ⟨i, m, hm, -⟩ := ho.mem_keys.mp hk
      simp [hempty] at hm
    rw [BatchOrder.groups, hkeys]
    rfl
  · contradiction
  · rfl

theorem batchRead_spec (h : cl.Healthy getNode sha256 C ino) (ho : o.Walks (cl.picked ino idxs))
    (hcopies : ∀ i m, (cl.picked ino idxs).lookup i = some m → m.secondaryVolumeIds ≠ []) :
    ((∀ k ∈ o.keys, cl.CanRead getNode (o.group k) (o.choice k)) →
      ∃ r, (cl.batchRead getNode ino idxs o).1 = some (.ok r)) ∧
    ∀ r, (cl.batchRead getNode ino idxs o).1 = some (.ok r) →
      Collects sha256 C (o.keys.map fun k => pairsOf (o.group k)).reverse r := by
  obtain ⟨cache, heq⟩ := batchRead_eq getNode ho hcopies
  have hok : ∀ g ∈ o.groups, GroupOk g.1 g.2 := by
    intro g hg
    obtain ⟨k, hk, rfl⟩ := mem_map.mp hg
    exact ho.groupOk hcopies hk
  have hspec := readGroups_spec getNode ino { cl with blockMetaCache := cache } hok h.nodes .nil
  rw [heq]
  refine ⟨fun hall => hspec.1 fun g hg => ?_, fun r hr => ?_⟩
  · obtain ⟨k, hk, rfl⟩ := mem_map.mp hg
    exact hall k hk
  · simpa [BatchOrder.groups, comp_def] using hspec.2 r hr

end Cluster

omit [DecidableEq ν] in
theorem Collects.entry (ho : o.Walks (cl.picked ino idxs)) (h : cl.Healthy getNode sha256 C ino)
    (hr : Collects sha256 C (o.keys.map fun k => pairsOf (o.group k)).reverse r) {d : Bytes}
    (hi : r.lookup i = some d) :
    ∃ m k, (cl.picked ino idxs).lookup i = some m ∧ m.groupKey = some k ∧
      BlockIdPairs.index (pairsOf (o.group k)) m.blockId = i ∧ Content sha256 C m.blockId d := by
  obtain ⟨g, hg, p, hp, rfl, hcontent⟩ := hr.only i d hi
  obtain ⟨k, -, rfl⟩ := mem_map.mp (mem_reverse.mp hg)
  obtain ⟨m, hm, hk, hid⟩ :=
    (ho.mem_pairsOf (h.picked_keyed idxs)).mp (BlockIdPairs.index_mem hp)
  rw [← hid] at hm ⊢
  exact ⟨m, k, hm, hk, rfl, hid ▸ hcontent⟩

theorem Cluster.Healthy.read (h : cl.Healthy getNode sha256 C ino) (hinj : Set.InjOn sha256 C)
    (hm : (cl.ensureBlockMetaCached ino).lookup i = some m)
    (hcopies : m.secondaryVolumeIds ≠ []) {d : Bytes} (hd : Content sha256 C m.blockId d)
    (s : Shuffle) (inPlace : Bool) (ch : ReadChoice) :
    (cl.read getNode (ino, i) s inPlace ch).1 = some (.ok d) := by
  obtain ⟨hsha, hC⟩ := hd
  have hserves : m.Serves sha256 getNode cl.nodes i d :=
    ⟨h.keyed i m hm, hsha.symm, hcopies, fun vol hvol => hsha ▸ h.stored i m hm vol hvol⟩
  exact Cluster.Sound.read_of_serves h.nodes hinj hC hm hserves s inPlace ch

def Shuffle.to {l l' : List ℕ} (h : l'.Perm l) : Shuffle where
  apply x := if x = l then l' else x
  perm x := by
    split_ifs with hx
    · exact hx ▸ h
    · exact .refl x

theorem Shuffle.to_apply {l l' : List ℕ} (h : l'.Perm l) : (Shuffle.to h).apply l = l' := if_pos rfl

omit [DecidableEq ν] in
theorem Cluster.Batchable.canRead (hb : cl.Batchable getNode (cl.picked ino idxs))
    (h : cl.Healthy getNode sha256 C ino) (ho : o.Walks (cl.picked ino idxs)) {k : ℕ × ℕ}
    (hk : k ∈ o.keys) : cl.CanRead getNode (o.group k) (o.choice k) := by
  obtain ⟨⟨i, m⟩, es, he⟩ := exists_cons_of_ne_nil (ho.groupOk hb.copies hk).nonempty
  obtain ⟨hm, hkey⟩ := (BatchOrder.mem_group ho).mp (he ▸ mem_cons_self)
  obtain ⟨vol₀, vol₁, rest, hvols⟩ := m.apply_volumes (hb.copies i m hm) (o.choice k).shuffle
  have hperm := (o.choice k).shuffle.perm m.volumes
  rw [hvols] at hperm
  obtain ⟨vol, hvol, hall⟩ := hb.covered i m hm vol₀ vol₁ rest hperm
  have hholds : cl.HoldsAll getNode vol (pairsOf (o.group k)) := by
    rintro ⟨j, b⟩ hp
    obtain ⟨m', hm', hk', rfl⟩ := (ho.mem_pairsOf (h.picked_keyed idxs)).mp hp
    exact hall j m' hm' (hk'.trans hkey.symm)
  refine ⟨(i, m), vol₀, vol₁, rest, by rw [he]; rfl, hvols, ?_⟩
  simp only [mem_cons, not_mem_nil, or_false] at hvol
  rcases hvol with rfl | rfl
  · exact .inl hholds
  · exact .inr hholds

theorem Cluster.Batchable.agrees (hb : cl.Batchable getNode (cl.picked ino idxs))
    (hinj : Set.InjOn sha256 C) (h : cl.Healthy getNode sha256 C ino) :
    cl.BatchAgrees getNode ino idxs := by
  intro o ho
  obtain ⟨hends, hcollects⟩ := batchRead_spec h ho hb.copies
  obtain ⟨r, hr⟩ := hends fun k hk => hb.canRead h ho hk
  have hcol := hcollects r hr
  refine ⟨r, hr, fun i hi hmem s inPlace ch => ?_, fun i hnot => ?_⟩
  · obtain ⟨m, hm⟩ := mem_iff.mp hmem
    have hpick := lookup_picked.mpr ⟨hi, hm⟩
    obtain ⟨k, hk⟩ := exists_groupKey (hb.copies i m hpick)
    have hpair := (ho.mem_pairsOf (h.picked_keyed idxs)).mpr ⟨m, hpick, hk, rfl⟩
    have hfound := hcol.found _ (mem_reverse.mpr
      (mem_map_of_mem (ho.mem_keys.mpr ⟨i, m, hpick, hk⟩))) _ hpair
    -- the block with the id that comes first in the group is this one
    obtain ⟨m', hm', hk', hid⟩ :=
      (ho.mem_pairsOf (h.picked_keyed idxs)).mp (BlockIdPairs.index_mem hpair)
    rw [hb.distinct _ m' i m hm' hpick (hk'.trans hk.symm) hid] at hfound
    obtain ⟨d, hd⟩ := mem_iff.mp hfound
    obtain ⟨m'', -, hm'', -, -, hcontent⟩ := hcol.entry ho h hd
    obtain rfl := Option.some.inj (hpick.symm.trans hm'')
    exact ⟨d, h.read hinj hm (hb.copies i m hpick) hcontent s inPlace ch, hd⟩
  · rw [Option.eq_none_iff_forall_ne_some]
    intro d hd
    obtain ⟨m, k, hm, -⟩ := hcol.entry ho h hd
    obtain ⟨hi, hbm⟩ := lookup_picked.mp hm
    exact hnot.elim (absurd hi) (absurd (mem_of_lookup_eq_some hbm))

theorem Cluster.BatchAgrees.batchable (hag : cl.BatchAgrees getNode ino idxs)
    (h : cl.Healthy getNode sha256 C ino) : cl.Batchable getNode (cl.picked ino idxs) := by
  have hcopies : ∀ i m, (cl.picked ino idxs).lookup i = some m → m.secondaryVolumeIds ≠ [] := by
    intro i m hm hnil
    obtain ⟨o, es, ho, hes, -⟩ := BatchOrder.exists_walks_first .reverse hm
    obtain ⟨r, hr, -⟩ := hag o ho
    have hsome : cl.picked ino idxs ≠ ∅ := by
      intro hempty
      simp [hempty] at hm
    have hpanics : (o.entries.any fun e => e.2.groupKey.isNone) = true := by
      simp [hes, groupKey_eq_none.mpr hnil]
    rw [batchRead, if_neg hsome, if_pos hpanics] at hr
    cases hr
  refine ⟨hcopies, fun i m j m' hm hm' hkey hid => ?_, fun i m hm vol₀ vol₁ rest hperm => ?_⟩
  · obtain ⟨o, -, ho, -⟩ := BatchOrder.exists_walks_first .reverse hm
    obtain ⟨r, hr, hread, -⟩ := hag o ho
    have hcol := (batchRead_spec h ho hcopies).2 r hr
    -- both are read, so each is the first of its group with its id
    have hfirst : ∀ {i m}, (cl.picked ino idxs).lookup i = some m → ∃ k, m.groupKey = some k ∧
        BlockIdPairs.index (pairsOf (o.group k)) m.blockId = i := by
      intro i m hm
      obtain ⟨hi, hbm⟩ := lookup_picked.mp hm
      obtain ⟨d, -, hd⟩ := hread i hi (mem_of_lookup_eq_some hbm) .reverse false {}
      obtain ⟨m', k, hm', hk, hindex, -⟩ := hcol.entry ho h hd
      obtain rfl := Option.some.inj (hm.symm.trans hm')
      exact ⟨k, hk, hindex⟩
    obtain ⟨k, hk, hi⟩ := hfirst hm
    obtain ⟨k', hk', hj⟩ := hfirst hm'
    obtain rfl := Option.some.inj (hk.symm.trans (hkey.trans hk'))
    rw [← hi, ← hj, hid]
  · by_contra hno
    obtain ⟨k, hk⟩ := exists_groupKey (hcopies i m hm)
    -- the block comes first, and its volumes in this order
    obtain ⟨o, es, ho, hes, hkeys, hshuffle⟩ := BatchOrder.exists_walks_first (.to hperm) hm
    obtain ⟨ks, hks⟩ := hkeys k hk
    obtain ⟨r, hr, -⟩ := hag o ho
    have hcannot : ¬cl.CanRead getNode (o.group k) (o.choice k) := by
      rintro ⟨e, vol₀', vol₁', rest', he, hvols, hor⟩
      have hhead : (o.group k).head? = some (i, m) := by
        rw [BatchOrder.group, hes, filter_cons_of_pos (by simpa using hk)]
        rfl
      obtain rfl := Option.some.inj (hhead.symm.trans he)
      rw [hshuffle, Shuffle.to_apply] at hvols
      cases hvols
      have hall : ∀ vol, cl.HoldsAll getNode vol (pairsOf (o.group k)) → ∀ j m',
          (cl.picked ino idxs).lookup j = some m' → m'.groupKey = m.groupKey →
            cl.Holds getNode vol m'.blockId := fun vol hvol j m' hm' hk' =>
        hvol _ ((ho.mem_pairsOf (h.picked_keyed idxs)).mpr ⟨m', hm', hk'.trans hk, rfl⟩)
      rcases hor with hvol | hvol
      · exact hno ⟨vol₀, by simp, hall vol₀ hvol⟩
      · exact hno ⟨vol₁, by simp, hall vol₁ hvol⟩
    obtain ⟨cache, heq⟩ := batchRead_eq getNode ho hcopies
    have hmem : k ∈ o.keys := hks ▸ mem_cons_self
    obtain ⟨e, hrefused⟩ := readGroups_refused getNode ino { cl with blockMetaCache := cache }
      (ho.groupOk hcopies hmem) h.nodes hcannot (ks.map fun k => (o.group k, o.choice k)) ∅
    rw [heq, BatchOrder.groups, hks, map_cons, hrefused] at hr
    cases hr

/-- With sound nodes that store the mapped blocks, and a digest without collisions: `BatchRead`
returns for the mapped indexes what `Read` returns, whatever the order of the blocks and the
shuffling, exactly when the picked blocks can be read in groups. -/
theorem batchRead_agrees_iff (hinj : Set.InjOn sha256 C) (h : cl.Healthy getNode sha256 C ino)
    (idxs : List ℕ) :
    cl.BatchAgrees getNode ino idxs ↔ cl.Batchable getNode (cl.picked ino idxs) :=
  ⟨fun hag => hag.batchable h, fun hb => hb.agrees hinj h⟩

end Batch

/-! ### Two blocks of a file -/

def pairFile (bytes : List UInt8) : Cluster Bool :=
  pairAfter (bytes.zipIdx.map fun e =>
    .write (1, e.2) [e.1] [(false, .answered 7 0), (true, .answered 8 0)] .stored fun _ => [])

theorem healthy_pairFile {bytes : List UInt8}
    (hlegal : Runs.Legal (Call.next sampleSha 1 pairNode)
      (fun cl c => c.Sparing sampleSha sampleContents pairNode cl)
      (bytes.zipIdx.map fun e =>
        .write (1, e.2) [e.1] [(false, .answered 7 0), (true, .answered 8 0)] .stored fun _ => [])
      (newCluster pairVols))
    (hall : ∀ e ∈ ((pairFile bytes).ensureBlockMetaCached 1).entries, e.2.blockIndexInFile = e.1 ∧
      ∀ vol ∈ e.2.volumes, ∃ x, pairNode vol = some x ∧
        e.2.blockId ∈ ((pairFile bytes).nodes x).blockMetas) :
    (pairFile bytes).Healthy pairNode sampleSha sampleContents 1 where
  nodes := (SparingReach.sound (by decide) (by decide) (Runs.reach_exec hlegal)).nodes
  keyed i m hm := (hall ⟨i, m⟩ (lookup_eq_some_iff.mp hm)).1
  stored i m hm := (hall ⟨i, m⟩ (lookup_eq_some_iff.mp hm)).2

theorem batchRead_agrees_sample : (pairFile [1, 2]).BatchAgrees pairNode 1 [0, 1] := by
  refine (batchRead_agrees_iff injOn_sampleSha
    (healthy_pairFile (by decide +kernel) (by decide +kernel)) [0, 1]).mpr ?_
  have hcopies : ∀ e ∈ ((pairFile [1, 2]).picked 1 [0, 1]).entries, e.2.secondaryVolumeIds ≠ [] := by
    decide +kernel
  have hdistinct : ∀ e ∈ ((pairFile [1, 2]).picked 1 [0, 1]).entries,
      ∀ e' ∈ ((pairFile [1, 2]).picked 1 [0, 1]).entries, e.2.blockId = e'.2.blockId → e.1 = e'.1 := by
    decide +kernel
  have hcovered : ∀ e ∈ ((pairFile [1, 2]).picked 1 [0, 1]).entries, ∀ vol ∈ e.2.volumes,
      ∀ e' ∈ ((pairFile [1, 2]).picked 1 [0, 1]).entries, ∃ x, pairNode vol = some x ∧
        e'.2.blockId ∈ ((pairFile [1, 2]).nodes x).blockMetas := by
    decide +kernel
  refine ⟨fun i m hm => hcopies ⟨i, m⟩ (lookup_eq_some_iff.mp hm),
    fun i m j m' hm hm' _ => hdistinct ⟨i, m⟩ (lookup_eq_some_iff.mp hm) ⟨j, m'⟩
      (lookup_eq_some_iff.mp hm'), fun i m hm vol₀ vol₁ rest hperm => ?_⟩
  exact ⟨vol₀, mem_cons_self, fun j m' hm' _ =>
    hcovered ⟨i, m⟩ (lookup_eq_some_iff.mp hm) vol₀ (hperm.mem_iff.mp mem_cons_self)
      ⟨j, m'⟩ (lookup_eq_some_iff.mp hm')⟩

def pairMeta (i : ℕ) : BlockMeta :=
  ⟨1, i, sampleSha [1], 7, [8], crc32 [1], 1⟩

/-- The same byte is written to two indexes. Both nodes have the block, and `Read` returns it
for both indexes, `BatchRead` only for the first of the group. -/
theorem batchRead_misses_index :
    (pairFile [1, 1]).Healthy pairNode sampleSha sampleContents 1 ∧
    (∀ i ∈ [0, 1], ((pairFile [1, 1]).read pairNode (1, i) .reverse false {}).1 =
      some (.ok [1])) ∧
    ∃ o r, BatchOrder.Walks o ((pairFile [1, 1]).picked 1 [0, 1]) ∧
      ((pairFile [1, 1]).batchRead pairNode 1 [0, 1] o).1 = some (.ok r) ∧
      r.lookup 0 = some [1] ∧ r.lookup 1 = none := by
  have hentries : ((pairFile [1, 1]).picked 1 [0, 1]).entries =
      ↑[(⟨0, pairMeta 0⟩ : Sigma fun _ : ℕ => BlockMeta), ⟨1, pairMeta 1⟩] := by
    decide +kernel
  refine ⟨healthy_pairFile (by decide +kernel) (by decide +kernel), by decide +kernel,
    .plain [(0, pairMeta 0), (1, pairMeta 1)] [(7, 8)] .reverse, Finmap.singleton 0 [1],
    BatchOrder.walks_plain (by decide) (fun i m => ?_) (.refl _) _, by decide +kernel, rfl, rfl⟩
  rw [Finmap.lookup_eq_some_iff, hentries]
  simp

end HugoFS.Gateway
