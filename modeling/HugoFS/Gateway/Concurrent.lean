import HugoFS.Gateway.Sharing

/-!
# Concurrent calls of the coordinator

`Read`, `BatchRead` and `Write` of one coordinator at the same time. Nothing orders the steps of
different calls: a reader that has fetched a block map may put it into the cache after a writer
has deleted the entry, and later readers then get the old map (`Event.Careful`).
-/

namespace HugoFS.Gateway

open Finmap Function Runs Cluster.Sound Cluster
open HugoFS.Meta (Ino)
open HugoFS.Storage

/-! ### The calls in flight -/

/-- What a reader is after. For `Read`: the key, what the last `Write` of the key has
written if that had returned nil when the call started, and the number of `Write` calls
of the key started before it. -/
inductive Query
  | read (key : BlockKey) (expect : Option Bytes) (since : ℕ)
  | batchRead (ino : Ino)

def Query.ino : Query → Ino
  | .read key _ _ => key.1
  | .batchRead ino => ino

inductive Stage (ν : Type)
  /-- Before the lookup in the cache. -/
  | lookup (q : Query)
  /-- Before `GetInoBlockMap`. -/
  | fetch (q : Query)
  /-- Before the fetched map is put into the cache. -/
  | fill (q : Query) (bm : InoBlockMap)
  /-- Before the requests of a reader to the nodes. -/
  | pick (q : Query) (bm : InoBlockMap)
  /-- Before the requests of a `Write` to the nodes. -/
  | store (key : BlockKey) (data : Bytes)
  /-- Before `UpdateBlockLocation`. -/
  | locate (key : BlockKey) (data : Bytes) (storages : List ν) (m : BlockMeta)
  /-- Before the deletion of a block whose location could not be stored. -/
  | undo (key : BlockKey) (storages : List ν) (b : BlockID)
  /-- Before the deletion of the inode from the cache. -/
  | forget (key : BlockKey) (data : Bytes) (m : BlockMeta)

def Stage.target {ν : Type} : Stage ν → Option BlockKey
  | .store key _ | .locate key _ _ _ | .undo key _ _ | .forget key _ _ => some key
  | .lookup _ | .fetch _ | .fill _ _ | .pick _ _ => none

/-- The coordinator, with the calls in flight and the number of `Write` calls that were
started for each key. `cluster.live` has the keys whose last `Write` has returned nil. -/
structure Coordinator (ν κ : Type) where
  cluster : Cluster ν
  stages : κ → Option (Stage ν)
  writes : BlockKey → ℕ

def BlockMeta.shuffled (m : BlockMeta) (ss : List Shuffle) : BlockMeta :=
  ss.foldl (fun m s => { m with
    secondaryVolumeIds := (s.apply m.volumes).take m.secondaryVolumeIds.length }) m

namespace Coordinator

variable {ν κ : Type} [DecidableEq ν] [DecidableEq κ]

def new (vols : ν → List (ℕ × ℕ × VolumeStatistics)) : Coordinator ν κ :=
  ⟨newCluster vols, fun _ => none, fun _ => 0⟩

def setStage (s : Coordinator ν κ) (c : κ) (st : Option (Stage ν)) : Coordinator ν κ :=
  { s with stages := Function.update s.stages c st }

def setCluster (s : Coordinator ν κ) (cl : Cluster ν) : Coordinator ν κ := { s with cluster := cl }

def entry (s : Coordinator ν κ) (key : BlockKey) : Option BlockMeta :=
  (s.cluster.blockMap key.1).lookup key.2

def readNodes (getNode : ℕ → Option ν) (cl : Cluster ν) (key : BlockKey) (bm : InoBlockMap)
    (earlier : List Shuffle) (sh : Shuffle) (ch : ReadChoice) :
    Option (Except ReadError Bytes) × Cluster ν :=
  match bm.lookup key.2 with
  | none => (some (.error .blockNotFound), cl)
  | some m =>
    match sh.apply (m.shuffled earlier).volumes with
    | vol₀ :: vol₁ :: _ =>
      cl.readEither getNode vol₀ vol₁ key.2 (m.shuffled earlier) ch
    | _ => (some (.error .outOfRange), cl)

inductive Event (ν κ : Type)
  | startRead (c : κ) (key : BlockKey)
  | startBatchRead (c : κ) (ino : Ino)
  | startWrite (c : κ) (key : BlockKey) (data : Bytes)
  | lookup (c : κ)
  | getInoBlockMap (c : κ)
  | set (c : κ)
  | readNodes (c : κ) (earlier : List Shuffle) (sh : Shuffle) (ch : ReadChoice)
  /-- The requests of a `BatchRead`: blocks of volumes, in groups that do not matter here. -/
  | readBatch (c : κ) (blocks : List (ℕ × ℕ × BlockID)) (ch : ReadChoice)
  | writeNodes (c : κ) (storages : List (ν × Delivery))
  | updateBlockLocation (c : κ) (upd : UpdateReply)
  | rollback (c : κ) (order : ν → List ℕ)
  /-- The deletion from the cache, after which `Write` returns nil. -/
  | delete (c : κ)
  /-- A reader shuffles an entry of a cached map in place. -/
  | shuffle (ino : Ino) (index : ℕ) (sh : Shuffle)
  /-- An entry of the cache expires. -/
  | expire (ino : Ino)

variable (sha256 : Bytes → BlockID) (replica : ℕ) (getNode : ℕ → Option ν)

def writeNodes (s : Coordinator ν κ) (c : κ) (key : BlockKey) (data : Bytes)
    (storages : List (ν × Delivery)) : Coordinator ν κ :=
  if storages.length = replica + 1 ∧ (storages.map Prod.fst).Nodup then
    match s.cluster.sendWrites sha256 ⟨key.1, key.2, data, crc32 data⟩ storages with
    | (some (primary :: others), cl) =>
      (s.setCluster cl).setStage c (some (.locate key data (storages.map Prod.fst)
        (Cluster.blockMetaOf primary others)))
    | (_, cl) => (s.setCluster cl).setStage c none
  else s.setStage c none

def updateBlockLocation (s : Coordinator ν κ) (c : κ) (key : BlockKey) (data : Bytes)
    (storages : List ν) (m : BlockMeta) : UpdateReply → Coordinator ν κ
  | .stored => (s.setCluster (s.cluster.updateBlockLocation m)).setStage c
      (some (.forget key data m))
  | .refused => s.setStage c (some (.undo key storages m.blockId))
  | .unanswered => (s.setCluster (s.cluster.updateBlockLocation m)).setStage c
      (some (.undo key storages m.blockId))

def shuffleCached (cl : Cluster ν) (ino : Ino) (index : ℕ) (sh : Shuffle) : Cluster ν :=
  match cl.blockMetaCache.lookup ino with
  | none => cl
  | some bm =>
    match bm.lookup index with
    | none => cl
    | some m => { cl with
        blockMetaCache := cl.blockMetaCache.insert ino (bm.insert index (m.shuffled [sh])) }

def Event.next : Event ν κ → Coordinator ν κ → Coordinator ν κ
  | .startRead c key, s =>
    match s.stages c with
    | none => s.setStage c (some (.lookup (.read key (s.cluster.live.lookup key) (s.writes key))))
    | some _ => s
  | .startBatchRead c ino, s =>
    match s.stages c with
    | none => s.setStage c (some (.lookup (.batchRead ino)))
    | some _ => s
  | .startWrite c key data, s =>
    match s.stages c with
    | none =>
      { s.setStage c (some (.store key data)) with
        cluster := { s.cluster with live := s.cluster.live.erase key }
        writes := Function.update s.writes key (s.writes key + 1) }
    | some _ => s
  | .lookup c, s =>
    match s.stages c with
    | some (.lookup q) =>
      match s.cluster.blockMetaCache.lookup q.ino with
      | some bm => s.setStage c (some (.pick q bm))
      | none => s.setStage c (some (.fetch q))
    | _ => s
  | .getInoBlockMap c, s =>
    match s.stages c with
    | some (.fetch q) => s.setStage c (some (.fill q (s.cluster.blockMap q.ino)))
    | _ => s
  | .set c, s =>
    match s.stages c with
    | some (.fill q bm) =>
      (s.setCluster { s.cluster with
        blockMetaCache := s.cluster.blockMetaCache.insert q.ino bm }).setStage c (some (.pick q bm))
    | _ => s
  | .readNodes c earlier sh ch, s =>
    match s.stages c with
    | some (.pick (.read key _ _) bm) =>
      (s.setCluster
        (Coordinator.readNodes getNode s.cluster key bm earlier sh ch).2).setStage c none
    | _ => s
  | .readBatch c blocks ch, s =>
    match s.stages c with
    | some (.pick (.batchRead _) _) =>
      (s.setCluster (blocks.foldl (fun cl b =>
        (cl.doRead getNode b.1 b.2.1 b.2.2 ch).2) s.cluster)).setStage c none
    | _ => s
  | .writeNodes c storages, s =>
    match s.stages c with
    | some (.store key data) => s.writeNodes sha256 replica c key data storages
    | _ => s
  | .updateBlockLocation c upd, s =>
    match s.stages c with
    | some (.locate key data storages m) => s.updateBlockLocation c key data storages m upd
    | _ => s
  | .rollback c order, s =>
    match s.stages c with
    | some (.undo _ storages b) =>
      (s.setCluster (s.cluster.rollback storages b order)).setStage c none
    | _ => s
  | .delete c, s =>
    match s.stages c with
    | some (.forget key data _) =>
      (s.setCluster { s.cluster with
        blockMetaCache := s.cluster.blockMetaCache.erase key.1
        live := s.cluster.live.insert key data }).setStage c none
    | _ => s
  | .shuffle ino index sh, s => s.setCluster (shuffleCached s.cluster ino index sh)
  | .expire ino, s =>
    s.setCluster { s.cluster with blockMetaCache := s.cluster.blockMetaCache.erase ino }

end Coordinator

/-! ### The condition -/

namespace Stage

variable {ν κ : Type} [DecidableEq ν] [DecidableEq κ]

def Fits (sha256 : Bytes → BlockID) (cl : Cluster ν) (storages : List (ν × Delivery)) :
    Stage ν → Prop
  | .store _ data => ∀ x ∈ storages, x.2.Fits sha256 (cl.nodes x.1) data
  | _ => True

instance (sha256 : Bytes → BlockID) (cl : Cluster ν) (storages : List (ν × Delivery))
    (st : Stage ν) : Decidable (st.Fits sha256 cl storages) := by
  cases st <;> dsimp only [Fits] <;> infer_instance

def Fresh (cl : Cluster ν) : Stage ν → Prop
  | .fill q bm => ∀ key ∈ cl.live.keys, key.1 = q.ino →
      bm.lookup key.2 = (cl.blockMap key.1).lookup key.2
  | _ => True

instance (cl : Cluster ν) (st : Stage ν) : Decidable (st.Fresh cl) := by
  cases st <;> dsimp only [Fresh] <;> infer_instance

def Holds (b : BlockID) : Stage ν → Prop
  | .locate _ _ _ m | .forget _ _ m => m.blockId = b
  | _ => False

instance (b : BlockID) (st : Stage ν) : Decidable (st.Holds b) := by
  cases st <;> dsimp only [Holds] <;> infer_instance

def Spares (getNode : ℕ → Option ν) (s : Coordinator ν κ) : Stage ν → Prop
  | .undo _ storages b =>
    (∀ x ∈ storages, ∀ k ∈ s.cluster.live.keys, ¬s.cluster.Needs getNode k x b) ∧
      ∀ c, ∀ st ∈ s.stages c, ¬st.Holds b
  | _ => True

instance [Fintype κ] (getNode : ℕ → Option ν) (s : Coordinator ν κ) (st : Stage ν) :
    Decidable (st.Spares getNode s) := by
  cases st <;> dsimp only [Spares] <;> infer_instance

end Stage

namespace Coordinator

variable {ν κ : Type} [DecidableEq ν] [DecidableEq κ] (sha256 : Bytes → BlockID) (C : Set Bytes)
  (getNode : ℕ → Option ν)

def Event.Careful (s : Coordinator ν κ) : Event ν κ → Prop
  | .startWrite _ key data => data ∈ C ∧ ∀ c, ∀ st ∈ s.stages c, st.target ≠ some key
  | .writeNodes c storages => ∀ st ∈ s.stages c, st.Fits sha256 s.cluster storages
  | .set c => ∀ st ∈ s.stages c, st.Fresh s.cluster
  | .rollback c _ => ∀ st ∈ s.stages c, st.Spares getNode s
  | _ => True

instance [Fintype κ] [DecidablePred (· ∈ C)] (s : Coordinator ν κ) (e : Event ν κ) :
    Decidable (e.Careful sha256 C getNode s) := by
  cases e <;> dsimp only [Event.Careful] <;> infer_instance

end Coordinator

/-! ### The invariant -/

section Invariant

variable {ν κ : Type} (sha256 : Bytes → BlockID) (C : Set Bytes) (getNode : ℕ → Option ν)

def Query.Expects (s : Coordinator ν κ) : Query → Prop
  | .read key expect since => since ≤ s.writes key ∧
      ∀ d, expect = some d → s.writes key = since → s.cluster.live.lookup key = some d
  | .batchRead _ => True

def Query.Finds (s : Coordinator ν κ) (bm : InoBlockMap) : Query → Prop
  | .read key expect since => ∀ d, expect = some d → s.writes key = since →
      ∀ m, s.entry key = some m → ∃ m', bm.lookup key.2 = some m' ∧ m.Reorders m'
  | .batchRead _ => True

def Stage.Sound (s : Coordinator ν κ) : Stage ν → Prop
  | .lookup q | .fetch q => q.Expects s
  | .fill q bm | .pick q bm => q.Expects s ∧ q.Finds s bm
  | .store key data => key ∉ s.cluster.live ∧ data ∈ C
  | .locate key data _ m => key ∉ s.cluster.live ∧ data ∈ C ∧ (m.ino, m.blockIndexInFile) = key ∧
      m.Serves sha256 getNode s.cluster.nodes key.2 data
  | .undo key _ _ => key ∉ s.cluster.live
  | .forget key data m => key ∉ s.cluster.live ∧ data ∈ C ∧ (m.ino, m.blockIndexInFile) = key ∧
      s.entry key = some m ∧ m.Serves sha256 getNode s.cluster.nodes key.2 data

structure Coordinator.Sound (s : Coordinator ν κ) : Prop where
  cluster : s.cluster.Sound sha256 C getNode
  stages : ∀ {c st}, s.stages c = some st → st.Sound sha256 C getNode s
  /-- No two writes of one key are in flight. -/
  alone : ∀ {c c' st st' key}, s.stages c = some st → s.stages c' = some st' →
    st.target = some key → st'.target = some key → c = c'

end Invariant

/-- What the calls in flight see of a step: a live key keeps its content and its location
unless a write of it starts, and at most the key `own` becomes live or is located anew. -/
structure Coordinator.Frame {ν κ : Type} (s s' : Coordinator ν κ) (own : Option BlockKey) :
    Prop where
  writes : ∀ key, s.writes key ≤ s'.writes key
  kept : ∀ key, s'.writes key = s.writes key → key ∈ s.cluster.live →
    s'.cluster.live.lookup key = s.cluster.live.lookup key ∧ s'.entry key = s.entry key
  others : ∀ key, own ≠ some key →
    (key ∈ s'.cluster.live → key ∈ s.cluster.live) ∧ s'.entry key = s.entry key

variable {q : Query} {m : BlockMeta}

section Frame

variable {ν κ : Type} {sha256 : Bytes → BlockID} {C : Set Bytes} {getNode : ℕ → Option ν}
  {s s' : Coordinator ν κ} {own : Option BlockKey}

open Coordinator

theorem Coordinator.Frame.of_eq (hwrites : s'.writes = s.writes)
    (hlive : s'.cluster.live = s.cluster.live)
    (hmap : s'.cluster.blockMap = s.cluster.blockMap) : s.Frame s' none where
  writes key := (congrFun hwrites key).ge
  kept key _ _ := by rw [hlive, entry, hmap, entry]; exact ⟨rfl, rfl⟩
  others key _ := by rw [hlive, entry, hmap, entry]; exact ⟨id, rfl⟩

theorem Query.Expects.frame (h : q.Expects s) (hf : s.Frame s' own) :
    q.Expects s' := by
  cases q with
  | batchRead ino => trivial
  | read key expect since =>
    obtain ⟨hle, hexp⟩ := h
    have hw := hf.writes key
    refine ⟨hle.trans hw, fun d hd heq => ?_⟩
    have hsame : s.writes key = since := by omega
    have hlive := hexp d hd hsame
    rw [(hf.kept key (heq.trans hsame.symm) (mem_of_lookup_eq_some hlive)).1]
    exact hlive

theorem Query.Finds.frame {bm : InoBlockMap} (h : q.Finds s bm) (he : q.Expects s)
    (hf : s.Frame s' own) : q.Finds s' bm := by
  cases q with
  | batchRead ino => trivial
  | read key expect since =>
    obtain ⟨hle, hexp⟩ := he
    have hw := hf.writes key
    intro d hd heq m hm
    have hsame : s.writes key = since := by omega
    have hlive := mem_of_lookup_eq_some (hexp d hd hsame)
    rw [(hf.kept key (heq.trans hsame.symm) hlive).2] at hm
    exact h d hd hsame m hm

theorem BlockMeta.Serves.mono {nodes nodes' : ν → Node} {index : ℕ} {d : Bytes}
    (h : m.Serves sha256 getNode nodes index d)
    (hnodes : ∀ x, sha256 d ∈ (nodes x).blockMetas → sha256 d ∈ (nodes' x).blockMetas) :
    m.Serves sha256 getNode nodes' index d :=
  ⟨h.index, h.blockId, h.copies, fun vol hv => by
    obtain ⟨x, hx, hb⟩ := h.held vol hv
    exact ⟨x, hx, hnodes x hb⟩⟩

theorem Stage.Sound.frame {st : Stage ν} (h : st.Sound sha256 C getNode s)
    (hf : s.Frame s' own) (hown : ∀ key, st.target = some key → own ≠ some key)
    (hnodes : ∀ b, st.Holds b → ∀ x, b ∈ (s.cluster.nodes x).blockMetas →
      b ∈ (s'.cluster.nodes x).blockMetas) : st.Sound sha256 C getNode s' := by
  cases st with
  | lookup q | fetch q => exact Query.Expects.frame h hf
  | fill q bm | pick q bm => exact ⟨h.1.frame hf, h.2.frame h.1 hf⟩
  | store key data => exact ⟨fun hk => h.1 ((hf.others key (hown key rfl)).1 hk), h.2⟩
  | undo key xs b => exact fun hk => h ((hf.others key (hown key rfl)).1 hk)
  | locate key data xs m =>
    obtain ⟨hk, hC, hkey, hserves⟩ := h
    obtain ⟨hlive, -⟩ := hf.others key (hown key rfl)
    exact ⟨fun hk' => hk (hlive hk'), hC, hkey, hserves.mono (hnodes _ hserves.blockId)⟩
  | forget key data m =>
    obtain ⟨hk, hC, hkey, hm, hserves⟩ := h
    obtain ⟨hlive, hentry⟩ := hf.others key (hown key rfl)
    exact ⟨fun hk' => hk (hlive hk'), hC, hkey, hentry.trans hm,
      hserves.mono (hnodes _ hserves.blockId)⟩

end Frame

/-! ### What a step does to the cluster -/

namespace Cluster

variable {ν : Type} [DecidableEq ν] {sha256 : Bytes → BlockID} {C : Set Bytes}
  {getNode : ℕ → Option ν} {cl cl' cl'' : Cluster ν}

omit [DecidableEq ν] in
theorem Extends.refl (cl : Cluster ν) : cl.Extends cl := ⟨rfl, rfl, rfl, fun _ _ hb => hb⟩

omit [DecidableEq ν] in
theorem Extends.trans (h : cl.Extends cl') (h' : cl'.Extends cl'') : cl.Extends cl'' :=
  ⟨h'.blockMap.trans h.blockMap, h'.cache.trans h.cache, h'.live.trans h.live,
    fun x b hb => h'.tracked x b (h.tracked x b hb)⟩

theorem tracked_setNode {n : Node} {ids : List BlockID} {x : ν}
    (hspare : (cl.nodes x).Spares n ids) (y : ν) {b : BlockID} (hb : b ∈ (cl.nodes y).blockMetas)
    (hid : b ∉ ids) : b ∈ ((cl.setNode x n).nodes y).blockMetas := by
  by_cases hy : y = x
  · subst hy
    rw [setNode_nodes_self]
    exact hspare.tracked b hb hid
  · rwa [setNode_nodes_of_ne _ _ hy]

namespace Sound

section

variable (h : cl.Sound sha256 C getNode)
include h

theorem doRead_extends (vol index : ℕ) (b : BlockID)
    (ch : ReadChoice) : cl.Extends (cl.doRead getNode vol index b ch).2 := by
  rw [Cluster.doRead]
  split
  · exact .refl cl
  next x hx =>
  obtain ⟨-, hspare, -⟩ := (h.nodes x).readBlocks b ch
  exact ⟨rfl, rfl, rfl, fun y b' hb => tracked_setNode hspare y hb List.not_mem_nil⟩

theorem readEither_extends (vol₀ vol₁ index : ℕ) (m : BlockMeta) (ch : ReadChoice) :
    cl.Extends (cl.readEither getNode vol₀ vol₁ index m ch).2 := by
  have h₀ := h.doRead_extends vol₀ index m.blockId ch
  simp only [Cluster.readEither]
  split
  · exact h₀.trans ((h.doRead vol₀ index m.blockId ch).doRead_extends ..)
  · exact h₀

theorem readNodes (key : BlockKey) (bm : InoBlockMap)
    (earlier : List Shuffle) (sh : Shuffle) (ch : ReadChoice) :
    (Coordinator.readNodes getNode cl key bm earlier sh ch).2.Sound sha256 C getNode ∧
      cl.Extends (Coordinator.readNodes getNode cl key bm earlier sh ch).2 := by
  rw [Coordinator.readNodes]
  split
  · exact ⟨h, .refl cl⟩
  split
  · exact ⟨h.readEither .., h.readEither_extends ..⟩
  · exact ⟨h, .refl cl⟩

theorem readBatch (blocks : List (ℕ × ℕ × BlockID)) (ch : ReadChoice) :
    (blocks.foldl (fun cl b => (cl.doRead getNode b.1 b.2.1 b.2.2 ch).2) cl).Sound
        sha256 C getNode ∧
      cl.Extends
        (blocks.foldl (fun cl b => (cl.doRead getNode b.1 b.2.1 b.2.2 ch).2) cl) := by
  induction blocks generalizing cl with
  | nil => exact ⟨h, .refl cl⟩
  | cons b blocks ih =>
    obtain ⟨hs, he⟩ := ih (h.doRead b.1 b.2.1 b.2.2 ch)
    exact ⟨hs, (h.doRead_extends ..).trans he⟩

omit h in
theorem rollback_keeps (h : ∀ x, (cl.nodes x).Sound sha256 C) (storages : List ν) (b : BlockID)
    (order : ν → List ℕ) :
    (cl.rollback storages b order).blockMap = cl.blockMap ∧
      (cl.rollback storages b order).live = cl.live ∧
      ∀ x, ∀ b' ∈ (cl.nodes x).blockMetas, b' ≠ b →
        b' ∈ ((cl.rollback storages b order).nodes x).blockMetas := by
  induction storages generalizing cl with
  | nil => exact ⟨rfl, rfl, fun x b' hb' _ => hb'⟩
  | cons y storages ih =>
    obtain ⟨hn, hspare⟩ := (h y).deleteBlock [b] (order y)
    have hnodes : ∀ x, ((cl.setNode y ((cl.nodes y).deleteBlock [b] (order y))).nodes x).Sound
        sha256 C := by
      intro x
      by_cases hx : x = y
      · subst hx
        rwa [setNode_nodes_self]
      · rw [setNode_nodes_of_ne _ _ hx]
        exact h x
    obtain ⟨hmap, hlive, htracked⟩ := ih hnodes
    refine ⟨hmap, hlive, fun x b' hb' hne => htracked x b' ?_ hne⟩
    exact tracked_setNode hspare x hb' (by simpa using hne)

omit [DecidableEq ν] in
theorem fill {ino : Ino} {bm : InoBlockMap}
    (hbm : ∀ key, key ∈ cl.live → key.1 = ino →
      bm.lookup key.2 = (cl.blockMap key.1).lookup key.2) :
    Sound sha256 C getNode
      { cl with blockMetaCache := cl.blockMetaCache.insert ino bm } where
  __ := h
  cached {key bm' m} hb hk hm := by
    rcases lookup_insert_eq_some hb with ⟨rfl, rfl⟩ | ⟨-, hb⟩
    · exact ⟨m, (hbm key hk rfl).trans hm, .refl m⟩
    · exact h.cached hb hk hm

omit [DecidableEq ν] in
theorem relocate {key : BlockKey} (hkey : (m.ino, m.blockIndexInFile) = key) (hk : key ∉ cl.live) :
    (cl.updateBlockLocation m).Sound sha256 C getNode := by
  have hover := h.overwrite hkey
  rw [erase_of_lookup_none (lookup_eq_none.mpr hk)] at hover
  exact hover

omit [DecidableEq ν] in
theorem settle {key : BlockKey} {data : Bytes} (hC : data ∈ C)
    (hkey : (m.ino, m.blockIndexInFile) = key) (hm : (cl.blockMap key.1).lookup key.2 = some m)
    (hserves : m.Serves sha256 getNode cl.nodes key.2 data) :
    Sound sha256 C getNode
      { cl with
        blockMetaCache := cl.blockMetaCache.erase key.1
        live := cl.live.insert key data } := by
  have hsame : cl.updateBlockLocation m = cl := by
    subst hkey
    rw [updateBlockLocation, insert_of_lookup hm, update_eq_self]
  have hcommit := h.commit hC hkey hserves
  rw [hsame] at hcommit
  exact hcommit

end

end Sound

end Cluster

theorem BlockMeta.Reorders.shuffled (m : BlockMeta) (ss : List Shuffle) :
    m.Reorders (m.shuffled ss) := by
  induction ss generalizing m with
  | nil => exact .refl m
  | cons sh ss ih => exact (Reorders.shuffle m sh).trans (ih _)

/-! ### Steps -/

namespace Coordinator

variable {ν κ : Type} [DecidableEq ν] [DecidableEq κ] {sha256 : Bytes → BlockID} {C : Set Bytes}
  {getNode : ℕ → Option ν} {s s' : Coordinator ν κ} {c : κ}

def Clear (s : Coordinator ν κ) (c : κ) (key : BlockKey) : Prop :=
  ∀ c' st, c' ≠ c → s.stages c' = some st → st.target ≠ some key

namespace Sound

variable {key : BlockKey} {st' : Option (Stage ν)} {data : Bytes} {bm : InoBlockMap} {m : BlockMeta}

section

variable (h : s.Sound sha256 C getNode) {storages : List ν}
include h

omit [DecidableEq ν] [DecidableEq κ] in
theorem clear {st : Stage ν} (hst : s.stages c = some st)
    (hkey : st.target = some key) : s.Clear c key :=
  fun _ _ hne hst' hkey' => hne (h.alone hst' hst hkey' hkey)

omit [DecidableEq ν] in
theorem step (own : Option BlockKey)
    (hcluster : s'.cluster.Sound sha256 C getNode)
    (hstages : s'.stages = update s.stages c st') (hf : s.Frame s' own)
    (hown : ∀ key, own = some key → s.Clear c key)
    (hnodes : ∀ c' st, c' ≠ c → s.stages c' = some st → ∀ b, st.Holds b →
      ∀ x, b ∈ (s.cluster.nodes x).blockMetas → b ∈ (s'.cluster.nodes x).blockMetas)
    (hst : ∀ st, st' = some st →
      st.Sound sha256 C getNode s' ∧ ∀ key, st.target = some key → s.Clear c key) :
    s'.Sound sha256 C getNode where
  cluster := hcluster
  stages {c' st} hc' := by
    rw [hstages] at hc'
    obtain ⟨-, hc'⟩ | ⟨hne, hc'⟩ := update_eq_some hc'
    · exact (hst st hc').1
    · exact (h.stages hc').frame hf (fun key hkey heq => hown key heq c' st hne hc' hkey)
        (hnodes c' st hne hc')
  alone {c₁ c₂ st₁ st₂ key} h₁ h₂ hk₁ hk₂ := by
    rw [hstages] at h₁ h₂
    obtain ⟨hc₁, hs₁⟩ | ⟨hc₁, hs₁⟩ := update_eq_some h₁
    · obtain ⟨hc₂, -⟩ | ⟨hc₂, hs₂⟩ := update_eq_some h₂
      · exact hc₁.trans hc₂.symm
      · exact absurd hk₂ ((hst st₁ hs₁).2 key hk₁ c₂ st₂ hc₂ hs₂)
    obtain ⟨-, hs₂⟩ | ⟨-, hs₂⟩ := update_eq_some h₂
    · exact absurd hk₁ ((hst st₂ hs₂).2 key hk₂ c₁ st₁ hc₁ hs₁)
    · exact h.alone hs₁ hs₂ hk₁ hk₂

omit [DecidableEq ν] in
theorem extend (cl : Cluster ν)
    (hcluster : cl.Sound sha256 C getNode) (hmap : cl.blockMap = s.cluster.blockMap)
    (hlive : cl.live = s.cluster.live)
    (htracked : ∀ x, ∀ b ∈ (s.cluster.nodes x).blockMetas, b ∈ (cl.nodes x).blockMetas)
    (hst : ∀ st, st' = some st → st.Sound sha256 C getNode ((s.setCluster cl).setStage c st') ∧
      ∀ key, st.target = some key → s.Clear c key) :
    ((s.setCluster cl).setStage c st').Sound sha256 C getNode :=
  h.step none hcluster rfl (.of_eq rfl hlive hmap) (fun _ hkey => by cases hkey)
    (fun _ _ _ _ b _ x hb => htracked x b hb) hst

omit [DecidableEq ν] in
theorem move
    (hst : ∀ st, st' = some st → st.Sound sha256 C getNode s ∧
      ∀ key, st.target = some key → s.Clear c key) :
    (s.setStage c st').Sound sha256 C getNode := by
  refine h.extend s.cluster h.cluster rfl rfl (fun x b hb => hb) fun st hst' => ?_
  obtain ⟨hs, hclear⟩ := hst st hst'
  have hf : s.Frame (s.setStage c st') none := .of_eq rfl rfl rfl
  exact ⟨hs.frame hf (fun _ _ hkey => by cases hkey) fun b _ x hb => hb, hclear⟩

omit [DecidableEq ν] in
theorem leave : (s.setStage c none).Sound sha256 C getNode :=
  h.move fun _ hst => by cases hst

omit [DecidableEq ν] in
theorem startWrite (hC : data ∈ C) (hclear : ∀ c, ∀ st ∈ s.stages c, st.target ≠ some key) :
    Sound sha256 C getNode
      { s.setStage c (some (.store key data)) with
        cluster := { s.cluster with live := s.cluster.live.erase key }
        writes := update s.writes key (s.writes key + 1) } := by
  have hlive : ∀ k, k ≠ key → (s.cluster.live.erase key).lookup k = s.cluster.live.lookup k :=
    fun k hk => lookup_erase_ne hk
  refine h.step (some key) ?_ rfl ⟨fun k => ?_, fun k hw hk => ?_, fun k hk => ?_⟩ ?_
    (fun _ _ _ _ _ _ _ hb => hb) ?_
  · exact h.cluster.congr rfl (fun hl => ⟨(lookup_erase_eq_some hl).2, rfl⟩) fun hb => hb
  · by_cases hk : k = key
    · subst hk
      simp
    · simp [update_of_ne hk]
  · have hne : k ≠ key := by
      rintro rfl
      simp at hw
    exact ⟨hlive k hne, rfl⟩
  · exact ⟨fun hmem => (mem_erase.mp hmem).2, rfl⟩
  · intro k hk c' st _ hst
    cases hk
    exact hclear c' st hst
  · intro st hst
    cases hst
    refine ⟨⟨fun hmem => (mem_erase.mp hmem).1 rfl, hC⟩, fun k hk c' st _ hst => ?_⟩
    cases hk
    exact hclear c' st hst

theorem writeNodes {replica : ℕ} (hrep : 1 ≤ replica) {storages : List (ν × Delivery)}
    (hst : s.stages c = some (.store key data))
    (hfit : ∀ x ∈ storages, x.2.Fits sha256 (s.cluster.nodes x.1) data) :
    (s.writeNodes sha256 replica c key data storages).Sound sha256 C getNode := by
  obtain ⟨hk, hC⟩ := h.stages hst
  rw [Coordinator.writeNodes]
  split_ifs with hg
  · obtain ⟨hlen, hnodup⟩ := hg
    obtain ⟨hs, hext, hresp⟩ := @Cluster.Sound.sendWrites _ _ _ _ _ _ h.cluster
      ⟨key.1, key.2, data, crc32 data⟩ _ hC hnodup hfit
    split
    · next primary others cl heq =>
      rw [heq] at hs hext hresp
      obtain ⟨hlen', hheld⟩ := hresp _ rfl
      have hothers : others ≠ [] := by
        rintro rfl
        simp only [List.length_singleton] at hlen'
        omega
      obtain ⟨vol, x, hprimary, -⟩ := hheld primary List.mem_cons_self
      refine h.extend cl hs hext.blockMap hext.live hext.tracked fun st hst' => ?_
      cases hst'
      refine ⟨⟨?_, hC, by rw [hprimary]; rfl, serves_blockMetaOf hheld hothers⟩, ?_⟩
      · show key ∉ cl.live
        rwa [hext.live]
      · intro k hk'
        cases hk'
        exact h.clear hst rfl
    · next cl _ heq =>
      rw [heq] at hs hext
      exact h.extend cl hs hext.blockMap hext.live hext.tracked fun _ hst' => by cases hst'
  · exact h.leave

omit [DecidableEq ν] in
theorem relocate {st₀ : Stage ν}
    (hst₀ : s.stages c = some st₀) (htarget : st₀.target = some key) (hk : key ∉ s.cluster.live)
    (hkey : (m.ino, m.blockIndexInFile) = key) {st' : Stage ν} (htarget' : st'.target = some key)
    (hst : st'.Sound sha256 C getNode
      ((s.setCluster (s.cluster.updateBlockLocation m)).setStage c (some st'))) :
    ((s.setCluster (s.cluster.updateBlockLocation m)).setStage c (some st')).Sound sha256 C
      getNode := by
  have hentry : ∀ k, k ≠ key →
      ((s.setCluster (s.cluster.updateBlockLocation m)).setStage c (some st')).entry k =
        s.entry k := fun k hne =>
    (lookup_updateBlockLocation s.cluster m k).trans (if_neg (hkey ▸ hne))
  refine h.step (some key) (h.cluster.relocate hkey hk) rfl
    ⟨fun _ => le_rfl, fun k _ hlive => ⟨rfl, hentry k fun heq => hk (heq ▸ hlive)⟩,
      fun k hne => ⟨id, hentry k fun heq => hne (heq ▸ rfl)⟩⟩ ?_ (fun _ _ _ _ _ _ _ hb => hb) ?_
  · intro k heq
    cases heq
    exact h.clear hst₀ htarget
  · intro st heq
    cases heq
    refine ⟨hst, fun k hk' => ?_⟩
    cases htarget'.symm.trans hk'
    exact h.clear hst₀ htarget

omit [DecidableEq ν] in
theorem updateBlockLocation (hst : s.stages c = some (.locate key data storages m))
    (upd : UpdateReply) :
    (s.updateBlockLocation c key data storages m upd).Sound sha256 C getNode := by
  obtain ⟨hk, hC, hkey, hserves⟩ := h.stages hst
  have hentry : ((s.cluster.updateBlockLocation m).blockMap key.1).lookup key.2 = some m :=
    (lookup_updateBlockLocation s.cluster m key).trans (if_pos hkey.symm)
  cases upd with
  | stored => exact h.relocate hst rfl hk hkey rfl ⟨hk, hC, hkey, hentry, hserves⟩
  | refused =>
    refine h.move fun st heq => ?_
    cases heq
    exact ⟨hk, fun k hk' => by cases hk'; exact h.clear hst rfl⟩
  | unanswered => exact h.relocate hst rfl hk hkey rfl hk

theorem rollback {b : BlockID} (hst : s.stages c = some (.undo key storages b)) (order : ν → List ℕ)
    (hok : (Stage.undo key storages b).Spares getNode s) :
    ((s.setCluster (s.cluster.rollback storages b order)).setStage c none).Sound sha256 C
      getNode := by
  obtain ⟨hneed, hhold⟩ := hok
  obtain ⟨hmap, hlive, htracked⟩ :=
    rollback_keeps h.cluster.nodes storages b order
  have hcluster : (s.cluster.rollback storages b order).Sound sha256 C getNode :=
    h.cluster.rollback order fun x hx k hn => hneed x hx k (mem_keys.mpr hn.1) hn
  refine h.step none hcluster rfl (.of_eq rfl hlive hmap) (fun _ hkey => by cases hkey) ?_
    fun _ heq => by cases heq
  intro c' st _ hst' b' hb' x hx
  refine htracked x b' hx ?_
  rintro rfl
  exact hhold c' st hst' hb'

omit [DecidableEq ν] in
theorem delete (hst : s.stages c = some (.forget key data m)) :
    ((s.setCluster { s.cluster with
      blockMetaCache := s.cluster.blockMetaCache.erase key.1
      live := s.cluster.live.insert key data }).setStage c none).Sound sha256 C getNode := by
  obtain ⟨hk, hC, hkey, hm, hserves⟩ := h.stages hst
  refine h.step (some key) (h.cluster.settle hC hkey hm hserves) rfl
    ⟨fun _ => le_rfl, fun k _ hlive => ⟨?_, rfl⟩, fun k hne => ⟨fun hmem => ?_, rfl⟩⟩ ?_
    (fun _ _ _ _ _ _ _ hb => hb) fun _ heq => by cases heq
  · exact lookup_insert_of_ne _ fun heq => hk (heq ▸ hlive)
  · exact (mem_insert.mp hmem).resolve_left fun heq => hne (heq ▸ rfl)
  · intro k heq
    cases heq
    exact h.clear hst rfl

omit [DecidableEq ν] [DecidableEq κ] in
theorem recache {cl : Cluster ν}
    (hcluster : cl.Sound sha256 C getNode) (hmap : cl.blockMap = s.cluster.blockMap)
    (hlive : cl.live = s.cluster.live) (hnodes : cl.nodes = s.cluster.nodes) :
    (s.setCluster cl).Sound sha256 C getNode where
  cluster := hcluster
  stages hst := by
    have hf : s.Frame (s.setCluster cl) none := .of_eq rfl hlive hmap
    refine (h.stages hst).frame hf (fun _ _ hkey => by cases hkey) fun b _ x hb => ?_
    show b ∈ (cl.nodes x).blockMetas
    rwa [hnodes]
  alone := h.alone

omit [DecidableEq ν] in
theorem lookup (hst : s.stages c = some (.lookup q))
    (hbm : s.cluster.blockMetaCache.lookup q.ino = some bm) :
    (s.setStage c (some (.pick q bm))).Sound sha256 C getNode := by
  have hexp : q.Expects s := h.stages hst
  refine h.move fun st heq => ?_
  cases heq
  refine ⟨⟨hexp, ?_⟩, fun _ hk => by cases hk⟩
  cases q with
  | batchRead ino => trivial
  | read key expect since =>
    intro d hd hsince m hm
    have hlive := mem_of_lookup_eq_some (hexp.2 d hd hsince)
    exact h.cluster.cached hbm hlive hm

omit [DecidableEq ν] in
theorem getInoBlockMap (hst : s.stages c = some (.fetch q)) :
    (s.setStage c (some (.fill q (s.cluster.blockMap q.ino)))).Sound sha256 C getNode := by
  have hexp : q.Expects s := h.stages hst
  refine h.move fun st heq => ?_
  cases heq
  refine ⟨⟨hexp, ?_⟩, fun _ hk => by cases hk⟩
  cases q with
  | batchRead ino => trivial
  | read key expect since => exact fun d _ _ m hm => ⟨m, hm, .refl m⟩

omit [DecidableEq ν] in
theorem set (hst : s.stages c = some (.fill q bm)) (hfresh : (Stage.fill q bm).Fresh s.cluster) :
    ((s.setCluster { s.cluster with
      blockMetaCache := s.cluster.blockMetaCache.insert q.ino bm }).setStage c
        (some (.pick q bm))).Sound sha256 C getNode := by
  refine h.extend _ (h.cluster.fill fun key hk hino => hfresh key (mem_keys.mpr hk) hino)
    rfl rfl (fun x b hb => hb) fun st heq => ?_
  cases heq
  obtain ⟨hexp, hfinds⟩ := h.stages hst
  have hf : s.Frame ((s.setCluster { s.cluster with
      blockMetaCache := s.cluster.blockMetaCache.insert q.ino bm }).setStage c
        (some (.pick q bm))) none := .of_eq rfl rfl rfl
  exact ⟨⟨hexp.frame hf, hfinds.frame hexp hf⟩, fun _ hk => by cases hk⟩

omit [DecidableEq ν] [DecidableEq κ] in
theorem shuffle (ino : Ino) (index : ℕ) (sh : Shuffle) :
    (s.setCluster (shuffleCached s.cluster ino index sh)).Sound sha256 C getNode := by
  rw [shuffleCached]
  split
  · exact h
  next bm hbm =>
  split
  · exact h
  next m hm =>
  refine h.recache (h.cluster.setCache fun i m' hm' => ?_) rfl rfl rfl
  rw [Cluster.ensureBlockMetaCached, hbm, Option.getD_some] at hm'
  by_cases hi : i = index
  · subst hi
    cases hm.symm.trans hm'
    exact ⟨_, lookup_insert _, .shuffled m [sh]⟩
  · exact ⟨m', (lookup_insert_of_ne _ hi).trans hm', .refl m'⟩

theorem next {replica : ℕ} (hrep : 1 ≤ replica)
    {e : Event ν κ} (hok : e.Careful sha256 C getNode s) :
    (e.next sha256 replica getNode s).Sound sha256 C getNode := by
  cases e with
  | startRead c key =>
    simp only [Event.next]
    split
    · refine h.move fun st heq => ?_
      cases heq
      exact ⟨⟨le_rfl, fun d hd _ => hd⟩, fun _ hk => by cases hk⟩
    · exact h
  | startBatchRead c ino =>
    simp only [Event.next]
    split
    · refine h.move fun st heq => ?_
      cases heq
      exact ⟨trivial, fun _ hk => by cases hk⟩
    · exact h
  | startWrite c key data =>
    simp only [Event.next]
    split
    · exact h.startWrite hok.1 hok.2
    · exact h
  | lookup c =>
    simp only [Event.next]
    split
    · next q hst =>
      split
      · next bm hbm => exact h.lookup hst hbm
      have hexp : q.Expects s := h.stages hst
      refine h.move fun st heq => ?_
      cases heq
      exact ⟨hexp, fun _ hk => by cases hk⟩
    · exact h
  | getInoBlockMap c =>
    simp only [Event.next]
    split
    · next q hst => exact h.getInoBlockMap hst
    · exact h
  | set c =>
    simp only [Event.next]
    split
    · next q bm hst => exact h.set hst (hok _ hst)
    · exact h
  | readNodes c earlier sh ch =>
    simp only [Event.next]
    split
    · next key _ _ bm hst =>
      obtain ⟨hs, hext⟩ := h.cluster.readNodes key bm earlier sh ch
      exact h.extend _ hs hext.blockMap hext.live hext.tracked fun _ heq => by cases heq
    · exact h
  | readBatch c blocks ch =>
    simp only [Event.next]
    split
    · obtain ⟨hs, hext⟩ := h.cluster.readBatch blocks ch
      exact h.extend _ hs hext.blockMap hext.live hext.tracked fun _ heq => by cases heq
    · exact h
  | writeNodes c storages =>
    simp only [Event.next]
    split
    · next key data hst => exact h.writeNodes hrep hst (hok _ hst)
    · exact h
  | updateBlockLocation c upd =>
    simp only [Event.next]
    split
    · next key data storages m hst => exact h.updateBlockLocation hst upd
    · exact h
  | rollback c order =>
    simp only [Event.next]
    split
    · next key storages b hst => exact h.rollback hst order (hok _ hst)
    · exact h
  | delete c =>
    simp only [Event.next]
    split
    · next key data m hst => exact h.delete hst
    · exact h
  | shuffle ino index sh => exact h.shuffle ino index sh
  | expire ino => exact h.recache (h.cluster.expire ino) rfl rfl rfl

end

omit [DecidableEq ν] [DecidableEq κ] in
theorem new {vols : ν → List (ℕ × ℕ × VolumeStatistics)}
    (hhome : ∀ x, ∀ e ∈ vols x, getNode e.1 = some x) :
    (.new vols : Coordinator ν κ).Sound sha256 C getNode where
  cluster := .new hhome
  stages hst := by cases hst
  alone hst := by cases hst

omit [DecidableEq κ] in
theorem readNodes_reply (h : s.Sound sha256 C getNode) (hinj : Set.InjOn sha256 C) {d : Bytes}
    {since : ℕ} (hst : s.stages c = some (.pick (.read key (some d) since) bm))
    (hsince : s.writes key = since) (earlier : List Shuffle) (sh : Shuffle) (ch : ReadChoice) :
    (readNodes getNode s.cluster key bm earlier sh ch).1 = some (.ok d) := by
  obtain ⟨hexp, hfinds⟩ := h.stages hst
  obtain ⟨hC, m₀, hm₀, hs₀⟩ := h.cluster.live (hexp.2 d rfl hsince)
  obtain ⟨m, hm, hr⟩ := hfinds d rfl hsince m₀ hm₀
  have hserves := hs₀.reorders (hr.trans (.shuffled m earlier))
  obtain ⟨vol₀, vol₁, rest, x, hvols, hx, hb⟩ := volumes_of_serves hserves sh
  rw [readNodes]
  simp only [hm, hvols]
  exact readEither_reply hinj vol₁ hC hserves hx (h.cluster.nodes x) hb ch

end Sound

def CarefulReach (sha256 : Bytes → BlockID) (C : Set Bytes) (replica : ℕ)
    (getNode : ℕ → Option ν) (vols : ν → List (ℕ × ℕ × VolumeStatistics)) :
    Coordinator ν κ → Prop :=
  Reach (Event.next sha256 replica getNode) (fun s e => e.Careful sha256 C getNode s)
    (new vols)

/-- In every run of careful steps, over contents without digest collisions and with at least
one replica: a `Read` that has started after the last `Write` of its key returned nil gets
what that has written, if no further `Write` of the key has started. -/
theorem read_after_write {sha256 : Bytes → BlockID} {C : Set Bytes} (hinj : Set.InjOn sha256 C)
    {replica : ℕ} (hrep : 1 ≤ replica) {getNode : ℕ → Option ν}
    {vols : ν → List (ℕ × ℕ × VolumeStatistics)}
    (hhome : ∀ x, ∀ e ∈ vols x, getNode e.1 = some x) {s : Coordinator ν κ}
    (hs : CarefulReach sha256 C replica getNode vols s) {c : κ} {key : BlockKey} {d : Bytes}
    {since : ℕ} {bm : InoBlockMap}
    (hst : s.stages c = some (.pick (.read key (some d) since) bm)) (hsince : s.writes key = since)
    (earlier : List Shuffle) (sh : Shuffle) (ch : ReadChoice) :
    (readNodes getNode s.cluster key bm earlier sh ch).1 = some (.ok d) := by
  have hsound : s.Sound sha256 C getNode :=
    Reach.invariant (I := Coordinator.Sound sha256 C getNode)
      (fun _ _ hI hok => hI.next hrep hok) hs (.new hhome)
  exact hsound.readNodes_reply hinj hst hsince earlier sh ch

/-! ### Two nodes and two callers -/

def pairWriteSteps (ino : Ino) (byte : UInt8) : List (Event Bool Bool) :=
  [.startWrite false (ino, 0) [byte],
    .writeNodes false [(false, .answered 7 0), (true, .answered 8 0)],
    .updateBlockLocation false .stored, .delete false]

def pairSteps (es : List (Event Bool Bool)) : Coordinator Bool Bool :=
  exec (Event.next sampleSha 1 pairNode) es (new pairVols)

def freshFill : List (Event Bool Bool) :=
  pairWriteSteps 1 1 ++ [.startRead true (1, 0), .lookup true, .getInoBlockMap true, .set true]

theorem read_after_write_sample :
    (pairSteps freshFill).writes (1, 0) = 1 ∧
      (readNodes pairNode (pairSteps freshFill).cluster (1, 0)
        ((pairSteps freshFill).cluster.blockMap 1) [] .reverse {}).1 = some (.ok [1]) := by
  have hlegal : Legal (Event.next sampleSha 1 pairNode)
      (fun s e => e.Careful sampleSha sampleContents pairNode s) freshFill (new pairVols) := by
    decide +kernel
  have hreach : CarefulReach sampleSha sampleContents 1 pairNode pairVols (pairSteps freshFill) :=
    reach_exec hlegal
  have hstage : (pairSteps freshFill).stages true =
      some (.pick (.read (1, 0) (some [1]) 1) ((pairSteps freshFill).cluster.blockMap 1)) := rfl
  have hwrites : (pairSteps freshFill).writes (1, 0) = 1 := by decide +kernel
  exact ⟨hwrites, read_after_write injOn_sampleSha (by decide) (by decide) hreach hstage hwrites
    [] .reverse {}⟩

def staleFill : List (Event Bool Bool) :=
  [.startRead true (1, 0), .lookup true, .getInoBlockMap true] ++ pairWriteSteps 1 1 ++
    [.set true, .readNodes true [] .reverse {}, .startRead true (1, 0), .lookup true]

theorem read_misses_write :
    (pairSteps staleFill).stages true = some (.pick (.read (1, 0) (some [1]) 1) ∅) ∧
      (pairSteps staleFill).writes (1, 0) = 1 ∧
      (readNodes pairNode (pairSteps staleFill).cluster (1, 0) ∅ [] .reverse {}).1 =
        some (.error .blockNotFound) :=
  ⟨rfl, by decide +kernel, by decide +kernel⟩

end Coordinator

end HugoFS.Gateway
