import HugoFS.Storage.Requests

/-!
# The volume coordinator

`VolumeCoordinator` keeps each block of a file on several storage nodes. The meta service maps
the inode and the index of a block to the digest of its content and the volumes that have a
copy. What is not determined by the state (which nodes are chosen, which requests get through,
in which order a Go map is walked through) is an argument of a call.
-/

namespace HugoFS.Gateway

open HugoFS.Meta (Ino)
open HugoFS.Storage Function

/-! ### The state -/

structure BlockMeta where
  ino : Ino
  blockIndexInFile : ℕ
  blockId : BlockID
  primaryVolumeId : ℕ
  secondaryVolumeIds : List ℕ
  crc32 : UInt32
  len : ℕ
deriving DecidableEq

def BlockMeta.volumes (m : BlockMeta) : List ℕ := m.secondaryVolumeIds ++ [m.primaryVolumeId]

abbrev BlockKey := Ino × ℕ

abbrev InoBlockMap := Finmap fun _ : ℕ => BlockMeta

/-- `live` is the content of the keys as the users of the coordinator know them: what
the last `Write` of the key that returned nil has written, unless the inode was deleted
after that. -/
structure Cluster (ν : Type) where
  nodes : ν → Node
  blockMap : Ino → InoBlockMap
  blockMetaCache : Finmap fun _ : Ino => InoBlockMap
  live : Finmap fun _ : BlockKey => Bytes

inductive Delivery
  | lost
  | answered (vol : ℕ) (now : ℤ)
  | unanswered (vol : ℕ) (now : ℤ)

inductive UpdateReply
  | stored
  | refused
  | unanswered
deriving DecidableEq

inductive WriteError
  | noSuchNode
  | storage
  | blockLocation

inductive ReadError
  | blockNotFound
  | outOfRange
  | noSuchVolume
  | node (e : NodeError)
deriving DecidableEq

structure Shuffle where
  apply : List ℕ → List ℕ
  perm : ∀ l, (apply l).Perm l

namespace Cluster

variable {ν : Type} [DecidableEq ν]

def setNode (cl : Cluster ν) (x : ν) (n : Node) : Cluster ν :=
  { cl with nodes := Function.update cl.nodes x n }

theorem setNode_nodes_self (cl : Cluster ν) (x : ν) (n : Node) : (cl.setNode x n).nodes x = n :=
  update_self ..

theorem setNode_nodes_of_ne (cl : Cluster ν) {x y : ν} (n : Node) (h : y ≠ x) :
    (cl.setNode x n).nodes y = cl.nodes y :=
  update_of_ne h ..

/-! ### Write -/

def sendWrite (sha256 : Bytes → BlockID) (cl : Cluster ν) (req : WriteRequest) (x : ν) :
    Delivery → Option WriteResponse × Cluster ν
  | .lost => (none, cl)
  | .answered vol now =>
    let r := (cl.nodes x).write sha256 req vol now
    (match r.1 with
      | some (.ok resp) => some resp
      | _ => none, cl.setNode x r.2)
  | .unanswered vol now => (none, cl.setNode x ((cl.nodes x).write sha256 req vol now).2)

def sendWrites (sha256 : Bytes → BlockID) (req : WriteRequest) :
    List (ν × Delivery) → Cluster ν → Option (List WriteResponse) × Cluster ν
  | [], cl => (some [], cl)
  | (x, d) :: storages, cl =>
    let r := cl.sendWrite sha256 req x d
    let rs := sendWrites sha256 req storages r.2
    (r.1.bind fun resp => rs.1.map (resp :: ·), rs.2)

def updateBlockLocation (cl : Cluster ν) (m : BlockMeta) : Cluster ν :=
  { cl with
    blockMap := Function.update cl.blockMap m.ino
      ((cl.blockMap m.ino).insert m.blockIndexInFile m) }

omit [DecidableEq ν] in
theorem lookup_updateBlockLocation (cl : Cluster ν) (m : BlockMeta) (key : BlockKey) :
    ((cl.updateBlockLocation m).blockMap key.1).lookup key.2 =
      if key = (m.ino, m.blockIndexInFile) then some m else (cl.blockMap key.1).lookup key.2 := by
  obtain ⟨ino, index⟩ := key
  rw [updateBlockLocation]
  by_cases hino : ino = m.ino
  · subst hino
    by_cases hindex : index = m.blockIndexInFile
    · subst hindex
      simp
    · simp [hindex]
  · simp [hino]

/-- The deletion of the block on all storages, with errors ignored. `order x` are the
volumes that node `x` cleans, none if the request does not get through. -/
def rollback (cl : Cluster ν) (storages : List ν) (b : BlockID) (order : ν → List ℕ) :
    Cluster ν :=
  storages.foldl (fun cl x => cl.setNode x ((cl.nodes x).deleteBlock [b] (order x))) cl

def blockMetaOf (primary : WriteResponse) (others : List WriteResponse) : BlockMeta :=
  ⟨primary.ino, primary.blockIdx, primary.blockId, primary.volId, others.map (·.volId),
    primary.crc32, primary.len⟩

def doWrite (sha256 : Bytes → BlockID) (cl : Cluster ν) (key : BlockKey) (data : Bytes)
    (storages : List (ν × Delivery)) (upd : UpdateReply) (order : ν → List ℕ) :
    Except WriteError Unit × Cluster ν :=
  match sendWrites sha256 ⟨key.1, key.2, data, crc32 data⟩ storages cl with
  | (some (primary :: others), cl') =>
    match upd with
    | .stored =>
      (.ok (), { cl'.updateBlockLocation (blockMetaOf primary others) with
        blockMetaCache := cl'.blockMetaCache.erase key.1
        live := cl'.live.insert key data })
    | .refused =>
      (.error .blockLocation, cl'.rollback (storages.map Prod.fst) primary.blockId order)
    | .unanswered =>
      -- The key is overwritten, although the call fails.
      (.error .blockLocation,
        { cl'.updateBlockLocation (blockMetaOf primary others) with
          live := cl'.live.erase key }.rollback (storages.map Prod.fst) primary.blockId order)
  | (_, cl') => (.error .storage, cl')

def write (sha256 : Bytes → BlockID) (replica : ℕ) (cl : Cluster ν) (key : BlockKey) (data : Bytes)
    (storages : List (ν × Delivery)) (upd : UpdateReply) (order : ν → List ℕ) :
    Except WriteError Unit × Cluster ν :=
  if storages.length = replica + 1 ∧ (storages.map Prod.fst).Nodup then
    cl.doWrite sha256 key data storages upd order
  else (.error .noSuchNode, cl)

/-! ### Delete -/

def blocksAt (blocks : List BlockMeta) (vol : ℕ) : List BlockID :=
  blocks.flatMap fun m =>
    ((m.primaryVolumeId :: m.secondaryVolumeIds).filter (· == vol)).map fun _ => m.blockId

def deleteAt (getNode : ℕ → Option ν) (cl : Cluster ν) (vol : ℕ) (ids : List BlockID)
    (order : List ℕ) : Cluster ν :=
  match getNode vol with
  | none => cl
  | some x => cl.setNode x ((cl.nodes x).deleteBlock ids order)

/-- `VolumeCoordinator.Delete`. `blocks` lists the block map of the inode, and `jobs`
the volumes whose request gets through. Neither the block map nor the cache change. -/
def delete (getNode : ℕ → Option ν) (cl : Cluster ν) (ino : Ino) (blocks : List BlockMeta)
    (jobs : List (ℕ × List ℕ)) : Cluster ν :=
  if (blocks : Multiset BlockMeta) = (cl.blockMap ino).entries.map (fun e => e.2) then
    jobs.foldl (fun cl j => cl.deleteAt getNode j.1 (blocksAt blocks j.1) j.2)
      { cl with live := cl.live.restrict fun key => key.1 != ino }
  else cl

/-! ### Read -/

def ensureBlockMetaCached (cl : Cluster ν) (ino : Ino) : InoBlockMap :=
  (cl.blockMetaCache.lookup ino).getD (cl.blockMap ino)

def pairIndex (index : ℕ) (blockId id : BlockID) : ℕ := if blockId = id then index else 0

def doRead (getNode : ℕ → Option ν) (cl : Cluster ν) (vol index : ℕ) (b : BlockID)
    (ch : ReadChoice) :
    Option (Except ReadError (Finmap fun _ : ℕ => Bytes)) × Cluster ν :=
  match getNode vol with
  | none => (some (.error .noSuchVolume), cl)
  | some x =>
    let r := (cl.nodes x).readBlocks b ch
    (r.1.map fun
      | .error e => .error (.node e)
      | .ok blocks =>
        .ok (blocks.foldl (fun m blk => m.insert (pairIndex index b blk.id) blk.data) ∅),
      cl.setNode x r.2)

def valueAt (m : Finmap fun _ : ℕ => Bytes) (i : ℕ) : Bytes := (m.lookup i).getD []

def readEither (getNode : ℕ → Option ν) (cl : Cluster ν) (vol₀ vol₁ index : ℕ) (m : BlockMeta)
    (ch : ReadChoice) : Option (Except ReadError Bytes) × Cluster ν :=
  let r₀ := cl.doRead getNode vol₀ index m.blockId ch
  match r₀.1 with
  | some (.error _) =>
    let r₁ := r₀.2.doRead getNode vol₁ index m.blockId ch
    (r₁.1.map (Except.map (valueAt · m.blockIndexInFile)), r₁.2)
  | reply => (reply.map (Except.map (valueAt · m.blockIndexInFile)), r₀.2)

def read (getNode : ℕ → Option ν) (cl : Cluster ν) (key : BlockKey) (s : Shuffle)
    (inPlace : Bool) (ch : ReadChoice) : Option (Except ReadError Bytes) × Cluster ν :=
  let bm := cl.ensureBlockMetaCached key.1
  match bm.lookup key.2 with
  | none => (some (.error .blockNotFound),
      { cl with blockMetaCache := cl.blockMetaCache.insert key.1 bm })
  | some m =>
    let volIds := s.apply m.volumes
    let m' := if inPlace then
        { m with secondaryVolumeIds := volIds.take m.secondaryVolumeIds.length }
      else m
    let cl' := { cl with
      blockMetaCache := cl.blockMetaCache.insert key.1 (bm.insert key.2 m') }
    match volIds with
    | vol₀ :: vol₁ :: _ => cl'.readEither getNode vol₀ vol₁ key.2 m ch
    | _ => (some (.error .outOfRange), cl')

end Cluster

/-! ### Histories -/

inductive Call (ν : Type)
  | write (key : BlockKey) (data : Bytes) (storages : List (ν × Delivery)) (upd : UpdateReply)
      (order : ν → List ℕ)
  | delete (ino : Ino) (blocks : List BlockMeta) (jobs : List (ℕ × List ℕ))
  | read (key : BlockKey) (s : Shuffle) (inPlace : Bool) (ch : ReadChoice)
  | expire (ino : Ino)
  | lateWrite (x : ν) (req : WriteRequest) (vol : ℕ) (now : ℤ)
  | lateDelete (x : ν) (ids : List BlockID) (order : List ℕ)
  | setVolStat (x : ν) (vol : ℕ) (s : VolumeStatistics)

def Call.next {ν : Type} [DecidableEq ν] (sha256 : Bytes → BlockID) (replica : ℕ)
    (getNode : ℕ → Option ν) : Call ν → Cluster ν → Cluster ν
  | .write key data storages upd order, cl =>
    (cl.write sha256 replica key data storages upd order).2
  | .delete ino blocks jobs, cl => cl.delete getNode ino blocks jobs
  | .read key s inPlace ch, cl => (cl.read getNode key s inPlace ch).2
  | .expire ino, cl => { cl with blockMetaCache := cl.blockMetaCache.erase ino }
  | .lateWrite x req vol now, cl => cl.setNode x ((cl.nodes x).write sha256 req vol now).2
  | .lateDelete x ids order, cl => cl.setNode x ((cl.nodes x).deleteBlock ids order)
  | .setVolStat x vol s, cl =>
    cl.setNode x { cl.nodes x with volStats := (cl.nodes x).volStats.insert vol s }

def newCluster {ν : Type} (vols : ν → List (ℕ × ℕ × VolumeStatistics)) : Cluster ν :=
  ⟨fun x => newNode (vols x), fun _ => ∅, ∅, ∅⟩

end HugoFS.Gateway
