import HugoFS.Adaptor.IntervalMerge
import HugoFS.Gateway.BatchRead

/-!
# Writing into a stored block

`WriteAt` reads a block, copies the new bytes over it and writes it to those nodes of its volumes
that are known. It locks `blockMetaMu` for that, and only the last exit unlocks it.
-/

namespace HugoFS.Gateway

open Finmap List
open HugoFS.Meta (Ino)
open HugoFS.Storage
open HugoFS.Adaptor (IntervalList)

/-! ### The call -/

inductive WriteAtError
  | read (e : ReadError)
  | copy
  | noSuchVolume
  | write (e : WriteError)

/-- What a call does not find in the state. `metaDown` is whether `GetInoBlockMap` fails, and
`storages` are the nodes for a block that is written as a whole. -/
structure WriteAtEnv (ν : Type) where
  metaDown : Bool
  shuffle : Shuffle
  inPlace : Bool
  choice : ReadChoice
  storages : List (ν × Delivery)
  deliver : ℕ → Delivery
  upd : UpdateReply
  order : ν → List ℕ

def BlockMeta.reordered (m : BlockMeta) (s : Shuffle) (inPlace : Bool) : BlockMeta :=
  if inPlace then
    { m with secondaryVolumeIds := (s.apply m.volumes).take m.secondaryVolumeIds.length }
  else m

/-- `WriteAt` up to its write, with an error of `none` if it does not return. -/
inductive Prepared (ν : Type)
  | whole (cl : Cluster ν)
  | overlay (cl : Cluster ν) (data : Bytes) (nodes : List ν)
  | failed (cl : Cluster ν) (err : Option WriteAtError)

def Prepared.cluster {ν : Type} : Prepared ν → Cluster ν
  | .whole cl => cl
  | .overlay cl _ _ => cl
  | .failed cl _ => cl

structure WriteAtEnd (ν : Type) where
  reply : Option (Except WriteAtError Unit)
  cluster : Cluster ν
  locked : Bool

namespace Cluster

variable {ν : Type} [DecidableEq ν]

def cacheMeta (cl : Cluster ν) (key : BlockKey) (m : BlockMeta) : Cluster ν :=
  { cl with blockMetaCache :=
      cl.blockMetaCache.insert key.1 ((cl.ensureBlockMetaCached key.1).insert key.2 m) }

def prepare (getNode : ℕ → Option ν) (cl : Cluster ν) (key : BlockKey) (interval : IntervalList)
    (data : Bytes) (env : WriteAtEnv ν) : Prepared ν :=
  let bm := cl.ensureBlockMetaCached key.1
  if env.metaDown ∧ cl.blockMetaCache.lookup key.1 = none then .whole cl
  else match bm.lookup key.2 with
  | none => .whole { cl with blockMetaCache := cl.blockMetaCache.insert key.1 bm }
  | some m =>
    let m' := m.reordered env.shuffle env.inPlace
    match env.shuffle.apply m.volumes with
    | vol₀ :: vol₁ :: _ =>
      let r := (cl.cacheMeta key m').readEither getNode vol₀ vol₁ key.2
        { m with blockIndexInFile := key.2 } env.choice
      match r.1 with
      | none => .failed r.2 none
      | some (.error e) => .failed r.2 (some (.read e))
      | some (.ok blockData) =>
        match interval.copy blockData data with
        | none => .failed r.2 none
        | some (_, .error _) => .failed r.2 (some .copy)
        | some (_, .ok done) =>
          match getNode m.primaryVolumeId with
          | none => .failed r.2 (some .noSuchVolume)
          | some x => .overlay r.2 done.2 (x :: m'.secondaryVolumeIds.filterMap getNode)
    | _ => .failed (cl.cacheMeta key m') (some (.read .outOfRange))

/-- `WriteAt` with `blockMetaMu` unlocked, and whether it leaves it locked. -/
def writeAt (sha256 : Bytes → BlockID) (replica : ℕ) (getNode : ℕ → Option ν) (cl : Cluster ν)
    (key : BlockKey) (interval : IntervalList) (data : Bytes) (env : WriteAtEnv ν) :
    WriteAtEnd ν :=
  let written (r : Except WriteError Unit × Cluster ν) : WriteAtEnd ν :=
    ⟨some (r.1.mapError .write), r.2, false⟩
  match cl.prepare getNode key interval data env with
  | .whole cl' => written (cl'.write sha256 replica key data env.storages env.upd env.order)
  | .overlay cl' blockData nodes =>
    written (cl'.doWrite sha256 key blockData (nodes.mapIdx fun i x => (x, env.deliver i)) env.upd
      env.order)
  | .failed cl' err => ⟨err.map .error, cl', true⟩

/-! ### The lock -/

/-- `WriteAt` unlocks `blockMetaMu` exactly if it writes a whole block, or has two volumes to read
from, a read that succeeds, slices of one length and a node for the first volume. -/
theorem writeAt_unlocks_iff (sha256 : Bytes → BlockID) (replica : ℕ) (getNode : ℕ → Option ν)
    (cl : Cluster ν) (key : BlockKey) (interval : IntervalList) (data : Bytes)
    (env : WriteAtEnv ν) :
    (cl.writeAt sha256 replica getNode key interval data env).locked = false ↔
      (env.metaDown = true ∧ cl.blockMetaCache.lookup key.1 = none) ∨
      (cl.ensureBlockMetaCached key.1).lookup key.2 = none ∨
      ∃ m vol₀ vol₁ rest old l done x, (cl.ensureBlockMetaCached key.1).lookup key.2 = some m ∧
        env.shuffle.apply m.volumes = vol₀ :: vol₁ :: rest ∧
        ((cl.cacheMeta key (m.reordered env.shuffle env.inPlace)).readEither getNode vol₀ vol₁ key.2
          { m with blockIndexInFile := key.2 } env.choice).1 = some (.ok old) ∧
        interval.copy old data = some (l, .ok done) ∧ getNode m.primaryVolumeId = some x := by
  rw [writeAt, prepare]
  by_cases hdown : env.metaDown = true ∧ cl.blockMetaCache.lookup key.1 = none
  · simp [hdown]
  rw [or_iff_right hdown]
  simp only [hdown, if_false]
  cases hm : (cl.ensureBlockMetaCached key.1).lookup key.2 with
  | none => simp
  | some m =>
    dsimp only
    rcases hv : env.shuffle.apply m.volumes with _ | ⟨vol₀, _ | ⟨vol₁, rest⟩⟩
    · simp [hv]
    · simp [hv]
    · dsimp only
      rcases hr : ((cl.cacheMeta key (m.reordered env.shuffle env.inPlace)).readEither getNode vol₀
        vol₁ key.2 { m with blockIndexInFile := key.2 } env.choice).1 with _ | e | old
      · simp [hv, hr]
      · simp [hv, hr]
      · rcases hc : interval.copy old data with _ | ⟨l, e | done⟩
        · simp [hv, hr, hc]
        · simp [hv, hr, hc]
        · cases hx : getNode m.primaryVolumeId with
          | none => simp [hv, hc, hx]
          | some x =>
            exact iff_of_true (by simp [hc])
              (.inr ⟨m, vol₀, vol₁, rest, old, l, done, x, rfl, hv, hr, hc, hx⟩)

def calm (s : Shuffle) : WriteAtEnv Bool :=
  ⟨false, s, false, {}, [(false, .answered 7 0), (true, .answered 8 0)],
    fun i => .answered (7 + i) 0, .stored, fun _ => []⟩

/-- A write into a stored block fails when no node is known, or for a slice of another length, with
`blockMetaMu` locked. -/
theorem writeAt_stays_locked :
    let cl := pairAfter [pairWrite 1 1 .stored]
    (cl.writeAt sampleSha 1 (fun _ => none) (1, 0) IntervalList.newIntervalList [9]
        (calm .reverse)).locked = true ∧
      (cl.writeAt sampleSha 1 pairNode (1, 0) IntervalList.newIntervalList [9, 9]
        (calm .reverse)).locked = true := by
  decide +kernel

end Cluster

end HugoFS.Gateway
