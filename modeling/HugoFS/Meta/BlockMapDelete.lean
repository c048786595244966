import HugoFS.Meta.BlockHistory
import HugoFS.Store.Tikv

/-!
# Deleting the block map of an inode

`GetInoBlockMap` reads the bucket of an inode, and `DeleteInoBlockMap` deletes the key that it
formats from the inode alone. That is the key of the block with index 0, and not the bucket.
-/

namespace HugoFS.BlockMap

open Store List Record

inductive GetErr (ε : Type)
  | emptyPrefix
  | unmarshal (e : ε)
  | panic

structure MapOrder where
  bufs : List Value → List Value
  metas : List (Option BlockMeta) → List (Option BlockMeta)
  bufs_perm : ∀ l, (bufs l).Perm l
  metas_perm : ∀ l, (metas l).Perm l

structure InoBlockMap where
  ino : UInt64
  virtualVolumeID : UInt64
  blocks : Finmap fun _ : UInt64 => BlockMeta

def getByBucket : Backend → Db → Key → Db
  | .badger => BadgerStore.getByBucket
  | .tikv => TikvStore.getByBucket

def delete : Backend → Db → Key → Db
  | .badger => BadgerStore.delete
  | .tikv => TikvStore.delete

def deleteInoBlockMap (b : Backend) (m : Db) (ino : UInt64) : Except BlockErr Db := do
  checkKey (.blockMeta ino 0)
  return delete b m (Record.blockMeta ino 0).formatKey

section Get

variable {ε : Type} (unmarshal : Value → Except ε (Option BlockMeta)) (o : MapOrder) (b : Backend)
  (m : Db)

def doGetValuesByPrefix (r : Record) : Except (GetErr ε) (List (Option BlockMeta)) :=
  if r.formatPrefix = [] then .error .emptyPrefix
  else (o.bufs ((getByBucket b m r.formatPrefix).entries.map Prod.snd)).mapM fun v =>
    (unmarshal v).mapError .unmarshal

def addBlock (out : InoBlockMap) : Option BlockMeta → Except (GetErr ε) InoBlockMap
  | none => .error .panic
  | some e => .ok { out with
      blocks := out.blocks.insert e.blockIndexInFile e
      virtualVolumeID := if out.virtualVolumeID = 0 then e.virtualVolumeId else out.virtualVolumeID }

def getInoBlockMap (ino : UInt64) : Except (GetErr ε) InoBlockMap := do
  let metas ← doGetValuesByPrefix unmarshal o b m (.blockMeta ino 0)
  (o.metas metas).foldlM addBlock ⟨ino, 0, ∅⟩

variable {unmarshal o b m}

theorem foldlM_addBlock_blocks {l : List (Option BlockMeta)} {out r : InoBlockMap}
    (h : l.foldlM (addBlock (ε := ε)) out = .ok r) (hne : l ≠ [] ∨ out.blocks ≠ ∅) :
    r.blocks ≠ ∅ := by
  induction l generalizing out with
  | nil =>
    cases h
    exact hne.resolve_left fun h => h rfl
  | cons e l ih =>
    rw [foldlM_cons] at h
    cases e with
    | none => cases h
    | some e =>
      refine ih h (.inr fun hempty => ?_)
      have hmem : e.blockIndexInFile ∈ out.blocks.insert e.blockIndexInFile e :=
        Finmap.mem_insert.mpr (.inl rfl)
      rw [show out.blocks.insert e.blockIndexInFile e = ∅ from hempty] at hmem
      exact Finmap.notMem_empty hmem

theorem getInoBlockMap_empty_iff {ino : UInt64} :
    (∃ r, getInoBlockMap unmarshal o b m ino = .ok r ∧ r.blocks = ∅) ↔
      (getByBucket b m (blockMeta ino 0).formatPrefix).entries = [] := by
  have hprefix : (blockMeta ino 0).formatPrefix ≠ [] := by
    rw [formatPrefix_blockMeta]
    exact append_ne_nil_of_right_ne_nil _ (cons_ne_nil _ _)
  rw [getInoBlockMap, doGetValuesByPrefix, if_neg hprefix]
  generalize (getByBucket b m (blockMeta ino 0).formatPrefix).entries = l
  constructor
  · rintro ⟨r, hr, hempty⟩
    by_contra hl
    have hbufs : o.bufs (l.map Prod.snd) ≠ [] := by
      rw [ne_eq, ← length_eq_zero_iff, (o.bufs_perm _).length_eq, length_map,
        length_eq_zero_iff]
      exact hl
    obtain ⟨v, vs, hvs⟩ := exists_cons_of_ne_nil hbufs
    rw [hvs, mapM_cons] at hr
    cases hv : (unmarshal v).mapError GetErr.unmarshal with
    | error e =>
      rw [hv] at hr
      cases hr
    | ok e =>
      cases hes : vs.mapM fun v => (unmarshal v).mapError GetErr.unmarshal with
      | error e' =>
        rw [hv, hes] at hr
        cases hr
      | ok es =>
        rw [hv, hes] at hr
        refine foldlM_addBlock_blocks hr (.inl fun hnil => ?_) hempty
        have hlen := (o.metas_perm (e :: es)).length_eq
        rw [show o.metas (e :: es) = [] from hnil] at hlen
        cases hlen
  · rintro rfl
    have hbufs : o.bufs [] = [] := (o.bufs_perm []).eq_nil
    have hmetas : o.metas [] = [] := (o.metas_perm []).eq_nil
    exact ⟨⟨ino, 0, ∅⟩, by simp [hbufs, hmetas, bind, Except.bind, pure, Except.pure], rfl⟩

end Get

theorem getByBucket_ofIno (b : Backend) (m : Db) (ino : UInt64) :
    getByBucket b m (blockMeta ino 0).formatPrefix =
      m.filter fun k => hasPrefix k (blockMeta ino 0).formatPrefix := by
  rw [formatPrefix_blockMeta]
  cases b with
  | badger => exact getByBucket_bucketOf m .blockMeta ino
  | tikv => exact TikvStore.getByBucket_eq m _

theorem deleteInoBlockMap_eq (b : Backend) (m : Db) (ino : UInt64) :
    deleteInoBlockMap b m ino = .ok (m.del (blockMeta ino 0).formatKey) := by
  rw [deleteInoBlockMap, checkKey_ok rfl (fmtUint_ne_nil 0)]
  cases b <;> rfl

/-- The deletion succeeds. It leaves the map of the inode without blocks if and only if nothing
was stored in its bucket but the location with index 0, and the map of any other inode as it
was. -/
theorem deleteInoBlockMap_clears_iff {ε : Type} (unmarshal : Value → Except ε (Option BlockMeta))
    (o : MapOrder) (b : Backend) (m : Db) (ino : UInt64) :
    ∃ m', deleteInoBlockMap b m ino = .ok m' ∧
      ((∃ r, getInoBlockMap unmarshal o b m' ino = .ok r ∧ r.blocks = ∅) ↔
        ∀ e ∈ m.entries, (Record.blockMeta ino 0).formatPrefix <+: e.1 →
          e.1 = (Record.blockMeta ino 0).formatKey) ∧
      ∀ j ≠ ino, getInoBlockMap unmarshal o b m' j = getInoBlockMap unmarshal o b m j := by
  refine ⟨_, deleteInoBlockMap_eq b m ino, ?_, fun j hj => ?_⟩
  · rw [getInoBlockMap_empty_iff, getByBucket_ofIno]
    change filter _ (filter _ m.entries) = [] ↔ _
    rw [filter_filter, filter_eq_nil_iff]
    refine forall₂_congr fun e _ => ?_
    simp only [Bool.and_eq_true, hasPrefix_iff, decide_eq_true_eq, ne_eq, not_and, not_not]
  · -- the deleted key lies in no other bucket
    have hout : ¬(Record.blockMeta j 0).formatPrefix <+: (Record.blockMeta ino 0).formatKey := by
      rw [formatPrefix_blockMeta, Record.in_blockMeta_bucket_iff]
      rintro ⟨i, hi⟩
      exact hj (Record.blockMeta.inj hi).1.symm
    have hbucket : getByBucket b (m.del (Record.blockMeta ino 0).formatKey)
        (Record.blockMeta j 0).formatPrefix = getByBucket b m (Record.blockMeta j 0).formatPrefix := by
      rw [getByBucket_ofIno, getByBucket_ofIno]
      apply SortedMap.ext_get
      intro k
      rw [SortedMap.get_filter, SortedMap.get_filter, SortedMap.get_del]
      by_cases hk : k = (Record.blockMeta ino 0).formatKey
      · rw [hk, if_neg (by rwa [hasPrefix_iff]), if_neg (by rwa [hasPrefix_iff])]
      · rw [if_neg hk]
    rw [getInoBlockMap, getInoBlockMap, doGetValuesByPrefix, doGetValuesByPrefix, hbucket]

def twoBlockMap : Db := saveRecords [(.blockMeta 7 0, [0]), (.blockMeta 7 1, [1])]

def readIndex (v : Value) : Except Unit (Option BlockMeta) :=
  .ok (v.head?.map fun i => { ino := 7, blockIndexInFile := i.toUInt64 })

def secondAfterDelete (b : Backend) : Option BlockMeta := do
  let m ← (deleteInoBlockMap b twoBlockMap 7).toOption
  let r ← (getInoBlockMap readIndex ⟨id, id, fun _ => .refl _, fun _ => .refl _⟩ b m 7).toOption
  r.blocks.lookup 1

theorem deleteInoBlockMap_leaves_block :
    secondAfterDelete .badger = some { ino := 7, blockIndexInFile := 1 } ∧
      secondAfterDelete .tikv = some { ino := 7, blockIndexInFile := 1 } := by
  decide +kernel

end HugoFS.BlockMap
