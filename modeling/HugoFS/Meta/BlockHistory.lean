import HugoFS.Lib.Digits
import HugoFS.Lib.Runs
import HugoFS.Store.Keys
import HugoFS.Store.Txn

/-!
# The history of block locations

`UpdateBlockLocation` archives the stored location of a block before it saves the new one. The
key is made of the inode, the index and the second of archiving, and nothing stands between
the last two.
-/

namespace HugoFS.BlockMap

open List Runs Option ByteString Store SortedMap

open Store (Key Record Kind Backend fmtUint fmtInt)

/-! ### The records -/

structure BlockMeta where
  ino : UInt64 := 0
  virtualVolumeId : UInt64 := 0
  blockIndexInFile : UInt64 := 0
  primaryVolumeId : UInt64 := 0
  secondaryVolumeIds : List UInt64 := []
  txnId : UInt64 := 0
  len : UInt64 := 0
  crc32 : UInt32 := 0
  createdAt : UInt64 := 0
  cloudAddr : Option String := none
  blockId : String := ""
deriving DecidableEq

structure BlockMetaHistory where
  blockMeta : BlockMeta
  timestamp : Int64
deriving DecidableEq

inductive Stored
  | blockMeta (m : BlockMeta)
  | blockMetaHistory (h : BlockMetaHistory)
deriving DecidableEq

def BlockMeta.record (m : BlockMeta) : Record := .blockMeta m.ino m.blockIndexInFile

def BlockMetaHistory.record (h : BlockMetaHistory) : Record :=
  .blockMetaHistory h.blockMeta.ino h.blockMeta.blockIndexInFile h.timestamp

def Stored.record : Stored → Record
  | .blockMeta m => m.record
  | .blockMetaHistory h => h.record

def Stored.deserialize (v : Stored) : Option BlockMeta :=
  let m := match v with
    | .blockMeta m => m
    | .blockMetaHistory h => h.blockMeta
  if m = {} then none else some m

structure BlockStore where
  db : SortedMap Key Stored
  keyed : ∀ e ∈ db.entries, e.1 = e.2.record.formatKey

variable {m : BlockMeta}

namespace BlockStore

variable {s : BlockStore} {v : Stored}

def empty : BlockStore := ⟨.empty, fun _ h => absurd h List.not_mem_nil⟩

def get (s : BlockStore) (k : Key) : Option Stored := s.db.get k

def save (s : BlockStore) (v : Stored) : BlockStore where
  db := s.db.put v.record.formatKey v
  keyed := by
    intro e he
    rcases SortedMap.mem_put_iff.mp he with rfl | ⟨-, he⟩
    · rfl
    · exact s.keyed e he

theorem get_save_self : (s.save v).get v.record.formatKey = some v :=
  get_put.trans (if_pos rfl)

theorem get_save_of_ne {k : Key} (h : k ≠ v.record.formatKey) : (s.save v).get k = s.get k :=
  get_put.trans (if_neg h)

theorem formatKey_of_get {k : Key} (h : s.get k = some v) : k = v.record.formatKey :=
  s.keyed (k, v) (get_eq_some_iff.mp h)

def locationAt (s : BlockStore) (ino index : UInt64) : Option BlockMeta :=
  (s.get (Record.blockMeta ino index).formatKey).bind fun v =>
    match v with
    | .blockMeta m => some m
    | .blockMetaHistory _ => none

def Holds (s : BlockStore) (h : BlockMetaHistory) : Prop :=
  s.get h.record.formatKey = some (.blockMetaHistory h)
deriving Decidable

theorem get_blockMeta (s : BlockStore) (ino index : UInt64) :
    s.get (Record.blockMeta ino index).formatKey =
      (s.locationAt ino index).map .blockMeta := by
  rw [locationAt]
  cases hget : s.get (Record.blockMeta ino index).formatKey with
  | none => rfl
  | some v =>
    cases v with
    | blockMeta m => rfl
    | blockMetaHistory h => exact Kind.noConfusion (Record.formatKey_inj (formatKey_of_get hget)).1

theorem locationAt_key {ino index : UInt64} (h : s.locationAt ino index = some m) :
    m.ino = ino ∧ m.blockIndexInFile = index := by
  have hget : s.get (Record.blockMeta ino index).formatKey = some (.blockMeta m) := by
    rw [get_blockMeta, h]
    rfl
  have hrec : .blockMeta ino index = m.record :=
    Record.eq_of_formatKey_eq (by simp [Record.kind]) (formatKey_of_get hget)
  obtain ⟨hi, hb⟩ := Record.blockMeta.inj hrec
  exact ⟨hi.symm, hb.symm⟩

end BlockStore

/-! ### The calls -/

inductive BlockErr
  | notFound
  | emptyKey
  | keyEqPrefix
  | panic
deriving DecidableEq

def checkKey (r : Record) : Except BlockErr Unit :=
  if r.formatKey = [] then .error .emptyKey
  else if r.formatKey = r.formatPrefix then .error .keyEqPrefix
  else .ok ()

def readKey : Backend → Key → Key
  | .badger, k => Store.BadgerStore.readKey k
  | .tikv, k => k

def doGetValueByKey (b : Backend) (s : BlockStore) (r : Record) :
    Except BlockErr (Option BlockMeta) := do
  checkKey r
  match s.get (readKey b r.formatKey) with
  | none => .error .notFound
  | some v => .ok v.deserialize

def doSaveInKVPair (s : BlockStore) (v : Stored) : Except BlockErr BlockStore := do
  checkKey v.record
  return s.save v

def getInoBlockMeta (b : Backend) (s : BlockStore) (ino index : UInt64) :
    Except BlockErr (Option BlockMeta) :=
  doGetValueByKey b s (.blockMeta ino index)

def updateInoBlockMap (s : BlockStore) (m : BlockMeta) : Except BlockErr BlockStore :=
  doSaveInKVPair s (.blockMeta m)

def archiveBlockMeta (s : BlockStore) (m : BlockMeta) (now : Int64) :
    Except BlockErr BlockStore :=
  doSaveInKVPair s (.blockMetaHistory { blockMeta := m, timestamp := now })

structure UpdateCall where
  request : Option BlockMeta
  createdAt : Int64
  archivedAt : Int64

def UpdateCall.stamp (c : UpdateCall) (m : BlockMeta) : BlockMeta :=
  { m with createdAt := c.createdAt.toUInt64 }

def archiveOld (b : Backend) (s : BlockStore) (out : BlockMeta) (now : Int64) :
    Except BlockErr BlockStore :=
  match getInoBlockMeta b s out.ino out.blockIndexInFile with
  | .ok (some old) => archiveBlockMeta s old now
  -- the key of the history is formatted from a message that is not there
  | .ok none => .error .panic
  | .error _ => .ok s

def updateBlockLocation (b : Backend) (c : UpdateCall) (s : BlockStore) :
    Except BlockErr Unit × BlockStore :=
  match c.request with
  | none => (.error .panic, s)
  | some m =>
    match archiveOld b s (c.stamp m) c.archivedAt with
    | .error e => (.error e, s)
    | .ok s' =>
      match updateInoBlockMap s' (c.stamp m) with
      | .error e => (.error e, s')
      | .ok s'' => (.ok (), s'')

/-! ### What a call does -/

section Calls

variable {b : Backend} {s : BlockStore} {c : UpdateCall}

theorem checkKey_ok {r : Record} {ds : ByteString} (h : r.formatKey = r.formatPrefix ++ ds)
    (hds : ds ≠ []) : checkKey r = .ok () := by
  have hne : r.formatKey ≠ [] := by
    rw [h]
    exact append_ne_nil_of_right_ne_nil _ hds
  have hprefix : r.formatKey ≠ r.formatPrefix := by
    intro heq
    rw [heq] at h
    exact hds (append_right_eq_self.mp h.symm)
  rw [checkKey, if_neg hne, if_neg hprefix]

theorem fmtUint_ne_nil (n : UInt64) : fmtUint n ≠ [] := decimal_ne_nil _

theorem fmtInt_ne_nil (n : Int64) : fmtInt n ≠ [] := by
  rw [fmtInt]
  cases n.toInt with
  | ofNat m => exact decimal_ne_nil m
  | negSucc m => exact cons_ne_nil _ _

theorem checkKey_record (v : Stored) : checkKey v.record = .ok () := by
  cases v with
  | blockMeta m => exact checkKey_ok rfl (fmtUint_ne_nil _)
  | blockMetaHistory h => exact checkKey_ok rfl (fmtInt_ne_nil _)

theorem doSaveInKVPair_eq (s : BlockStore) (v : Stored) : doSaveInKVPair s v = .ok (s.save v) := by
  rw [doSaveInKVPair, checkKey_record]
  rfl

theorem readKey_eq (b : Backend) (p : Key) (n : UInt64) :
    readKey b (p ++ fmtUint n) = p ++ fmtUint n := by
  cases b with
  | tikv => rfl
  | badger =>
    have hsep : ¬ seperator <:+ p ++ fmtUint n := by
      intro h
      have hmem : 47 ∈ fmtUint n := by
        rcases suffix_or_suffix_of_suffix h (suffix_append p (fmtUint n)) with h | h
        · exact h.subset mem_cons_self
        obtain ⟨x, hx⟩ := exists_mem_of_ne_nil _ (fmtUint_ne_nil n)
        have hx47 : x = 47 := mem_singleton.mp (h.subset hx)
        rwa [hx47] at hx
      exact notMem_fmtUint n hmem
    rw [readKey, Store.BadgerStore.readKey, trimSuffix_of_not hsep, ite_self]

theorem getInoBlockMeta_eq (b : Backend) (s : BlockStore) (ino index : UInt64) :
    getInoBlockMeta b s ino index =
      ((s.locationAt ino index).elim (.error .notFound)
        fun m => .ok (if m = {} then none else some m)) := by
  have hcheck : checkKey (.blockMeta ino index) = .ok () := checkKey_ok rfl (fmtUint_ne_nil _)
  have hread : s.get (readKey b (Record.blockMeta ino index).formatKey) =
      (s.locationAt ino index).map Stored.blockMeta := by
    rw [Record.formatKey, readKey_eq]
    exact s.get_blockMeta ino index
  rw [getInoBlockMeta, doGetValueByKey, hcheck, hread]
  cases s.locationAt ino index with
  | none => rfl
  | some m => rfl

theorem archiveOld_eq (b : Backend) (s : BlockStore) (out : BlockMeta) (now : Int64) :
    archiveOld b s out now =
      (s.locationAt out.ino out.blockIndexInFile).elim (.ok s) fun old =>
        if old = {} then .error .panic
        else .ok (s.save (.blockMetaHistory { blockMeta := old, timestamp := now })) := by
  unfold archiveOld
  rw [getInoBlockMeta_eq]
  cases s.locationAt out.ino out.blockIndexInFile with
  | none => rfl
  | some old =>
    simp only [elim_some]
    by_cases hblank : old = {}
    · simp only [hblank, if_true]
    · simp only [hblank, if_false]
      exact doSaveInKVPair_eq s _

theorem updateBlockLocation_of_ok {s' : BlockStore} (hr : c.request = some m)
    (h : archiveOld b s (c.stamp m) c.archivedAt = .ok s') :
    updateBlockLocation b c s = (.ok (), s'.save (.blockMeta (c.stamp m))) := by
  simp only [updateBlockLocation, hr, h, updateInoBlockMap, doSaveInKVPair_eq]

def UpdateCall.replaces (b : Backend) (c : UpdateCall) (s : BlockStore) :
    Option BlockMetaHistory :=
  match c.request, (updateBlockLocation b c s).1 with
  | some m, .ok _ =>
    (s.locationAt m.ino m.blockIndexInFile).map fun old =>
      { blockMeta := old, timestamp := c.archivedAt }
  | _, _ => none

open UpdateCall

theorem update_cases (b : Backend) (c : UpdateCall) (s : BlockStore) :
    (c.replaces b s = none ∧
      (∀ m, c.request = some m → ∀ old, s.locationAt m.ino m.blockIndexInFile = some old →
        old = {}) ∧
      ((updateBlockLocation b c s).2 = s ∨
        ∃ out, (updateBlockLocation b c s).2 = s.save (.blockMeta out))) ∨
    ∃ m old, c.request = some m ∧ s.locationAt m.ino m.blockIndexInFile = some old ∧ old ≠ {} ∧
      c.replaces b s = some { blockMeta := old, timestamp := c.archivedAt } ∧
      (updateBlockLocation b c s).2 =
        (s.save (.blockMetaHistory { blockMeta := old, timestamp := c.archivedAt })).save
          (.blockMeta (c.stamp m)) := by
  cases hr : c.request with
  | none =>
    have hupd : updateBlockLocation b c s = (.error .panic, s) := by
      rw [updateBlockLocation, hr]
    refine .inl ⟨?_, ?_, .inl (by rw [hupd])⟩
    · rw [replaces, hr]
    · intro m hm
      cases hm
  | some m =>
    have harch := archiveOld_eq b s (c.stamp m) c.archivedAt
    have hkey : s.locationAt (c.stamp m).ino (c.stamp m).blockIndexInFile =
        s.locationAt m.ino m.blockIndexInFile := rfl
    rw [hkey] at harch
    cases hloc : s.locationAt m.ino m.blockIndexInFile with
    | none =>
      rw [hloc, elim_none] at harch
      have hupd := updateBlockLocation_of_ok hr harch
      refine .inl ⟨?_, ?_, .inr ⟨c.stamp m, by rw [hupd]⟩⟩
      · rw [replaces, hr, hupd]
        simp only [hloc, map_none]
      · intro m' hm' old hold
        cases hm'
        rw [hloc] at hold
        cases hold
    | some old =>
      rw [hloc, elim_some] at harch
      by_cases hblank : old = {}
      · rw [if_pos hblank] at harch
        have hupd : updateBlockLocation b c s = (.error .panic, s) := by
          simp only [updateBlockLocation, hr, harch]
        refine .inl ⟨?_, ?_, .inl (by rw [hupd])⟩
        · rw [replaces, hr, hupd]
        · intro m' hm' old' hold'
          cases hm'
          rw [hloc] at hold'
          cases hold'
          exact hblank
      · rw [if_neg hblank] at harch
        have hupd := updateBlockLocation_of_ok hr harch
        refine .inr ⟨m, old, rfl, hloc, hblank, ?_, by rw [hupd]⟩
        rw [replaces, hr, hupd]
        simp only [hloc, map_some]

end Calls

/-! ### Keys of the history -/

theorem historyKey_eq_iff (h h' : BlockMetaHistory) :
    h.record.formatKey = h'.record.formatKey ↔
      h.blockMeta.ino = h'.blockMeta.ino ∧
        SameDigits h.blockMeta.blockIndexInFile.toNat h.timestamp.toInt
          h'.blockMeta.blockIndexInFile.toNat h'.timestamp.toInt := by
  rw [← decimal_append_signed_eq_iff]
  constructor
  · intro heq
    obtain ⟨-, hrest⟩ := Record.formatKey_inj heq
    obtain ⟨hino, hdigits⟩ := (append_sep_inj (notMem_fmtUint _)
      (notMem_fmtUint _)).mp hrest
    exact ⟨fmtUint_injective hino, hdigits⟩
  · rintro ⟨hino, hdigits⟩
    have hrest : h.record.rest = h'.record.rest := by
      change fmtUint h.blockMeta.ino ++ 47 :: (fmtUint _ ++ fmtInt _) =
        fmtUint h'.blockMeta.ino ++ 47 :: (fmtUint _ ++ fmtInt _)
      rw [hino]
      exact congrArg (fun ds => fmtUint h'.blockMeta.ino ++ 47 :: ds) hdigits
    rw [Record.formatKey_eq, Record.formatKey_eq, hrest]
    rfl

theorem historyKey_eq_iff_of_ten_digits {h h' : BlockMetaHistory}
    (ht : 10 ^ 9 ≤ h.timestamp.toInt ∧ h.timestamp.toInt < 10 ^ 10)
    (ht' : 10 ^ 9 ≤ h'.timestamp.toInt ∧ h'.timestamp.toInt < 10 ^ 10) :
    h.record.formatKey = h'.record.formatKey ↔ h.record = h'.record := by
  have hten : ∀ {z : ℤ}, 10 ^ 9 ≤ z ∧ z < 10 ^ 10 → numDigits z.toNat = 10 := by
    intro z hz
    have hlog : Nat.log 10 z.toNat = 9 :=
      (Nat.log_eq_iff (.inl (by decide))).mpr ⟨by omega, by omega⟩
    rw [numDigits, hlog]
  have hpos : 0 ≤ h.timestamp.toInt := by omega
  have hpos' : 0 ≤ h'.timestamp.toInt := by omega
  rw [historyKey_eq_iff, sameDigits_iff_of_numDigits hpos hpos'
    ((hten ht).trans (hten ht').symm), UInt64.toNat_inj, Int64.toInt_inj]
  exact (Iff.of_eq (Record.blockMetaHistory.injEq _ _ _ _ _ _)).symm

theorem historyKey_eq_iff_of_ten_digits_sample :
    let h : BlockMetaHistory := ⟨{ ino := 7 }, 1700000000⟩
    let h' := { h with timestamp := 1700000001 }
    h.record.formatKey = h'.record.formatKey ↔ h.record = h'.record :=
  historyKey_eq_iff_of_ten_digits (by decide) (by decide)

theorem BlockStore.get_historyKey {s : BlockStore} {h : BlockMetaHistory} {v : Stored}
    (hget : s.get h.record.formatKey = some v) :
    ∃ h', v = .blockMetaHistory h' ∧ s.Holds h' ∧ h'.record.formatKey = h.record.formatKey := by
  have hkey := formatKey_of_get hget
  cases v with
  | blockMeta m => exact Kind.noConfusion (Record.formatKey_inj hkey).1
  | blockMetaHistory h' =>
    refine ⟨h', rfl, ?_, hkey.symm⟩
    rw [Holds, ← hget, hkey]
    rfl

theorem BlockStore.get_historyKey_save (s : BlockStore) (m : BlockMeta) (h : BlockMetaHistory) :
    (s.save (.blockMeta m)).get h.record.formatKey = s.get h.record.formatKey := by
  apply get_save_of_ne
  intro heq
  exact Kind.noConfusion (Record.formatKey_inj heq).1

/-! ### Runs -/

structure HistoryState where
  store : BlockStore
  replaced : List BlockMetaHistory

def HistoryState.start (s : BlockStore) : HistoryState := ⟨s, []⟩

def UpdateCall.next (b : Backend) (c : UpdateCall) (st : HistoryState) : HistoryState where
  store := (updateBlockLocation b c st.store).2
  replaced := st.replaced ++ (c.replaces b st.store).toList

def HistoryKept (st : HistoryState) : Prop := ∀ h ∈ st.replaced, st.store.Holds h
deriving Decidable

def OverwritesNothing (b : Backend) (st : HistoryState) (c : UpdateCall) : Prop :=
  ∀ h, c.replaces b st.store = some h → st.store.get h.record.formatKey = none

def DigitsApart (st : HistoryState) (c : UpdateCall) : Prop :=
  ∀ m, c.request = some m →
    ∀ old, st.store.locationAt m.ino m.blockIndexInFile = some old → old ≠ {} →
      ∀ h, st.store.Holds h → h.blockMeta.ino = m.ino →
        ¬ ByteString.SameDigits h.blockMeta.blockIndexInFile.toNat h.timestamp.toInt
          m.blockIndexInFile.toNat c.archivedAt.toInt

section Steps

variable {b : Backend} {st : HistoryState} {c : UpdateCall}

open BlockStore

open BlockMetaHistory

theorem overwritesNothing_iff : OverwritesNothing b st c ↔ DigitsApart st c := by
  rcases update_cases b c st.store with
    ⟨hnone, hblank, -⟩ | ⟨m, old, hr, hloc, hne, hrep, -⟩
  · apply iff_of_true
    · intro h hh
      rw [hnone] at hh
      cases hh
    · intro m hm old hold hne
      exact absurd (hblank m hm old hold) hne
  obtain ⟨hino, hindex⟩ := locationAt_key hloc
  constructor
  · intro hfree m' hm' old' hold' hne' h hh hsame hdigits
    rw [hr] at hm'
    cases hm'
    have hkey : h.record.formatKey =
        (record { blockMeta := old, timestamp := c.archivedAt }).formatKey := by
      rw [historyKey_eq_iff, hino, hindex]
      exact ⟨hsame, hdigits⟩
    have hget := hfree _ hrep
    rw [← hkey, hh] at hget
    cases hget
  · intro hapart h hh
    rw [hrep] at hh
    cases hh
    cases hget : st.store.get
        (record { blockMeta := old, timestamp := c.archivedAt }).formatKey with
    | none => rfl
    | some v =>
      obtain ⟨h', -, hholds, hkey⟩ := get_historyKey hget
      rw [historyKey_eq_iff, hino, hindex] at hkey
      exact absurd hkey.2 (hapart m hr old hloc hne h' hholds hkey.1)

theorem historyKept_next (hkept : HistoryKept st) (hfree : OverwritesNothing b st c) :
    HistoryKept (c.next b st) := by
  rcases update_cases b c st.store with
    ⟨hnone, -, hstore⟩ | ⟨m, old, -, -, -, hrep, hstore⟩
  · intro h hh
    rw [UpdateCall.next, hnone, toList_none, append_nil] at hh
    have hold : st.store.Holds h := hkept h hh
    rcases hstore with hstore | ⟨out, hstore⟩
    · rw [UpdateCall.next, hstore]
      exact hold
    · rw [UpdateCall.next, hstore]
      exact (st.store.get_historyKey_save out h).trans hold
  · intro h hh
    rw [UpdateCall.next, hrep, toList_some, mem_append, mem_singleton] at hh
    rw [UpdateCall.next, hstore, Holds, get_historyKey_save]
    rcases hh with hh | rfl
    · -- an earlier version has another key, since this one's was free
      have hold : st.store.Holds h := hkept h hh
      refine (get_save_of_ne ?_).trans hold
      intro hkey
      have hget := hfree _ hrep
      have hsome : st.store.get h.record.formatKey = none := by
        rw [hkey]
        exact hget
      rw [Holds, hsome] at hold
      cases hold
    · exact get_save_self

end Steps

/-- Along a run every replaced version is stored under its own key and no archiving
overwrites a record, exactly when at each call that replaces a version the digits of index
and second are apart from those archived for the inode. -/
theorem history_kept_iff (b : Backend) (s : BlockStore) (cs : List UpdateCall) :
    Always (UpdateCall.next b) HistoryKept cs (.start s) ∧
        Legal (UpdateCall.next b) (OverwritesNothing b) cs (.start s) ↔
      Legal (UpdateCall.next b) DigitsApart cs (.start s) := by
  have hstart : HistoryKept (.start s) := by
    intro h hh
    cases hh
  have hdom : Legal (UpdateCall.next b) (fun _ _ => True) cs (.start s) :=
    legal_of_forall fun _ _ => trivial
  refine always_and_legal_iff (I := HistoryKept) ?_ ?_ ?_ hdom hstart
  · intro st h
    exact h
  · intro st c hI _ hok
    have hfree : OverwritesNothing b st c := overwritesNothing_iff.mpr hok
    exact ⟨historyKept_next hI hfree, hfree⟩
  · intro st c _ _ _ hT
    exact overwritesNothing_iff.mp hT

def updateAt (index : UInt64) (blockId : String) (second : Int64) : UpdateCall where
  request := some { ino := 7, blockIndexInFile := index, blockId := blockId }
  createdAt := second
  archivedAt := second

def archivedAt (index : UInt64) (blockId : String) (created archived : Int64) :
    BlockMetaHistory where
  blockMeta :=
    { ino := 7, blockIndexInFile := index, blockId := blockId, createdAt := created.toUInt64 }
  timestamp := archived

/-- Three updates of a block in one second: the first version is lost. And updates of the
blocks 12 and 1 at the seconds 345 and 2345: the version of block 12 is lost. -/
theorem history_overwritten :
    (exec (UpdateCall.next .badger)
        [updateAt 0 "a" 1700000000, updateAt 0 "b" 1700000000, updateAt 0 "c" 1700000000]
        (.start .empty)).replaced =
      [archivedAt 0 "a" 1700000000 1700000000, archivedAt 0 "b" 1700000000 1700000000] ∧
    ¬ HistoryKept (exec (UpdateCall.next .badger)
        [updateAt 0 "a" 1700000000, updateAt 0 "b" 1700000000, updateAt 0 "c" 1700000000]
        (.start .empty)) ∧
    (exec (UpdateCall.next .badger)
        [updateAt 1 "a" 300, updateAt 12 "b" 300, updateAt 12 "c" 345, updateAt 1 "d" 2345]
        (.start .empty)).replaced = [archivedAt 12 "b" 300 345, archivedAt 1 "a" 300 2345] ∧
    ¬ HistoryKept (exec (UpdateCall.next .badger)
        [updateAt 1 "a" 300, updateAt 12 "b" 300, updateAt 12 "c" 345, updateAt 1 "d" 2345]
        (.start .empty)) := by
  decide +kernel

end HugoFS.BlockMap
