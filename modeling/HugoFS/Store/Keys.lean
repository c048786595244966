import HugoFS.Store.Badger

/-!
# The keys of the meta store

Nine kinds of records share one store and are told apart by their keys. The name of the kind and
the number after it contain no separator, so both can be read back.
-/

namespace HugoFS.Store

open ByteString List BadgerStore Function

inductive Record
  | attr (inode : UInt64)
  | entry (parentIno : UInt64) (name : ByteString)
  | blockMeta (ino blockIndexInFile : UInt64)
  | blockMetaHistory (ino blockIndexInFile : UInt64) (timestamp : Int64)
  | storageNode (id : UInt64)
  | nodeAddr (addr : ByteString)
  | physicalVolume (id : UInt64)
  | virtualVolume (id : UInt64)
  | event (id : Int64)

inductive Kind
  | attr
  | entry
  | blockMeta
  | blockMetaHistory
  | storageNode
  | nodeAddr
  | physicalVolume
  | virtualVolume
  | event

def Record.kind : Record → Kind
  | .attr _ => .attr
  | .entry _ _ => .entry
  | .blockMeta _ _ => .blockMeta
  | .blockMetaHistory _ _ _ => .blockMetaHistory
  | .storageNode _ => .storageNode
  | .nodeAddr _ => .nodeAddr
  | .physicalVolume _ => .physicalVolume
  | .virtualVolume _ => .virtualVolume
  | .event _ => .event

def fmtUint (n : UInt64) : ByteString := decimal n.toNat

def fmtInt (n : Int64) : ByteString := signed n.toInt

def Record.formatPrefix : Record → Key
  | .attr _ => ofText "a/"
  | .entry p _ => ofText "e/" ++ fmtUint p ++ ofText "/"
  | .blockMeta i _ => ofText "ino_block_map/" ++ fmtUint i ++ ofText "/"
  | .blockMetaHistory i b _ =>
    ofText "ino_block_map_history/" ++ fmtUint i ++ ofText "/" ++ fmtUint b
  | .storageNode _ => ofText "storage_node/"
  | .nodeAddr _ => ofText "storage_node_addr/"
  | .physicalVolume _ => ofText "physical_volume/"
  | .virtualVolume _ => ofText "virtual_volume/"
  | .event _ => ofText "evt/"

open Record

def Record.formatKey : Record → Key
  | .attr i => (Record.attr i).formatPrefix ++ fmtUint i
  | .entry p n => ofText "e/" ++ fmtUint p ++ ofText "/" ++ n
  | .blockMeta i b => (Record.blockMeta i b).formatPrefix ++ fmtUint b
  | .blockMetaHistory i b t => (Record.blockMetaHistory i b t).formatPrefix ++ fmtInt t
  | .storageNode i => (Record.storageNode i).formatPrefix ++ fmtUint i
  | .nodeAddr a => (Record.nodeAddr a).formatPrefix ++ a
  | .physicalVolume i => (Record.physicalVolume i).formatPrefix ++ fmtUint i
  | .virtualVolume i => (Record.virtualVolume i).formatPrefix ++ fmtUint i
  | .event i => (Record.event i).formatPrefix ++ fmtInt i

def Record.Valid : Record → Prop
  | .entry _ n => n ≠ [] ∧ 47 ∉ n
  | _ => True

def Kind.field : Kind → ByteString
  | .attr => ofText "a"
  | .entry => ofText "e"
  | .blockMeta => ofText "ino_block_map"
  | .blockMetaHistory => ofText "ino_block_map_history"
  | .storageNode => ofText "storage_node"
  | .nodeAddr => ofText "storage_node_addr"
  | .physicalVolume => ofText "physical_volume"
  | .virtualVolume => ofText "virtual_volume"
  | .event => ofText "evt"

def Record.rest : Record → ByteString
  | .attr i => fmtUint i
  | .entry p n => fmtUint p ++ 47 :: n
  | .blockMeta i b => fmtUint i ++ 47 :: fmtUint b
  | .blockMetaHistory i b t => fmtUint i ++ 47 :: (fmtUint b ++ fmtInt t)
  | .storageNode i => fmtUint i
  | .nodeAddr a => a
  | .physicalVolume i => fmtUint i
  | .virtualVolume i => fmtUint i
  | .event i => fmtInt i

open Kind

theorem Record.formatKey_eq (r : Record) : r.formatKey = r.kind.field ++ 47 :: r.rest := by
  have hsep : '/'.toUInt8 = 47 := rfl
  cases r <;> simp [formatKey, formatPrefix, kind, field, rest, ofText, hsep]

theorem Kind.notMem_field (k : Kind) : 47 ∉ k.field := by
  cases k <;> decide

theorem Kind.field_injective : Injective field := by
  intro k k' h
  cases k <;> cases k' <;> first | rfl | exact absurd h (by decide)

theorem fmtUint_injective : Injective fmtUint :=
  fun _ _ h => UInt64.toNat_inj.mp (decimal_injective h)

theorem fmtInt_injective : Injective fmtInt :=
  fun _ _ h => Int64.toInt_inj.mp (signed_injective h)

theorem notMem_fmtUint (n : UInt64) : 47 ∉ fmtUint n := notMem_decimal (by decide) _

variable {r : Record}

theorem Record.formatKey_inj {r' : Record} (h : r.formatKey = r'.formatKey) :
    r.kind = r'.kind ∧ r.rest = r'.rest := by
  rw [formatKey_eq, formatKey_eq] at h
  obtain ⟨hfield, hrest⟩ :=
    (append_sep_inj r.kind.notMem_field r'.kind.notMem_field).mp h
  exact ⟨field_injective hfield, hrest⟩

theorem Record.eq_of_formatKey_eq {r' : Record}
    (hk : r.kind ∈ [.attr, .entry, .blockMeta]) (h : r.formatKey = r'.formatKey) :
    r = r' := by
  obtain ⟨hkind, hrest⟩ := formatKey_inj h
  cases r <;> cases r' <;> simp [kind] at hk hkind
  case attr i j => rw [fmtUint_injective hrest]
  case entry p n q o =>
    obtain ⟨hp, hn⟩ :=
      (append_sep_inj (notMem_fmtUint p) (notMem_fmtUint q)).mp hrest
    rw [fmtUint_injective hp, hn]
  case blockMeta i b j c =>
    obtain ⟨hi, hb⟩ :=
      (append_sep_inj (notMem_fmtUint i) (notMem_fmtUint j)).mp hrest
    rw [fmtUint_injective hi, fmtUint_injective hb]

def bucketOf (k : Kind) (i : UInt64) : Key := k.field ++ 47 :: (fmtUint i ++ [47])

theorem formatPrefix_entry (p : UInt64) (n : ByteString) :
    (entry p n).formatPrefix = bucketOf .entry p := by
  have hsep : '/'.toUInt8 = 47 := rfl
  simp [formatPrefix, bucketOf, field, ofText, hsep]

theorem formatPrefix_blockMeta (i b : UInt64) :
    (blockMeta i b).formatPrefix = bucketOf .blockMeta i := by
  have hsep : '/'.toUInt8 = 47 := rfl
  simp [formatPrefix, bucketOf, field, ofText, hsep]

theorem getByBucket_bucketOf (m : Db) (k : Kind) (i : UInt64) :
    getByBucket m (bucketOf k i) = m.filter fun x => hasPrefix x (bucketOf k i) := by
  have hname : bucketOf k i = (k.field ++ 47 :: fmtUint i) ++ seperator := by
    rw [bucketOf, append_assoc, cons_append]
    rfl
  have hlen : 2 ≤ (k.field ++ 47 :: fmtUint i).length := by
    have hdigits := length_pos_iff.mpr (decimal_ne_nil i.toNat)
    change 0 < (fmtUint i).length at hdigits
    rw [length_append, length_cons]
    omega
  rw [hname]
  refine getByBucket_append (fun h => ?_) (fun h => ?_) m
  · rw [h] at hlen
    exact absurd hlen (by decide)
  · rw [h] at hlen
    exact absurd hlen (by decide)

theorem Record.bucketOf_isPrefix_iff (k : Kind) (i : UInt64) (r : Record) :
    bucketOf k i <+: r.formatKey ↔ r.kind = k ∧ fmtUint i ++ [47] <+: r.rest := by
  rw [bucketOf, formatKey_eq,
    append_sep_isPrefix_iff k.notMem_field r.kind.notMem_field,
    field_injective.eq_iff, eq_comm]

theorem fmtUint_sep_isPrefix_iff {i j : UInt64} {s : ByteString} :
    fmtUint i ++ [47] <+: fmtUint j ++ 47 :: s ↔ i = j := by
  rw [append_sep_isPrefix_iff (notMem_fmtUint i) (notMem_fmtUint j), fmtUint_injective.eq_iff]
  exact and_iff_left nil_prefix

theorem Record.in_entry_bucket_iff {p : UInt64} :
    bucketOf .entry p <+: r.formatKey ↔ ∃ n, r = .entry p n := by
  rw [bucketOf_isPrefix_iff]
  cases r <;> simp [kind, rest, fmtUint_sep_isPrefix_iff, eq_comm]

theorem Record.in_blockMeta_bucket_iff {i : UInt64} :
    bucketOf .blockMeta i <+: r.formatKey ↔ ∃ b, r = .blockMeta i b := by
  rw [bucketOf_isPrefix_iff]
  cases r <;> simp [kind, rest, fmtUint_sep_isPrefix_iff, eq_comm]

def RecordsOnly (m : Db) : Prop := ∀ e ∈ m.entries, ∃ r : Record, r.Valid ∧ r.formatKey = e.1

def saveRecords (l : List (Record × Value)) : Db :=
  l.foldl (fun m e => BadgerStore.save m e.1.formatKey e.2) .empty

theorem RecordsOnly.save {m : Db} (hm : RecordsOnly m) (hr : r.Valid) (v : Value) :
    RecordsOnly (save m r.formatKey v) := by
  intro e he
  rcases SortedMap.mem_put_iff.mp he with rfl | ⟨-, he⟩
  · exact ⟨r, hr, rfl⟩
  · exact hm e he

theorem recordsOnly_saveRecords (l : List (Record × Value)) (h : ∀ e ∈ l, e.1.Valid) :
    RecordsOnly (saveRecords l) := by
  have hfold : ∀ (l : List (Record × Value)) (m : Db), (∀ e ∈ l, e.1.Valid) → RecordsOnly m →
      RecordsOnly (l.foldl (fun m e => save m e.1.formatKey e.2) m) := by
    intro l
    induction l with
    | nil => exact fun _ _ hm => hm
    | cons e l ih =>
      intro m h hm
      exact ih _ (fun x hx => h x (mem_cons_of_mem e hx))
        (hm.save (h e mem_cons_self) e.2)
  exact hfold l .empty h fun e he => absurd he not_mem_nil

theorem mem_bucket_iff {m : Db} (hm : RecordsOnly m) {k : Kind} {i : UInt64}
    {inside : Record → Prop}
    (hin : ∀ r : Record, bucketOf k i <+: r.formatKey ↔ inside r) (e : Key × Value) :
    e ∈ (getByBucket m (bucketOf k i)).entries ↔
      e ∈ m.entries ∧ ∃ r : Record, r.Valid ∧ inside r ∧ r.formatKey = e.1 := by
  rw [getByBucket_bucketOf, SortedMap.filter, mem_filter, hasPrefix_iff]
  refine and_congr_right fun he => ?_
  constructor
  · intro hpre
    obtain ⟨r, hr, hkey⟩ := hm e he
    exact ⟨r, hr, (hin r).mp (hkey ▸ hpre), hkey⟩
  · rintro ⟨r, -, hr, hkey⟩
    exact hkey ▸ (hin r).mpr hr

/-- Records of different kinds have different keys; attributes, entries and block
locations are determined by their keys; and a bucket read for an inode returns
the entries, or the block locations, of that inode and nothing else. -/
theorem record_keys_separate (m : Db) (hm : RecordsOnly m) :
    (∀ r r' : Record, r.kind ≠ r'.kind → r.formatKey ≠ r'.formatKey) ∧
    (∀ r r' : Record, r.kind ∈ [Kind.attr, Kind.entry, Kind.blockMeta] → r ≠ r' →
      r.formatKey ≠ r'.formatKey) ∧
    (∀ (p : UInt64) (n : ByteString) (e : Key × Value),
      e ∈ (BadgerStore.getByBucket m (Record.entry p n).formatPrefix).entries ↔
        e ∈ m.entries ∧
          ∃ r : Record, r.Valid ∧ (∃ name, r = .entry p name) ∧ r.formatKey = e.1) ∧
    (∀ (i b : UInt64) (e : Key × Value),
      e ∈ (BadgerStore.getByBucket m (Record.blockMeta i b).formatPrefix).entries ↔
        e ∈ m.entries ∧
          ∃ r : Record, r.Valid ∧ (∃ idx, r = .blockMeta i idx) ∧ r.formatKey = e.1) := by
  refine ⟨fun r r' hkind h => hkind (Record.formatKey_inj h).1,
    fun r r' hk hne h => hne (Record.eq_of_formatKey_eq hk h), ?_, ?_⟩
  · intro p n e
    rw [formatPrefix_entry]
    exact mem_bucket_iff hm (fun r => Record.in_entry_bucket_iff) e
  · intro i b e
    rw [formatPrefix_blockMeta]
    exact mem_bucket_iff hm (fun r => Record.in_blockMeta_bucket_iff) e

def sampleRecords : List (Record × Value) :=
  [(.attr 1, [1]), (.entry 1 [97], [2]), (.entry 12 [97], [3]), (.blockMeta 1 2, [4]),
    (.blockMetaHistory 1 2 3, [5])]

theorem record_keys_separate_sample :
    RecordsOnly (saveRecords sampleRecords) ∧
      ((Record.entry 1 [97]).formatKey, [2]) ∈ (BadgerStore.getByBucket
        (saveRecords sampleRecords) (Record.entry 1 []).formatPrefix).entries := by
  have hm : RecordsOnly (saveRecords sampleRecords) :=
    recordsOnly_saveRecords _ (by simp [sampleRecords, Record.Valid])
  have hbucket := (record_keys_separate _ hm).2.2.1 1 [] ((Record.entry 1 [97]).formatKey, [2])
  refine ⟨hm, hbucket.mpr ⟨by decide +kernel, .entry 1 [97], ?_, ⟨[97], rfl⟩, rfl⟩⟩
  exact ⟨by decide, by decide⟩

end HugoFS.Store
