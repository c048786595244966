import HugoFS.Lib.FiniteMap
import Mathlib.Data.Finset.Card

/-!
# A local physical volume

A volume keeps its blocks as files, one per slot. `Slot` is the slot table, and `Volume` adds the
files, the block LRU and the evicted blocks that wait to be expired. The calls return what they
reply, the events they send and the volume; a call that never returns has no reply.
-/

namespace HugoFS.Storage

open Finmap List

abbrev Bytes : Type := List UInt8

abbrev BlockID : Type := String

/-! ### The slot table -/

inductive SlotError
  | overflow
  | occupied
  | empty
deriving DecidableEq

structure Slot where
  cap : ℕ
  bits : Finset ℕ
  hashPairs : Finmap fun _ : BlockID => ℕ
  records : Finmap fun _ : ℕ => BlockID

def Slot.new (cap : ℕ) : Slot := ⟨cap, ∅, ∅, ∅⟩

def Slot.occupy (s : Slot) (offset : ℕ) (hash : BlockID) : Except SlotError Slot :=
  if s.cap < (offset + 1) % 2 ^ 64 then .error .overflow
  else if offset ∈ s.bits then .error .occupied
  else .ok { s with
    bits := insert offset s.bits
    hashPairs := s.hashPairs.insert hash offset
    records := s.records.insert offset hash }

def Slot.assigned (s : Slot) (offset : ℕ) : Bool :=
  decide (0 < s.hashPairs.count fun _ o => o = offset)

def Slot.free (s : Slot) (offset : ℕ) : Except SlotError Unit × Slot :=
  if s.cap < offset then (.error .overflow, s)
  else if offset ∈ s.bits then
    if s.assigned offset then
      (.ok (), { s with bits := s.bits.erase offset, records := s.records.erase offset })
    else (.error .empty, { s with bits := s.bits.erase offset })
  else (.error .empty, s)

def Slot.getSlot (s : Slot) (hash : BlockID) : Option ℕ := s.hashPairs.lookup hash

def Slot.slotOrZero (s : Slot) (hash : BlockID) : ℕ := (s.getSlot hash).getD 0

def Slot.remains (s : Slot) : ℕ := s.cap - s.bits.card

def Slot.members (s : Slot) : List ℕ := (List.range s.cap).filter fun i => decide (i ∈ s.bits)

def nextIdx : List ℕ → ℕ → ℕ
  | [], idx => idx
  | b :: bs, idx => if idx ≠ b then idx else nextIdx bs (idx + 1)

def Slot.next (s : Slot) : Option ℕ :=
  if nextIdx s.members 0 < s.cap then some (nextIdx s.members 0) else none

section SlotLemmas

variable {s s' : Slot} {o i : ℕ} {h : BlockID}

theorem nextIdx_range' (p : ℕ → Bool) (n a : ℕ) :
    nextIdx ((range' a n).filter p) a = a + n ∧ (∀ i, a ≤ i → i < a + n → p i = true) ∨
      nextIdx ((range' a n).filter p) a < a + n ∧
        p (nextIdx ((range' a n).filter p) a) = false := by
  induction n generalizing a with
  | zero =>
    refine .inl ⟨rfl, fun i hle hlt => ?_⟩
    omega
  | succ n ih =>
    rw [range'_succ]
    by_cases ha : p a = true
    · rw [filter_cons_of_pos ha, nextIdx, if_neg (by simp)]
      rcases ih (a + 1) with ⟨heq, hall⟩ | ⟨hlt, hp⟩
      · refine .inl ⟨by omega, fun i hle hlt => ?_⟩
        by_cases hi : i = a
        · rw [hi, ha]
        · exact hall i (by omega) (by omega)
      · exact .inr ⟨by omega, hp⟩
    · -- every later element is above `a`, so the loop stops at once
      have hstop : nextIdx ((range' (a + 1) n).filter p) a = a := by
        cases hl : (range' (a + 1) n).filter p with
        | nil => rfl
        | cons b bs =>
          have hb : b ∈ (range' (a + 1) n).filter p := by simp [hl]
          have hlt : a + 1 ≤ b := (mem_range'_1.mp (mem_filter.mp hb).1).1
          rw [nextIdx, if_pos (by omega)]
      rw [filter_cons_of_neg ha, hstop]
      exact .inr ⟨by omega, by simpa using ha⟩

open Slot

theorem Slot.next_some (hn : s.next = some i) : i < s.cap ∧ i ∉ s.bits := by
  rw [next] at hn
  split_ifs at hn with hlt
  cases hn
  refine ⟨hlt, ?_⟩
  rw [members, range_eq_range'] at hlt ⊢
  rcases nextIdx_range' (fun i => decide (i ∈ s.bits)) s.cap 0 with ⟨heq, -⟩ | ⟨-, hp⟩
  · omega
  · simpa using hp

theorem Slot.next_isSome (hr : s.remains ≠ 0) : s.next.isSome = true := by
  rw [next, if_pos, Option.isSome_some]
  rw [members, range_eq_range']
  rcases nextIdx_range' (fun i => decide (i ∈ s.bits)) s.cap 0 with ⟨-, hall⟩ | ⟨hlt, -⟩
  · have hsub : Finset.range s.cap ⊆ s.bits := by
      intro i hi
      simpa using hall i (Nat.zero_le i) (by simpa using hi)
    have hcard := Finset.card_le_card hsub
    rw [Finset.card_range] at hcard
    rw [remains] at hr
    omega
  · omega

theorem Slot.occupy_ok : s.occupy o h = .ok s' ↔ (o + 1) % 2 ^ 64 ≤ s.cap ∧ o ∉ s.bits ∧
    s' = { s with bits := insert o s.bits
                  hashPairs := s.hashPairs.insert h o
                  records := s.records.insert o h } := by
  rw [occupy]
  split_ifs with hc ho
  · exact iff_of_false (by simp) fun hx => hc.not_ge hx.1
  · exact iff_of_false (by simp) fun hx => hx.2.1 ho
  · rw [Except.ok.injEq, eq_comm]
    exact ⟨fun hx => ⟨not_lt.mp hc, ho, hx⟩, fun hx => hx.2.2⟩

theorem Slot.occupy_of_lt (hlt : o < s.cap) (ho : o ∉ s.bits) : ∃ s', s.occupy o h = .ok s' :=
  ⟨_, occupy_ok.mpr ⟨(Nat.mod_le _ _).trans hlt, ho, rfl⟩⟩

@[simp] theorem Slot.free_cap : (s.free o).2.cap = s.cap := by
  rw [free]
  split_ifs <;> rfl

@[simp] theorem Slot.free_hashPairs : (s.free o).2.hashPairs = s.hashPairs := by
  rw [free]
  split_ifs <;> rfl

theorem Slot.free_getSlot : (s.free o).2.getSlot h = s.getSlot h := by
  rw [getSlot, free_hashPairs, getSlot]

theorem Slot.free_of_notMem (ho : o ≤ s.cap → o ∉ s.bits) : (s.free o).2 = s := by
  rw [free]
  split_ifs with hcap hmem
  · rfl
  · exact absurd hmem (ho (Nat.le_of_not_lt hcap))
  · exact absurd hmem (ho (Nat.le_of_not_lt hcap))
  · rfl

theorem Slot.mem_free_bits (hb : ∀ i ∈ s.bits, i < s.cap) :
    i ∈ (s.free o).2.bits ↔ i ∈ s.bits ∧ i ≠ o := by
  rw [free]
  split_ifs with hc ho
  · refine ⟨fun hi => ⟨hi, ?_⟩, fun hi => hi.1⟩
    have := hb i hi
    omega
  · simp [and_comm]
  · simp [and_comm]
  · exact ⟨fun hi => ⟨hi, fun heq => ho (heq ▸ hi)⟩, fun hi => hi.1⟩

theorem Slot.lookup_free_records (hi : i ≠ o) :
    (s.free o).2.records.lookup i = s.records.lookup i := by
  rw [free]
  split_ifs
  · rfl
  · exact lookup_erase_ne hi
  · rfl
  · rfl

theorem Slot.lookup_free_records_some (hr : (s.free o).2.records.lookup i = some h) :
    s.records.lookup i = some h := by
  by_cases hi : i = o
  · subst hi
    rw [free] at hr
    split_ifs at hr
    · exact hr
    · simp at hr
    · exact hr
    · exact hr
  · rwa [lookup_free_records hi] at hr

theorem Slot.lookup_free_records_self (ho : o ∈ s.bits) (hc : o < s.cap)
    (hh : s.getSlot h = some o) : (s.free o).2.records.lookup o = none := by
  have hassigned : s.assigned o = true :=
    decide_eq_true (count_pos.mpr ⟨h, o, hh, rfl⟩)
  rw [free, if_neg (by omega), if_pos ho, if_pos hassigned]
  exact lookup_erase o s.records

theorem Slot.free_of_occupy (hlt : o < s.cap) (hs : s.occupy o h = .ok s') :
    (s'.free o).2 = { s with hashPairs := s.hashPairs.insert h o
                             records := s.records.erase o } := by
  obtain ⟨-, ho, rfl⟩ := occupy_ok.mp hs
  have hassigned : 0 < (s.hashPairs.insert h o).count fun _ j => j = o :=
    count_pos.mpr ⟨h, o, by simp, rfl⟩
  have hrecords : (s.records.insert o h).erase o = s.records.erase o := by
    apply ext_lookup
    intro i
    by_cases hi : i = o
    · subst hi
      simp
    · rw [lookup_erase_ne hi, lookup_erase_ne hi, lookup_insert_of_ne _ hi]
  rw [free, if_neg (by simp; omega), if_pos (by simp), if_pos (by simpa [assigned])]
  simp [Finset.erase_insert ho, hrecords]

end SlotLemmas

/-! ### Blocks, events and errors -/

structure DataContainer where
  index : ℕ
  data : Bytes
  hash : BlockID
  crc : UInt32

structure Header where
  kind : UInt8
  dataLen : ℕ
  index : ℕ
  crc32 : UInt32
  checksum : BlockID
  canceled : UInt8
deriving DecidableEq

structure File where
  header : Header
  data : Bytes
deriving DecidableEq

def crc32Step (c : UInt32) : UInt32 :=
  if c &&& 1 = 1 then (c >>> 1) ^^^ 0xEDB88320 else c >>> 1

def crc32 (data : Bytes) : UInt32 :=
  data.foldl (fun c b => crc32Step^[8] (c ^^^ b.toUInt32)) 0xFFFFFFFF ^^^ 0xFFFFFFFF

def newBlockWithHash (index : ℕ) (data : Bytes) (hash : BlockID) : File :=
  ⟨⟨1, data.length, index, crc32 data, hash, 0⟩, data⟩

inductive BlockState
  | localOnly
  | localS3
  | s3Only
deriving DecidableEq

inductive BlockMetaEventType
  | add
  | delete
deriving DecidableEq

structure BlockMetaEvent where
  volID : ℕ
  blockID : BlockID
  size : ℕ := 0
  logicIndex : ℕ := 0
  crc32 : UInt32 := 0
  eventType : BlockMetaEventType := .add
  state : BlockState := .localOnly
  createdAt : ℤ := 0
deriving DecidableEq

inductive VolumeError
  | slot (e : SlotError)
  | notOccupied (index : ℕ)
  | notFound
  | blockExisted
  | blockNotExisted
deriving DecidableEq

/-! ### The volume -/

/-- `hung` says that a call which never returns holds the lock of the slot table;
`fired` that the timer of the eviction loop, which is never reset, has fired. The
LRU lists its entries from the most recent to the oldest. -/
structure Volume where
  id : ℕ
  slot : Slot
  files : Finmap fun _ : ℕ => File
  blockLru : List (ℕ × BlockID)
  pendingBlocks : List (ℕ × BlockID)
  inuseBytes : UInt64
  fired : Bool
  hung : Bool

def Volume.new (id cap : ℕ) : Volume := ⟨id, .new cap, ∅, [], [], 0, false, false⟩

structure Outcome (α : Type) where
  reply : Option (Except VolumeError α)
  sent : List BlockMetaEvent
  vol : Volume

namespace Volume

def freeSlot (v : Volume) (offset : ℕ) : Volume := { v with slot := (v.slot.free offset).2 }

def deleteFile (v : Volume) (slot : ℕ) : Volume := { v with files := v.files.erase slot }

def dropSlot (slot : ℕ) (l : List (ℕ × BlockID)) : List (ℕ × BlockID) :=
  l.eraseP fun e => e.1 == slot

def expire2Local (v : Volume) (slot : ℕ) : Volume :=
  { v with pendingBlocks := dropSlot slot v.pendingBlocks }

def lruPut (v : Volume) (slot : ℕ) (hash : BlockID) : Volume :=
  let lru := (slot, hash) :: dropSlot slot v.blockLru
  if v.slot.cap < lru.length then
    { v with blockLru := lru.dropLast, pendingBlocks := v.pendingBlocks ++ lru.getLast?.toList }
  else { v with blockLru := lru }

section LruPut

variable (v : Volume) (slot : ℕ) (hash : BlockID)

@[simp] theorem lruPut_id : (v.lruPut slot hash).id = v.id := by
  simp only [lruPut]
  split_ifs <;> rfl

@[simp] theorem lruPut_slot : (v.lruPut slot hash).slot = v.slot := by
  simp only [lruPut]
  split_ifs <;> rfl

@[simp] theorem lruPut_files : (v.lruPut slot hash).files = v.files := by
  simp only [lruPut]
  split_ifs <;> rfl

@[simp] theorem lruPut_hung : (v.lruPut slot hash).hung = v.hung := by
  simp only [lruPut]
  split_ifs <;> rfl

end LruPut

def expire2Remote (v : Volume) (slot : ℕ) : Volume :=
  if v.pendingBlocks.any fun e => e.1 == v.id then
    let v := { v with pendingBlocks := dropSlot v.id v.pendingBlocks }
    if slot ∈ v.files then (v.deleteFile slot).freeSlot slot else v
  else { v with hung := true }

def evictOldest (v : Volume) (oldest : ℕ × BlockID) : Volume :=
  expire2Remote { v with
    blockLru := v.blockLru.dropLast
    pendingBlocks := v.pendingBlocks ++ [oldest] } oldest.1

def nextFreeSlot (v : Volume) : Option ℕ × Volume :=
  if v.slot.remains = 0 then
    match v.blockLru.getLast? with
    | none => (none, v)
    | some oldest =>
      match (v.evictOldest oldest).slot.next with
      | none => (none, { v.evictOldest oldest with hung := true })
      | some slot => (some slot, v.evictOldest oldest)
  else (v.slot.next, v)

theorem evictOldest_getSlot (v : Volume) (oldest : ℕ × BlockID) (hash : BlockID) :
    (v.evictOldest oldest).slot.getSlot hash = v.slot.getSlot hash := by
  simp only [evictOldest, expire2Remote]
  split_ifs
  · exact Slot.free_getSlot
  · rfl
  · rfl

theorem nextFreeSlot_id (v : Volume) : v.nextFreeSlot.2.id = v.id := by
  have hid : ∀ oldest, (v.evictOldest oldest).id = v.id := by
    intro oldest
    simp only [evictOldest, expire2Remote]
    split_ifs <;> rfl
  rw [nextFreeSlot]
  split_ifs
  · split
    · rfl
    · split <;> exact hid _
  · rfl

theorem nextFreeSlot_getSlot (v : Volume) (hash : BlockID) :
    v.nextFreeSlot.2.slot.getSlot hash = v.slot.getSlot hash := by
  rw [nextFreeSlot]
  split_ifs
  · split
    · rfl
    · split <;> exact evictOldest_getSlot v _ hash
  · rfl

theorem nextFreeSlot_lt {v v' : Volume} {slot : ℕ} (h : v.nextFreeSlot = (some slot, v')) :
    slot < v'.slot.cap := by
  rw [Volume.nextFreeSlot] at h
  split_ifs at h
  · split at h
    · cases h
    split at h
    · cases h
    next hn =>
    cases h
    exact (Slot.next_some hn).1
  · obtain ⟨hn, rfl⟩ := Prod.mk.inj h
    exact (Slot.next_some hn).1

def addInUseBytes (v : Volume) (delta : ℕ) : Volume :=
  { v with inuseBytes := v.inuseBytes + UInt64.ofNat delta }

def storeBlock (v : Volume) (slot : ℕ) (c : DataContainer) : Volume :=
  (({ v with files := v.files.insert slot (newBlockWithHash c.index c.data c.hash) }.expire2Local
    slot).lruPut slot c.hash).addInUseBytes c.data.length

section StoreBlock

variable (v : Volume) (slot : ℕ) (c : DataContainer)

@[simp] theorem storeBlock_id : (v.storeBlock slot c).id = v.id :=
  lruPut_id _ slot c.hash

@[simp] theorem storeBlock_slot : (v.storeBlock slot c).slot = v.slot :=
  lruPut_slot _ slot c.hash

@[simp] theorem storeBlock_files : (v.storeBlock slot c).files =
    v.files.insert slot (newBlockWithHash c.index c.data c.hash) :=
  lruPut_files _ slot c.hash

@[simp] theorem storeBlock_hung : (v.storeBlock slot c).hung = v.hung :=
  lruPut_hung _ slot c.hash

end StoreBlock

def writtenEvent (v : Volume) (c : DataContainer) (now : ℤ) : BlockMetaEvent :=
  { volID := v.id, blockID := c.hash, size := c.data.length, logicIndex := c.index,
    crc32 := c.crc, createdAt := now }

def writeSlot (v : Volume) (slot : ℕ) (c : DataContainer) (now : ℤ) : Outcome BlockID :=
  if slot ∈ v.files then ⟨some (.error .blockExisted), [], v.freeSlot slot⟩
  else ⟨some (.ok c.hash), [v.writtenEvent c now], v.storeBlock slot c⟩

def writeBlock (v : Volume) (c : DataContainer) (now : ℤ) : Outcome BlockID :=
  if v.hung then ⟨none, [], v⟩
  else match v.slot.getSlot c.hash with
    | some _ => ⟨some (.error .blockExisted), [v.writtenEvent c now], v⟩
    | none =>
      match v.nextFreeSlot with
      | (none, v') => ⟨none, [], v'⟩
      | (some slot, v') =>
        match v'.slot.occupy slot c.hash with
        | .error e => ⟨some (.error (.slot e)), [], v'⟩
        | .ok s => { v' with slot := s }.writeSlot slot c now

theorem eq_of_mem_sent {v : Volume} {c : DataContainer} {now : ℤ} {e : BlockMetaEvent}
    (he : e ∈ (v.writeBlock c now).sent) : e = v.writtenEvent c now := by
  have hid := v.nextFreeSlot_id
  rw [writeBlock] at he
  split_ifs at he
  · cases he
  split at he
  · exact mem_singleton.mp he
  split at he
  · cases he
  next slot v' heq =>
  rw [heq] at hid
  split at he
  · cases he
  rw [writeSlot] at he
  split_ifs at he
  · cases he
  · rw [mem_singleton.mp he, writtenEvent, writtenEvent, hid]

def readReply (v : Volume) (hash : BlockID) : Except VolumeError File :=
  match v.slot.getSlot hash with
  | none => .error (.slot .empty)
  | some index =>
    if index ∉ v.slot.bits then .error (.notOccupied index)
    else match v.files.lookup index with
      | none => .error .notFound
      | some f => .ok f

def readBlock (v : Volume) (hash : BlockID) : Outcome File :=
  if v.hung then ⟨none, [], v⟩
  else match v.readReply hash with
    | .error e => ⟨some (.error e), [], v⟩
    | .ok f => ⟨some (.ok f), [],
        (v.expire2Local f.header.index).lruPut f.header.index f.header.checksum⟩

def removeLocal (v : Volume) (hash : BlockID) : Outcome Unit :=
  if v.hung then ⟨none, [], v⟩
  else
    let slot := v.slot.slotOrZero hash
    let v' := if (v.slot.getSlot hash).isSome then v.freeSlot slot else v
    if slot ∈ v'.files then ⟨some (.ok ()), [], v'.deleteFile slot⟩
    else ⟨some (.error .blockNotExisted), [], v'⟩

def cleanBlock (v : Volume) (hash : BlockID) : Volume :=
  (v.deleteFile (v.slot.slotOrZero hash)).freeSlot (v.slot.slotOrZero hash)

def deletedEvent (v : Volume) (hash : BlockID) : BlockMetaEvent :=
  { volID := v.id, blockID := hash, eventType := .delete }

def cleanInvalidBlock (v : Volume) (hashes : List BlockID) : Outcome Unit :=
  if v.hung then ⟨none, [], v⟩
  else ⟨some (.ok ()), hashes.map v.deletedEvent, hashes.foldl cleanBlock v⟩

def fireTimer (v : Volume) : Volume :=
  if v.hung ∨ v.fired then v
  else match v.pendingBlocks with
    | [] => { v with fired := true }
    | (slot, _) :: rest => { v with pendingBlocks := rest, fired := true }.freeSlot slot

end Volume

end HugoFS.Storage
