import HugoFS.Lib.Recency
import HugoFS.Storage.FreeSlot
import HugoFS.Storage.Removal

/-!
# The entries of the block LRU

The LRU of a volume and its list of pending blocks should name occupied slots, each with the hash
of the block in it. `ReadBlock` puts the index that the block has in its own file, and removals
leave the entry of the block. Runs are followed together with the last use of every block.
-/

namespace HugoFS.Storage

variable {b : BlockID}

namespace Volume

open List Finmap Slot Option Function Disk

def NamesStored (v : Volume) : Prop :=
  ∀ e ∈ v.blockLru ++ v.pendingBlocks, e.1 ∈ v.slot.bits ∧ v.slot.records.lookup e.1 = some e.2
deriving Decidable

def Evicts (v : Volume) (hash : BlockID) : Prop :=
  v.hung = false ∧ v.slot.getSlot hash = none ∧ v.slot.remains = 0 ∧ v.blockLru ≠ []
deriving Decidable

def EvictsLeastUsed (v : Volume) (used : BlockID → ℕ) : Prop :=
  ∃ i b, i ∈ v.slot.bits ∧ v.slot.records.lookup i = some b ∧
    (∀ j b', j ∈ v.slot.bits → v.slot.records.lookup j = some b' → used b ≤ used b') ∧
    v.nextFreeSlot.2.slot.bits = v.slot.bits.erase i

structure TrackedBut (v : Volume) (used : BlockID → ℕ) (but : Option ℕ) : Prop where
  sound : v.Sound fun _ _ => True
  awake : v.hung = false
  pending : v.pendingBlocks = []
  recorded : ∀ i ∈ v.slot.bits, ∃ b, v.slot.records.lookup i = some b
  entries : ∀ i b, but ≠ some i → ((i, b) ∈ v.blockLru ↔ v.slot.records.lookup i = some b)
  keys : Recency.DistinctKeys v.blockLru
  order : Recency.SortedBy used v.blockLru

def Tracked (v : Volume) (used : BlockID → ℕ) : Prop := v.TrackedBut used none

variable {v v' : Volume} {used : BlockID → ℕ} {but : Option ℕ} {slot clock : ℕ} {c : DataContainer}
  {oldest : ℕ × BlockID} {i : ℕ}

theorem TrackedBut.congr (h : v.TrackedBut used but) (hsound : v'.Sound fun _ _ => True)
    (hs : v'.slot.bits = v.slot.bits) (hr : ∀ i, v'.slot.records.lookup i = v.slot.records.lookup i)
    (hl : v'.blockLru = v.blockLru) (hp : v'.pendingBlocks = v.pendingBlocks)
    (hh : v'.hung = v.hung) : v'.TrackedBut used but where
  sound := hsound
  awake := hh.trans h.awake
  pending := hp.trans h.pending
  recorded i hi := by
    rw [hr]
    exact h.recorded i (hs ▸ hi)
  entries i b hi := by
    rw [hl, hr]
    exact h.entries i b hi
  keys := hl ▸ h.keys
  order := hl ▸ h.order

theorem TrackedBut.put (h : v.TrackedBut used (some slot))
    (hr : v.slot.records.lookup slot = some b) (hclock : ∀ x, used x ≤ clock) :
    (v.lruPut slot b).Tracked (update used b (clock + 1)) := by
  have hentry : ∀ e ∈ v.blockLru, e.1 ≠ slot → v.slot.records.lookup e.1 = some e.2 :=
    fun e he hne => (h.entries e.1 e.2 fun heq => hne (some.inj heq).symm).mp he
  have hother : ∀ e ∈ v.blockLru, e.1 ≠ slot → e.2 ≠ b := by
    rintro e he hne rfl
    -- a hash has one slot
    have hget := (h.sound.known (hentry e he hne)).1
    exact hne (some.inj (hget.symm.trans (h.sound.known hr).1))
  have hkeys := h.keys.put slot b
  have hbits : ∀ e ∈ Recency.put slot b v.blockLru, e.1 ∈ v.slot.bits := by
    intro e he
    rcases (Recency.mem_put h.keys).mp he with rfl | ⟨hmem, hne⟩
    · exact (h.sound.known hr).2
    · exact (h.sound.known (hentry e hmem hne)).2
  have hlen : (Recency.put slot b v.blockLru).length ≤ v.slot.cap := by
    refine (hkeys.length_le hbits).trans ?_
    have hsub : v.slot.bits ⊆ Finset.range v.slot.cap := fun i hi =>
      Finset.mem_range.mpr (h.sound.below i hi)
    exact (Finset.card_le_card hsub).trans (Finset.card_range _).le
  have hput : v.lruPut slot b = { v with blockLru := Recency.put slot b v.blockLru } := by
    simp only [lruPut]
    exact if_neg (not_lt.mpr hlen)
  rw [hput]
  refine ⟨h.sound.congr rfl rfl, h.awake, h.pending, h.recorded, fun i x _ => ?_, hkeys, ?_⟩
  · change (i, x) ∈ Recency.put slot b v.blockLru ↔ v.slot.records.lookup i = some x
    rw [Recency.mem_put h.keys]
    by_cases hi : i = slot
    · subst hi
      rw [hr]
      simp [eq_comm]
    · rw [← h.entries i x fun heq => hi (some.inj heq).symm]
      simp [hi]
  · refine h.order.put h.keys (fun e he hne => ?_) fun e he hne => ?_
    · exact update_of_ne (hother e he hne) ..
    · rw [update_self]
      exact Nat.lt_succ_of_le (hclock e.2)

namespace Tracked

theorem new (id cap : ℕ) (used : BlockID → ℕ) : (Volume.new id cap).Tracked used where
  sound := .new _ id cap
  awake := rfl
  pending := rfl
  recorded _ hi := absurd hi (Finset.notMem_empty _)
  entries i b _ := by simp [Volume.new, Slot.new]
  keys := .nil
  order := .nil

section

variable (h : v.Tracked used)
include h

theorem mem_lru :
    (i, b) ∈ v.blockLru ↔ v.slot.records.lookup i = some b :=
  h.entries i b (by simp)

theorem namesStored : v.NamesStored := by
  intro e he
  rw [h.pending, append_nil] at he
  have hr := h.mem_lru.mp he
  exact ⟨(h.sound.known hr).2, hr⟩

theorem exists_mem (hi : i ∈ v.slot.bits) :
    ∃ b, (i, b) ∈ v.blockLru := by
  obtain ⟨b, hb⟩ := h.recorded i hi
  exact ⟨b, h.mem_lru.mpr hb⟩

theorem touch (hr : v.slot.records.lookup slot = some b) (hclock : ∀ x, used x ≤ clock) :
    ((v.expire2Local slot).lruPut slot b).Tracked (update used b (clock + 1)) := by
  have hsame : v.expire2Local slot = v := by
    rw [expire2Local, h.pending, dropSlot, eraseP_nil, ← h.pending]
  rw [hsame]
  exact .put ⟨h.sound, h.awake, h.pending, h.recorded,
    fun i x _ => h.mem_lru, h.keys, h.order⟩ hr hclock

section

variable {s : Slot} (hnew : v.slot.getSlot c.hash = none) (hlt : slot < v.slot.cap)
  (hs : v.slot.occupy slot c.hash = .ok s)
include hnew hlt hs

theorem store (hclock : ∀ x, used x ≤ clock) :
    ({ v with slot := s }.storeBlock slot c).Tracked
      (update used c.hash (clock + 1)) := by
  have hsound := h.sound.store hnew hlt hs (fun _ hx => hx) trivial
  obtain ⟨-, hfree, rfl⟩ := occupy_ok.mp hs
  have hnone : v.slot.records.lookup slot = none := by
    by_contra hsome
    obtain ⟨b, hb⟩ := ne_none_iff_exists'.mp hsome
    exact hfree (h.sound.known hb).2
  -- the volume as the LRU sees it, before the statistics are updated
  set v₁ : Volume := { v with
    slot := { v.slot with
      bits := insert slot v.slot.bits
      hashPairs := v.slot.hashPairs.insert c.hash slot
      records := v.slot.records.insert slot c.hash }
    files := v.files.insert slot (newBlockWithHash c.index c.data c.hash)
    pendingBlocks := dropSlot slot v.pendingBlocks } with hv₁
  have hbut : v₁.TrackedBut used (some slot) := by
    have hslot := storeBlock_slot { v with slot := v₁.slot } slot c
    have hfiles := storeBlock_files { v with slot := v₁.slot } slot c
    refine ⟨hsound.congr hslot.symm hfiles.symm, h.awake, ?_, fun i hi => ?_, fun i b hi => ?_,
      h.keys, h.order⟩
    · simp [hv₁, h.pending, dropSlot]
    · by_cases his : i = slot
      · exact ⟨c.hash, by rw [his]; exact lookup_insert _⟩
      · obtain ⟨b, hb⟩ := h.recorded i (Finset.mem_of_mem_insert_of_ne hi his)
        exact ⟨b, (lookup_insert_of_ne _ his).trans hb⟩
    · have his : i ≠ slot := fun heq => hi (heq ▸ rfl)
      refine h.mem_lru.trans ?_
      rw [hv₁, lookup_insert_of_ne _ his]
  have hput := hbut.put (b := c.hash) (lookup_insert _) hclock
  exact hput.congr (hput.sound.congr rfl rfl) rfl (fun _ => rfl) rfl rfl rfl

theorem refuse :
    ({ v with slot := s }.freeSlot slot).Tracked used := by
  have hfree := (occupy_ok.mp hs).2.1
  refine h.congr (h.sound.refuse hnew hlt hs) ?_ (fun i => ?_) rfl rfl rfl
  · rw [freeSlot, free_of_occupy hlt hs]
  · rw [freeSlot, free_of_occupy hlt hs]
    by_cases hi : i = slot
    · subst hi
      rw [lookup_erase]
      by_contra hsome
      obtain ⟨b, hb⟩ := ne_none_iff_exists'.mp (Ne.symm hsome)
      exact hfree (h.sound.known hb).2
    · exact lookup_erase_ne hi

end

theorem evict (ho : v.blockLru.getLast? = some oldest)
    (hev : v.Evictable oldest) : (v.evictOldest oldest).Tracked used := by
  have hid : oldest.1 = v.id := by
    rcases hev.1 with hid | ⟨e, he, -⟩
    · exact hid
    · rw [h.pending] at he
      cases he
  have hr : v.slot.records.lookup oldest.1 = some oldest.2 :=
    h.mem_lru.mp (mem_of_getLast? ho)
  have hknown := h.sound.known hr
  have hsound := h.sound.evictOldest oldest
  have hbits := evictOldest_bits h.sound.below oldest
  rw [if_pos hev] at hbits
  rcases v.evictOldest_cases oldest with ⟨-, -, he⟩ | ⟨-, hfile, -⟩ | ⟨hf, -⟩
  · have hrec : ∀ i, (v.evictOldest oldest).slot.records.lookup i =
        if i = oldest.1 then none else v.slot.records.lookup i := by
      intro i
      rw [he]
      split_ifs with hi
      · rw [hi]
        exact lookup_free_records_self hknown.2 (h.sound.below _ hknown.2) hknown.1
      · exact lookup_free_records hi
    have hlru : (v.evictOldest oldest).blockLru = v.blockLru.dropLast := by
      rw [he]
      rfl
    refine ⟨hsound, (evictOldest_hung hev).trans h.awake, ?_, fun i hi => ?_, fun i b _ => ?_,
      ?_, ?_⟩
    · rw [he]
      simp [freeSlot, deleteFile, h.pending, dropSlot, hid]
    · rw [hbits, Finset.mem_erase] at hi
      rw [hrec, if_neg hi.1]
      exact h.recorded i hi.2
    · rw [hlru, h.keys.mem_dropLast ho, h.mem_lru, hrec]
      by_cases hi : i = oldest.1
      · simp [hi]
      · simp [hi]
    · rw [hlru]
      exact h.keys.sublist (dropLast_sublist _)
    · rw [hlru]
      exact h.order.sublist (dropLast_sublist _)
  · exact absurd hev.2.1 hfile
  · exact absurd hev.1 hf

theorem evictsLeastUsed (hr : v.slot.remains = 0)
    (ho : v.blockLru.getLast? = some oldest) (hev : v.Evictable oldest) :
    v.EvictsLeastUsed used := by
  refine ⟨oldest.1, oldest.2, hev.2.2, h.mem_lru.mp (mem_of_getLast? ho),
    fun j b _ hb => ?_, ?_⟩
  · exact h.order.last_le ho (h.mem_lru.mpr hb)
  · rcases nextFreeSlot_of_full h.sound.below hr with
      ⟨ho', -⟩ | ⟨oldest', ho', -, hn⟩ | ⟨oldest', ho', hno, -⟩
    · cases ho.symm.trans ho'
    · cases ho.symm.trans ho'
      rw [hn, evictOldest_bits h.sound.below oldest, if_pos hev]
    · cases ho.symm.trans ho'
      exact absurd hev hno

theorem search (hev : v.slot.remains = 0 → ∀ oldest,
    v.blockLru.getLast? = some oldest → v.Evictable oldest) : v.nextFreeSlot.2.Tracked used := by
  by_cases hr : v.slot.remains = 0
  · rcases nextFreeSlot_of_full h.sound.below hr with
      ⟨-, hn⟩ | ⟨oldest, ho, he, hn⟩ | ⟨oldest, ho, hno, -⟩
    · rw [hn]
      exact h
    · rw [hn]
      exact h.evict ho he
    · exact absurd (hev hr oldest ho) hno
  · obtain ⟨slot, hn⟩ := nextFreeSlot_of_remains hr
    rw [hn]
    exact h

theorem dropBlock (frees : Bool) (hfree : frees = true → slot ∉ v.slot.bits) :
    (v.dropBlock slot frees).Tracked used := by
  have hslot : (v.dropBlock slot frees).slot = v.slot := by
    cases frees with
    | true => exact free_of_notMem fun _ => hfree rfl
    | false => rfl
  have hsound : (v.dropBlock slot frees).Sound fun _ _ => True := by
    cases frees with
    | true => exact (h.sound.freeSlot slot).deleteFile slot
    | false => exact h.sound.deleteFile slot
  refine h.congr hsound (by rw [hslot]) (fun i => by rw [hslot]) ?_ ?_ ?_ <;> cases frees <;> rfl

theorem cleanBlocks {hashes : List BlockID}
    (hfree : ∀ x ∈ hashes, v.slot.slotOrZero x ∉ v.slot.bits) :
    (hashes.foldl cleanBlock v).Tracked used := by
  induction hashes generalizing v with
  | nil => exact h
  | cons x xs ih =>
    have hslot : (v.cleanBlock x).slot = v.slot :=
      free_of_notMem fun _ => hfree x mem_cons_self
    refine ih (h.dropBlock true fun _ => hfree x mem_cons_self) fun y hy => ?_
    rw [hslot]
    exact hfree y (mem_cons_of_mem _ hy)

end

end Tracked

theorem mem_lruPut (v : Volume) (slot : ℕ) (hash : BlockID) :
    (slot, hash) ∈ (v.lruPut slot hash).blockLru ++ (v.lruPut slot hash).pendingBlocks := by
  have hmem : (slot, hash) ∈ (slot, hash) :: dropSlot slot v.blockLru := mem_cons_self
  simp only [lruPut]
  split_ifs
  · cases hl : ((slot, hash) :: dropSlot slot v.blockLru).getLast? with
    | none => simp at hl
    | some oldest =>
      rw [← dropLast_append_getLast? oldest hl] at hmem
      rcases mem_append.mp hmem with hmem | hmem
      · exact mem_append_left _ hmem
      · exact mem_append_right _ (mem_append_right _ hmem)
  · exact mem_append_left _ hmem

theorem slotOrZero_cleanBlock (x y : BlockID) :
    (v.cleanBlock x).slot.slotOrZero y = v.slot.slotOrZero y := by
  rw [slotOrZero, slotOrZero]
  exact congrArg (Option.getD · 0) free_getSlot

theorem mem_cleanBlocks_bits (hb : ∀ i ∈ v.slot.bits, i < v.slot.cap) (hashes : List BlockID) :
    i ∈ (hashes.foldl cleanBlock v).slot.bits ↔
      i ∈ v.slot.bits ∧ ∀ x ∈ hashes, i ≠ v.slot.slotOrZero x := by
  induction hashes generalizing v with
  | nil => simp
  | cons x xs ih =>
    have hmem : ∀ {j}, j ∈ (v.cleanBlock x).slot.bits ↔
        j ∈ v.slot.bits ∧ j ≠ v.slot.slotOrZero x := mem_free_bits hb
    have hb' : ∀ j ∈ (v.cleanBlock x).slot.bits, j < (v.cleanBlock x).slot.cap := by
      intro j hj
      exact (hb j (hmem.mp hj).1).trans_eq free_cap.symm
    rw [foldl_cons, ih hb', hmem]
    simp only [slotOrZero_cleanBlock, forall_mem_cons, and_assoc]

theorem cleanBlocks_lru (v : Volume) (hashes : List BlockID) :
    (hashes.foldl cleanBlock v).blockLru = v.blockLru := by
  induction hashes generalizing v with
  | nil => rfl
  | cons x xs ih => exact ih (v.cleanBlock x)

end Volume

theorem Disk.Sound.readBlock_cases {d : Disk} (h : d.Sound) (hh : d.vol.hung = false)
    (hash : BlockID) :
    (∃ f i, d.vol.slot.getSlot hash = some i ∧ d.vol.slot.records.lookup i = some f.header.checksum ∧
      d.readReply hash = .ok f ∧ (d.readBlock hash).reply = some (.ok f) ∧
      (d.readBlock hash).disk.vol =
        (d.vol.expire2Local f.header.index).lruPut f.header.index f.header.checksum) ∨
    ((∀ f, d.readReply hash ≠ .ok f) ∧ (∀ f, (d.readBlock hash).reply ≠ some (.ok f)) ∧
      (d.readBlock hash).disk.vol = d.vol) := by
  cases hr : d.vol.readReply hash with
  | error e =>
    have hreply : d.readReply hash = .error (.volume e) := by
      simp [readReply, h.not_corrupted hash, hr, Except.mapError]
    refine .inr ⟨fun f hf => ?_, fun f hf => ?_, ?_⟩
    · cases hreply.symm.trans hf
    · simp [readBlock, Volume.readBlock, h.not_corrupted hash, hh, hr, Except.mapError] at hf
    · simp [Disk.readBlock, Volume.readBlock, h.not_corrupted hash, hh, hr, Disk.onVolume]
  | ok f =>
    have hreply : d.readReply hash = .ok f := by
      simp [readReply, h.not_corrupted hash, hr, Except.mapError]
    obtain ⟨i, hi, hbit, hf⟩ := h.readReply_eq_ok.mp hreply
    refine .inl ⟨f, i, hi, (h.vol.stored hbit hf).1, hreply, ?_, ?_⟩
    · simp [readBlock, Volume.readBlock, h.not_corrupted hash, hh, hr, Except.mapError]
    · simp [Disk.readBlock, Volume.readBlock, h.not_corrupted hash, hh, hr, Disk.onVolume]

/-! ### Runs with the times of use -/

structure UsedDisk where
  disk : Disk
  clock : ℕ
  used : BlockID → ℕ

def EngineCall.uses : EngineCall → Disk → Option BlockID
  | .writeBlock c now fault, d =>
    match (d.writeBlock c now fault).reply with
    | some (.ok b) => some b
    | _ => none
  | .readBlock hash, d =>
    match (d.readBlock hash).reply with
    | some (.ok f) => some f.header.checksum
    | _ => none
  | .removeLocal _, _ | .cleanInvalidBlock _, _ | .expireBlock _, _ | .fireTimer, _ => none

def UsedDisk.next (c : EngineCall) (st : UsedDisk) : UsedDisk where
  disk := c.next st.disk
  clock := st.clock + 1
  used := match c.uses st.disk with
    | some b => Function.update st.used b (st.clock + 1)
    | none => st.used

def newUsedDisk (id cap : ℕ) : UsedDisk := ⟨.new id cap, 0, fun _ => 0⟩

def UsedDisk.EvictsLeastUsed (st : UsedDisk) : EngineCall → Prop
  | .writeBlock c _ _ => st.disk.vol.Evicts c.hash → st.disk.vol.EvictsLeastUsed st.used
  | .readBlock _ | .removeLocal _ | .cleanInvalidBlock _ | .expireBlock _ | .fireTimer => True

def UsedDisk.KeepsLru (st : UsedDisk) : EngineCall → Prop
  | .writeBlock c _ _ => st.disk.vol.Evicts c.hash →
      ∀ oldest ∈ st.disk.vol.blockLru.getLast?,
        oldest.1 = st.disk.vol.id ∧ st.disk.vol.id ∈ st.disk.vol.files
  | .readBlock hash => ∀ f, st.disk.readReply hash = .ok f →
      st.disk.vol.slot.getSlot hash = some f.header.index
  | .removeLocal hash => ∀ i ∈ st.disk.vol.slot.getSlot hash, i ∉ st.disk.vol.slot.bits
  | .cleanInvalidBlock hashes => ∀ x ∈ hashes,
      st.disk.vol.slot.slotOrZero x ∉ st.disk.vol.slot.bits
  | .expireBlock _ | .fireTimer => True

structure UsedDisk.Fresh (st : UsedDisk) : Prop where
  sound : st.disk.Sound
  tracked : st.disk.vol.Tracked st.used
  clock : ∀ b, st.used b ≤ st.clock

namespace UsedDisk.Fresh

variable {st : UsedDisk}
variable {c : EngineCall}

theorem new (id cap : ℕ) : (newUsedDisk id cap).Fresh :=
  ⟨.new id cap, .new id cap _, fun _ => le_rfl⟩

section

variable (h : st.Fresh)
include h

open UsedDisk

theorem next_clock (c : EngineCall) (b : BlockID) :
    (next c st).used b ≤ (next c st).clock := by
  have hb := h.clock b
  simp only [next]
  cases c.uses st.disk with
  | none => exact Nat.le_succ_of_le hb
  | some x =>
    by_cases hx : b = x
    · simp [hx]
    · simp only [Function.update_of_ne hx]
      omega

theorem next_of_unused (hu : c.uses st.disk = none)
    (ht : (c.next st.disk).vol.Tracked st.used) : (next c st).Fresh := by
  refine ⟨h.sound.next c, ?_, h.next_clock c⟩
  simp only [next, hu]
  exact ht

theorem next_of_used (hu : c.uses st.disk = some b)
    (ht : (c.next st.disk).vol.Tracked (Function.update st.used b (st.clock + 1))) :
    (next c st).Fresh := by
  refine ⟨h.sound.next c, ?_, h.next_clock c⟩
  simp only [next, hu]
  exact ht

open EngineCall

theorem writeBlock {c : DataContainer} {now : ℤ} {fault : Option EngineFault}
    (hok : st.KeepsLru (.writeBlock c now fault)) :
    (next (.writeBlock c now fault) st).Fresh ∧
      st.EvictsLeastUsed (.writeBlock c now fault) := by
  have ht := h.tracked
  have hev : st.disk.vol.Evicts c.hash → ∀ oldest, st.disk.vol.blockLru.getLast? = some oldest →
      st.disk.vol.Evictable oldest := by
    intro he oldest ho
    obtain ⟨hid, hfile⟩ := hok he oldest ho
    exact ⟨.inl hid, hid ▸ hfile, (ht.sound.known (ht.mem_lru.mp (List.mem_of_getLast? ho))).2⟩
  constructor
  · have hunused : (∀ b, (st.disk.writeBlock c now fault).reply ≠ some (.ok b)) →
        uses (.writeBlock c now fault) st.disk = none := by
      intro hno
      rw [uses]
      split
      · next b hb => exact absurd hb (hno b)
      · rfl
    rcases Disk.writeBlock_cases st.disk c now fault with
      ⟨-, hno, hd⟩ | ⟨hh, hg, -, hno, hd⟩ | ⟨hh, hg, slot, v', s, hn, hlt, -, hs, -, hw⟩
    · refine h.next_of_unused (hunused hno) ?_
      rw [EngineCall.next, hd]
      exact ht
    · refine h.next_of_unused (hunused (by simp [hno])) ?_
      rw [EngineCall.next, hd]
      refine ht.search fun hr oldest ho => hev ⟨hh, hg, hr, ?_⟩ oldest ho
      rintro hnil
      simp [hnil] at ho
    · have hsearch : v'.Tracked st.used := by
        have := ht.search fun hr oldest ho => hev ⟨hh, hg, hr, by rintro hnil; simp [hnil] at ho⟩
          oldest ho
        rwa [hn] at this
      have hget : v'.slot.getSlot c.hash = none := by
        have := st.disk.vol.nextFreeSlot_getSlot c.hash
        rw [hn] at this
        exact this.trans hg
      have hrefused := hsearch.refuse hget hlt hs
      rcases (st.disk.onVolume { v' with slot := s }).writeSlot_cases slot c now fault with
        ⟨-, -, hreply, hd⟩ | ⟨-, ⟨e, hreply⟩, hd | ⟨-, hd⟩⟩
      · refine h.next_of_used (b := c.hash) (by simp [uses, hw, hreply]) ?_
        rw [EngineCall.next, hw, hd]
        exact hsearch.store hget hlt hs h.clock
      · refine h.next_of_unused (hunused (by simp [hw, hreply])) ?_
        rw [EngineCall.next, hw, hd]
        exact hrefused
      · refine h.next_of_unused (hunused (by simp [hw, hreply])) ?_
        have hsound := (h.sound.next (.writeBlock c now fault)).vol
        rw [EngineCall.next, hw, hd] at hsound ⊢
        exact hrefused.congr hsound rfl (fun _ => rfl) rfl rfl rfl
  · intro he
    obtain ⟨oldest, ho⟩ : ∃ oldest, st.disk.vol.blockLru.getLast? = some oldest :=
      Option.isSome_iff_exists.mp (by simpa using he.2.2.2)
    exact ht.evictsLeastUsed he.2.2.1 ho (hev he oldest ho)

theorem step (hok : st.KeepsLru c) :
    (next c st).Fresh ∧ st.EvictsLeastUsed c := by
  have ht := h.tracked
  cases c with
  | writeBlock c now fault => exact h.writeBlock hok
  | readBlock hash =>
    refine ⟨?_, trivial⟩
    rcases h.sound.readBlock_cases ht.awake hash with
      ⟨f, i, hi, hr, hf, hreply, hvol⟩ | ⟨-, hno, hvol⟩
    · have hidx : i = f.header.index := Option.some.inj (hi.symm.trans (hok f hf))
      subst hidx
      refine h.next_of_used (b := f.header.checksum) (by simp [EngineCall.uses, hreply]) ?_
      rw [EngineCall.next, hvol]
      exact ht.touch hr h.clock
    · refine h.next_of_unused ?_ ?_
      · rw [EngineCall.uses]
        split
        · next f hf => exact absurd hf (hno f)
        · rfl
      · rw [EngineCall.next, hvol]
        exact ht
  | removeLocal hash =>
    refine ⟨h.next_of_unused rfl ?_, trivial⟩
    change (st.disk.vol.removeLocal hash).vol.Tracked st.used
    rw [Volume.removeLocal_vol ht.awake]
    refine ht.dropBlock _ fun hsome => ?_
    obtain ⟨i, hi⟩ := Option.isSome_iff_exists.mp hsome
    rw [Slot.slotOrZero, hi]
    exact hok i hi
  | cleanInvalidBlock hashes =>
    refine ⟨h.next_of_unused rfl ?_, trivial⟩
    change (st.disk.vol.cleanInvalidBlock hashes).vol.Tracked st.used
    simp only [Volume.cleanInvalidBlock, ht.awake, Bool.false_eq_true, if_false]
    exact ht.cleanBlocks hok
  | expireBlock index =>
    refine ⟨h.next_of_unused rfl ?_, trivial⟩
    refine ht.congr (ht.sound.congr rfl rfl) rfl (fun _ => rfl) rfl ?_ rfl
    simp [EngineCall.next, Volume.expire2Local, Volume.dropSlot, ht.pending]
  | fireTimer =>
    refine ⟨h.next_of_unused rfl ?_, trivial⟩
    change st.disk.vol.fireTimer.Tracked st.used
    rw [Volume.fireTimer]
    split_ifs
    · exact ht
    · rw [ht.pending]
      exact ht.congr (ht.sound.congr rfl rfl) rfl (fun _ => rfl) rfl ht.pending.symm rfl

theorem keepsLru (hnames : (next c st).disk.vol.NamesStored) (hev : st.EvictsLeastUsed c) :
    st.KeepsLru c := by
  have ht := h.tracked
  cases c with
  | writeBlock c now fault =>
    intro he oldest ho
    obtain ⟨i, b, hi, -, -, hbits⟩ := hev he
    rcases Volume.nextFreeSlot_of_full ht.sound.below he.2.2.1 with
      ⟨ho', -⟩ | ⟨oldest', ho', hev', -⟩ | ⟨oldest', ho', hno, hn⟩
    · cases ho'.symm.trans ho
    · cases ho'.symm.trans ho
      rcases hev'.1 with hid | ⟨e, he', -⟩
      · exact ⟨hid, hid ▸ hev'.2.1⟩
      · rw [ht.pending] at he'
        cases he'
    · -- an eviction that fails frees no slot
      rw [hn] at hbits
      have hsame := Volume.evictOldest_bits ht.sound.below oldest'
      rw [if_neg hno] at hsame
      have hmem : i ∈ st.disk.vol.slot.bits.erase i := hbits ▸ hsame ▸ hi
      simp at hmem
  | readBlock hash =>
    intro f hf
    rcases h.sound.readBlock_cases ht.awake hash with
      ⟨f', i, hi, hr, hf', -, hvol⟩ | ⟨hno, -, -⟩
    · cases hf'.symm.trans hf
      have hmem := (st.disk.vol.expire2Local f.header.index).mem_lruPut f.header.index
        f.header.checksum
      change (st.disk.readBlock hash).disk.vol.NamesStored at hnames
      rw [hvol] at hnames
      -- the hash has one slot, so the index that was put is that slot
      have hrec := (hnames _ hmem).2
      rw [Volume.lruPut_slot] at hrec
      have hslot := (ht.sound.known hrec).1.symm.trans (ht.sound.known hr).1
      exact hi.trans hslot.symm
    · exact absurd hf (hno f)
  | removeLocal hash =>
    intro i hi hbit
    obtain ⟨b, hb⟩ := ht.exists_mem hbit
    change (st.disk.vol.removeLocal hash).vol.NamesStored at hnames
    rw [Volume.removeLocal_vol ht.awake, Slot.slotOrZero, hi] at hnames
    have hmem := (hnames (i, b) (List.mem_append_left _ hb)).1
    exact ((Slot.mem_free_bits ht.sound.below).mp hmem).2 rfl
  | cleanInvalidBlock hashes =>
    intro x hx hbit
    obtain ⟨b, hb⟩ := ht.exists_mem hbit
    change (st.disk.vol.cleanInvalidBlock hashes).vol.NamesStored at hnames
    simp only [Volume.cleanInvalidBlock, ht.awake, Bool.false_eq_true, if_false] at hnames
    rw [← Volume.cleanBlocks_lru _ hashes] at hb
    have hmem := (hnames _ (List.mem_append_left _ hb)).1
    exact ((Volume.mem_cleanBlocks_bits ht.sound.below hashes).mp hmem).2 x hx rfl
  | expireBlock index => trivial
  | fireTimer => trivial

end

end UsedDisk.Fresh

/-- In a run of calls on a new volume the entries of the LRU and the pending blocks name
occupied slots with their hashes in every state, and every eviction frees the slot of the
stored block that was used least recently, exactly when all calls meet the condition. -/
theorem lru_names_stored_iff (id cap : ℕ) (cs : List EngineCall) :
    Runs.Always UsedDisk.next (fun st => st.disk.vol.NamesStored) cs (newUsedDisk id cap) ∧
        Runs.Legal UsedDisk.next UsedDisk.EvictsLeastUsed cs (newUsedDisk id cap) ↔
      Runs.Legal UsedDisk.next UsedDisk.KeepsLru cs (newUsedDisk id cap) := by
  have hdom : Runs.Legal UsedDisk.next (fun _ _ => True) cs (newUsedDisk id cap) :=
    Runs.legal_of_forall fun _ _ => trivial
  exact Runs.always_and_legal_iff (I := UsedDisk.Fresh) (fun _ h => h.tracked.namesStored)
    (fun _ _ h _ hok => h.step hok) (fun _ _ h _ hnames hev => h.keepsLru hnames hev) hdom
    (.new id cap)

/-- Three runs that go wrong. A block with index 5 in its file is read: the LRU has 5, which is
not a slot that is occupied. A block is removed: the LRU still has its slot. A third block
meets a full volume of two slots: the eviction frees nothing. -/
theorem lru_names_other_slot :
    (Runs.exec UsedDisk.next [.writeBlock ⟨5, [1], "aa", 0⟩ 0 none, .readBlock "aa"]
        (newUsedDisk 7 2)).disk.vol.blockLru = [(5, "aa"), (0, "aa")] ∧
      ¬(Runs.exec UsedDisk.next [.writeBlock ⟨5, [1], "aa", 0⟩ 0 none, .readBlock "aa"]
        (newUsedDisk 7 2)).disk.vol.NamesStored ∧
      ¬(Runs.exec UsedDisk.next [.writeBlock (sampleBlock "aa" 1) 0 none, .removeLocal "aa"]
        (newUsedDisk 7 2)).disk.vol.NamesStored ∧
      (Runs.exec UsedDisk.next [.writeBlock (sampleBlock "aa" 1) 0 none,
        .writeBlock (sampleBlock "bb" 2) 0 none] (newUsedDisk 7 2)).disk.vol.Evicts "cc" ∧
      (Runs.exec UsedDisk.next [.writeBlock (sampleBlock "aa" 1) 0 none,
        .writeBlock (sampleBlock "bb" 2) 0 none]
          (newUsedDisk 7 2)).disk.vol.nextFreeSlot.2.slot.bits = {0, 1} := by
  decide

end HugoFS.Storage
