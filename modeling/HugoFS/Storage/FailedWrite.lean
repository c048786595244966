import HugoFS.Storage.Readback

/-!
# Writes that the engine fails

The engine refuses a slot that has a file already; it may fail to create the file, or when only
a part of the block is written. `Disk` is a volume together with the files that were cut short.
-/

namespace HugoFS.Storage

open Finset Slot Volume

/-! ### The calls, with faults of the engine -/

inductive EngineFault
  | create
  | write
deriving DecidableEq

inductive EngineError
  | volume (e : VolumeError)
  | fault (e : EngineFault)
  | corrupted
deriving DecidableEq

structure Disk where
  vol : Volume
  torn : Finset ℕ

def Disk.new (id cap : ℕ) : Disk := ⟨.new id cap, ∅⟩

structure DiskOutcome (α : Type) where
  reply : Option (Except EngineError α)
  sent : List BlockMetaEvent
  disk : Disk

namespace Volume

def occupyNextFreeSlot (v : Volume) (hash : BlockID) : Option (Except SlotError ℕ) × Volume :=
  if v.hung then (none, v)
  else match v.nextFreeSlot with
    | (none, v') => (none, v')
    | (some slot, v') =>
      match v'.slot.occupy slot hash with
      | .error e => (some (.error e), v')
      | .ok s => (some (.ok slot), { v' with slot := s })

def putFile (v : Volume) (slot : ℕ) (c : DataContainer) : Volume :=
  { v with files := v.files.insert slot (newBlockWithHash c.index c.data c.hash) }

theorem nextFreeSlot_notMem {v v' : Volume} {slot : ℕ} (h : v.nextFreeSlot = (some slot, v')) :
    slot ∉ v'.slot.bits := by
  rw [nextFreeSlot] at h
  split_ifs at h
  · split at h
    · cases h
    split at h
    · cases h
    next hn =>
    cases h
    exact (next_some hn).2
  · obtain ⟨hn, rfl⟩ := Prod.mk.inj h
    exact (next_some hn).2

theorem occupyNextFreeSlot_cases (v : Volume) (hash : BlockID) :
    v.hung = true ∧ v.occupyNextFreeSlot hash = (none, v) ∨
    v.hung = false ∧ v.nextFreeSlot.1 = none ∧
      v.occupyNextFreeSlot hash = (none, v.nextFreeSlot.2) ∨
    v.hung = false ∧ ∃ slot v' s, v.nextFreeSlot = (some slot, v') ∧
      slot < v'.slot.cap ∧ slot ∉ v'.slot.bits ∧ v'.slot.occupy slot hash = .ok s ∧
      v.occupyNextFreeSlot hash = (some (.ok slot), { v' with slot := s }) := by
  cases hh : v.hung with
  | true => exact .inl ⟨rfl, by rw [occupyNextFreeSlot, hh, if_pos rfl]⟩
  | false =>
    right
    rw [occupyNextFreeSlot, hh, if_neg Bool.false_ne_true]
    rcases hn : v.nextFreeSlot with ⟨_ | slot, v'⟩
    · exact .inl ⟨rfl, rfl, rfl⟩
    have hlt := nextFreeSlot_lt hn
    have hfree := nextFreeSlot_notMem hn
    obtain ⟨s, hs⟩ := occupy_of_lt (h := hash) hlt hfree
    refine .inr ⟨rfl, slot, v', s, rfl, hlt, hfree, hs, ?_⟩
    simp only [hs]

end Volume

namespace Disk

def onVolume (d : Disk) (v : Volume) : Disk := ⟨v, d.torn.filter fun i => i ∈ v.files⟩

def writeSlot (d : Disk) (slot : ℕ) (c : DataContainer) (now : ℤ) (fault : Option EngineFault) :
    DiskOutcome BlockID :=
  if slot ∈ d.vol.files then
    ⟨some (.error (.volume .blockExisted)), [], { d with vol := d.vol.freeSlot slot }⟩
  else match fault with
    | none => ⟨some (.ok c.hash), [d.vol.writtenEvent c now],
        { d with vol := d.vol.storeBlock slot c }⟩
    | some .create =>
      ⟨some (.error (.fault .create)), [], { d with vol := d.vol.freeSlot slot }⟩
    | some .write =>
      ⟨some (.error (.fault .write)), [],
        ⟨(d.vol.putFile slot c).freeSlot slot, insert slot d.torn⟩⟩

def writeBlock (d : Disk) (c : DataContainer) (now : ℤ) (fault : Option EngineFault) :
    DiskOutcome BlockID :=
  if d.vol.hung then ⟨none, [], d⟩
  else match d.vol.slot.getSlot c.hash with
    | some _ => ⟨some (.error (.volume .blockExisted)), [d.vol.writtenEvent c now], d⟩
    | none =>
      match d.vol.occupyNextFreeSlot c.hash with
      | (none, v') => ⟨none, [], d.onVolume v'⟩
      | (some (.error e), v') => ⟨some (.error (.volume (.slot e))), [], d.onVolume v'⟩
      | (some (.ok slot), v') => (d.onVolume v').writeSlot slot c now fault

def Corrupted (d : Disk) (hash : BlockID) : Prop :=
  ∃ i ∈ d.vol.slot.getSlot hash, i ∈ d.vol.slot.bits ∧ i ∈ d.torn
deriving Decidable

def readReply (d : Disk) (hash : BlockID) : Except EngineError File :=
  if d.Corrupted hash then .error .corrupted else (d.vol.readReply hash).mapError .volume

def readBlock (d : Disk) (hash : BlockID) : DiskOutcome File :=
  let o := d.vol.readBlock hash
  if d.vol.hung then ⟨none, [], d⟩
  else if d.Corrupted hash then ⟨some (.error .corrupted), [], d⟩
  else ⟨o.reply.map (Except.mapError .volume), o.sent, d.onVolume o.vol⟩

def removeLocal (d : Disk) (hash : BlockID) : DiskOutcome Unit :=
  let o := d.vol.removeLocal hash
  ⟨o.reply.map (Except.mapError .volume), o.sent, d.onVolume o.vol⟩

def cleanInvalidBlock (d : Disk) (hashes : List BlockID) : DiskOutcome Unit :=
  let o := d.vol.cleanInvalidBlock hashes
  ⟨o.reply.map (Except.mapError .volume), o.sent, d.onVolume o.vol⟩

def EngineFails (d : Disk) (c : DataContainer) (fault : Option EngineFault) : Prop :=
  d.vol.slot.getSlot c.hash = none ∧
    ∃ slot v', d.vol.occupyNextFreeSlot c.hash = (some (.ok slot), v') ∧
      (slot ∈ v'.files ∨ fault.isSome = true)

section WriteBlock

variable {d : Disk} {c : DataContainer} {fault : Option EngineFault}

theorem writeSlot_cases (d : Disk) (slot : ℕ) (c : DataContainer) (now : ℤ)
    (fault : Option EngineFault) :
    (slot ∉ d.vol.files ∧ fault = none ∧
      (d.writeSlot slot c now fault).reply = some (.ok c.hash) ∧
      (d.writeSlot slot c now fault).disk = { d with vol := d.vol.storeBlock slot c }) ∨
    ((slot ∈ d.vol.files ∨ fault.isSome = true) ∧
      (∃ e, (d.writeSlot slot c now fault).reply = some (.error e)) ∧
      ((d.writeSlot slot c now fault).disk = { d with vol := d.vol.freeSlot slot } ∨
        slot ∉ d.vol.files ∧ (d.writeSlot slot c now fault).disk =
          ⟨(d.vol.putFile slot c).freeSlot slot, insert slot d.torn⟩)) := by
  unfold writeSlot
  by_cases hfile : slot ∈ d.vol.files
  · simp only [hfile, if_true]
    exact .inr ⟨.inl trivial, ⟨_, rfl⟩, .inl trivial⟩
  simp only [hfile, if_false]
  cases fault with
  | none => exact .inl ⟨not_false, rfl, rfl, rfl⟩
  | some e =>
    cases e with
    | create => exact .inr ⟨.inr rfl, ⟨_, rfl⟩, .inl rfl⟩
    | write => exact .inr ⟨.inr rfl, ⟨_, rfl⟩, .inr ⟨not_false, rfl⟩⟩

theorem writeBlock_cases (d : Disk) (c : DataContainer) (now : ℤ) (fault : Option EngineFault) :
    ((d.vol.hung = true ∨ ∃ i, d.vol.slot.getSlot c.hash = some i) ∧
      (∀ b, (d.writeBlock c now fault).reply ≠ some (.ok b)) ∧
      (d.writeBlock c now fault).disk = d) ∨
    (d.vol.hung = false ∧ d.vol.slot.getSlot c.hash = none ∧ d.vol.nextFreeSlot.1 = none ∧
      (d.writeBlock c now fault).reply = none ∧
      (d.writeBlock c now fault).disk = d.onVolume d.vol.nextFreeSlot.2) ∨
    (d.vol.hung = false ∧ d.vol.slot.getSlot c.hash = none ∧
      ∃ slot v' s, d.vol.nextFreeSlot = (some slot, v') ∧ slot < v'.slot.cap ∧
        slot ∉ v'.slot.bits ∧ v'.slot.occupy slot c.hash = .ok s ∧
        d.vol.occupyNextFreeSlot c.hash = (some (.ok slot), { v' with slot := s }) ∧
        d.writeBlock c now fault =
          (d.onVolume { v' with slot := s }).writeSlot slot c now fault) := by
  cases hh : d.vol.hung with
  | true =>
    refine .inl ⟨.inl rfl, ?_, ?_⟩
    · intro b
      simp [writeBlock, hh]
    · simp [writeBlock, hh]
  | false =>
    cases hg : d.vol.slot.getSlot c.hash with
    | some i =>
      refine .inl ⟨.inr ⟨i, rfl⟩, ?_, ?_⟩
      · intro b
        simp [writeBlock, hh, hg]
      · simp [writeBlock, hh, hg]
    | none =>
      right
      rcases d.vol.occupyNextFreeSlot_cases c.hash with
        ⟨hh', -⟩ | ⟨-, hn, ho⟩ | ⟨-, slot, v', s, hn, hlt, hfree, hs, ho⟩
      · cases hh.symm.trans hh'
      · refine .inl ⟨rfl, rfl, hn, ?_, ?_⟩
        · simp [writeBlock, hh, hg, ho]
        · simp [writeBlock, hh, hg, ho]
      · refine .inr ⟨rfl, rfl, slot, v', s, hn, hlt, hfree, hs, ho, ?_⟩
        simp [writeBlock, hh, hg, ho]

theorem writeBlock_of_engineFails (h : d.EngineFails c fault) (now : ℤ) :
    (∃ e, (d.writeBlock c now fault).reply = some (.error e)) ∧
      ∃ slot, (d.writeBlock c now fault).disk.vol.slot.getSlot c.hash = some slot ∧
        slot ∉ (d.writeBlock c now fault).disk.vol.slot.bits := by
  obtain ⟨hnew, slot, v₀, ho, hfail⟩ := h
  rcases writeBlock_cases d c now fault with
    ⟨hh | ⟨i, hi⟩, -⟩ | ⟨hh, -, hn, -⟩ | ⟨hh, -, slot', v', s, hn, hlt, hfree, hs, ho', hw⟩
  · rw [occupyNextFreeSlot, hh, if_pos rfl] at ho
    cases ho
  · cases hi.symm.trans hnew
  · rcases d.vol.occupyNextFreeSlot_cases c.hash with
      ⟨hh', -⟩ | ⟨-, -, ho'⟩ | ⟨-, slot', v', s, hn', -⟩
    · cases hh.symm.trans hh'
    · cases ho.symm.trans ho'
    · rw [hn'] at hn
      cases hn
  · cases ho.symm.trans ho'
    -- in each failing branch the slot table is the occupied one with the slot freed
    have hget : ((s.free slot).2).getSlot c.hash = some slot ∧ slot ∉ ((s.free slot).2).bits := by
      rw [free_of_occupy hlt hs]
      exact ⟨Finmap.lookup_insert _, hfree⟩
    rw [hw]
    rcases (d.onVolume { v' with slot := s }).writeSlot_cases slot c now fault with
      ⟨hfile, hnone, -⟩ | ⟨-, hreply, hd | ⟨-, hd⟩⟩
    · rcases hfail with hmem | hsome
      · exact absurd hmem hfile
      · simp [hnone] at hsome
    · exact ⟨hreply, slot, by rwa [hd]⟩
    · exact ⟨hreply, slot, by rwa [hd]⟩

end WriteBlock

def Undone (d : Disk) (c : DataContainer) (now : ℤ) (fault : Option EngineFault) : Prop :=
  let d' := (d.writeBlock c now fault).disk
  d'.vol.slot.bits = d.vol.slot.bits ∧ d'.vol.slot.records = d.vol.slot.records ∧
    d'.vol.slot.hashPairs = d.vol.slot.hashPairs ∧ d'.vol.files = d.vol.files ∧ d'.torn = d.torn

def Retried (d : Disk) (c : DataContainer) (now : ℤ) (fault : Option EngineFault) : Prop :=
  ∀ now', let o := (d.writeBlock c now fault).disk.writeBlock c now' none
    o.reply = some (.ok c.hash) ∧ ∃ f, o.disk.readReply c.hash = .ok f ∧ f.data = c.data

/-- No failure of the engine is undone, and after none can the block be written again: both
hold only where the engine does not fail. -/
theorem failed_write_undone_iff (d : Disk) (c : DataContainer) (now : ℤ)
    (fault : Option EngineFault) :
    ((d.EngineFails c fault → d.Undone c now fault) ↔ ¬d.EngineFails c fault) ∧
      ((d.EngineFails c fault → d.Retried c now fault) ↔ ¬d.EngineFails c fault) := by
  refine ⟨⟨fun h hfail => ?_, fun h hfail => absurd hfail h⟩,
    ⟨fun h hfail => ?_, fun h hfail => absurd hfail h⟩⟩
  · obtain ⟨-, slot, hget, -⟩ := writeBlock_of_engineFails hfail now
    have hnew := hfail.1
    rw [Slot.getSlot, ← (h hfail).2.2.1] at hnew
    cases hget.symm.trans hnew
  · obtain ⟨-, slot, hget, -⟩ := writeBlock_of_engineFails hfail now
    have hagain := (h hfail 0).1
    -- the hash is known now, so the call ends before it looks for a slot
    rcases writeBlock_cases (d.writeBlock c now fault).disk c 0 none with
      ⟨-, hno, -⟩ | ⟨-, hnew, -⟩ | ⟨-, hnew, -⟩
    · exact hno _ hagain
    · cases hget.symm.trans hnew
    · cases hget.symm.trans hnew

/-- A block whose file cannot be created on a new volume: the hash keeps slot 0, which is
free; the block cannot be written again, and it cannot be read. -/
theorem failed_write_not_undone :
    ((new 7 4).writeBlock (sampleBlock "aa" 1) 0 (some .create)).reply =
        some (.error (.fault .create)) ∧
      (new 7 4).vol.slot.getSlot "aa" = none ∧
      ((new 7 4).writeBlock (sampleBlock "aa" 1) 0 (some .create)).disk.vol.slot.getSlot "aa" =
        some 0 ∧
      (((new 7 4).writeBlock (sampleBlock "aa" 1) 0 (some .create)).disk.writeBlock
        (sampleBlock "aa" 1) 0 none).reply = some (.error (.volume .blockExisted)) ∧
      ((new 7 4).writeBlock (sampleBlock "aa" 1) 0 (some .create)).disk.readReply "aa" =
        .error (.volume (.notOccupied 0)) := by
  decide

end Disk

/-! ### Runs -/

inductive EngineCall
  | writeBlock (c : DataContainer) (now : ℤ) (fault : Option EngineFault)
  | readBlock (hash : BlockID)
  | removeLocal (hash : BlockID)
  | cleanInvalidBlock (hashes : List BlockID)
  | expireBlock (index : ℕ)
  | fireTimer

def EngineCall.next : EngineCall → Disk → Disk
  | .writeBlock c now fault, d => (d.writeBlock c now fault).disk
  | .readBlock hash, d => (d.readBlock hash).disk
  | .removeLocal hash, d => (d.removeLocal hash).disk
  | .cleanInvalidBlock hashes, d => (d.cleanInvalidBlock hashes).disk
  | .expireBlock index, d => { d with vol := d.vol.expire2Local index }
  | .fireTimer, d => { d with vol := d.vol.fireTimer }

def DiskReach (id cap : ℕ) : Disk → Prop :=
  Runs.Reach EngineCall.next (fun _ _ => True) (.new id cap)

theorem Slot.free_bits_subset (s : Slot) (o : ℕ) : (s.free o).2.bits ⊆ s.bits := by
  rw [free]
  split_ifs
  · exact subset_rfl
  · exact erase_subset ..
  · exact erase_subset ..
  · exact subset_rfl

namespace Volume

theorem evictOldest_bits_subset (v : Volume) (oldest : ℕ × BlockID) :
    (v.evictOldest oldest).slot.bits ⊆ v.slot.bits := by
  simp only [evictOldest, expire2Remote]
  split_ifs
  · exact free_bits_subset ..
  · exact subset_rfl
  · exact subset_rfl

theorem nextFreeSlot_bits_subset (v : Volume) : v.nextFreeSlot.2.slot.bits ⊆ v.slot.bits := by
  rw [nextFreeSlot]
  split_ifs
  · split
    · exact subset_rfl
    · split <;> exact evictOldest_bits_subset v _
  · exact subset_rfl

theorem cleanBlocks_bits_subset (v : Volume) (hashes : List BlockID) :
    (hashes.foldl cleanBlock v).slot.bits ⊆ v.slot.bits := by
  induction hashes generalizing v with
  | nil => exact subset_rfl
  | cons x xs ih => exact (ih _).trans (free_bits_subset ..)

end Volume

structure Disk.Sound (d : Disk) : Prop where
  vol : d.vol.Sound fun _ _ => True
  torn : ∀ i ∈ d.torn, i ∉ d.vol.slot.bits

namespace Disk.Sound

variable {d : Disk} {c : DataContainer} {now : ℤ} {fault : Option EngineFault}

theorem new (id cap : ℕ) : (Disk.new id cap).Sound where
  vol := .new _ id cap
  torn _ hi := absurd hi (notMem_empty _)

theorem not_corrupted (h : d.Sound) (hash : BlockID) : ¬d.Corrupted hash := by
  rintro ⟨i, -, hbit, htorn⟩
  exact h.torn i htorn hbit

theorem onVolume (h : d.Sound) {v : Volume} (hv : v.Sound fun _ _ => True)
    (hsub : v.slot.bits ⊆ d.vol.slot.bits) : (d.onVolume v).Sound where
  vol := hv
  torn i hi hbit := h.torn i (mem_filter.mp hi).1 (hsub hbit)

theorem writeBlock (h : d.Sound) : (d.writeBlock c now fault).disk.Sound := by
  have hnext := h.vol.nextFreeSlot
  have hsub := d.vol.nextFreeSlot_bits_subset
  rcases writeBlock_cases d c now fault with
    ⟨-, -, hd⟩ | ⟨-, -, -, -, hd⟩ | ⟨-, hg, slot, v', s, hn, hlt, hfree, hs, -, hw⟩
  · rwa [hd]
  · rw [hd]
    exact h.onVolume hnext hsub
  · have hget := d.vol.nextFreeSlot_getSlot c.hash
    rw [hn] at hnext hsub hget
    have hrefused := hnext.refuse (hget.trans hg) hlt hs
    have hbits : ({ v' with slot := s }.freeSlot slot).slot.bits = v'.slot.bits := by
      rw [freeSlot, free_of_occupy hlt hs]
    have hkept : ∀ i ∈ d.torn, i ∉ ({ v' with slot := s }.freeSlot slot).slot.bits := by
      intro i hi hbit
      rw [hbits] at hbit
      exact h.torn i hi (hsub hbit)
    rw [hw]
    rcases (d.onVolume { v' with slot := s }).writeSlot_cases slot c now fault with
      ⟨hfile, -, -, hd⟩ | ⟨-, -, hd | ⟨-, hd⟩⟩ <;> rw [hd]
    · refine ⟨hnext.store (hget.trans hg) hlt hs (fun _ hx => hx) trivial, ?_⟩
      -- the slot of the new block had no file, so none that is cut short
      intro i hi hbit
      obtain ⟨htorn, hmem⟩ := mem_filter.mp hi
      obtain ⟨-, -, rfl⟩ := occupy_ok.mp hs
      rw [storeBlock_slot] at hbit
      rcases mem_insert.mp hbit with rfl | hbit
      · exact hfile hmem
      · exact h.torn i htorn (hsub hbit)
    · exact ⟨hrefused, fun i hi => hkept i (mem_filter.mp hi).1⟩
    · have hslot : slot ∉ ({ v' with slot := s }.freeSlot slot).slot.bits := hbits ▸ hfree
      refine ⟨⟨hrefused.below, hrefused.known, fun {i f} hi hf => ?_⟩, fun i hi => ?_⟩
      · have his : i ≠ slot := fun heq => hslot (heq ▸ hi)
        exact hrefused.stored hi ((Finmap.lookup_insert_of_ne _ his).symm.trans hf)
      · rcases mem_insert.mp hi with rfl | hi
        · exact hslot
        · exact hkept i (mem_filter.mp hi).1

theorem next (h : d.Sound) (c : EngineCall) : (c.next d).Sound := by
  cases c with
  | writeBlock c now fault => exact h.writeBlock
  | readBlock hash =>
    rw [EngineCall.next, Disk.readBlock, if_neg (h.not_corrupted hash)]
    split_ifs
    · exact h
    refine h.onVolume (h.vol.readBlock hash) ?_
    rw [Volume.readBlock]
    split_ifs
    split
    · exact subset_rfl
    · rw [lruPut_slot]
      exact subset_rfl
  | removeLocal hash =>
    refine h.onVolume (h.vol.removeLocal hash) ?_
    simp only [Volume.removeLocal]
    split_ifs
    · exact subset_rfl
    · exact free_bits_subset ..
    · exact free_bits_subset ..
    · exact subset_rfl
    · exact subset_rfl
  | cleanInvalidBlock hashes =>
    refine h.onVolume (h.vol.cleanInvalidBlock hashes) ?_
    rw [Volume.cleanInvalidBlock]
    split_ifs
    · exact subset_rfl
    · exact d.vol.cleanBlocks_bits_subset hashes
  | expireBlock index => exact ⟨h.vol.congr rfl rfl, h.torn⟩
  | fireTimer =>
    refine ⟨h.vol.fireTimer, fun i hi hbit => h.torn i hi ?_⟩
    change i ∈ d.vol.fireTimer.slot.bits at hbit
    rw [fireTimer] at hbit
    split_ifs at hbit
    · exact hbit
    split at hbit
    · exact hbit
    · exact free_bits_subset _ _ hbit

end Disk.Sound

theorem DiskReach.sound {id cap : ℕ} {d : Disk} (h : DiskReach id cap d) : d.Sound :=
  Runs.Reach.invariant (I := Disk.Sound) (fun _ c hI _ => hI.next c) h (.new id cap)

end HugoFS.Storage
