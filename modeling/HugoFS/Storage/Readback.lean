import HugoFS.Lib.Runs
import HugoFS.Storage.Volume

/-!
# What a volume reads back

`Volume.Sound` ties the bitmap, the hash table, the stored slot records and the files together:
the file of an occupied slot is the block that the slot record names. `ReadBlock` follows the
hash table, in which a freed slot stays assigned to its hash.
-/

namespace HugoFS.Storage

open Finmap Finset Runs Volume Slot

/-! ### The invariant -/

structure Volume.Sound (P : BlockID → Bytes → Prop) (v : Volume) : Prop where
  below : ∀ i ∈ v.slot.bits, i < v.slot.cap
  known : ∀ {i h}, v.slot.records.lookup i = some h → v.slot.getSlot h = some i ∧ i ∈ v.slot.bits
  stored : ∀ {i f}, i ∈ v.slot.bits → v.files.lookup i = some f →
    v.slot.records.lookup i = some f.header.checksum ∧ P f.header.checksum f.data

def Volume.slotRecord (v : Volume) (hash : BlockID) : Option BlockID :=
  (v.slot.getSlot hash).bind fun i => v.slot.records.lookup i

namespace Volume.Sound

variable {P Q : BlockID → Bytes → Prop} {v v' : Volume} {slot : ℕ} {c : DataContainer} {now : ℤ}

theorem new (P : BlockID → Bytes → Prop) (id cap : ℕ) : (new id cap).Sound P where
  below _ hi := absurd hi (notMem_empty _)
  known hr := by simp [Volume.new, Slot.new] at hr
  stored hi := absurd hi (notMem_empty _)

section

variable (h : v.Sound P)
include h

theorem congr (hs : v'.slot = v.slot) (hf : v'.files = v.files) : v'.Sound P := by
  obtain ⟨hb, hk, hst⟩ := h
  constructor
  · rwa [hs]
  · rwa [hs]
  · rwa [hs, hf]

theorem deleteFile (slot : ℕ) : (v.deleteFile slot).Sound P where
  __ := h
  stored {i f} hi hf := by
    by_cases his : i = slot
    · subst his
      simp [Volume.deleteFile] at hf
    · rw [Volume.deleteFile, lookup_erase_ne his] at hf
      exact h.stored hi hf

theorem freeSlot (slot : ℕ) : (v.freeSlot slot).Sound P where
  below i hi := by
    rw [Volume.freeSlot, free_cap]
    exact h.below i ((mem_free_bits h.below).mp hi).1
  known {i x} hr := by
    obtain ⟨hk, hi⟩ := h.known (lookup_free_records_some hr)
    have his : i ≠ slot := by
      rintro rfl
      cases hr.symm.trans (lookup_free_records_self hi (h.below i hi) hk)
    rw [Volume.freeSlot, free_getSlot]
    exact ⟨hk, (mem_free_bits h.below).mpr ⟨hi, his⟩⟩
  stored {i f} hi hf := by
    obtain ⟨hi, his⟩ := (mem_free_bits h.below).mp hi
    rw [Volume.freeSlot, lookup_free_records his]
    exact h.stored hi hf

theorem lruPut (slot : ℕ) (hash : BlockID) : (v.lruPut slot hash).Sound P := by
  exact h.congr (lruPut_slot ..) (lruPut_files ..)

theorem expire2Remote (slot : ℕ) : (v.expire2Remote slot).Sound P := by
  simp only [Volume.expire2Remote]
  have hdrop : Sound P { v with pendingBlocks := dropSlot v.id v.pendingBlocks } :=
    h.congr rfl rfl
  split_ifs
  · exact (hdrop.deleteFile slot).freeSlot slot
  · exact hdrop
  · exact h.congr rfl rfl

theorem evictOldest (oldest : ℕ × BlockID) : (v.evictOldest oldest).Sound P := by
  rw [Volume.evictOldest]
  apply expire2Remote
  exact h.congr rfl rfl

theorem nextFreeSlot : v.nextFreeSlot.2.Sound P := by
  rw [Volume.nextFreeSlot]
  split_ifs
  · split
    · exact h
    next oldest _ =>
    have hev := h.evictOldest oldest
    split
    · exact hev.congr rfl rfl
    · exact hev
  · exact h

section

variable {s : Slot} (hnew : v.slot.getSlot c.hash = none) (hlt : slot < v.slot.cap)
  (hs : v.slot.occupy slot c.hash = .ok s)
include hnew hlt hs

theorem store (hQ : ∀ {x d}, x ≠ c.hash → P x d → Q x d) (hc : Q c.hash c.data) :
    ({ v with slot := s }.storeBlock slot c).Sound Q := by
  obtain ⟨-, -, rfl⟩ := occupy_ok.mp hs
  have hne : ∀ {x i}, v.slot.getSlot x = some i → x ≠ c.hash := by
    rintro x i hx rfl
    cases hx.symm.trans hnew
  refine ⟨?_, ?_, ?_⟩ <;> rw [storeBlock_slot]
  · intro i hi
    rcases mem_insert.mp hi with rfl | hi
    · exact hlt
    · exact h.below i hi
  · intro i x hr
    rw [getSlot]
    by_cases hi : i = slot
    · subst hi
      obtain rfl : c.hash = x := by simpa using hr
      exact ⟨lookup_insert _, mem_insert_self ..⟩
    rw [lookup_insert_of_ne _ hi] at hr
    obtain ⟨hk, hbit⟩ := h.known hr
    exact ⟨(lookup_insert_of_ne _ (hne hk)).trans hk, mem_insert_of_mem hbit⟩
  · intro i f hi hf
    rw [storeBlock_files] at hf
    by_cases his : i = slot
    · subst his
      rw [lookup_insert] at hf ⊢
      cases hf
      exact ⟨rfl, hc⟩
    rw [lookup_insert_of_ne _ his] at hf ⊢
    obtain ⟨hr, hP⟩ := h.stored (mem_of_mem_insert_of_ne hi his) hf
    exact ⟨hr, hQ (hne (h.known hr).1) hP⟩

theorem refuse :
    ({ v with slot := s }.freeSlot slot).Sound P := by
  have hfree := (occupy_ok.mp hs).2.1
  rw [Volume.freeSlot, free_of_occupy hlt hs]
  refine ⟨h.below, fun {i x} hr => ?_, fun {i f} hi hf => ?_⟩
  · change (v.slot.hashPairs.insert c.hash slot).lookup x = some i ∧ i ∈ v.slot.bits
    have hi : i ≠ slot := by
      rintro rfl
      simp at hr
    obtain ⟨hk, hbit⟩ := h.known (lookup_erase_ne hi ▸ hr)
    rw [lookup_insert_of_ne _ fun hx => by cases (hx ▸ hk).symm.trans hnew]
    exact ⟨hk, hbit⟩
  · have his : i ≠ slot := fun heq => hfree (heq ▸ hi)
    rw [lookup_erase_ne his]
    exact h.stored hi hf

end

theorem writeBlock (c : DataContainer) (now : ℤ) :
    (∃ b, (v.writeBlock c now).reply = some (.ok b)) ∧
        (∀ {Q : BlockID → Bytes → Prop}, (∀ {x d}, x ≠ c.hash → P x d → Q x d) →
          Q c.hash c.data → (v.writeBlock c now).vol.Sound Q) ∨
      (∀ b, (v.writeBlock c now).reply ≠ some (.ok b)) ∧ (v.writeBlock c now).vol.Sound P := by
  rw [Volume.writeBlock]
  split_ifs
  · exact .inr ⟨by simp, h⟩
  split
  · exact .inr ⟨by simp, h⟩
  next hnew =>
  have hnext := h.nextFreeSlot
  have hget := v.nextFreeSlot_getSlot c.hash
  rw [hnew] at hget
  split
  · next v' heq =>
    rw [heq] at hnext
    exact .inr ⟨by simp, hnext⟩
  next slot v' heq =>
  have hlt := nextFreeSlot_lt heq
  rw [heq] at hnext hget
  split
  · exact .inr ⟨by simp, hnext⟩
  next s hs =>
  rw [writeSlot]
  split_ifs
  · exact .inr ⟨by simp, hnext.refuse hget hlt hs⟩
  · exact .inl ⟨⟨_, rfl⟩, fun hQ hc => hnext.store hget hlt hs hQ hc⟩

theorem readBlock (hash : BlockID) : (v.readBlock hash).vol.Sound P := by
  rw [Volume.readBlock]
  split_ifs
  · exact h
  split
  · exact h
  · apply lruPut
    exact h.congr rfl rfl

theorem removeLocal (hash : BlockID) : (v.removeLocal hash).vol.Sound P := by
  simp only [Volume.removeLocal]
  split_ifs
  · exact h
  · exact (h.freeSlot _).deleteFile _
  · exact h.freeSlot _
  · exact h.deleteFile _
  · exact h

theorem cleanBlocks (hashes : List BlockID) :
    (hashes.foldl cleanBlock v).Sound P := by
  induction hashes generalizing v with
  | nil => exact h
  | cons x xs ih => exact ih ((h.deleteFile _).freeSlot _)

theorem cleanInvalidBlock (hashes : List BlockID) :
    (v.cleanInvalidBlock hashes).vol.Sound P := by
  rw [Volume.cleanInvalidBlock]
  split_ifs
  · exact h
  · exact h.cleanBlocks hashes

theorem fireTimer : v.fireTimer.Sound P := by
  rw [Volume.fireTimer]
  split_ifs
  · exact h
  split
  · exact h.congr rfl rfl
  · apply freeSlot
    exact h.congr rfl rfl

theorem readReply {hash : BlockID} {f : File} (hr : v.readReply hash = .ok f) :
    v.slotRecord hash = some f.header.checksum ∧ P f.header.checksum f.data := by
  rw [Volume.readReply] at hr
  split at hr
  · cases hr
  next i hi =>
  split_ifs at hr with hbit
  split at hr
  · cases hr
  next f' hf =>
  cases hr
  rw [slotRecord, hi, Option.bind_some]
  exact h.stored hbit hf

end

end Volume.Sound

theorem Volume.readReply_of_readBlock {v : Volume} {hash : BlockID} {f : File}
    (hr : (v.readBlock hash).reply = some (.ok f)) : v.readReply hash = .ok f := by
  rw [readBlock] at hr
  split_ifs at hr
  split at hr
  · cases hr
  next f' hf =>
  cases hr
  exact hf

/-! ### Runs of a volume -/

structure VolumeRun where
  vol : Volume
  written : BlockID → Option Bytes

inductive VolumeCall
  | writeBlock (c : DataContainer) (now : ℤ)
  | readBlock (hash : BlockID)
  | removeLocal (hash : BlockID)
  | cleanInvalidBlock (hashes : List BlockID)
  | expireBlock (index : ℕ)
  | fireTimer

def VolumeCall.next : VolumeCall → VolumeRun → VolumeRun
  | .writeBlock c now, st =>
    match (st.vol.writeBlock c now).reply with
    | some (.ok _) =>
      ⟨(st.vol.writeBlock c now).vol, Function.update st.written c.hash (some c.data)⟩
    | _ => { st with vol := (st.vol.writeBlock c now).vol }
  | .readBlock hash, st => { st with vol := (st.vol.readBlock hash).vol }
  | .removeLocal hash, st => { st with vol := (st.vol.removeLocal hash).vol }
  | .cleanInvalidBlock hashes, st => { st with vol := (st.vol.cleanInvalidBlock hashes).vol }
  | .expireBlock index, st => { st with vol := st.vol.expire2Local index }
  | .fireTimer, st => { st with vol := st.vol.fireTimer }

def VolumeRun.Sound (st : VolumeRun) : Prop := st.vol.Sound fun h d => st.written h = some d

open Volume.Sound

theorem VolumeRun.Sound.next {st : VolumeRun} (h : st.Sound) (c : VolumeCall) :
    (c.next st).Sound := by
  cases c with
  | writeBlock c now =>
    rw [VolumeCall.next]
    rcases writeBlock h c now with ⟨⟨b, hb⟩, hstore⟩ | ⟨hb, hkeep⟩
    · rw [hb]
      refine hstore (fun {x d} hx hd => ?_) (Function.update_self ..)
      exact (Function.update_of_ne hx ..).trans hd
    split
    · next b' hb' => exact absurd hb' (hb b')
    · exact hkeep
  | readBlock hash => exact readBlock h hash
  | removeLocal hash => exact removeLocal h hash
  | cleanInvalidBlock hashes => exact cleanInvalidBlock h hashes
  | expireBlock index => exact congr h rfl rfl
  | fireTimer => exact fireTimer h

def newVolumeRun (id cap : ℕ) : VolumeRun := ⟨.new id cap, fun _ => none⟩

def VolumeReach (id cap : ℕ) : VolumeRun → Prop :=
  Reach VolumeCall.next (fun _ _ => True) (newVolumeRun id cap)

theorem VolumeReach.sound {id cap : ℕ} {st : VolumeRun} (h : VolumeReach id cap st) : st.Sound :=
  Reach.invariant (I := VolumeRun.Sound) (fun _ c hI _ => hI.next c) h
    (new _ id cap)

/-- In every run of a volume a successful `ReadBlock` returns the bytes written last
under the hash that the stored record of the slot names. So it returns the bytes
written last under the requested hash whenever the record names that hash. -/
theorem readBlock_returns_recorded_write {id cap : ℕ} {st : VolumeRun}
    (hst : VolumeReach id cap st) {hash : BlockID} {f : File}
    (hr : (st.vol.readBlock hash).reply = some (.ok f)) :
    (∃ hash', st.vol.slotRecord hash = some hash' ∧ f.header.checksum = hash' ∧
        st.written hash' = some f.data) ∧
      (st.vol.slotRecord hash = some hash → st.written hash = some f.data) := by
  obtain ⟨hrec, hw⟩ := Volume.Sound.readReply hst.sound (readReply_of_readBlock hr)
  refine ⟨⟨_, hrec, rfl, hw⟩, fun hown => ?_⟩
  rw [hown] at hrec
  cases hrec
  exact hw

def sampleBlock (hash : BlockID) (byte : UInt8) : DataContainer := ⟨0, [byte], hash, 0⟩

def twoBlocks : List VolumeCall :=
  [.writeBlock (sampleBlock "aa" 1) 0, .writeBlock (sampleBlock "bb" 2) 0,
    .cleanInvalidBlock ["aa"]]

def volumeAfter (cs : List VolumeCall) : VolumeRun :=
  exec VolumeCall.next cs (newVolumeRun 7 4)

theorem readBlock_returns_recorded_write_sample :
    (volumeAfter twoBlocks).vol.slotRecord "bb" = some "bb" ∧
      (volumeAfter twoBlocks).written "bb" = some [2] := by
  have hreach : VolumeReach 7 4 (volumeAfter twoBlocks) := reach_exec (by decide)
  have hown : (volumeAfter twoBlocks).vol.slotRecord "bb" = some "bb" := by decide
  have hread : ((volumeAfter twoBlocks).vol.readBlock "bb").reply =
      some (.ok (newBlockWithHash 0 [2] "bb")) := by decide
  exact ⟨hown, (readBlock_returns_recorded_write hreach hread).2 hown⟩

/-- The deleted block is still assigned its slot, which the next block takes over,
and reading the deleted block returns the bytes of the other. -/
theorem readBlock_returns_other_block :
    ((volumeAfter [.writeBlock (sampleBlock "aa" 1) 0, .cleanInvalidBlock ["aa"],
      .writeBlock (sampleBlock "bb" 2) 0]).vol.readBlock "aa").reply =
        some (.ok (newBlockWithHash 0 [2] "bb")) ∧
    (volumeAfter [.writeBlock (sampleBlock "aa" 1) 0, .cleanInvalidBlock ["aa"],
      .writeBlock (sampleBlock "bb" 2) 0]).written "aa" = some [1] := by
  decide

end HugoFS.Storage
