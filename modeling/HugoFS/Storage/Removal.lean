import HugoFS.Storage.FailedWrite

/-!
# What a removal leaves alone

`RemoveLocal` and `CleanInvalidBlock` ask the hash table for the slot of the block. The table
answers 0 for an unknown hash and still has the hashes of blocks that are gone, so the slot may
belong to another block.
-/

namespace HugoFS.Storage

open Finmap Runs Volume Slot

theorem Slot.mem_free_bits_of_ne {s : Slot} {o i : ℕ} (hi : i ≠ o) :
    i ∈ (s.free o).2.bits ↔ i ∈ s.bits := by
  rw [free]
  split_ifs <;> simp [hi]

namespace Volume

def dropBlock (v : Volume) (slot : ℕ) (frees : Bool) : Volume :=
  (if frees then v.freeSlot slot else v).deleteFile slot

variable {v : Volume} {hash : BlockID} {slot : ℕ} {frees : Bool}

theorem removeLocal_vol (hh : v.hung = false) : (v.removeLocal hash).vol =
    v.dropBlock (v.slot.slotOrZero hash) (v.slot.getSlot hash).isSome := by
  simp only [removeLocal, hh, dropBlock, Bool.false_eq_true, if_false]
  generalize (if (v.slot.getSlot hash).isSome = true then v.freeSlot (v.slot.slotOrZero hash)
    else v) = v'
  split_ifs with hfile
  · rfl
  -- deleting a file that is not there
  have herase : v'.files.erase (v.slot.slotOrZero hash) = v'.files :=
    erase_of_lookup_none (lookup_eq_none.mpr hfile)
  rw [deleteFile, herase]

theorem cleanInvalidBlock_vol (hh : v.hung = false) : (v.cleanInvalidBlock [hash]).vol =
    v.dropBlock (v.slot.slotOrZero hash) true := by
  simp only [cleanInvalidBlock, hh, Bool.false_eq_true, if_false]
  rfl

@[simp] theorem dropBlock_getSlot (b : BlockID) :
    (v.dropBlock slot frees).slot.getSlot b = v.slot.getSlot b := by
  cases frees with
  | true => exact free_getSlot
  | false => rfl

theorem dropBlock_files : (v.dropBlock slot frees).files = v.files.erase slot := by
  cases frees <;> rfl

theorem dropBlock_slot_of_ne (v : Volume) (frees : Bool) {i : ℕ} (hi : i ≠ slot) :
    (i ∈ (v.dropBlock slot frees).slot.bits ↔ i ∈ v.slot.bits) ∧
      (v.dropBlock slot frees).slot.records.lookup i = v.slot.records.lookup i := by
  cases frees with
  | true => exact ⟨mem_free_bits_of_ne hi, lookup_free_records hi⟩
  | false => exact ⟨Iff.rfl, rfl⟩

end Volume

namespace Disk

structure SparesOthers (d d' : Disk) (hash : BlockID) : Prop where
  table : ∀ b, b ≠ hash → d'.vol.slot.getSlot b = d.vol.slot.getSlot b
  slots : ∀ i b, d.vol.slot.records.lookup i = some b → b ≠ hash →
    i ∈ d'.vol.slot.bits ∧ d'.vol.slot.records.lookup i = some b
  files : ∀ i f, i ∉ d.torn → d.vol.files.lookup i = some f → f.header.checksum ≠ hash →
    i ∉ d'.torn ∧ d'.vol.files.lookup i = some f
  readable : ∀ b f, b ≠ hash → f.header.checksum = b → d.readReply b = .ok f →
    d'.readReply b = .ok f

def OwnSlot (d : Disk) (hash : BlockID) (slot : ℕ) (frees : Bool) : Prop :=
  (∀ f, slot ∉ d.torn → d.vol.files.lookup slot = some f → f.header.checksum = hash) ∧
    (frees = true → ∀ b, d.vol.slot.records.lookup slot = some b → b = hash)

variable {d : Disk} {hash : BlockID} {slot : ℕ} {frees : Bool}

theorem Sound.readReply_eq_ok (h : d.Sound) {b : BlockID} {f : File} :
    d.readReply b = .ok f ↔ ∃ i, d.vol.slot.getSlot b = some i ∧ i ∈ d.vol.slot.bits ∧
      d.vol.files.lookup i = some f := by
  rw [readReply, if_neg (h.not_corrupted b), Volume.readReply]
  cases hg : d.vol.slot.getSlot b with
  | none => simp [Except.mapError]
  | some i =>
    dsimp only
    by_cases hbit : i ∈ d.vol.slot.bits
    · cases hf : d.vol.files.lookup i with
      | none => simp [Except.mapError, hbit, hf]
      | some f' => simp [Except.mapError, hbit, hf]
    · simp [Except.mapError, hbit]

theorem Sound.sparesOthers_iff (h : d.Sound)
    (h' : (d.onVolume (d.vol.dropBlock slot frees)).Sound) :
    d.SparesOthers (d.onVolume (d.vol.dropBlock slot frees)) hash ↔
      d.OwnSlot hash slot frees := by
  have hfiles : (d.onVolume (d.vol.dropBlock slot frees)).vol.files = d.vol.files.erase slot :=
    dropBlock_files
  constructor
  · intro hs
    refine ⟨fun f htorn hf => ?_, fun hfrees b hr => ?_⟩
    · by_contra hne
      have hkept := (hs.files slot f htorn hf hne).2
      rw [hfiles, lookup_erase] at hkept
      cases hkept
    · by_contra hne
      subst hfrees
      -- the slot of the record is occupied, so it is freed
      obtain ⟨hk, hbit⟩ := h.vol.known hr
      have hkept := (hs.slots slot b hr hne).2
      have hgone := lookup_free_records_self hbit (h.vol.below slot hbit) hk
      cases hkept.symm.trans hgone
  · rintro ⟨hfile, hrec⟩
    refine ⟨fun b _ => dropBlock_getSlot b, fun i b hr hne => ?_,
      fun i f htorn hf hne => ?_, fun b f hne hb hr => ?_⟩
    · have hbit := (h.vol.known hr).2
      by_cases hi : i = slot
      · subst hi
        cases frees with
        | true => exact absurd (hrec rfl b hr) hne
        | false => exact ⟨hbit, hr⟩
      · obtain ⟨hbits, hrecs⟩ := d.vol.dropBlock_slot_of_ne frees hi
        exact ⟨hbits.mpr hbit, hrecs.trans hr⟩
    · have hi : i ≠ slot := by
        rintro rfl
        exact hne (hfile f htorn hf)
      refine ⟨fun hmem => htorn (Finset.mem_filter.mp hmem).1, ?_⟩
      rw [hfiles, lookup_erase_ne hi]
      exact hf
    · obtain ⟨i, hg, hbit, hf⟩ := h.readReply_eq_ok.mp hr
      have hi : i ≠ slot := by
        rintro rfl
        exact hne (hb.symm.trans (hfile f (fun ht => h.torn i ht hbit) hf))
      refine h'.readReply_eq_ok.mpr ⟨i, (dropBlock_getSlot b).trans hg,
        (d.vol.dropBlock_slot_of_ne frees hi).1.mpr hbit, ?_⟩
      rw [hfiles, lookup_erase_ne hi]
      exact hf

theorem Sound.sparesOthers_self (h : d.Sound) : d.SparesOthers (d.onVolume d.vol) hash where
  table _ _ := rfl
  slots i b hr _ := ⟨(h.vol.known hr).2, hr⟩
  files i f htorn hf _ := ⟨fun hmem => htorn (Finset.mem_filter.mp hmem).1, hf⟩
  readable b f _ _ hr := by
    have h' := h.onVolume h.vol subset_rfl
    exact h'.readReply_eq_ok.mpr (h.readReply_eq_ok.mp hr)

end Disk

/-- In every state that a volume reaches, a removal leaves the blocks with other hashes alone
exactly when the slot it takes for its hash is not that of another block. -/
theorem removal_spares_others_iff {id cap : ℕ} {d : Disk} (hd : DiskReach id cap d)
    (hash : BlockID) :
    (d.SparesOthers (d.removeLocal hash).disk hash ↔ d.vol.hung = true ∨
      d.OwnSlot hash (d.vol.slot.slotOrZero hash) (d.vol.slot.getSlot hash).isSome) ∧
    (d.SparesOthers (d.cleanInvalidBlock [hash]).disk hash ↔ d.vol.hung = true ∨
      d.OwnSlot hash (d.vol.slot.slotOrZero hash) true) := by
  have hs := hd.sound
  have hr := hs.next (.removeLocal hash)
  have hc := hs.next (.cleanInvalidBlock [hash])
  simp only [EngineCall.next, Disk.removeLocal, Disk.cleanInvalidBlock] at hr hc ⊢
  cases hh : d.vol.hung with
  | true =>
    have hr' : (d.vol.removeLocal hash).vol = d.vol := by simp [Volume.removeLocal, hh]
    have hc' : (d.vol.cleanInvalidBlock [hash]).vol = d.vol := by
      simp [Volume.cleanInvalidBlock, hh]
    rw [hr', hc']
    exact ⟨iff_of_true hs.sparesOthers_self (.inl rfl),
      iff_of_true hs.sparesOthers_self (.inl rfl)⟩
  | false =>
    rw [Volume.removeLocal_vol hh] at hr ⊢
    rw [Volume.cleanInvalidBlock_vol hh] at hc ⊢
    simp only [Bool.false_eq_true, false_or]
    exact ⟨hs.sparesOthers_iff hr, hs.sparesOthers_iff hc⟩

def twoOnDisk : Disk :=
  exec EngineCall.next [.writeBlock (sampleBlock "aa" 1) 0 none,
    .writeBlock (sampleBlock "bb" 2) 0 none] (.new 7 4)

theorem removal_spares_others_sample :
    twoOnDisk.SparesOthers (twoOnDisk.removeLocal "aa").disk "aa" ∧
      twoOnDisk.SparesOthers (twoOnDisk.cleanInvalidBlock ["bb"]).disk "bb" := by
  have hreach : DiskReach 7 4 twoOnDisk := reach_exec (by decide)
  have haa : twoOnDisk.vol.files.lookup 0 = some (newBlockWithHash 0 [1] "aa") := by decide
  have hbb : twoOnDisk.vol.files.lookup 1 = some (newBlockWithHash 0 [2] "bb") := by decide
  constructor
  · refine (removal_spares_others_iff hreach "aa").1.mpr (.inr ⟨fun f _ hf => ?_, fun _ b hb => ?_⟩)
    · cases hf.symm.trans haa
      rfl
    · exact (Option.some.inj ((show twoOnDisk.vol.slot.records.lookup 0 = some "aa" by
        decide).symm.trans hb)).symm
  · refine (removal_spares_others_iff hreach "bb").2.mpr (.inr ⟨fun f _ hf => ?_, fun _ b hb => ?_⟩)
    · cases hf.symm.trans hbb
      rfl
    · exact (Option.some.inj ((show twoOnDisk.vol.slot.records.lookup 1 = some "bb" by
        decide).symm.trans hb)).symm

def slotTakenOver : Disk :=
  exec EngineCall.next [.cleanInvalidBlock ["aa"],
    .writeBlock (sampleBlock "cc" 3) 0 none] twoOnDisk

/-- A hash that was never stored stands for slot 0: removing it deletes the file of the block
there. A hash that was removed before stands for its old slot: removing it again removes the
block that has taken it over. -/
theorem removal_hits_another_block :
    twoOnDisk.readReply "aa" = .ok (newBlockWithHash 0 [1] "aa") ∧
      (twoOnDisk.removeLocal "zz").disk.readReply "aa" = .error (.volume .notFound) ∧
      (twoOnDisk.cleanInvalidBlock ["zz"]).disk.readReply "aa" =
        .error (.volume (.notOccupied 0)) ∧
      slotTakenOver.readReply "cc" = .ok (newBlockWithHash 0 [3] "cc") ∧
      (slotTakenOver.removeLocal "aa").disk.readReply "cc" =
        .error (.volume (.notOccupied 0)) ∧
      (slotTakenOver.cleanInvalidBlock ["aa"]).disk.readReply "cc" =
        .error (.volume (.notOccupied 0)) := by
  decide

end HugoFS.Storage
