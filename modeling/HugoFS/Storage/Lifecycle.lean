import HugoFS.Storage.CloudCopy
import Mathlib.Data.Set.Function

/-!
# Blocks stay readable

What the calls of a volume and of a node keep of a block that is stored, and when a volume takes
the block that is written to it.
-/

namespace HugoFS.Storage

open Finmap Option Volume Slot

/-! ### What a volume keeps -/

/-- The record and the file of the block stay as they are. -/
def Volume.Keeps (v v' : Volume) (b : BlockID) : Prop :=
  ∀ i, v.slot.records.lookup i = some b →
    v'.slot.records.lookup i = some b ∧ v'.files.lookup i = v.files.lookup i

/-- A write of the block finds a free slot for it, or the block itself. -/
def Volume.Accepts (v : Volume) (hash : BlockID) : Prop :=
  v.slot.getSlot hash = none ∧ v.slot.remains ≠ 0 ∧ v.slot.next.any (· ∈ v.files) = false ∨
    v.slotRecord hash = some hash ∧ (v.readReply hash).isOk = true
deriving Decidable

namespace Volume

variable {P : BlockID → Bytes → Prop} {v v' : Volume} {b : BlockID} {c : DataContainer} {now : ℤ}
variable {i : ℕ}

theorem Keeps.of_eq (hs : v'.slot = v.slot) (hf : v'.files = v.files) : v.Keeps v' b := by
  intro i hi
  rw [hs, hf]
  exact ⟨hi, rfl⟩

section

variable {slot : ℕ} (hne : v.slot.records.lookup slot ≠ some b)
include hne

theorem slot_ne (hi : v.slot.records.lookup i = some b) : i ≠ slot := by
  rintro rfl
  exact hne hi

theorem Keeps.deleteFile : v.Keeps (v.deleteFile slot) b :=
  fun _ hi => ⟨hi, lookup_erase_ne (slot_ne hne hi)⟩

theorem Keeps.freeSlot : v.Keeps (v.freeSlot slot) b :=
  fun _ hi => ⟨(lookup_free_records (slot_ne hne hi)).trans hi, rfl⟩

end

theorem Keeps.readBlock (hash : BlockID) : v.Keeps (v.readBlock hash).vol b := by
  rw [Volume.readBlock]
  split_ifs
  · exact .of_eq rfl rfl
  split
  · exact .of_eq rfl rfl
  · exact .of_eq (lruPut_slot ..) (lruPut_files ..)

theorem readBlock_same (hash : BlockID) :
    (v.readBlock hash).vol.hung = v.hung ∧ (v.readBlock hash).vol.id = v.id := by
  rw [readBlock]
  split_ifs
  · exact ⟨rfl, rfl⟩
  split
  · exact ⟨rfl, rfl⟩
  · exact ⟨lruPut_hung .., lruPut_id ..⟩

theorem writeBlock_of_fresh (now : ℤ) (hh : v.hung = false) (hnew : v.slot.getSlot c.hash = none)
    (hr : v.slot.remains ≠ 0) (hfile : v.slot.next.any (· ∈ v.files) = false) :
    ∃ i s, i < v.slot.cap ∧ v.slot.occupy i c.hash = .ok s ∧ v.writeBlock c now =
      ⟨some (.ok c.hash), [v.writtenEvent c now], { v with slot := s }.storeBlock i c⟩ := by
  obtain ⟨i, hi⟩ := isSome_iff_exists.mp (next_isSome hr)
  obtain ⟨hlt, hbit⟩ := next_some hi
  obtain ⟨s, hs⟩ := occupy_of_lt hlt hbit (h := c.hash)
  refine ⟨i, s, hlt, hs, ?_⟩
  rw [hi, any_some, decide_eq_false_iff_not] at hfile
  have hnext : v.nextFreeSlot = (some i, v) := by rw [nextFreeSlot, if_neg hr, hi]
  rw [writeBlock, if_neg (by simp [hh]), hnew, hnext]
  simp only [hs, writeSlot, hfile, if_false]
  rfl

theorem Keeps.store (hs : v.Sound P) {s : Slot} (hocc : v.slot.occupy i c.hash = .ok s) :
    v.Keeps ({ v with slot := s }.storeBlock i c) b := by
  obtain ⟨-, hbit, rfl⟩ := occupy_ok.mp hocc
  intro j hj
  have hne : j ≠ i := by
    rintro rfl
    exact hbit (hs.known hj).2
  rw [storeBlock_slot, storeBlock_files]
  exact ⟨(lookup_insert_of_ne _ hne).trans hj, lookup_insert_of_ne _ hne⟩

theorem Sound.readReply_of_record (hs : v.Sound P) {f : File}
    (hr : v.slot.records.lookup i = some b) (hf : v.files.lookup i = some f) :
    v.readReply b = .ok f ∧ f.header.checksum = b ∧ P b f.data := by
  obtain ⟨hi, hbit⟩ := hs.known hr
  obtain ⟨hr', hP⟩ := hs.stored hbit hf
  cases hr.symm.trans hr'
  refine ⟨?_, rfl, hP⟩
  simp [Volume.readReply, hi, hbit, hf]

theorem Sound.file_of_isOk (hs : v.Sound P) (hi : v.slot.getSlot b = some i)
    (hr : v.slot.records.lookup i = some b) (hok : (v.readReply b).isOk = true) :
    ∃ f, v.files.lookup i = some f := by
  cases hf : v.files.lookup i with
  | some f => exact ⟨f, rfl⟩
  | none =>
    simp only [Volume.readReply, hi, hf, (hs.known hr).2, not_true, if_false] at hok
    cases hok

theorem writeBlock_of_accepts (now : ℤ) (hs : v.Sound P) (hh : v.hung = false)
    (ha : v.Accepts c.hash) (hc : P c.hash c.data) :
    ((v.writeBlock c now).reply = some (.ok c.hash) ∨
        (v.writeBlock c now).reply = some (.error .blockExisted)) ∧
      (v.writeBlock c now).sent = [v.writtenEvent c now] ∧
      ((v.writeBlock c now).vol.Sound P ∧ (v.writeBlock c now).vol.hung = false ∧
        (v.writeBlock c now).vol.id = v.id) ∧
      (∀ b, v.Keeps (v.writeBlock c now).vol b) ∧
      ∃ i f, (v.writeBlock c now).vol.slot.records.lookup i = some c.hash ∧
        (v.writeBlock c now).vol.files.lookup i = some f := by
  rcases ha with ⟨hnew, hr, hfile⟩ | ⟨hown, hok⟩
  · obtain ⟨i, s, hlt, hocc, hw⟩ := writeBlock_of_fresh now hh hnew hr hfile
    rw [hw]
    refine ⟨.inl rfl, rfl, ⟨hs.store hnew hlt hocc (fun _ hP => hP) hc, ?_, ?_⟩,
      fun b => .store hs hocc, i, newBlockWithHash c.index c.data c.hash, ?_, ?_⟩
    · rw [storeBlock_hung]
      exact hh
    · rw [storeBlock_id]
    · obtain ⟨-, -, rfl⟩ := occupy_ok.mp hocc
      rw [storeBlock_slot]
      exact lookup_insert _
    · rw [storeBlock_files]
      exact lookup_insert _
  · obtain ⟨i, hi, hrec⟩ := bind_eq_some_iff.mp hown
    obtain ⟨f, hf⟩ := hs.file_of_isOk hi hrec hok
    rw [writeBlock, if_neg (by simp [hh]), hi]
    exact ⟨.inr rfl, rfl, ⟨hs, hh, rfl⟩, fun b => .of_eq rfl rfl, i, f, hrec, hf⟩

end Volume

/-! ### What a node keeps -/

def Node.Keeps (n n' : Node) (b : BlockID) : Prop :=
  ∀ vol v, n.candidates.lookup vol = some v →
    ∃ v', n'.candidates.lookup vol = some v' ∧ v.Keeps v' b

def Node.Stored (n : Node) (vol : ℕ) (b : BlockID) : Prop :=
  ∃ v i f, n.candidates.lookup vol = some v ∧ v.slot.records.lookup i = some b ∧
    v.files.lookup i = some f

namespace Node

variable {n n' : Node} {b : BlockID} {vol slot : ℕ} {v v' : Volume}

theorem Keeps.setVolume (hv : n.candidates.lookup vol = some v) (hk : v.Keeps v' b) :
    n.Keeps (n.setVolume vol v') b := by
  intro vol' w hw
  by_cases hvol : vol' = vol
  · subst hvol
    cases hv.symm.trans hw
    exact ⟨v', lookup_insert _, hk⟩
  · exact ⟨w, (lookup_insert_of_ne _ hvol).trans hw, .of_eq rfl rfl⟩

theorem Stored.keeps (h : n.Stored vol b) (hk : n.Keeps n' b) : n'.Stored vol b := by
  obtain ⟨v, i, f, hv, hr, hf⟩ := h
  obtain ⟨v', hv', hk⟩ := hk vol v hv
  obtain ⟨hr', hf'⟩ := hk i hr
  exact ⟨v', i, f, hv', hr', hf'.trans hf⟩

end Node

def Content (sha256 : Bytes → BlockID) (C : Set Bytes) (b : BlockID) (data : Bytes) : Prop :=
  sha256 data = b ∧ data ∈ C

def sampleContents : Set Bytes := { d | d ∈ [[1], [2]] }

instance : DecidablePred (· ∈ sampleContents) :=
  fun d => inferInstanceAs (Decidable (d ∈ [[1], [2]]))

theorem injOn_sampleSha : Set.InjOn sampleSha sampleContents := by
  have h : ∀ x ∈ [[1], [2]], ∀ y ∈ [[1], [2]], sampleSha x = sampleSha y → x = y := by decide
  exact fun x hx y hy => h x hx y hy

end HugoFS.Storage
