import HugoFS.Lib.Runs
import HugoFS.Storage.Volume

/-!
# Sequences of calls on a slot table

The bitmap of a slot table says which slots are occupied, and the table of hashes should say by
which block. `Free` clears the bit and deletes the record, but the hash keeps its place.
-/

namespace HugoFS.Storage

open List Runs Slot Finmap

namespace Slot

def FindKey (s : Slot) (offset : ℕ) : Option BlockID → Prop
  | some hash => s.hashPairs.lookup hash = some offset
  | none => s.assigned offset = false

def getHash (s : Slot) (offset : ℕ) (found : Option BlockID) : Except SlotError BlockID :=
  if offset ∉ s.bits then .error .empty
  else match found with
    | some key => .ok key
    | none => .error .empty

def GetsHash (s : Slot) (offset : ℕ) (hash : BlockID) : Prop :=
  ∀ found, s.FindKey offset found → s.getHash offset found = .ok hash

structure Exact (s : Slot) : Prop where
  below : ∀ o ∈ s.bits, o < s.cap
  getSlot_iff : ∀ h o, s.getSlot h = some o ↔ o ∈ s.bits ∧ s.GetsHash o h
  injective : ∀ h h' o, s.getSlot h = some o → s.getSlot h' = some o → h = h'

variable {s : Slot} {o : ℕ} {h : BlockID}

theorem exists_findKey (s : Slot) (o : ℕ) : ∃ found, s.FindKey o found := by
  by_cases ha : s.assigned o = true
  · obtain ⟨h, o', hh, rfl⟩ := count_pos.mp (of_decide_eq_true ha)
    exact ⟨some h, hh⟩
  · exact ⟨none, Bool.eq_false_iff.mpr ha⟩

theorem GetsHash.getSlot (hg : s.GetsHash o h) : o ∈ s.bits ∧ s.getSlot h = some o := by
  obtain ⟨found, hf⟩ := s.exists_findKey o
  have hr := hg found hf
  simp only [getHash] at hr
  split_ifs at hr with ho
  refine ⟨ho, ?_⟩
  cases found with
  | none => cases hr
  | some key =>
    cases hr
    exact hf

theorem Exact.of_table (hb : ∀ o ∈ s.bits, o < s.cap)
    (ht : ∀ h o, s.getSlot h = some o → o ∈ s.bits)
    (hi : ∀ h h' o, s.getSlot h = some o → s.getSlot h' = some o → h = h') : s.Exact where
  below := hb
  injective := hi
  getSlot_iff h o := by
    refine ⟨fun hs => ⟨ht h o hs, ?_⟩, fun hs => hs.2.getSlot.2⟩
    intro found hf
    simp only [getHash, ht h o hs, not_true, if_false]
    cases found with
    | some key => rw [hi key h o hf hs]
    | none =>
      have hassigned : s.assigned o = true :=
        decide_eq_true (count_pos.mpr ⟨h, o, hs, rfl⟩)
      cases hassigned.symm.trans hf

end Slot

/-! ### Sequences of calls -/

inductive SlotCall
  | occupy (offset : UInt64) (hash : BlockID)
  | free (offset : UInt64)

structure SlotRun where
  slot : Slot
  held : List (ℕ × BlockID)

def newSlotRun (cap : UInt64) : SlotRun := ⟨.new cap.toNat, []⟩

def SlotCall.next : SlotCall → SlotRun → SlotRun
  | .occupy offset hash, st =>
    match st.slot.occupy offset.toNat hash with
    | .ok s => ⟨s, (offset.toNat, hash) :: st.held⟩
    | .error _ => st
  | .free offset, st =>
    let s := (st.slot.free offset.toNat).2
    ⟨s, st.held.filter fun p => p.1 ∈ s.bits⟩

namespace SlotRun

def HashesDiffer (st : SlotRun) : Prop := (st.held.map Prod.snd).Nodup
deriving Decidable

def Allowed (st : SlotRun) : SlotCall → Prop
  | .occupy offset _ => offset.toNat + 1 < 2 ^ 64
  | .free offset => offset.toNat ∉ st.slot.bits

instance (st : SlotRun) : DecidablePred st.Allowed
  | .occupy offset _ => inferInstanceAs (Decidable (offset.toNat + 1 < 2 ^ 64))
  | .free offset => inferInstanceAs (Decidable (offset.toNat ∉ st.slot.bits))

structure Sound (st : SlotRun) : Prop where
  exact : st.slot.Exact
  cap_lt : st.slot.cap < 2 ^ 64
  mem_bits : ∀ o, o ∈ st.slot.bits ↔ ∃ h, (o, h) ∈ st.held
  mem_held : ∀ h o, st.slot.getSlot h = some o ↔ (o, h) ∈ st.held

variable {st : SlotRun}

theorem Sound.new (cap : UInt64) : (newSlotRun cap).Sound where
  exact := .of_table (by simp [newSlotRun, Slot.new]) (by simp [newSlotRun, Slot.new, Slot.getSlot])
    (by simp [newSlotRun, Slot.new, Slot.getSlot])
  cap_lt := cap.toNat_lt
  mem_bits := by simp [newSlotRun, Slot.new]
  mem_held := by simp [newSlotRun, Slot.new, Slot.getSlot]

theorem Sound.getSlot_eq_none (hs : st.Sound) {o : ℕ} {h : BlockID}
    (hd : (⟨st.slot, (o, h) :: st.held⟩ : SlotRun).HashesDiffer) : st.slot.getSlot h = none := by
  rw [Option.eq_none_iff_forall_ne_some]
  intro i hi
  have hheld := (hs.mem_held h i).mp hi
  have hnot : h ∉ st.held.map Prod.snd := (nodup_cons.mp hd).1
  exact hnot (mem_map_of_mem hheld)

theorem Sound.occupy (hs : st.Sound) {o : UInt64} {h : BlockID} {s : Slot}
    (hlt : o.toNat + 1 < 2 ^ 64) (hocc : st.slot.occupy o.toNat h = .ok s)
    (hd : (⟨s, (o.toNat, h) :: st.held⟩ : SlotRun).HashesDiffer) :
    (⟨s, (o.toNat, h) :: st.held⟩ : SlotRun).Sound := by
  have hnone := hs.getSlot_eq_none hd
  obtain ⟨hcap, hfree, rfl⟩ := occupy_ok.mp hocc
  rw [Nat.mod_eq_of_lt hlt] at hcap
  -- the table is the old one with the new pair, whose slot no other hash has
  have hget : ∀ h' i, (st.slot.hashPairs.insert h o.toNat).lookup h' = some i ↔
      (i, h') ∈ (o.toNat, h) :: st.held := by
    intro h' i
    rw [mem_cons, Prod.mk.injEq, ← hs.mem_held]
    by_cases hh : h' = h
    · subst hh
      rw [lookup_insert, hnone]
      simp [eq_comm]
    · rw [lookup_insert_of_ne _ hh]
      simp [hh, getSlot]
  have hbits : ∀ i, i ∈ insert o.toNat st.slot.bits ↔
      ∃ h', (i, h') ∈ (o.toNat, h) :: st.held := by
    intro i
    simp only [Finset.mem_insert, hs.mem_bits, mem_cons, Prod.mk.injEq, exists_or,
      exists_and_left, exists_eq, and_true]
  refine ⟨.of_table ?_ ?_ ?_, hs.cap_lt, hbits, hget⟩
  · intro i hi
    rcases Finset.mem_insert.mp hi with rfl | hi
    · exact hcap
    · exact hs.exact.below i hi
  · intro h' i hi
    exact (hbits i).mpr ⟨h', (hget h' i).mp hi⟩
  · intro h₁ h₂ i hi₁ hi₂
    have hold : ∀ h', (i, h') ∈ st.held → i ≠ o.toNat := by
      rintro h' hh rfl
      exact hfree ((hs.mem_bits _).mpr ⟨h', hh⟩)
    rcases mem_cons.mp ((hget h₁ i).mp hi₁) with heq₁ | hm₁ <;>
      rcases mem_cons.mp ((hget h₂ i).mp hi₂) with heq₂ | hm₂
    · cases heq₁
      cases heq₂
      rfl
    · cases heq₁
      exact absurd rfl (hold _ hm₂)
    · cases heq₂
      exact absurd rfl (hold _ hm₁)
    · exact hs.exact.injective h₁ h₂ i ((hs.mem_held _ _).mpr hm₁) ((hs.mem_held _ _).mpr hm₂)

theorem Sound.free (hs : st.Sound) {o : UInt64} (ho : o.toNat ∉ st.slot.bits) :
    (SlotCall.free o).next st = st := by
  have hslot : (st.slot.free o.toNat).2 = st.slot := by
    rw [Slot.free]
    split_ifs <;> rfl
  rw [SlotCall.next, hslot]
  congr 1
  refine filter_eq_self.mpr fun p hp => ?_
  exact decide_eq_true ((hs.mem_bits p.1).mpr ⟨p.2, hp⟩)

theorem Sound.next (hs : st.Sound) (c : SlotCall) (hd : (c.next st).HashesDiffer)
    (hc : st.Allowed c) : (c.next st).Sound := by
  cases c with
  | occupy o h =>
    rw [SlotCall.next] at hd ⊢
    split at hd
    · next s hocc => exact hs.occupy hc hocc hd
    · exact hs
  | free o =>
    rw [hs.free hc]
    exact hs

theorem Sound.allowed (hs : st.Sound) (c : SlotCall) (he : (c.next st).slot.Exact) :
    st.Allowed c := by
  cases c with
  | occupy o h =>
    show o.toNat + 1 < 2 ^ 64
    by_contra hmax
    have ho : o.toNat + 1 = 2 ^ 64 := by
      have := o.toNat_lt
      omega
    have hcap := hs.cap_lt
    have hfree : o.toNat ∉ st.slot.bits := by
      intro hmem
      have := hs.exact.below _ hmem
      omega
    have hocc := (occupy_ok (h := h)).mpr ⟨by rw [ho]; simp, hfree, rfl⟩
    simp only [SlotCall.next, hocc] at he
    have hlt : o.toNat < st.slot.cap := he.below _ (Finset.mem_insert_self _ _)
    omega
  | free o =>
    show o.toNat ∉ st.slot.bits
    intro ho
    obtain ⟨h, hheld⟩ := (hs.mem_bits _).mp ho
    -- the hash of the freed slot stays in the table
    have hget : ((SlotCall.free o).next st).slot.getSlot h = some o.toNat :=
      free_getSlot.trans ((hs.mem_held h _).mpr hheld)
    have hmem := ((he.getSlot_iff h _).mp hget).1
    exact ((mem_free_bits hs.exact.below).mp hmem).2 rfl

/-- A slot table of any capacity stays exact along a sequence of calls if and only if
the largest offset is never asked for and no occupied slot is freed. -/
theorem always_exact_iff (cap : UInt64) (calls : List SlotCall)
    (hd : Always SlotCall.next HashesDiffer calls (newSlotRun cap)) :
    Always SlotCall.next (fun st => st.slot.Exact) calls (newSlotRun cap) ↔
      Legal SlotCall.next Allowed calls (newSlotRun cap) :=
  always_iff_legal (I := Sound) (fun _ hs => hs.exact) (fun _ c hs hd hc => hs.next c hd hc)
    (fun _ c hs _ he => hs.allowed c he) hd.legal (Sound.new cap)

theorem always_exact_sample :
    Always SlotCall.next (fun st => st.slot.Exact)
      [.occupy 2 "a", .occupy 0 "b", .free 1] (newSlotRun 3) :=
  (always_exact_iff 3 _ (by decide)).mpr (by decide)

/-- A hash is found at a slot that was freed, and the largest offset is occupied in a
table that has no slot. -/
theorem not_exact :
    Always SlotCall.next HashesDiffer [.occupy 0 "a", .free 0] (newSlotRun 1) ∧
      ¬(exec SlotCall.next [.occupy 0 "a", .free 0] (newSlotRun 1)).slot.Exact ∧
    Always SlotCall.next HashesDiffer [.occupy 18446744073709551615 "a"] (newSlotRun 0) ∧
      ¬(exec SlotCall.next [.occupy 18446744073709551615 "a"] (newSlotRun 0)).slot.Exact := by
  refine ⟨by decide, fun h => ?_, by decide +kernel, fun h => ?_⟩
  · have hmem := ((h.getSlot_iff "a" 0).mp (by decide)).1
    exact absurd hmem (by decide)
  · have hlt := h.below 18446744073709551615 (by decide +kernel)
    exact absurd hlt (by decide +kernel)

end SlotRun

end HugoFS.Storage
