import HugoFS.Storage.FailedWrite
import Mathlib.Data.Finset.Sort

/-!
# The search for a free slot

`Slot.Next` compares a running index with the members of the bitmap. In a table with a free slot
the first round finds the least one; in a full table no round does. The eviction before the
search looks for the id of the volume among the pending blocks, where it should look for the
slot.
-/

namespace HugoFS.Storage

open List Runs EngineCall Slot Option

/-! ### The loop of `Slot.Next` -/

theorem nextIdx_spec {l : List ℕ} {a : ℕ} (hl : l.Pairwise (· < ·)) (ha : ∀ b ∈ l, a ≤ b) :
    a ≤ nextIdx l a ∧ nextIdx l a ∉ l ∧ ∀ j, a ≤ j → j < nextIdx l a → j ∈ l := by
  induction l generalizing a with
  | nil =>
    refine ⟨le_rfl, not_mem_nil, fun j hle hlt => ?_⟩
    rw [nextIdx] at hlt
    omega
  | cons b bs ih =>
    obtain ⟨hb, hbs⟩ := pairwise_cons.mp hl
    rw [nextIdx]
    by_cases hab : a = b
    · subst hab
      rw [if_neg (by simp)]
      obtain ⟨hle, hnot, hall⟩ := ih (a := a + 1) hbs fun x hx => hb x hx
      refine ⟨by omega, fun hmem => ?_, fun j hj hlt => ?_⟩
      · rcases mem_cons.mp hmem with heq | hmem
        · omega
        · exact hnot hmem
      · by_cases hja : j = a
        · exact hja ▸ mem_cons_self
        · exact mem_cons_of_mem _ (hall j (by omega) hlt)
    · -- the list starts above the index, and goes on above it
      rw [if_pos hab]
      refine ⟨le_rfl, fun hmem => ?_, fun j hj hlt => by omega⟩
      have hlt : a < b := lt_of_le_of_ne (ha b mem_cons_self) hab
      rcases mem_cons.mp hmem with heq | hmem
      · exact hab heq
      · have := hb a hmem
        omega

namespace Slot

def iterator (s : Slot) : List ℕ := s.bits.sort

def nextLoop (s : Slot) : ℕ → ℕ → Option ℕ
  | 0, _ => none
  | rounds + 1, idx =>
    let idx := nextIdx s.iterator idx
    if idx < s.cap then some idx else s.nextLoop rounds idx

def nextWithin (s : Slot) (rounds : ℕ) : Option ℕ := s.nextLoop rounds 0

variable {s : Slot}

theorem pairwise_iterator (s : Slot) : s.iterator.Pairwise (· < ·) := s.bits.sortedLT_sort.pairwise

@[simp] theorem mem_iterator {i : ℕ} : i ∈ s.iterator ↔ i ∈ s.bits := Finset.mem_sort _

section

variable (hb : ∀ i ∈ s.bits, i < s.cap)
include hb

end

/-- In a table with fewer occupied slots than its capacity, `Next` returns after one round,
with the least slot that is not occupied. -/
theorem next_returns_least_free (s : Slot) (hcard : s.bits.card < s.cap) :
    ∃ i, (∀ rounds, s.nextWithin (rounds + 1) = some i) ∧ i ∉ s.bits ∧ (∀ j < i, j ∈ s.bits) ∧
      i < s.cap := by
  obtain ⟨-, hnot, hall⟩ := nextIdx_spec s.pairwise_iterator fun b _ => Nat.zero_le b
  have hbelow : ∀ j < nextIdx s.iterator 0, j ∈ s.bits := fun j hj =>
    mem_iterator.mp (hall j (Nat.zero_le j) hj)
  have hlt : nextIdx s.iterator 0 < s.cap := by
    -- otherwise every slot below the capacity is occupied
    by_contra hge
    have hsub : Finset.range s.cap ⊆ s.bits := by
      intro j hj
      have := Finset.mem_range.mp hj
      exact hbelow j (by omega)
    have hle := Finset.card_le_card hsub
    rw [Finset.card_range] at hle
    omega
  refine ⟨nextIdx s.iterator 0, fun rounds => ?_, fun hmem => hnot (mem_iterator.mpr hmem),
    hbelow, hlt⟩
  rw [nextWithin, nextLoop]
  exact if_pos hlt

theorem next_returns_least_free_sample :
    ∃ i, (∀ rounds, (⟨4, {0, 2}, ∅, ∅⟩ : Slot).nextWithin (rounds + 1) = some i) ∧
      i ∉ ({0, 2} : Finset ℕ) ∧ (∀ j < i, j ∈ ({0, 2} : Finset ℕ)) ∧ i < 4 :=
  next_returns_least_free ⟨4, {0, 2}, ∅, ∅⟩ (by decide)

end Slot

/-! ### The eviction -/

namespace Volume

def FindsPending (v : Volume) (oldest : ℕ × BlockID) : Prop :=
  oldest.1 = v.id ∨ ∃ e ∈ v.pendingBlocks, e.1 = v.id
deriving Decidable

def Evictable (v : Volume) (oldest : ℕ × BlockID) : Prop :=
  v.FindsPending oldest ∧ oldest.1 ∈ v.files ∧ oldest.1 ∈ v.slot.bits
deriving Decidable

variable {v : Volume} {oldest : ℕ × BlockID}

theorem evictOldest_cases (v : Volume) (oldest : ℕ × BlockID) :
    (v.FindsPending oldest ∧ oldest.1 ∈ v.files ∧
      v.evictOldest oldest = ({ v with
        blockLru := v.blockLru.dropLast
        pendingBlocks := dropSlot v.id (v.pendingBlocks ++ [oldest]) }.deleteFile
          oldest.1).freeSlot oldest.1) ∨
    (v.FindsPending oldest ∧ oldest.1 ∉ v.files ∧
      v.evictOldest oldest = { v with
        blockLru := v.blockLru.dropLast
        pendingBlocks := dropSlot v.id (v.pendingBlocks ++ [oldest]) }) ∨
    (¬v.FindsPending oldest ∧ v.evictOldest oldest = { v with
        blockLru := v.blockLru.dropLast
        pendingBlocks := v.pendingBlocks ++ [oldest]
        hung := true }) := by
  have hany : ((v.pendingBlocks ++ [oldest]).any fun e => e.1 == v.id) = true ↔
      v.FindsPending oldest := by
    simp [FindsPending, or_comm]
  by_cases hf : v.FindsPending oldest
  · by_cases hfile : oldest.1 ∈ v.files
    · refine .inl ⟨hf, hfile, ?_⟩
      simp only [evictOldest, expire2Remote, hany.mpr hf, hfile, if_true]
    · refine .inr (.inl ⟨hf, hfile, ?_⟩)
      simp only [evictOldest, expire2Remote, hany.mpr hf, hfile, if_true, if_false]
  · refine .inr (.inr ⟨hf, ?_⟩)
    simp only [evictOldest, expire2Remote, mt hany.mp hf, Bool.false_eq_true, if_false]

theorem evictOldest_bits (hb : ∀ i ∈ v.slot.bits, i < v.slot.cap) (oldest : ℕ × BlockID) :
    (v.evictOldest oldest).slot.bits =
      if v.Evictable oldest then v.slot.bits.erase oldest.1 else v.slot.bits := by
  rcases v.evictOldest_cases oldest with ⟨hf, hfile, he⟩ | ⟨hf, hfile, he⟩ | ⟨hf, he⟩
  · have hbits : (v.evictOldest oldest).slot.bits = v.slot.bits.erase oldest.1 := by
      rw [he]
      ext i
      exact (mem_free_bits hb).trans (by simp [and_comm])
    rw [hbits]
    by_cases hmem : oldest.1 ∈ v.slot.bits
    · rw [if_pos ⟨hf, hfile, hmem⟩]
    · rw [Finset.erase_eq_of_notMem hmem, ite_self]
  · rw [he, if_neg fun h => hfile h.2.1]
  · rw [he, if_neg fun h => hf h.1]

theorem evictOldest_hung (h : v.Evictable oldest) : (v.evictOldest oldest).hung = v.hung := by
  rcases v.evictOldest_cases oldest with ⟨-, -, he⟩ | ⟨-, hfile, -⟩ | ⟨hf, -⟩
  · rw [he]
    rfl
  · exact absurd h.2.1 hfile
  · exact absurd h.1 hf

theorem evictOldest_cap (v : Volume) (oldest : ℕ × BlockID) :
    (v.evictOldest oldest).slot.cap = v.slot.cap := by
  rcases v.evictOldest_cases oldest with ⟨-, -, he⟩ | ⟨-, -, he⟩ | ⟨-, he⟩ <;> rw [he]
  exact free_cap

theorem nextFreeSlot_of_full (hb : ∀ i ∈ v.slot.bits, i < v.slot.cap) (hr : v.slot.remains = 0) :
    (v.blockLru.getLast? = none ∧ v.nextFreeSlot = (none, v)) ∨
    (∃ oldest, v.blockLru.getLast? = some oldest ∧ v.Evictable oldest ∧
      v.nextFreeSlot = (some oldest.1, v.evictOldest oldest)) ∨
    (∃ oldest, v.blockLru.getLast? = some oldest ∧ ¬v.Evictable oldest ∧
      v.nextFreeSlot = (none, { v.evictOldest oldest with hung := true })) := by
  have hfull : v.slot.bits = Finset.range v.slot.cap := by
    have hsub : v.slot.bits ⊆ Finset.range v.slot.cap := fun i hi => Finset.mem_range.mpr (hb i hi)
    apply Finset.eq_of_subset_of_card_le hsub
    rw [remains] at hr
    rw [Finset.card_range]
    omega
  rw [nextFreeSlot, if_pos hr]
  cases hl : v.blockLru.getLast? with
  | none => exact .inl ⟨rfl, rfl⟩
  | some oldest =>
    right
    have hbits := evictOldest_bits hb oldest
    by_cases hev : v.Evictable oldest
    · -- the slot that was freed is the only one that the search can return
      left
      rw [if_pos hev] at hbits
      have hlt := hb _ hev.2.2
      have hrem : (v.evictOldest oldest).slot.remains ≠ 0 := by
        rw [remains, evictOldest_cap, hbits, Finset.card_erase_of_mem hev.2.2, hfull,
          Finset.card_range]
        omega
      obtain ⟨slot, hslot⟩ := isSome_iff_exists.mp (next_isSome hrem)
      obtain ⟨hcap, hfree⟩ := next_some hslot
      rw [evictOldest_cap] at hcap
      rw [hbits, hfull, Finset.mem_erase, Finset.mem_range] at hfree
      have heq : slot = oldest.1 := by
        by_contra hne
        exact hfree ⟨hne, hcap⟩
      refine ⟨oldest, rfl, hev, ?_⟩
      simp only [hslot, heq]
    · right
      rw [if_neg hev] at hbits
      have hnone : (v.evictOldest oldest).slot.next = none := by
        by_contra hsome
        obtain ⟨slot, hslot⟩ := ne_none_iff_exists'.mp hsome
        obtain ⟨hcap, hfree⟩ := next_some hslot
        rw [evictOldest_cap] at hcap
        rw [hbits, hfull, Finset.mem_range] at hfree
        exact hfree hcap
      refine ⟨oldest, rfl, hev, ?_⟩
      simp only [hnone]

theorem nextFreeSlot_of_remains (hr : v.slot.remains ≠ 0) :
    ∃ slot, v.nextFreeSlot = (some slot, v) := by
  obtain ⟨slot, hslot⟩ := isSome_iff_exists.mp (next_isSome hr)
  exact ⟨slot, by rw [nextFreeSlot, if_neg hr, hslot]⟩

/-- `occupyNextFreeSlot` ends, with a slot that was free or with an error, and no lock stays
held; when no slot was free it has freed the one of the oldest entry of the LRU, and no other. -/
structure Occupies (v : Volume) (hash : BlockID) : Prop where
  ends : (v.occupyNextFreeSlot hash).1.isSome = true
  free : ∀ slot, (v.occupyNextFreeSlot hash).1 = some (.ok slot) →
    slot ∉ v.nextFreeSlot.2.slot.bits
  evicts : v.slot.remains = 0 → ∃ oldest, v.blockLru.getLast? = some oldest ∧
    oldest.1 ∈ v.slot.bits ∧ v.nextFreeSlot.2.slot.bits = v.slot.bits.erase oldest.1
  unlocked : (v.occupyNextFreeSlot hash).2.hung = false

end Volume

/-- In every state that a volume reaches, `occupyNextFreeSlot` ends as it should exactly when
no earlier call holds the locks, and there is a free slot or the oldest entry of the LRU can
be evicted. -/
theorem occupyNextFreeSlot_ends_iff {id cap : ℕ} {d : Disk} (hd : DiskReach id cap d)
    (hash : BlockID) :
    d.vol.Occupies hash ↔ d.vol.hung = false ∧ (d.vol.slot.remains = 0 →
      ∃ oldest, d.vol.blockLru.getLast? = some oldest ∧ d.vol.Evictable oldest) := by
  have hb := hd.sound.vol.below
  generalize d.vol = v at hb
  constructor
  · intro h
    have hends := h.ends
    rcases v.occupyNextFreeSlot_cases hash with
      ⟨-, ho⟩ | ⟨-, -, ho⟩ | ⟨hh, slot, v', s, hn, -⟩
    · rw [ho] at hends
      cases hends
    · rw [ho] at hends
      cases hends
    · refine ⟨hh, fun hr => ?_⟩
      rcases Volume.nextFreeSlot_of_full hb hr with ⟨-, hn'⟩ | ⟨oldest, hl, hev, -⟩ | ⟨_, -, -, hn'⟩
      · cases hn.symm.trans hn'
      · exact ⟨oldest, hl, hev⟩
      · cases hn.symm.trans hn'
  · rintro ⟨hh, hev⟩
    -- the search succeeds, and the volume it leaves is not hung
    have hsearch : ∃ slot v', v.nextFreeSlot = (some slot, v') ∧ v'.hung = false ∧
        (v.slot.remains = 0 → ∃ oldest, v.blockLru.getLast? = some oldest ∧
          oldest.1 ∈ v.slot.bits ∧ v'.slot.bits = v.slot.bits.erase oldest.1) := by
      by_cases hr : v.slot.remains = 0
      · obtain ⟨oldest, hl, he⟩ := hev hr
        rcases Volume.nextFreeSlot_of_full hb hr with
          ⟨hl', -⟩ | ⟨oldest', hl', he', hn⟩ | ⟨oldest', hl', he', -⟩
        · cases hl.symm.trans hl'
        · refine ⟨_, _, hn, (Volume.evictOldest_hung he').trans hh, fun _ => ?_⟩
          exact ⟨oldest', hl', he'.2.2, by rw [Volume.evictOldest_bits hb oldest', if_pos he']⟩
        · cases hl.symm.trans hl'
          exact absurd he he'
      · obtain ⟨slot, hn⟩ := Volume.nextFreeSlot_of_remains hr
        exact ⟨slot, v, hn, hh, fun h => absurd h hr⟩
    obtain ⟨slot, v', hn, hh', hbits⟩ := hsearch
    rcases v.occupyNextFreeSlot_cases hash with
      ⟨hh'', -⟩ | ⟨-, hn', -⟩ | ⟨-, slot', v'', s, hn', -, hfree, -, ho⟩
    · cases hh.symm.trans hh''
    · rw [hn] at hn'
      cases hn'
    · cases hn.symm.trans hn'
      refine ⟨by rw [ho]; rfl, fun slot₁ h₁ => ?_, ?_, by rw [ho]; exact hh'⟩
      · rw [ho] at h₁
        cases h₁
        rwa [hn]
      · rwa [hn]

theorem occupyNextFreeSlot_ends_sample :
    (exec EngineCall.next [.writeBlock (sampleBlock "aa" 1) 0 none]
      (.new 0 1)).vol.Occupies "bb" := by
  have hreach : DiskReach 0 1 (exec EngineCall.next
      [.writeBlock (sampleBlock "aa" 1) 0 none] (.new 0 1)) := reach_exec (by decide)
  exact (occupyNextFreeSlot_ends_iff hreach "bb").mpr ⟨by decide, fun _ =>
    ⟨(0, "aa"), by decide, by decide⟩⟩

/-- A full volume of one slot with another id: the eviction does not find its entry, and the
search runs for ever. -/
theorem occupyNextFreeSlot_runs_for_ever :
    DiskReach 7 1 (exec EngineCall.next [.writeBlock (sampleBlock "aa" 1) 0 none]
        (.new 7 1)) ∧
      ((exec EngineCall.next [.writeBlock (sampleBlock "aa" 1) 0 none]
        (.new 7 1)).vol.occupyNextFreeSlot "bb").1 = none ∧
      ((exec EngineCall.next [.writeBlock (sampleBlock "aa" 1) 0 none]
        (.new 7 1)).vol.occupyNextFreeSlot "bb").2.hung = true :=
  ⟨reach_exec (by decide), by decide, by decide⟩

end HugoFS.Storage
