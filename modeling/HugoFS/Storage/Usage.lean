import HugoFS.Lib.Wrapping
import HugoFS.Storage.Recency
import Mathlib.Algebra.BigOperators.Group.Finset.Basic

/-!
# The bytes in use

`VolumeStatistics.InuseBytes` should be the sum of the data lengths of the stored blocks.
`WriteBlock` adds the length of the block. Nothing subtracts: neither the removals nor the
evictions call `AddInUseBytes`, and for a negative change it adds the absolute value.
-/

namespace HugoFS.Storage

open Finmap Runs Volume Finset Slot

/-! ### `AddInUseBytes` -/

def addInUseBytes (inuseBytes : UInt64) (delta : Int64) : UInt64 :=
  if delta < 0 then inuseBytes - delta.toUInt64 else inuseBytes + delta.toUInt64

theorem addInUseBytes_eq_iff {b : UInt64} {d : Int64} (hlo : 0 ≤ (b.toNat : ℤ) + d.toInt)
    (hhi : (b.toNat : ℤ) + d.toInt < 2 ^ 64) :
    ((addInUseBytes b d).toNat : ℤ) = b.toNat + d.toInt ↔ 0 ≤ d.toInt ∨ d.toInt = -2 ^ 63 := by
  have hcond := Wrapping.toInt_eq_cond d
  have hb := b.toNat_lt
  have hd := d.toUInt64.toNat_lt
  have hneg : d < 0 ↔ d.toInt < 0 := Int64.lt_iff_toInt_lt
  by_cases hd0 : d < 0
  · have hlt : d.toInt < 0 := hneg.mp hd0
    rw [addInUseBytes, if_pos hd0, UInt64.toNat_sub]
    split_ifs at hcond <;> omega
  have hge : ¬d.toInt < 0 := mt hneg.mpr hd0
  rw [addInUseBytes, if_neg hd0, UInt64.toNat_add]
  split_ifs at hcond <;> omega

/-! ### The stored bytes -/

namespace Volume

def bytesAt (v : Volume) (i : ℕ) : ℕ := (v.files.lookup i).elim 0 fun f => f.data.length

def storedAt (v : Volume) (i : ℕ) : ℕ := if i ∈ v.slot.bits then v.bytesAt i else 0

def storedBytes (v : Volume) : ℕ := ∑ i ∈ v.slot.bits, v.bytesAt i

def evictedBytes (v : Volume) : ℕ :=
  if v.slot.remains = 0 then
    v.blockLru.getLast?.elim 0 fun oldest => if v.Evictable oldest then v.bytesAt oldest.1 else 0
  else 0

variable {v v' : Volume} {i slot : ℕ} {c : DataContainer}

theorem storedBytes_split (v : Volume) (i : ℕ) :
    v.storedBytes = ∑ j ∈ v.slot.bits.erase i, v.bytesAt j + v.storedAt i := by
  rw [storedBytes, storedAt]
  split_ifs with hi
  · exact (sum_erase_add _ _ hi).symm
  · rw [erase_eq_of_notMem hi, add_zero]

theorem storedBytes_add (hbits : ∀ j, j ≠ i → (j ∈ v'.slot.bits ↔ j ∈ v.slot.bits))
    (hfiles : ∀ j, j ≠ i → v'.files.lookup j = v.files.lookup j) :
    v'.storedBytes + v.storedAt i = v.storedBytes + v'.storedAt i := by
  have hset : v'.slot.bits.erase i = v.slot.bits.erase i := by
    ext j
    rw [Finset.mem_erase, Finset.mem_erase]
    exact and_congr_right (hbits j)
  have hsum : ∑ j ∈ v.slot.bits.erase i, v'.bytesAt j = ∑ j ∈ v.slot.bits.erase i, v.bytesAt j := by
    apply sum_congr rfl
    intro j hj
    rw [bytesAt, hfiles j (ne_of_mem_erase hj), bytesAt]
  rw [storedBytes_split v' i, storedBytes_split v i, hset, hsum]
  omega

theorem storedBytes_congr (hs : v'.slot.bits = v.slot.bits) (hf : v'.files = v.files) :
    v'.storedBytes = v.storedBytes := by
  rw [storedBytes, storedBytes, hs]
  simp only [bytesAt, hf]

theorem storedBytes_of_free (hs : v'.slot.bits = v.slot.bits) (hi : i ∉ v.slot.bits)
    (hfiles : ∀ j, j ≠ i → v'.files.lookup j = v.files.lookup j) :
    v'.storedBytes = v.storedBytes := by
  have hadd : v'.storedBytes + v.storedAt i = v.storedBytes + v'.storedAt i :=
    storedBytes_add (fun j _ => by rw [hs]) hfiles
  rwa [storedAt, if_neg hi, storedAt, if_neg (hs ▸ hi)] at hadd

theorem storedBytes_freeSlot (hb : ∀ i ∈ v.slot.bits, i < v.slot.cap) (slot : ℕ) :
    (v.freeSlot slot).storedBytes + v.storedAt slot = v.storedBytes := by
  have hgone : (v.freeSlot slot).storedAt slot = 0 := by
    rw [storedAt, if_neg]
    exact fun hmem => ((mem_free_bits hb).mp hmem).2 rfl
  have hadd : (v.freeSlot slot).storedBytes + v.storedAt slot =
      v.storedBytes + (v.freeSlot slot).storedAt slot :=
    storedBytes_add (fun j hj => mem_free_bits_of_ne hj) fun _ _ => rfl
  rw [hadd, hgone, add_zero]

theorem storedAt_dropBlock (v : Volume) (slot : ℕ) (frees : Bool) (j : ℕ) :
    (v.dropBlock slot frees).storedAt j = if j = slot then 0 else v.storedAt j := by
  rw [storedAt, bytesAt, dropBlock_files]
  split_ifs with hbit hj hj
  · rw [hj, lookup_erase]
    rfl
  · rw [lookup_erase_ne hj, storedAt, if_pos ((v.dropBlock_slot_of_ne frees hj).1.mp hbit)]
    rfl
  · rfl
  · rw [storedAt, if_neg fun h => hbit ((v.dropBlock_slot_of_ne frees hj).1.mpr h)]

theorem storedBytes_dropBlock (v : Volume) (slot : ℕ) (frees : Bool) :
    (v.dropBlock slot frees).storedBytes + v.storedAt slot = v.storedBytes := by
  rw [storedBytes_add (v := v) fun j hj => (v.dropBlock_slot_of_ne frees hj).1]
  · rw [storedAt_dropBlock, if_pos rfl, add_zero]
  · intro j hj
    rw [dropBlock_files, lookup_erase_ne hj]

theorem storedBytes_storeBlock (hfree : slot ∉ v.slot.bits) {s : Slot}
    (hs : v.slot.occupy slot c.hash = .ok s) :
    ({ v with slot := s }.storeBlock slot c).storedBytes = v.storedBytes + c.data.length := by
  obtain ⟨-, -, rfl⟩ := occupy_ok.mp hs
  have hold : v.storedAt slot = 0 := if_neg hfree
  rw [← add_zero (storedBytes _), ← hold, storedBytes_add (fun j hj => by simp [hj]) fun j hj => by
    rw [storeBlock_files]
    exact lookup_insert_of_ne _ hj]
  rw [storedAt, bytesAt, storeBlock_slot, storeBlock_files, lookup_insert,
    if_pos (mem_insert_self ..)]
  rfl

theorem storedBytes_evictOldest (v : Volume) (oldest : ℕ × BlockID) :
    (v.evictOldest oldest).storedBytes + (if v.Evictable oldest then v.bytesAt oldest.1 else 0) =
      v.storedBytes := by
  rcases v.evictOldest_cases oldest with ⟨hf, hfile, he⟩ | ⟨-, hfile, he⟩ | ⟨hf, he⟩
  · have hdrop := storedBytes_dropBlock v oldest.1 true
    have hsame : (v.evictOldest oldest).storedBytes = (v.dropBlock oldest.1 true).storedBytes := by
      rw [he]
      exact storedBytes_congr rfl rfl
    have hlost : (if v.Evictable oldest then v.bytesAt oldest.1 else 0) = v.storedAt oldest.1 := by
      rw [storedAt]
      exact if_congr ⟨fun h => h.2.2, fun h => ⟨hf, hfile, h⟩⟩ rfl rfl
    rw [hsame, hlost, hdrop]
  · rw [he, if_neg fun h => hfile h.2.1, add_zero]
    exact storedBytes_congr rfl rfl
  · rw [he, if_neg fun h => hf h.1, add_zero]
    exact storedBytes_congr rfl rfl

theorem storedBytes_nextFreeSlot (hb : ∀ i ∈ v.slot.bits, i < v.slot.cap) :
    v.nextFreeSlot.2.storedBytes + v.evictedBytes = v.storedBytes := by
  rw [evictedBytes]
  split_ifs with hr
  · rcases nextFreeSlot_of_full hb hr with ⟨ho, hn⟩ | ⟨oldest, ho, -, hn⟩ | ⟨oldest, ho, -, hn⟩
    · rw [ho, hn]
      rfl
    · rw [ho, hn]
      exact storedBytes_evictOldest v oldest
    · rw [ho, hn]
      exact storedBytes_evictOldest v oldest
  · obtain ⟨slot, hn⟩ := nextFreeSlot_of_remains hr
    rw [hn, add_zero]

theorem storedBytes_cleanBlocks (v : Volume) (hashes : List BlockID) :
    (hashes.foldl cleanBlock v).storedBytes ≤ v.storedBytes ∧
      ((hashes.foldl cleanBlock v).storedBytes = v.storedBytes ↔
        ∀ x ∈ hashes, v.storedAt (v.slot.slotOrZero x) = 0) := by
  induction hashes generalizing v with
  | nil => simp
  | cons x xs ih =>
    have hdrop : (v.cleanBlock x).storedBytes + v.storedAt (v.slot.slotOrZero x) = v.storedBytes :=
      storedBytes_dropBlock v (v.slot.slotOrZero x) true
    have hat : ∀ y, (v.cleanBlock x).storedAt ((v.cleanBlock x).slot.slotOrZero y) =
        if v.slot.slotOrZero y = v.slot.slotOrZero x then 0
        else v.storedAt (v.slot.slotOrZero y) := by
      intro y
      rw [slotOrZero_cleanBlock]
      exact storedAt_dropBlock v (v.slot.slotOrZero x) true _
    obtain ⟨hle, hiff⟩ := ih (v.cleanBlock x)
    simp only [hat] at hiff
    rw [List.foldl_cons, List.forall_mem_cons]
    refine ⟨by omega, fun heq => ?_, ?_⟩
    · have hx : v.storedAt (v.slot.slotOrZero x) = 0 := by omega
      refine ⟨hx, fun y hy => ?_⟩
      have hy' := hiff.mp (by omega) y hy
      split_ifs at hy' with hxy
      · rw [hxy, hx]
      · exact hy'
    · rintro ⟨hx, hxs⟩
      have hrest := hiff.mpr fun y hy => by
        rw [hxs y hy]
        exact ite_self _
      omega

@[simp] theorem lruPut_inuseBytes (v : Volume) (slot : ℕ) (hash : BlockID) :
    (v.lruPut slot hash).inuseBytes = v.inuseBytes := by
  simp only [lruPut]
  split_ifs <;> rfl

theorem storeBlock_inuseBytes (v : Volume) (slot : ℕ) (c : DataContainer) :
    (v.storeBlock slot c).inuseBytes = v.inuseBytes + UInt64.ofNat c.data.length :=
  congrArg (· + UInt64.ofNat c.data.length) (lruPut_inuseBytes _ slot c.hash)

theorem nextFreeSlot_inuseBytes (v : Volume) : v.nextFreeSlot.2.inuseBytes = v.inuseBytes := by
  have hev : ∀ oldest, (v.evictOldest oldest).inuseBytes = v.inuseBytes := by
    intro oldest
    rcases v.evictOldest_cases oldest with ⟨-, -, he⟩ | ⟨-, -, he⟩ | ⟨-, he⟩
    · rw [he]
      rfl
    · rw [he]
    · rw [he]
  rw [nextFreeSlot]
  split_ifs
  · split
    · rfl
    · split <;> exact hev _
  · rfl

theorem cleanBlocks_inuseBytes (v : Volume) (hashes : List BlockID) :
    (hashes.foldl cleanBlock v).inuseBytes = v.inuseBytes := by
  induction hashes generalizing v with
  | nil => rfl
  | cons x xs ih => exact ih (v.cleanBlock x)

def UsageExact (v : Volume) : Prop := v.inuseBytes.toNat = v.storedBytes

end Volume

/-! ### Runs -/

def Disk.KeepsUsage (d : Disk) : EngineCall → Prop
  | .writeBlock c now fault => d.vol.hung = false → d.vol.slot.getSlot c.hash = none →
      d.vol.evictedBytes = 0 ∧ ((d.writeBlock c now fault).reply = some (.ok c.hash) →
        d.vol.storedBytes + c.data.length < 2 ^ 64)
  | .removeLocal hash => d.vol.hung = false → d.vol.storedAt (d.vol.slot.slotOrZero hash) = 0
  | .cleanInvalidBlock hashes => d.vol.hung = false →
      ∀ x ∈ hashes, d.vol.storedAt (d.vol.slot.slotOrZero x) = 0
  | .fireTimer => d.vol.hung = false → d.vol.fired = false →
      ∀ e ∈ d.vol.pendingBlocks.head?, d.vol.storedAt e.1 = 0
  | .readBlock _ | .expireBlock _ => True

namespace Disk.Sound

variable {d : Disk}

theorem usageExact_writeBlock_iff (h : d.Sound) (hu : d.vol.UsageExact) (c : DataContainer)
    (now : ℤ) (fault : Option EngineFault) :
    (d.writeBlock c now fault).disk.vol.UsageExact ↔ d.KeepsUsage (.writeBlock c now fault) := by
  have hlt64 : d.vol.inuseBytes.toNat < 2 ^ 64 := d.vol.inuseBytes.toNat_lt
  have hsearch := storedBytes_nextFreeSlot h.vol.below
  have hinuse := d.vol.nextFreeSlot_inuseBytes
  rw [UsageExact] at hu
  simp only [KeepsUsage]
  rcases writeBlock_cases d c now fault with
    ⟨hidle, -, hd⟩ | ⟨hh, hg, -, hno, hd⟩ | ⟨hh, hg, slot, v', s, hn, hlt, hfree, hs, -, hw⟩
  · rw [hd]
    refine iff_of_true hu fun hh hg => ?_
    rcases hidle with hh' | ⟨i, hi⟩
    · cases hh.symm.trans hh'
    · cases hi.symm.trans hg
  · simp only [hh, hg, hno, reduceCtorEq, false_implies, and_true, forall_const]
    have hvol : (d.writeBlock c now fault).disk.vol = d.vol.nextFreeSlot.2 := by
      rw [hd]
      rfl
    rw [UsageExact, hvol, hinuse]
    omega
  · rw [hn] at hsearch hinuse
    dsimp only at hsearch hinuse
    simp only [hh, hg, forall_const]
    rcases (d.onVolume { v' with slot := s }).writeSlot_cases slot c now fault with
      ⟨-, -, hreply, hd⟩ | ⟨-, ⟨e, hreply⟩, hd⟩
    · have hvol : (d.writeBlock c now fault).disk.vol = { v' with slot := s }.storeBlock slot c := by
        rw [hw, hd]
        rfl
      have hadded : ({ v' with slot := s }.storeBlock slot c).inuseBytes.toNat =
          (d.vol.inuseBytes.toNat + c.data.length % 2 ^ 64) % 2 ^ 64 := by
        rw [storeBlock_inuseBytes, UInt64.toNat_add, UInt64.toNat_ofNat', ← hinuse]
      rw [UsageExact, hvol, hadded, storedBytes_storeBlock hfree hs, hw, hreply]
      simp only [forall_const]
      -- the sum either fits, or wraps around by more than an eviction can make up for
      omega
    · have hbits : ({ v' with slot := s }.freeSlot slot).slot.bits = v'.slot.bits := by
        rw [freeSlot, free_of_occupy hlt hs]
      have hvol : (d.writeBlock c now fault).disk.vol.storedBytes = v'.storedBytes ∧
          (d.writeBlock c now fault).disk.vol.inuseBytes = v'.inuseBytes := by
        rcases hd with hd | ⟨-, hd⟩ <;> rw [hw, hd]
        · exact ⟨storedBytes_of_free hbits hfree fun _ _ => rfl, rfl⟩
        · exact ⟨storedBytes_of_free hbits hfree fun j hj =>
            lookup_insert_of_ne _ hj, rfl⟩
      rw [UsageExact, hvol.1, hvol.2, hinuse, hw, hreply]
      simp only [Option.some.injEq, reduceCtorEq, false_implies, and_true]
      omega

theorem usageExact_next_iff (h : d.Sound) (hu : d.vol.UsageExact) (c : EngineCall) :
    (c.next d).vol.UsageExact ↔ d.KeepsUsage c := by
  cases c with
  | writeBlock c now fault => exact h.usageExact_writeBlock_iff hu c now fault
  | readBlock hash =>
    refine iff_of_true ?_ trivial
    rw [EngineCall.next, Disk.readBlock, if_neg (h.not_corrupted hash)]
    split_ifs
    · exact hu
    change (d.vol.readBlock hash).vol.UsageExact
    rw [Volume.readBlock]
    split_ifs
    split
    · exact hu
    rw [Volume.UsageExact, Volume.lruPut_inuseBytes, Volume.storedBytes_congr (v := d.vol)]
    · exact hu
    · rw [Volume.lruPut_slot]
      rfl
    · rw [Volume.lruPut_files]
      rfl
  | removeLocal hash =>
    change (d.vol.removeLocal hash).vol.UsageExact ↔ (d.vol.hung = false → _)
    cases hh : d.vol.hung with
    | true => exact iff_of_true (by simpa [Volume.removeLocal, hh] using hu) (by simp)
    | false =>
      have hdrop := d.vol.storedBytes_dropBlock (d.vol.slot.slotOrZero hash)
        (d.vol.slot.getSlot hash).isSome
      have hinuse : (d.vol.dropBlock (d.vol.slot.slotOrZero hash)
          (d.vol.slot.getSlot hash).isSome).inuseBytes = d.vol.inuseBytes := by
        cases (d.vol.slot.getSlot hash).isSome <;> rfl
      rw [Volume.UsageExact] at hu
      rw [Volume.removeLocal_vol hh, Volume.UsageExact, hinuse]
      simp only [forall_const]
      omega
  | cleanInvalidBlock hashes =>
    change (d.vol.cleanInvalidBlock hashes).vol.UsageExact ↔ (d.vol.hung = false → _)
    cases hh : d.vol.hung with
    | true => exact iff_of_true (by simpa [Volume.cleanInvalidBlock, hh] using hu) (by simp)
    | false =>
      simp only [Volume.cleanInvalidBlock, hh, Bool.false_eq_true, if_false, forall_const]
      rw [Volume.UsageExact, Volume.cleanBlocks_inuseBytes, hu, eq_comm]
      exact (d.vol.storedBytes_cleanBlocks hashes).2
  | expireBlock index => exact iff_of_true hu trivial
  | fireTimer =>
    change d.vol.fireTimer.UsageExact ↔ (d.vol.hung = false → d.vol.fired = false → _)
    rw [Volume.fireTimer]
    split_ifs with hidle
    · refine iff_of_true hu fun hh hf => ?_
      rcases hidle with hh' | hf'
      · cases hh.symm.trans hh'
      · cases hf.symm.trans hf'
    rw [not_or, Bool.not_eq_true, Bool.not_eq_true] at hidle
    rw [forall_prop_of_true hidle.1, forall_prop_of_true hidle.2]
    split
    · next hp => exact iff_of_true hu (by simp [hp])
    next slot hash rest hp =>
    have hfree : ({ d.vol with pendingBlocks := rest, fired := true }.freeSlot slot).storedBytes +
        d.vol.storedAt slot = d.vol.storedBytes :=
      Volume.storedBytes_freeSlot h.vol.below slot
    have hhead : (∀ e ∈ d.vol.pendingBlocks.head?, d.vol.storedAt e.1 = 0) ↔
        d.vol.storedAt slot = 0 := by
      simp [hp]
    rw [hhead, Volume.UsageExact]
    change d.vol.inuseBytes.toNat =
      ({ d.vol with pendingBlocks := rest, fired := true }.freeSlot slot).storedBytes ↔ _
    rw [Volume.UsageExact] at hu
    omega

end Disk.Sound

/-- In a run of calls on a new volume the bytes in use are the sum of the data lengths of the
stored blocks in every state exactly when all calls meet the condition. `AddInUseBytes` makes
a change within the bounds exactly when it is not negative, or the least integer. -/
theorem inuseBytes_exact_iff (id cap : ℕ) (cs : List EngineCall) (b : UInt64) (delta : Int64) :
    (Always EngineCall.next (fun d => d.vol.UsageExact) cs (.new id cap) ↔
      Legal EngineCall.next Disk.KeepsUsage cs (.new id cap)) ∧
    (0 ≤ (b.toNat : ℤ) + delta.toInt → (b.toNat : ℤ) + delta.toInt < 2 ^ 64 →
      (((addInUseBytes b delta).toNat : ℤ) = b.toNat + delta.toInt ↔
        0 ≤ delta.toInt ∨ delta.toInt = -2 ^ 63)) := by
  refine ⟨?_, fun hlo hhi => addInUseBytes_eq_iff hlo hhi⟩
  have hdom : Legal EngineCall.next (fun _ _ => True) cs (.new id cap) :=
    legal_of_forall fun _ _ => trivial
  exact always_iff_legal (I := fun d : Disk => d.Sound ∧ d.vol.UsageExact)
    (fun _ h => h.2)
    (fun _ c h _ hok => ⟨h.1.next c, (h.1.usageExact_next_iff h.2 c).mpr hok⟩)
    (fun _ c h _ hexact => (h.1.usageExact_next_iff h.2 c).mp hexact) hdom ⟨.new id cap, rfl⟩

theorem inuseBytes_exact_sample :
    Always EngineCall.next (fun d => d.vol.UsageExact)
        [.writeBlock (sampleBlock "aa" 1) 0 none, .writeBlock (sampleBlock "bb" 2) 0 none]
        (.new 7 4) ∧
      ((addInUseBytes 7 5).toNat : ℤ) = 7 + 5 := by
  refine ⟨(inuseBytes_exact_iff 7 4 _ 7 5).1.mpr ?_, ?_⟩
  · refine ⟨fun _ _ => ⟨by decide, fun _ => by decide⟩, fun _ _ => ⟨by decide, fun _ => by decide⟩,
      trivial⟩
  · exact ((inuseBytes_exact_iff 7 4 [] 7 5).2 (by decide) (by decide)).mpr (.inl (by decide))

/-- A block of one byte is written and removed: one byte stays in use. Taking 3 from 10 gives
13. -/
theorem inuseBytes_never_shrink :
    (exec EngineCall.next [.writeBlock (sampleBlock "aa" 1) 0 none, .removeLocal "aa"]
        (.new 7 4)).vol.inuseBytes = 1 ∧
      (exec EngineCall.next [.writeBlock (sampleBlock "aa" 1) 0 none, .removeLocal "aa"]
        (.new 7 4)).vol.storedBytes = 0 ∧
      addInUseBytes 10 (-3) = 13 := by
  decide

end HugoFS.Storage
