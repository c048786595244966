import HugoFS.Storage.SlotTable

/-!
# A slot table after a crash

`Occupy` saves the record of its slot and then the bitmap, `PersistState` the bitmap, and `Free`
deletes the record and saves nothing. `NewSlot` builds the table from what is stored, in the
order of a Go map. A crash is a `NewSlot` on the store of any state that is passed.
-/

namespace HugoFS.Storage

open Finmap Runs List Option Slot

/-- What the store holds for a volume: the bitmap under `slot_<vol>` and the records under
`slot_hash_<vol>/<slot>`. Every call that saves a record saves the bitmap. -/
structure SlotDisk where
  bitmap : Option (Finset ℕ)
  records : Finmap fun _ : ℕ => BlockID
  written : bitmap = none → records = ∅

namespace SlotDisk

def blank : SlotDisk := ⟨none, ∅, fun _ => rfl⟩

def Visits (d : SlotDisk) (entries : List ((_ : ℕ) × BlockID)) : Prop :=
  (entries : Multiset ((_ : ℕ) × BlockID)) = d.records.entries

def HashesDiffer (d : SlotDisk) : Prop :=
  ∀ o o' h, d.records.lookup o = some h → d.records.lookup o' = some h → o = o'

end SlotDisk

def mapEntries (entries : List ((_ : ℕ) × BlockID)) : Finmap fun _ : BlockID => ℕ :=
  entries.foldl (fun m e => m.insert e.2 e.1) ∅

def newSlot (cap : ℕ) (d : SlotDisk) (entries : List ((_ : ℕ) × BlockID)) : Slot :=
  match d.bitmap with
  | none => ⟨cap, ∅, ∅, d.records⟩
  | some bits => ⟨cap, bits, mapEntries entries, d.records⟩

section NewSlot

variable (cap : ℕ) {d : SlotDisk} (entries : List ((_ : ℕ) × BlockID))

theorem newSlot_of_none (hb : d.bitmap = none) :
    newSlot cap d entries = ⟨cap, ∅, ∅, d.records⟩ := by
  rw [newSlot, hb]

theorem newSlot_of_some {bits : Finset ℕ} (hb : d.bitmap = some bits) :
    newSlot cap d entries = ⟨cap, bits, mapEntries entries, d.records⟩ := by
  rw [newSlot, hb]

theorem records_newSlot (d : SlotDisk) : (newSlot cap d entries).records = d.records := by
  rw [newSlot]
  split <;> rfl

end NewSlot

/-! ### What is read back -/

section MapEntries

variable {d : SlotDisk} {entries : List ((_ : ℕ) × BlockID)} {o : ℕ} {h : BlockID}

theorem mapEntries_concat (entries : List ((_ : ℕ) × BlockID)) (e : (_ : ℕ) × BlockID) :
    mapEntries (entries ++ [e]) = (mapEntries entries).insert e.2 e.1 := by
  rw [mapEntries, foldl_append]
  rfl

theorem mem_of_lookup_mapEntries (hl : (mapEntries entries).lookup h = some o) :
    ⟨o, h⟩ ∈ entries := by
  induction entries using reverseRecOn with
  | nil => cases hl
  | append_singleton entries e ih =>
    rw [mapEntries_concat] at hl
    obtain ⟨rfl, rfl⟩ | ⟨-, hl⟩ := lookup_insert_eq_some hl
    · exact mem_append_right _ (mem_singleton_self _)
    · exact mem_append_left _ (ih hl)

theorem exists_lookup_mapEntries (hm : ⟨o, h⟩ ∈ entries) :
    ∃ o', (mapEntries entries).lookup h = some o' := by
  induction entries using reverseRecOn with
  | nil => cases hm
  | append_singleton entries e ih =>
    rw [mapEntries_concat]
    by_cases hh : h = e.2
    · subst hh
      exact ⟨e.1, lookup_insert _⟩
    rw [lookup_insert_of_ne _ hh]
    refine ih ?_
    rcases mem_append.mp hm with hm | hm
    · exact hm
    rw [List.mem_singleton] at hm
    subst hm
    exact absurd rfl hh

namespace SlotDisk

open Multiset

theorem exists_visits (d : SlotDisk) : ∃ entries, d.Visits entries :=
  ⟨d.records.entries.toList, coe_toList _⟩

theorem Visits.mem_iff (hv : d.Visits entries) :
    ⟨o, h⟩ ∈ entries ↔ d.records.lookup o = some h := by
  rw [← Option.mem_def, mem_lookup_iff, ← hv, mem_coe]

theorem exists_visits_last (hr : d.records.lookup o = some h) :
    ∃ entries, d.Visits entries ∧ (mapEntries entries).lookup h = some o := by
  obtain ⟨entries, hv⟩ := d.exists_visits
  have hperm : Perm (entries.erase ⟨o, h⟩ ++ [⟨o, h⟩]) entries :=
    perm_append_comm.trans (perm_cons_erase (hv.mem_iff.mpr hr)).symm
  refine ⟨entries.erase ⟨o, h⟩ ++ [⟨o, h⟩], ?_, ?_⟩
  · exact (coe_eq_coe.mpr hperm).trans hv
  · rw [mapEntries_concat]
    exact lookup_insert _

theorem Visits.lookup_mapEntries (hv : d.Visits entries) (hd : d.HashesDiffer) :
    (mapEntries entries).lookup h = some o ↔ d.records.lookup o = some h := by
  constructor
  · intro hl
    exact hv.mem_iff.mp (mem_of_lookup_mapEntries hl)
  · intro hr
    obtain ⟨o', ho'⟩ := exists_lookup_mapEntries (hv.mem_iff.mpr hr)
    have hr' := hv.mem_iff.mp (mem_of_lookup_mapEntries ho')
    rw [ho', hd o' o h hr' hr]

end SlotDisk

end MapEntries

/-! ### Answers -/

variable {s : Slot}

namespace Slot

def Answers (s : Slot) (offset : ℕ) (r : Except SlotError BlockID) : Prop :=
  ∃ found, s.FindKey offset found ∧ s.getHash offset found = r

structure SameAnswers (s s' : Slot) : Prop where
  occupied : ∀ o, o ∈ s.bits ↔ o ∈ s'.bits
  getSlot : ∀ h, s.getSlot h = s'.getSlot h
  getHash : ∀ o r, s.Answers o r ↔ s'.Answers o r

theorem SameAnswers.of_eq {s' : Slot} (hb : s.bits = s'.bits)
    (hp : s.hashPairs = s'.hashPairs) : s.SameAnswers s' where
  occupied o := by rw [hb]
  getSlot h := by rw [Slot.getSlot, hp, Slot.getSlot]
  getHash o r := by
    have hfind : ∀ found, s.FindKey o found ↔ s'.FindKey o found := by
      intro found
      cases found <;> simp only [FindKey, assigned, hp]
    simp only [Answers, hfind, Slot.getHash, hb]

end Slot

/-! ### Calls and crashes -/

theorem Slot.free_records_empty (hr : s.records = ∅) (o : ℕ) :
    (s.free o).2.records = ∅ := by
  rw [free]
  split_ifs
  · exact hr
  · show s.records.erase o = ∅
    rw [hr]
    exact erase_of_lookup_none (lookup_empty _)
  · exact hr
  · exact hr

structure StoredSlot where
  slot : Slot
  bitmap : Option (Finset ℕ)
  written : bitmap = none → slot.records = ∅

def StoredSlot.saved (s : Slot) : StoredSlot :=
  ⟨s, some s.bits, fun h => absurd h (Option.some_ne_none _)⟩

inductive StoredSlotCall
  | occupy (offset : UInt64) (hash : BlockID)
  | free (offset : UInt64)
  | persistState

def StoredSlotCall.next : StoredSlotCall → StoredSlot → StoredSlot
  | .occupy offset hash, st =>
    match st.slot.occupy offset.toNat hash with
    | .ok s => .saved s
    | .error _ => st
  -- the bitmap is changed in memory only
  | .free offset, st =>
    ⟨(st.slot.free offset.toNat).2, st.bitmap,
      fun h => Slot.free_records_empty (st.written h) offset.toNat⟩
  | .persistState, st => .saved st.slot

namespace StoredSlot

variable {entries : List ((_ : ℕ) × BlockID)}

def disk (st : StoredSlot) : SlotDisk := ⟨st.bitmap, st.slot.records, st.written⟩

def opened (cap : UInt64) (d : SlotDisk) (entries : List ((_ : ℕ) × BlockID)) : StoredSlot :=
  ⟨newSlot cap.toNat d entries, d.bitmap, fun h => (records_newSlot _ _ _).trans (d.written h)⟩

def Recovers (st : StoredSlot) : Prop :=
  ∀ entries, st.disk.Visits entries →
    st.slot.SameAnswers (newSlot st.slot.cap st.disk entries)

def Allowed (st : StoredSlot) : StoredSlotCall → Prop
  | .occupy offset hash =>
    (∃ s, st.slot.occupy offset.toNat hash = .ok s) →
      ∀ h o, st.slot.hashPairs.lookup h = some o → (h = hash ↔ o = offset.toNat)
  | .free offset => offset.toNat ≤ st.slot.cap → offset.toNat ∉ st.slot.bits
  | .persistState => True

structure Synced (st : StoredSlot) : Prop where
  bitmap : st.bitmap = some st.slot.bits ∨ st.bitmap = none ∧ st.slot.bits = ∅
  hashPairs : ∀ h o, st.slot.hashPairs.lookup h = some o ↔ st.slot.records.lookup o = some h

variable {st : StoredSlot}

section

variable (hs : st.Synced)
include hs

theorem Synced.hashesDiffer : st.disk.HashesDiffer := by
  intro o o' h ho ho'
  have ho := (hs.hashPairs h o).mpr ho
  rw [(hs.hashPairs h o').mpr ho'] at ho
  exact (some.inj ho).symm

theorem Synced.hashPairs_eq_empty (hr : st.slot.records = ∅) :
    st.slot.hashPairs = ∅ := by
  apply ext_lookup
  intro h
  rw [lookup_empty, eq_none_iff_forall_ne_some]
  intro o ho
  have hrec := (hs.hashPairs h o).mp ho
  rw [hr] at hrec
  cases hrec

theorem Synced.recovers : st.Recovers := by
  intro entries hv
  rcases hs.bitmap with hb | ⟨hb, hbits⟩
  · rw [newSlot_of_some _ _ (d := st.disk) hb]
    refine .of_eq rfl (ext_lookup fun h => ?_)
    ext o
    rw [hs.hashPairs, hv.lookup_mapEntries hs.hashesDiffer]
    rfl
  · rw [newSlot_of_none _ _ (d := st.disk) hb]
    exact .of_eq hbits (hs.hashPairs_eq_empty (st.written hb))

theorem Synced.occupy {o : ℕ} {h : BlockID} (hocc : st.slot.occupy o h = .ok s)
    (ha : ∀ h' o', st.slot.hashPairs.lookup h' = some o' → (h' = h ↔ o' = o)) :
    (saved s).Synced := by
  obtain ⟨-, -, rfl⟩ := occupy_ok.mp hocc
  refine ⟨.inl rfl, fun h' o' => ?_⟩
  show (st.slot.hashPairs.insert h o).lookup h' = some o' ↔
    (st.slot.records.insert o h).lookup o' = some h'
  have hold := hs.hashPairs h' o'
  by_cases hh : h' = h <;> by_cases ho : o' = o
  · subst hh ho
    simp [lookup_insert]
  · subst hh
    rw [lookup_insert, lookup_insert_of_ne _ ho, ← hold]
    refine iff_of_false (fun he => ho (some.inj he).symm) fun he => ho ?_
    exact (ha _ _ he).mp rfl
  · subst ho
    rw [lookup_insert_of_ne _ hh, lookup_insert]
    refine iff_of_false (fun he => hh ?_) fun he => hh (some.inj he).symm
    exact (ha _ _ he).mpr rfl
  · rw [lookup_insert_of_ne _ hh, lookup_insert_of_ne _ ho, hold]

theorem Synced.next (c : StoredSlotCall) (ha : st.Allowed c) :
    (c.next st).Synced := by
  cases c with
  | occupy o h =>
    rw [StoredSlotCall.next]
    split
    · next s hocc => exact hs.occupy hocc (ha ⟨s, hocc⟩)
    · exact hs
  | free o =>
    have hsame : (StoredSlotCall.free o).next st = st := by
      simp only [StoredSlotCall.next, free_of_notMem ha]
    rw [hsame]
    exact hs
  | persistState => exact ⟨.inl rfl, hs.hashPairs⟩

omit hs in
theorem Recovers.lookup (hr : (saved s).Recovers)
    (hv : (saved s).disk.Visits entries) (h : BlockID) :
    s.hashPairs.lookup h = (mapEntries entries).lookup h :=
  (hr entries hv).getSlot h

theorem Synced.allowed_occupy {o : ℕ} {h : BlockID} (hocc : st.slot.occupy o h = .ok s)
    (hr : (saved s).Recovers) (h' : BlockID) (o' : ℕ) (hl : st.slot.hashPairs.lookup h' = some o') :
    h' = h ↔ o' = o := by
  have hrec := (hs.hashPairs h' o').mp hl
  obtain ⟨hpairs, hrecords⟩ : s.hashPairs = st.slot.hashPairs.insert h o ∧
      s.records = st.slot.records.insert o h := by
    obtain ⟨-, -, rfl⟩ := occupy_ok.mp hocc
    exact ⟨rfl, rfl⟩
  constructor
  · rintro rfl
    by_contra ho
    -- the other record with the hash can be visited last
    have hother : (saved s).disk.records.lookup o' = some h' := by
      show s.records.lookup o' = some h'
      rw [hrecords, lookup_insert_of_ne _ ho, hrec]
    obtain ⟨entries, hv, hlast⟩ := SlotDisk.exists_visits_last hother
    have hnew := hr.lookup hv h'
    rw [hlast, hpairs, lookup_insert] at hnew
    exact ho (some.inj hnew).symm
  · rintro rfl
    by_contra hh
    -- the record of the slot has the new hash, the table keeps the old one as well
    obtain ⟨entries, hv⟩ := (saved s).disk.exists_visits
    have hnew := hr.lookup hv h'
    rw [hpairs, lookup_insert_of_ne _ hh, hl] at hnew
    have hmem : s.records.lookup o' = some h' :=
      hv.mem_iff.mp (mem_of_lookup_mapEntries hnew.symm)
    rw [hrecords, lookup_insert] at hmem
    exact hh (some.inj hmem).symm

theorem Synced.allowed (c : StoredSlotCall) (hr : (c.next st).Recovers) :
    st.Allowed c := by
  cases c with
  | occupy o h =>
    rintro ⟨s, hocc⟩ h' o' hl
    simp only [StoredSlotCall.next, hocc] at hr
    exact hs.allowed_occupy hocc hr h' o' hl
  | free o =>
    intro hcap hmem
    obtain ⟨entries, hv⟩ := ((StoredSlotCall.free o).next st).disk.exists_visits
    -- the stored bitmap still has the slot
    have hbit : st.bitmap = some st.slot.bits := by
      rcases hs.bitmap with hb | ⟨-, hbits⟩
      · exact hb
      · rw [hbits] at hmem
        cases hmem
    have hnew : o.toNat ∈ (newSlot ((StoredSlotCall.free o).next st).slot.cap
        ((StoredSlotCall.free o).next st).disk entries).bits := by
      simp only [newSlot, disk, StoredSlotCall.next, hbit]
      exact hmem
    have hold := ((hr entries hv).occupied o.toNat).mpr hnew
    simp only [StoredSlotCall.next, free, if_neg (Nat.not_lt.mpr hcap), if_pos hmem] at hold
    split at hold
    · exact Finset.notMem_erase _ _ hold
    · exact Finset.notMem_erase _ _ hold
  | persistState => trivial

end

theorem synced_opened {cap : UInt64} {d : SlotDisk}
    (hv : d.Visits entries) (hd : d.HashesDiffer) : (opened cap d entries).Synced := by
  obtain ⟨bitmap, records, hw⟩ := d
  cases bitmap with
  | none =>
    obtain rfl : records = ∅ := hw rfl
    exact ⟨.inr ⟨rfl, rfl⟩, fun h o => iff_of_false (by rintro ⟨⟩) (by rintro ⟨⟩)⟩
  | some bits => exact ⟨.inl rfl, fun h o => hv.lookup_mapEntries hd⟩

theorem hashesDiffer_of_recovers {cap : UInt64} {d : SlotDisk}
    (hr : (opened cap d entries).Recovers) :
    d.HashesDiffer := by
  obtain ⟨bitmap, records, hw⟩ := d
  intro o o' h ho ho'
  cases bitmap with
  | none =>
    obtain rfl : records = ∅ := hw rfl
    cases ho
  | some bits =>
    -- either of the two records can be the last one
    obtain ⟨e, hv, hl⟩ := SlotDisk.exists_visits_last ho
    obtain ⟨e', hv', hl'⟩ := SlotDisk.exists_visits_last ho'
    have hsame := ((hr e hv).getSlot h).symm.trans ((hr e' hv').getSlot h)
    exact some.inj (hl.symm.trans (hsame.trans hl'))

/-- A table that `NewSlot` builds on any store is recovered from a crash at every point of
a sequence of calls if and only if the store has no hash twice, no slot is occupied with a
hash that another slot has or while another hash has it, and no occupied slot is freed. -/
theorem always_recovers_iff (cap : UInt64) (d : SlotDisk)
    (entries : List ((_ : ℕ) × BlockID)) (hv : d.Visits entries)
    (calls : List StoredSlotCall) :
    Always StoredSlotCall.next Recovers calls (opened cap d entries) ↔
      d.HashesDiffer ∧ Legal StoredSlotCall.next Allowed calls (opened cap d entries) := by
  have hlegal : d.HashesDiffer →
      (Always StoredSlotCall.next Recovers calls (opened cap d entries) ↔
        Legal StoredSlotCall.next Allowed calls (opened cap d entries)) := fun hd =>
    always_iff_legal (I := Synced) (fun _ hs => hs.recovers)
      (fun _ c hs _ ha => hs.next c ha) (fun _ c hs _ hr => hs.allowed c hr)
      (legal_of_forall fun _ _ => trivial) (synced_opened hv hd)
  constructor
  · intro h
    have hd := hashesDiffer_of_recovers h.head
    exact ⟨hd, (hlegal hd).mp h⟩
  · rintro ⟨hd, h⟩
    exact (hlegal hd).mpr h

theorem always_recovers_sample :
    Always StoredSlotCall.next Recovers
      [.occupy 2 "a", .free 1, .occupy 0 "b", .persistState] (opened 3 .blank []) := by
  refine (always_recovers_iff 3 .blank [] rfl _).mpr ⟨fun _ _ _ h => (by cases h), ?_⟩
  refine ⟨fun _ h o hl => (by cases hl), fun _ => (by decide), fun _ h o hl => ?_, trivial, trivial⟩
  -- the only pair in the table is that of the first call
  change ((∅ : Finmap fun _ : BlockID => ℕ).insert "a" 2).lookup h = some o at hl
  obtain ⟨rfl, rfl⟩ | ⟨-, hl⟩ := lookup_insert_eq_some hl
  · decide
  · cases hl

/-- A slot that was freed is occupied again after the crash, and its hash, which was found
before, is not found; saving the state brings back the first only. -/
theorem not_recovers :
    ¬(exec StoredSlotCall.next [.occupy 0 "a", .free 0] (opened 1 .blank [])).Recovers ∧
      ¬(exec StoredSlotCall.next [.occupy 0 "a", .free 0, .persistState]
        (opened 1 .blank [])).Recovers := by
  refine ⟨fun h => ?_, fun h => ?_⟩
  · have hmem := ((h [] rfl).occupied 0).mpr (by decide)
    exact absurd hmem (by decide)
  · have hget := (h [] rfl).getSlot "a"
    exact absurd hget (by decide)

end StoredSlot

end HugoFS.Storage
