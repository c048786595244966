import HugoFS.Lib.SliceSort
import HugoFS.Storage.Node
import HugoFS.Storage.Usage
import Mathlib.Data.Finset.Max

/-!
# The volume that takes the next block

`SelectWrite` returns the volume with the largest `RemainCap`, a difference of unsigned integers:
a volume over its quota appears to have almost all of 2^64 bytes left.
-/

namespace HugoFS.Storage

open Finmap List Option SliceSort UInt64

structure VolStat where
  volID : ℕ
  quota : Int64
  inuseBytes : UInt64
deriving DecidableEq

namespace VolStat

def statistics (s : VolStat) : VolumeStatistics := ⟨s.quota.toUInt64, s.inuseBytes⟩

def remainCap (s : VolStat) : UInt64 := s.statistics.remainCap

def before (a b : VolStat) : Bool := decide (b.remainCap < a.remainCap)

def remaining (s : VolStat) : ℤ := s.quota.toInt - s.inuseBytes.toNat

def wraps (s : VolStat) : ℤ := -(s.remaining / 2 ^ 64)

theorem toNat_remainCap (s : VolStat) :
    (s.remainCap.toNat : ℤ) = s.remaining + 2 ^ 64 * s.wraps := by
  have hcond := Wrapping.toInt_eq_cond s.quota
  have hq := s.quota.toUInt64.toNat_lt
  have hi := s.inuseBytes.toNat_lt
  have hcap : s.remainCap = s.quota.toUInt64 - s.inuseBytes := rfl
  rw [hcap, UInt64.toNat_sub, wraps, remaining]
  split_ifs at hcond <;> omega

end VolStat

inductive SelectError
  | selectVolume
deriving DecidableEq

structure Selector (ν : Type) where
  candidates : Finmap fun _ : ℕ => ν
  volStats : Finmap fun _ : ℕ => VolStat
  keyed : ∀ {id s}, volStats.lookup id = some s → s.volID = id

namespace Selector

variable {ν : Type} (sel : Selector ν)

def Values (order : List VolStat) : Prop := (order : Multiset VolStat) = sel.volStats.values
deriving Decidable

def selected (order : List VolStat) : Option VolStat :=
  (SliceSort.sliceStable VolStat.before order).head?

def selectWrite (order : List VolStat) : Option (Except SelectError (Option ν)) :=
  (selected order).map fun s => .ok (sel.candidates.lookup s.volID)

def Best (s : VolStat) : Prop :=
  sel.volStats.lookup s.volID = some s ∧
    ∀ s', sel.volStats.lookup s'.volID = some s' → s'.remaining ≤ s.remaining

def SelectsBest : Prop :=
  ∀ order, sel.Values order →
    (order = [] → ∃ e, sel.selectWrite order = some (.error e)) ∧
    (order ≠ [] → ∃ s v, selected order = some s ∧ sel.Best s ∧
      sel.candidates.lookup s.volID = some v ∧ sel.selectWrite order = some (.ok (some v)))

def Comparable : Prop :=
  sel.volStats ≠ ∅ ∧ ∀ s s', sel.Best s → sel.volStats.lookup s'.volID = some s' →
    (sel.Best s' ∧ s'.volID ∈ sel.candidates) ∨
      s.remaining - s'.remaining > 2 ^ 64 * (s'.wraps - s.wraps)

variable {sel} {order : List VolStat} {s : VolStat}

theorem mem_of_values (h : sel.Values order) :
    s ∈ order ↔ sel.volStats.lookup s.volID = some s := by
  rw [← Multiset.mem_coe, h, mem_values]
  constructor
  · rintro ⟨id, hid⟩
    rwa [sel.keyed hid]
  · exact fun hs => ⟨_, hs⟩

theorem exists_values (sel : Selector ν) : ∃ order, sel.Values order :=
  ⟨sel.volStats.values.toList, Multiset.coe_toList _⟩

theorem eq_nil_iff (h : sel.Values order) : order = [] ↔ sel.volStats = ∅ := by
  rw [← Multiset.coe_eq_zero, h]
  constructor
  · intro hz
    apply ext_lookup
    intro id
    rw [lookup_empty]
    by_contra hsome
    obtain ⟨s, hs⟩ := ne_none_iff_exists'.mp hsome
    have hmem : s ∈ sel.volStats.values := mem_values.mpr ⟨id, hs⟩
    simp [hz] at hmem
  · intro hempty
    rw [hempty, values_empty]

open VolStat

theorem ranks_remainCap (order : List VolStat) :
    Ranks before (fun s => s.remainCap.toNat) order :=
  fun _ _ _ _ => decide_eq_true_iff.trans lt_iff_toNat_lt

theorem exists_selected_iff : (∃ order, sel.Values order ∧ selected order = some s) ↔
    sel.volStats.lookup s.volID = some s ∧
      ∀ s', sel.volStats.lookup s'.volID = some s' → s'.remainCap.toNat ≤ s.remainCap.toNat := by
  constructor
  · rintro ⟨order, ho, hs⟩
    obtain ⟨rest, hrest⟩ := head?_eq_some_iff.mp hs
    have hmem : s ∈ order := by
      apply (sliceStable_perm _ order).mem_iff.mp
      rw [hrest]
      exact mem_cons_self
    refine ⟨(mem_of_values ho).mp hmem, fun s' hs' => ?_⟩
    exact (stable VolStat).key_le_head (ranks_remainCap order) hrest
      ((mem_of_values ho).mpr hs')
  · rintro ⟨hs, hmax⟩
    -- the statistics of the volume come first, and a stable sort leaves them there
    have hvalues : sel.Values (s :: (sel.volStats.erase s.volID).values.toList) := by
      rw [Values, values_of_lookup hs, ← Multiset.cons_coe, Multiset.coe_toList]
    refine ⟨_, hvalues, ?_⟩
    have hfirst : ∀ y ∈ (sel.volStats.erase s.volID).values.toList, y.before s = false := by
      intro y hy
      have hy' := (mem_of_values hvalues).mp (mem_cons_of_mem s hy)
      exact decide_eq_false fun hlt => not_lt.mpr (hmax y hy') (lt_iff_toNat_lt.mp hlt)
    obtain ⟨rest, hrest⟩ := sliceStable_cons hfirst
    rw [selected, hrest]
    rfl

theorem exists_best (h : sel.volStats ≠ ∅) : ∃ s, sel.Best s := by
  obtain ⟨order, ho⟩ := sel.exists_values
  have hne : order.toFinset.Nonempty := by
    rw [toFinset_nonempty_iff]
    exact fun hnil => h ((eq_nil_iff ho).mp hnil)
  obtain ⟨s, hs, hmax⟩ := order.toFinset.exists_max_image remaining hne
  refine ⟨s, (mem_of_values ho).mp (mem_toFinset.mp hs), fun s' hs' => ?_⟩
  exact hmax s' (mem_toFinset.mpr ((mem_of_values ho).mpr hs'))

theorem selected_isSome (h : order ≠ []) : ∃ s, selected order = some s := by
  rw [selected]
  apply isSome_iff_exists.mp
  rw [isSome_head?]
  intro hnil
  have hperm := sliceStable_perm before order
  rw [hnil] at hperm
  exact h hperm.nil_eq.symm

theorem remainCap_lt_iff {s s' : VolStat} : s'.remainCap.toNat < s.remainCap.toNat ↔
    s.remaining - s'.remaining > 2 ^ 64 * (s'.wraps - s.wraps) := by
  have h := s.toNat_remainCap
  have h' := s'.toNat_remainCap
  omega

theorem Best.remainCap_eq {s s' : VolStat} (h : sel.Best s) (h' : sel.Best s') :
    s'.remainCap.toNat = s.remainCap.toNat := by
  have heq : s'.remaining = s.remaining := le_antisymm (h.2 s' h'.1) (h'.2 s h.1)
  have hs := s.toNat_remainCap
  have hs' := s'.toNat_remainCap
  rw [wraps] at hs hs'
  rw [heq] at hs'
  omega

end Selector

open Selector in
/-- `SelectWrite` chooses a volume that has the most left exactly under the condition. -/
theorem selectWrite_best_iff {ν : Type} (sel : Selector ν) :
    sel.SelectsBest ↔ sel.Comparable := by
  constructor
  · intro h
    have hne : sel.volStats ≠ ∅ := by
      intro hempty
      obtain ⟨order, ho⟩ := sel.exists_values
      have hnil := (eq_nil_iff ho).mpr hempty
      obtain ⟨e, he⟩ := (h order ho).1 hnil
      rw [hnil] at he
      cases he
    -- what may be selected is best, and a candidate
    have hmax : ∀ s, sel.volStats.lookup s.volID = some s →
        (∀ s', sel.volStats.lookup s'.volID = some s' → s'.remainCap.toNat ≤ s.remainCap.toNat) →
        sel.Best s ∧ s.volID ∈ sel.candidates := by
      intro s hs hle
      obtain ⟨order, ho, hsel⟩ := exists_selected_iff.mpr ⟨hs, hle⟩
      have hnonempty : order ≠ [] := by
        rintro rfl
        cases hsel
      obtain ⟨b, v, hb, hbest, hv, -⟩ := (h order ho).2 hnonempty
      cases hsel.symm.trans hb
      exact ⟨hbest, mem_iff.mpr ⟨v, hv⟩⟩
    refine ⟨hne, fun s s' hs hs' => ?_⟩
    rw [← remainCap_lt_iff, or_iff_not_imp_right, not_lt]
    intro hle
    -- the largest `RemainCap` is that of `s`, so it is that of `s'` as well
    obtain ⟨order, ho⟩ := sel.exists_values
    obtain ⟨m, hm⟩ := selected_isSome (mt (eq_nil_iff ho).mp hne)
    obtain ⟨hmem, hmle⟩ := exists_selected_iff.mp ⟨order, ho, hm⟩
    have heq := hs.remainCap_eq (hmax m hmem hmle).1
    exact hmax s' hs' fun x hx => (hmle x hx).trans (heq.trans_le hle)
  · rintro ⟨hne, h⟩ order ho
    refine ⟨fun hnil => absurd ((eq_nil_iff ho).mp hnil) hne, fun hnonempty => ?_⟩
    obtain ⟨s, hs⟩ := selected_isSome hnonempty
    obtain ⟨hmem, hmax⟩ := exists_selected_iff.mp ⟨order, ho, hs⟩
    obtain ⟨b, hb⟩ := exists_best hne
    rcases h b s hb hmem with ⟨hbest, hcand⟩ | hshort
    · obtain ⟨v, hv⟩ := mem_iff.mp hcand
      exact ⟨s, v, hs, hbest, hv, by rw [selectWrite, hs, map_some, hv]⟩
    · exact absurd (remainCap_lt_iff.mpr hshort) (not_lt.mpr (hmax b hb.1))

def overfullSelector : Selector ℕ where
  candidates := (Finmap.singleton 1 1).insert 2 2
  volStats := (Finmap.singleton 1 ⟨1, 100, 50⟩).insert 2 ⟨2, 100, 101⟩
  keyed {id s} h := by
    by_cases hid : id = 2
    · subst hid
      rw [lookup_insert] at h
      cases h
      rfl
    rw [lookup_insert_of_ne _ hid] at h
    by_cases hid' : id = 1
    · subst hid'
      rw [lookup_singleton_eq] at h
      cases h
      rfl
    have hnone : (Finmap.singleton (β := fun _ : ℕ => VolStat) 1 ⟨1, 100, 50⟩).lookup id =
        none := lookup_eq_none.mpr (by simpa using hid')
    cases hnone.symm.trans h

/-- The volume that is over its quota is chosen, in either order. Without statistics
`SelectWrite` panics. -/
theorem selectWrite_overfull :
    overfullSelector.Values [⟨1, 100, 50⟩, ⟨2, 100, 101⟩] ∧
      overfullSelector.selectWrite [⟨1, 100, 50⟩, ⟨2, 100, 101⟩] = some (.ok (some 2)) ∧
      (⟨2, 100, 101⟩ : VolStat).remaining = -1 ∧ (⟨1, 100, 50⟩ : VolStat).remaining = 50 ∧
      (⟨∅, ∅, fun h => by cases h⟩ : Selector ℕ).selectWrite [] = none := by
  decide

end HugoFS.Storage
