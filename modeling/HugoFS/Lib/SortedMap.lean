import Mathlib.Data.List.Pairwise
import Mathlib.Order.Lattice
import Mathlib.Tactic.ByContra
import Mathlib.Data.Prod.Basic

/-!
# Ordered finite maps

A finite map kept as the list of its pairs in increasing order of the keys, so
that iterating it from a key on is a plain list operation. A map is determined
by what it holds under each key.
-/

structure SortedMap (κ ν : Type) [LinearOrder κ] where
  entries : List (κ × ν)
  sorted : entries.Pairwise fun a b => a.1 < b.1
deriving DecidableEq

namespace SortedMap

open List Option

variable {κ ν : Type} [LinearOrder κ]

def empty : SortedMap κ ν := ⟨[], List.Pairwise.nil⟩

def get (m : SortedMap κ ν) (k : κ) : Option ν :=
  (m.entries.find? fun e => e.1 = k).map fun e => e.2

def filter (m : SortedMap κ ν) (p : κ → Bool) : SortedMap κ ν where
  entries := m.entries.filter fun e => p e.1
  sorted := m.sorted.filter _

def del (m : SortedMap κ ν) (k : κ) : SortedMap κ ν := m.filter fun x => x ≠ k

def put (m : SortedMap κ ν) (k : κ) (v : ν) : SortedMap κ ν where
  entries := (m.filter fun x => x < k).entries ++ (k, v) :: (m.filter fun x => k < x).entries
  sorted := by
    refine pairwise_append.mpr ⟨(m.filter _).sorted, ?_, ?_⟩
    · refine pairwise_cons.mpr ⟨fun e he => ?_, (m.filter _).sorted⟩
      simpa using (mem_filter.mp he).2
    · intro a ha b hb
      have hak : a.1 < k := by simpa using (mem_filter.mp ha).2
      rcases mem_cons.mp hb with rfl | hb
      · exact hak
      · exact hak.trans (by simpa using (mem_filter.mp hb).2)

def collect (l : List (κ × ν)) : SortedMap κ ν := l.foldl (fun m e => m.put e.1 e.2) empty

def iterFrom (m : SortedMap κ ν) (k : κ) : List (κ × ν) :=
  m.entries.filter fun e => k ≤ e.1

section Lemmas

variable {m m' : SortedMap κ ν} {k x : κ} {v w : ν} {p : κ → Bool}

theorem value_unique (hv : (k, v) ∈ m.entries) (hw : (k, w) ∈ m.entries) : v = w := by
  by_contra hne
  have hkeys : m.entries.Pairwise fun a b => a.1 ≠ b.1 := m.sorted.imp ne_of_lt
  have : Std.Symm fun a b : κ × ν => a.1 ≠ b.1 := ⟨fun _ _ h => h.symm⟩
  exact hkeys.forall hv hw (fun h => hne (Prod.mk.inj h).2) rfl

theorem get_eq_some_iff : m.get k = some v ↔ (k, v) ∈ m.entries := by
  rw [get, map_eq_some_iff]
  constructor
  · rintro ⟨e, he, rfl⟩
    have hk : e.1 = k := by simpa using find?_some he
    rw [← hk]
    exact mem_of_find?_eq_some he
  · intro h
    have hsome : (m.entries.find? fun e => e.1 = k).isSome :=
      find?_isSome.mpr ⟨(k, v), h, by simp⟩
    obtain ⟨e, he⟩ := isSome_iff_exists.mp hsome
    have hk : e.1 = k := by simpa using find?_some he
    have hmem : (k, e.2) ∈ m.entries := by
      rw [← hk]
      exact mem_of_find?_eq_some he
    exact ⟨e, he, value_unique hmem h⟩

@[simp] theorem get_empty (k : κ) : (empty : SortedMap κ ν).get k = none := rfl

theorem ext_get (h : ∀ k, m.get k = m'.get k) : m = m' := by
  have hnodup : ∀ n : SortedMap κ ν, n.entries.Nodup := by
    intro n
    refine List.Pairwise.imp (fun hab he => ?_) n.sorted
    rw [he] at hab
    exact lt_irrefl _ hab
  have hperm : m.entries.Perm m'.entries := by
    refine (perm_ext_iff_of_nodup (hnodup m) (hnodup m')).mpr fun e => ?_
    rw [← get_eq_some_iff (k := e.1) (v := e.2), h, get_eq_some_iff]
  have hentries : m.entries = m'.entries :=
    hperm.eq_of_pairwise (fun _ _ _ _ hab hba => absurd hba (lt_asymm hab)) m.sorted m'.sorted
  cases m
  cases m'
  congr

theorem get_filter : (m.filter p).get k = if p k then m.get k else none := by
  apply Option.ext
  intro v
  rw [get_eq_some_iff, filter, mem_filter]
  by_cases hp : p k
  · rw [if_pos hp, get_eq_some_iff, and_iff_left hp]
  · rw [if_neg hp]
    exact iff_of_false (fun h => hp h.2) (by simp)

@[simp] theorem get_del : (m.del x).get k = if k = x then none else m.get k := by
  rw [del, get_filter]
  by_cases h : k = x <;> simp [h]

@[simp] theorem get_put : (m.put x v).get k = if k = x then some v else m.get k := by
  apply Option.ext
  intro w
  have hmem : (k, w) ∈ (m.put x v).entries ↔
      (k < x ∧ (k, w) ∈ m.entries) ∨ (k = x ∧ w = v) ∨ (x < k ∧ (k, w) ∈ m.entries) := by
    simp [put, filter, and_comm]
  rw [get_eq_some_iff, hmem]
  rcases lt_trichotomy k x with h | h | h
  · simp [h, h.ne, h.asymm, get_eq_some_iff]
  · simp [h, eq_comm]
  · simp [h, h.ne', h.asymm, get_eq_some_iff]

theorem entries_put_of_lt (h : ∀ e ∈ m.entries, e.1 < x) :
    (m.put x v).entries = m.entries ++ [(x, v)] := by
  have hlow : (m.filter fun y => y < x).entries = m.entries :=
    filter_eq_self.mpr fun e he => decide_eq_true (h e he)
  have hhigh : (m.filter fun y => x < y).entries = [] :=
    filter_eq_nil_iff.mpr fun e he hx => lt_asymm (h e he) (of_decide_eq_true hx)
  change _ ++ (x, v) :: _ = _
  rw [hlow, hhigh]

theorem mem_put_iff {e : κ × ν} :
    e ∈ (m.put x v).entries ↔ e = (x, v) ∨ (e.1 ≠ x ∧ e ∈ m.entries) := by
  have hput := @get_put κ ν _ m e.1 x v
  by_cases hk : e.1 = x
  · rw [if_pos hk] at hput
    rw [← get_eq_some_iff (k := e.1) (v := e.2), hput, some.injEq]
    simp [Prod.ext_iff, hk, eq_comm]
  rw [if_neg hk] at hput
  rw [← get_eq_some_iff (k := e.1) (v := e.2), hput, get_eq_some_iff]
  simp [Prod.ext_iff, hk]

theorem filter_eq_filter_iff {q : κ → Bool} :
    m.filter p = m.filter q ↔ ∀ e ∈ m.entries, p e.1 = q e.1 := by
  constructor
  · intro h e he
    have hget : m.get e.1 = some e.2 := get_eq_some_iff.mpr he
    have hpq : (m.filter p).get e.1 = (m.filter q).get e.1 := by rw [h]
    rw [get_filter, get_filter, hget] at hpq
    cases hp : p e.1 <;> cases hq : q e.1 <;> simp [hp, hq] at hpq ⊢
  · intro h
    have he : m.entries.filter (fun e => p e.1) = m.entries.filter fun e => q e.1 :=
      filter_congr h
    simp only [filter, he]

theorem get_foldl_put (l : List (κ × ν)) (hl : l.Pairwise fun a b => a.1 < b.1)
    (m : SortedMap κ ν) :
    (l.foldl (fun m e => m.put e.1 e.2) m).get k =
      ((l.find? fun e => e.1 = k).map fun e => e.2).or (m.get k) := by
  induction l generalizing m with
  | nil => simp
  | cons e l ih =>
    obtain ⟨he, hl⟩ := pairwise_cons.mp hl
    rw [foldl_cons, ih hl, get_put]
    by_cases hk : e.1 = k
    · -- the key does not come again
      have hnone : (l.find? fun x => x.1 = k) = none := by
        refine find?_eq_none.mpr fun x hx hxk => ?_
        have hxk : x.1 = k := by simpa using hxk
        exact lt_irrefl k (by simpa [hk, hxk] using he x hx)
      simp [hnone, hk]
    · simp [hk, Ne.symm hk]

theorem collect_entries (m : SortedMap κ ν) : collect m.entries = m := by
  apply ext_get
  intro k
  rw [collect, get_foldl_put _ m.sorted, get_empty, or_none]
  rfl

theorem get_foldl_del (l : List (κ × ν)) (m : SortedMap κ ν) :
    (l.foldl (fun m e => m.del e.1) m).get k =
      if k ∈ l.map (fun e => e.1) then none else m.get k := by
  induction l generalizing m with
  | nil => simp
  | cons e l ih =>
    rw [foldl_cons, ih, get_del, map_cons]
    by_cases hk : k = e.1
    · simp [hk]
    · simp only [mem_cons, hk, false_or, if_false]

theorem foldl_del_filter (m : SortedMap κ ν) (p : κ → Bool) :
    (m.filter p).entries.foldl (fun m e => m.del e.1) m = m.filter fun k => !p k := by
  apply ext_get
  intro k
  rw [get_foldl_del, get_filter]
  rcases hg : m.get k with _ | v
  · simp
  have hmem : k ∈ (m.filter p).entries.map (fun e => e.1) ↔ p k := by
    constructor
    · intro h
      obtain ⟨e, he, rfl⟩ := mem_map.mp h
      exact (mem_filter.mp he).2
    · exact fun h =>
        mem_map.mpr ⟨(k, v), mem_filter.mpr ⟨get_eq_some_iff.mp hg, h⟩, rfl⟩
  by_cases hp : p k
  · rw [if_pos (hmem.mpr hp)]
    simp [hp]
  · rw [if_neg (mt hmem.mp hp)]
    simp [hp]

end Lemmas

/-- On a list along which `p` cannot become true again, taking while `p` holds is
filtering by `p`. -/
theorem takeWhile_eq_filter {α : Type} {p : α → Bool} {l : List α}
    (h : l.Pairwise fun a b => p b → p a) : l.takeWhile p = l.filter p := by
  induction l with
  | nil => rfl
  | cons a l ih =>
    obtain ⟨ha, hl⟩ := pairwise_cons.mp h
    by_cases hp : p a
    · rw [takeWhile_cons_of_pos hp, filter_cons_of_pos hp, ih hl]
    rw [takeWhile_cons_of_neg hp, filter_cons_of_neg hp, eq_comm, filter_eq_nil_iff]
    exact fun b hb hpb => hp (ha b hb hpb)

end SortedMap
