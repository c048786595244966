import Mathlib.Data.Finset.Card
import Mathlib.Data.List.Pairwise

/-!
# Entries in the order of their last use

A cache that evicts the least recently used entry keeps its entries from the most recent to the
oldest. `put` moves an entry to the front.
-/

namespace Recency

open List

variable {κ α : Type} [DecidableEq κ]

def drop (k : κ) (l : List (κ × α)) : List (κ × α) := l.eraseP fun e => e.1 == k

def put (k : κ) (a : α) (l : List (κ × α)) : List (κ × α) := (k, a) :: drop k l

def DistinctKeys (l : List (κ × α)) : Prop := l.Pairwise fun e e' => e.1 ≠ e'.1

def SortedBy (used : α → ℕ) (l : List (κ × α)) : Prop :=
  l.Pairwise fun e e' => used e'.2 < used e.2

variable {k : κ} {a : α} {l : List (κ × α)} {used used' : α → ℕ}

theorem drop_sublist (k : κ) (l : List (κ × α)) : (drop k l).Sublist l := eraseP_sublist

theorem mem_drop (hl : DistinctKeys l) {e : κ × α} : e ∈ drop k l ↔ e ∈ l ∧ e.1 ≠ k := by
  induction l with
  | nil => simp [drop]
  | cons x xs ih =>
    obtain ⟨hx, hxs⟩ := pairwise_cons.mp hl
    by_cases hk : x.1 = k
    · -- the first entry goes, and no later one has its key
      rw [drop, eraseP_cons_of_pos (by simpa using hk), mem_cons]
      constructor
      · exact fun he => ⟨.inr he, fun hek => hx e he (hk.trans hek.symm)⟩
      · rintro ⟨rfl | he, hek⟩
        · exact absurd hk hek
        · exact he
    · rw [drop, eraseP_cons_of_neg (by simpa using hk), mem_cons, mem_cons]
      constructor
      · rintro (rfl | he)
        · exact ⟨.inl rfl, hk⟩
        · obtain ⟨hmem, hek⟩ := (ih hxs).mp he
          exact ⟨.inr hmem, hek⟩
      · rintro ⟨rfl | he, hek⟩
        · exact .inl rfl
        · exact .inr ((ih hxs).mpr ⟨he, hek⟩)

theorem mem_put (hl : DistinctKeys l) {e : κ × α} :
    e ∈ put k a l ↔ e = (k, a) ∨ e ∈ l ∧ e.1 ≠ k := by
  rw [put, mem_cons, mem_drop hl]

theorem DistinctKeys.put (hl : DistinctKeys l) (k : κ) (a : α) : DistinctKeys (put k a l) := by
  refine pairwise_cons.mpr ⟨fun e he => ?_, hl.sublist (drop_sublist k l)⟩
  exact ((mem_drop hl).mp he).2.symm

/-- The value that is put into the cache has been used last, and the other values have not
been used meanwhile. -/
theorem SortedBy.put (hl : SortedBy used l) (hkeys : DistinctKeys l)
    (hsame : ∀ e ∈ l, e.1 ≠ k → used' e.2 = used e.2)
    (hlast : ∀ e ∈ l, e.1 ≠ k → used e.2 < used' a) : SortedBy used' (put k a l) := by
  refine pairwise_cons.mpr ⟨fun e he => ?_, ?_⟩
  · obtain ⟨hmem, hne⟩ := (mem_drop hkeys).mp he
    rw [hsame e hmem hne]
    exact hlast e hmem hne
  · refine (hl.sublist (drop_sublist k l)).imp_of_mem fun {e e'} he he' hlt => ?_
    obtain ⟨hmem, hne⟩ := (mem_drop hkeys).mp he
    obtain ⟨hmem', hne'⟩ := (mem_drop hkeys).mp he'
    rwa [hsame e hmem hne, hsame e' hmem' hne']

theorem DistinctKeys.length_le (hl : DistinctKeys l) {s : Finset κ} (hs : ∀ e ∈ l, e.1 ∈ s) :
    l.length ≤ s.card := by
  have hnodup : (l.map Prod.fst).Nodup := pairwise_map.mpr hl
  have hsub : (l.map Prod.fst).toFinset ⊆ s := by
    intro k hk
    obtain ⟨e, he, rfl⟩ := mem_map.mp (mem_toFinset.mp hk)
    exact hs e he
  calc l.length = (l.map Prod.fst).toFinset.card := by
        rw [toFinset_card_of_nodup hnodup, length_map]
    _ ≤ s.card := Finset.card_le_card hsub

omit [DecidableEq κ] in
theorem SortedBy.last_le (hl : SortedBy used l) {oldest e : κ × α}
    (ho : l.getLast? = some oldest) (he : e ∈ l) : used oldest.2 ≤ used e.2 := by
  obtain ⟨init, rfl⟩ := List.getLast?_eq_some_iff.mp ho
  rcases mem_append.mp he with he | he
  · exact ((pairwise_append.mp hl).2.2 e he oldest (mem_singleton_self _)).le
  · rw [mem_singleton.mp he]

omit [DecidableEq κ] in
theorem DistinctKeys.mem_dropLast (hl : DistinctKeys l) {oldest e : κ × α}
    (ho : l.getLast? = some oldest) : e ∈ l.dropLast ↔ e ∈ l ∧ e.1 ≠ oldest.1 := by
  obtain ⟨init, rfl⟩ := List.getLast?_eq_some_iff.mp ho
  have hne := (pairwise_append.mp hl).2.2
  rw [dropLast_concat, mem_append, mem_singleton]
  constructor
  · exact fun he => ⟨.inl he, hne e he oldest (mem_singleton_self _)⟩
  · rintro ⟨he | rfl, hk⟩
    · exact he
    · exact absurd rfl hk

end Recency
