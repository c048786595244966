import Mathlib.Data.List.Basic
import Mathlib.Order.Lattice

/-!
# Sorting with a comparator

A sort takes a function that says which of two elements comes first. If it is a strict weak
order on the elements, no element of the result stands before one that should come first.
`sliceStable` also keeps the order of equal elements; a `Sorter` is any sort.
-/

namespace SliceSort

open List

variable {α κ : Type}

structure WeakOrder (less : α → α → Bool) (l : List α) : Prop where
  asymm : ∀ a ∈ l, ∀ b ∈ l, less a b = true → less b a = false
  split : ∀ a ∈ l, ∀ b ∈ l, ∀ c ∈ l, less a c = true → less a b = true ∨ less b c = true

def Ordered (less : α → α → Bool) (l : List α) : Prop :=
  l.Pairwise fun a b => less b a = false

structure Sorter (α : Type) where
  sort : (α → α → Bool) → List α → List α
  perm : ∀ less l, (sort less l).Perm l
  ordered : ∀ less l, WeakOrder less l → Ordered less (sort less l)

def insert (less : α → α → Bool) (x : α) : List α → List α
  | [] => [x]
  | y :: ys => if less x y then x :: y :: ys else y :: insert less x ys

def sliceStable (less : α → α → Bool) (l : List α) : List α :=
  l.foldl (fun sorted x => insert less x sorted) []

variable {less : α → α → Bool} {l sorted : List α} {x : α}

theorem WeakOrder.of_subset (h : WeakOrder less l) {l' : List α} (hl : ∀ a ∈ l', a ∈ l) :
    WeakOrder less l' where
  asymm a ha b hb := h.asymm a (hl a ha) b (hl b hb)
  split a ha b hb c hc := h.split a (hl a ha) b (hl b hb) c (hl c hc)

theorem insert_perm (less : α → α → Bool) (x : α) (l : List α) :
    (insert less x l).Perm (x :: l) := by
  induction l with
  | nil => rfl
  | cons y ys ih =>
    rw [insert]
    split_ifs
    · rfl
    · exact (ih.cons y).trans (List.Perm.swap x y ys)

theorem Ordered.insert (h : Ordered less l) (hw : WeakOrder less (x :: l)) :
    Ordered less (insert less x l) := by
  induction l with
  | nil => exact pairwise_singleton ..
  | cons y ys ih =>
    obtain ⟨hy, hys⟩ := pairwise_cons.mp h
    rw [SliceSort.insert]
    split_ifs with hxy
    · refine pairwise_cons.mpr ⟨fun b hb => ?_, h⟩
      rcases mem_cons.mp hb with rfl | hb'
      · exact hw.asymm x (by simp) b (by simp) hxy
      -- what comes before `x` comes before `y`, or `y` comes before `x`
      by_contra hbx
      rcases hw.split b (by simp [hb']) y (by simp) x (by simp) (by simpa using hbx) with hby | hyx
      · simp [hy b hb'] at hby
      · simp [hw.asymm x (by simp) y (by simp) hxy] at hyx
    · refine pairwise_cons.mpr ⟨fun b hb => ?_, ?_⟩
      · rcases mem_cons.mp ((insert_perm less x ys).mem_iff.mp hb) with rfl | hb'
        · simpa using hxy
        · exact hy b hb'
      · refine ih hys (hw.of_subset fun a ha => ?_)
        rcases mem_cons.mp ha with rfl | ha'
        · exact mem_cons_self
        · simp [ha']

theorem foldl_insert_perm (less : α → α → Bool) (l sorted : List α) :
    (l.foldl (fun sorted x => insert less x sorted) sorted).Perm (l ++ sorted) := by
  induction l generalizing sorted with
  | nil => rfl
  | cons x xs ih =>
    exact (ih _).trans (((insert_perm less x sorted).append_left xs).trans perm_middle)

theorem sliceStable_perm (less : α → α → Bool) (l : List α) : (sliceStable less l).Perm l := by
  have hperm := foldl_insert_perm less l []
  rwa [append_nil] at hperm

theorem Ordered.foldl_insert (h : Ordered less sorted) (hw : WeakOrder less (l ++ sorted)) :
    Ordered less (l.foldl (fun sorted x => SliceSort.insert less x sorted) sorted) := by
  induction l generalizing sorted with
  | nil => exact h
  | cons x xs ih =>
    refine ih (h.insert (hw.of_subset fun a ha => ?_)) (hw.of_subset fun a ha => ?_)
    · rcases mem_cons.mp ha with rfl | ha
      · simp
      · simp [ha]
    · rcases mem_append.mp ha with ha | ha
      · simp [ha]
      have := (insert_perm less x sorted).mem_iff.mp ha
      rcases mem_cons.mp this with rfl | ha'
      · simp
      · simp [ha']

def stable (α : Type) : Sorter α where
  sort := sliceStable
  perm := sliceStable_perm
  ordered _ l hw := Ordered.foldl_insert .nil (by simpa using hw)

theorem head_foldl_insert {rest : List α} (hx : ∀ y ∈ l, less y x = false) :
    ∃ rest', l.foldl (fun sorted y => insert less y sorted) (x :: rest) = x :: rest' := by
  induction l generalizing rest with
  | nil => exact ⟨rest, rfl⟩
  | cons y ys ih =>
    obtain ⟨hy, hys⟩ := forall_mem_cons.mp hx
    have hins : insert less y (x :: rest) = x :: insert less y rest := by
      rw [insert, if_neg (by simp [hy])]
    rw [foldl_cons, hins]
    exact ih hys

theorem sliceStable_cons {xs : List α} (hx : ∀ y ∈ xs, less y x = false) :
    ∃ rest, sliceStable less (x :: xs) = x :: rest :=
  head_foldl_insert hx

/-! ### Ranking by a key -/

section Key

variable [LinearOrder κ] {key : α → κ}

def Ranks (less : α → α → Bool) (key : α → κ) (l : List α) : Prop :=
  ∀ a ∈ l, ∀ b ∈ l, (less a b = true ↔ key b < key a)

theorem Ranks.weakOrder (h : Ranks less key l) : WeakOrder less l where
  asymm a ha b hb hab := by
    have hlt := (h a ha b hb).mp hab
    by_contra hba
    exact lt_asymm hlt ((h b hb a ha).mp (by simpa using hba))
  split a ha b hb c hc hac := by
    have hlt := (h a ha c hc).mp hac
    rcases lt_or_ge (key b) (key a) with hba | hab
    · exact .inl ((h a ha b hb).mpr hba)
    · exact .inr ((h b hb c hc).mpr (hlt.trans_le hab))

theorem Sorter.pairwise_key (S : Sorter α) (h : Ranks less key l) :
    (S.sort less l).Pairwise fun a b => key b ≤ key a := by
  have hmem : ∀ a ∈ S.sort less l, a ∈ l := fun a ha => (S.perm less l).mem_iff.mp ha
  refine (S.ordered less l h.weakOrder).imp_of_mem fun {a b} ha hb hab => ?_
  by_contra hlt
  rw [(h b (hmem b hb) a (hmem a ha)).mpr (not_le.mp hlt)] at hab
  cases hab

theorem Sorter.key_le_of_notMem_take (S : Sorter α) (h : Ranks less key l) {n : ℕ} {a b : α}
    (ha : a ∈ l) (hout : a ∉ (S.sort less l).take n) (hb : b ∈ (S.sort less l).take n) :
    key a ≤ key b := by
  have hpair := S.pairwise_key h
  have hmem := (S.perm less l).mem_iff.mpr ha
  rw [← take_append_drop n (S.sort less l)] at hpair hmem
  rcases mem_append.mp hmem with hin | hdrop
  · exact absurd hin hout
  · exact (pairwise_append.mp hpair).2.2 b hb a hdrop

theorem Sorter.key_le_head (S : Sorter α) (h : Ranks less key l) {rest : List α}
    (hs : S.sort less l = x :: rest) {a : α} (ha : a ∈ l) : key a ≤ key x := by
  have hpair := S.pairwise_key h
  have hmem := (S.perm less l).mem_iff.mpr ha
  rw [hs] at hpair hmem
  rcases mem_cons.mp hmem with rfl | hmem
  · exact le_rfl
  · exact (pairwise_cons.mp hpair).1 a hmem

end Key

end SliceSort
