import Mathlib.Algebra.Order.BigOperators.Group.List
import Mathlib.Data.List.Chain
import Mathlib.Data.Set.Card
import Mathlib.Order.Interval.Finset.Nat

/-!
# Lists of spans

A span is a pair of offsets, the first inside and the second just after the end.
`Spans.Within lo l hi` says that `l` is sorted, that its spans are not empty and do not
overlap, and that all of it lies between `lo` and `hi`. The sum of the lengths of such
a list tells whether it covers everything.
-/

namespace Spans

open List Nat Spans

variable {l : List Span} {lo hi : ℕ} {s : Span}

abbrev Span := ℕ × ℕ

def Within : ℕ → List Span → ℕ → Prop
  | lo, [], hi => lo ≤ hi
  | lo, s :: l, hi => lo ≤ s.1 ∧ s.1 < s.2 ∧ Within s.2 l hi

def Covers (l : List Span) (o : ℕ) : Prop := ∃ s ∈ l, s.1 ≤ o ∧ o < s.2
deriving Decidable

def total (l : List Span) : ℕ := (l.map fun s => s.2 - s.1).sum

@[simp] theorem covers_nil (o : ℕ) : ¬Covers [] o := by simp [Covers]

@[simp] theorem covers_cons (s : Span) (l : List Span) (o : ℕ) :
    Covers (s :: l) o ↔ s.1 ≤ o ∧ o < s.2 ∨ Covers l o := by simp [Covers]

@[simp] theorem covers_append (l l' : List Span) (o : ℕ) :
    Covers (l ++ l') o ↔ Covers l o ∨ Covers l' o := by
  simp [Covers, or_and_right, exists_or]

@[simp] theorem total_nil : total [] = 0 := rfl

@[simp] theorem total_cons (s : Span) (l : List Span) : total (s :: l) = s.2 - s.1 + total l := by
  simp [total]

@[simp] theorem total_append (l l' : List Span) : total (l ++ l') = total l + total l' := by
  simp [total]

theorem Within.le (h : Within lo l hi) : lo ≤ hi := by
  induction l generalizing lo with
  | nil => exact h
  | cons s l ih =>
    have := ih h.2.2
    have := h.1
    have := h.2.1
    omega

theorem Within.append {lo mid hi : ℕ} {l l' : List Span} (h : Within lo l mid)
    (h' : Within mid l' hi) : Within lo (l ++ l') hi := by
  induction l generalizing lo with
  | nil =>
    cases l' with
    | nil => exact le_trans h h'
    | cons s l' => exact ⟨le_trans h h'.1, h'.2⟩
  | cons s l ih => exact ⟨h.1, h.2.1, ih h.2.2⟩

theorem Within.bounds (h : Within lo l hi) (hs : s ∈ l) :
    lo ≤ s.1 ∧ s.1 < s.2 ∧ s.2 ≤ hi := by
  induction l generalizing lo with
  | nil => cases hs
  | cons t l ih =>
    obtain rfl | hs := mem_cons.mp hs
    · exact ⟨h.1, h.2.1, h.2.2.le⟩
    have hb := ih h.2.2 hs
    have h1 := h.1
    have h2 := h.2.1
    exact ⟨by omega, hb.2⟩

theorem Within.of_snoc (h : Within lo (l ++ [s]) hi) :
    Within lo l s.1 ∧ s.1 < s.2 ∧ s.2 ≤ hi := by
  induction l generalizing lo with
  | nil => exact ⟨h.1, h.2.1, h.2.2⟩
  | cons t l ih =>
    obtain ⟨hl, hs⟩ := ih h.2.2
    exact ⟨⟨h.1, h.2.1, hl⟩, hs⟩

theorem Within.nodup (h : Within lo l hi) : l.Nodup := by
  induction l generalizing lo with
  | nil => exact nodup_nil
  | cons s l ih =>
    refine nodup_cons.mpr ⟨fun hs => ?_, ih h.2.2⟩
    have := (h.2.2.bounds hs).1
    have := h.2.1
    omega

theorem Within.covers {lo hi o : ℕ} (h : Within lo l hi) (ho : Covers l o) :
    lo ≤ o ∧ o < hi := by
  obtain ⟨s, hs, hlo, hhi⟩ := ho
  have hb := h.bounds hs
  omega

theorem Within.of_bounds {lo' hi' : ℕ} (h : Within lo l hi) (hle : lo' ≤ hi')
    (hb : ∀ s ∈ l, lo' ≤ s.1 ∧ s.2 ≤ hi') : Within lo' l hi' := by
  induction l generalizing lo lo' with
  | nil => exact hle
  | cons s l ih =>
    have hs := hb s mem_cons_self
    exact ⟨hs.1, h.2.1, ih h.2.2 hs.2 fun t ht =>
      ⟨(h.2.2.bounds ht).1, (hb t (mem_cons_of_mem _ ht)).2⟩⟩

theorem Within.exists_end_iff (h : Within lo l hi) (hhi : 0 < hi) :
    (∃ s ∈ l, s.2 = hi) ↔ Covers l (hi - 1) := by
  constructor
  · rintro ⟨s, hs, rfl⟩
    have := h.bounds hs
    exact ⟨s, hs, by omega, by omega⟩
  · rintro ⟨s, hs, -, hlt⟩
    have := h.bounds hs
    exact ⟨s, hs, by omega⟩

/-! ### Total and coverage -/

theorem Within.total_filter_lt {p : Span → Bool} (h : Within lo l hi) (hs : s ∈ l) (hp : ¬p s) :
    total (l.filter p) < total l := by
  induction l generalizing lo with
  | nil => cases hs
  | cons t l ih =>
    have hlt := h.2.1
    have hle : total (l.filter p) ≤ total l :=
      (filter_sublist.map _).sum_le_sum fun _ _ => zero_le _
    rcases mem_cons.mp hs with rfl | hs
    · rw [filter_cons_of_neg hp, total_cons]
      omega
    have := ih h.2.2 hs
    rw [filter_cons, total_cons]
    split_ifs
    · rw [total_cons]
      omega
    · omega

theorem Within.total_le (h : Within lo l hi) :
    lo + total l ≤ hi := by
  induction l generalizing lo with
  | nil => exact h
  | cons s l ih =>
    have := ih h.2.2
    have := h.1
    have := h.2.1
    rw [total_cons]
    omega

theorem Within.covers_of_total (h : Within lo l hi)
    (htotal : lo + total l = hi) {o : ℕ} (hlo : lo ≤ o) (hhi : o < hi) : Covers l o := by
  induction l generalizing lo with
  | nil =>
    rw [total_nil] at htotal
    omega
  | cons s l ih =>
    have hle := h.2.2.total_le
    have h1 := h.1
    have h2 := h.2.1
    rw [total_cons] at htotal
    rw [covers_cons]
    by_cases ho : o < s.2
    · exact .inl ⟨by omega, ho⟩
    · exact .inr (ih h.2.2 (by omega) (by omega))

theorem Within.ncard_covers (h : Within lo l hi) : {o | Covers l o}.ncard = total l := by
  induction l generalizing lo with
  | nil => simp
  | cons s l ih =>
    have hsplit : {o | Covers (s :: l) o} = Set.Ico s.1 s.2 ∪ {o | Covers l o} := by
      ext o
      simp
    have hdisj : Disjoint (Set.Ico s.1 s.2) {o | Covers l o} := by
      rw [Set.disjoint_left]
      intro o ho ho'
      have := (h.2.2.covers ho').1
      have := ho.2
      omega
    have hfin : {o | Covers l o}.Finite :=
      (Set.finite_lt_nat hi).subset fun o ho => (h.2.2.covers ho).2
    rw [hsplit, Set.ncard_union_eq hdisj (Set.finite_Ico ..) hfin, ih h.2.2, total_cons,
      Set.ncard_eq_toFinset_card', Set.toFinset_Ico, card_Ico]

/-! ### Cutting -/

theorem Within.total_of_covers (h : Within lo l hi)
    (hall : ∀ o, lo ≤ o → o < hi → Covers l o) : total l = hi - lo := by
  induction l generalizing lo with
  | nil =>
    have hle : lo ≤ hi := h
    by_cases hlt : lo < hi
    · exact absurd (hall lo (le_refl lo) hlt) (covers_nil lo)
    · rw [total_nil]
      omega
  | cons s l ih =>
    obtain ⟨h1, h2, h3⟩ := h
    have hle := h3.le
    -- nothing may be left out before the first span
    have hs : lo = s.1 := by
      obtain ⟨x, hx, hxo⟩ := hall lo (le_refl lo) (by omega)
      rcases mem_cons.mp hx with rfl | hx
      · omega
      · have := h3.bounds hx
        omega
    have hrest := ih h3 fun o ho hlt => by
      obtain hcov | hcov := (covers_cons s l o).mp (hall o (by omega) hlt)
      · omega
      · exact hcov
    rw [total_cons, hrest]
    omega

def below (s : ℕ) (l : List Span) : List Span :=
  l.filterMap fun x => if x.1 < s then some (x.1, min x.2 s) else none

def above (e : ℕ) (l : List Span) : List Span :=
  l.filterMap fun x => if e < x.2 then some (max e x.1, x.2) else none

theorem below_cons (s : ℕ) (x : Span) (l : List Span) :
    below s (x :: l) = if x.1 < s then (x.1, min x.2 s) :: below s l else below s l := by
  rw [below, filterMap_cons]
  split_ifs <;> rfl

theorem above_cons (e : ℕ) (x : Span) (l : List Span) :
    above e (x :: l) = if e < x.2 then (max e x.1, x.2) :: above e l else above e l := by
  rw [above, filterMap_cons]
  split_ifs <;> rfl

theorem covers_filterMap {f : Span → Option Span} {p : ℕ → Prop}
    (hf : ∀ x o, (∃ y, f x = some y ∧ y.1 ≤ o ∧ o < y.2) ↔ (x.1 ≤ o ∧ o < x.2) ∧ p o)
    (l : List Span) (o : ℕ) : Covers (l.filterMap f) o ↔ Covers l o ∧ p o := by
  constructor
  · rintro ⟨y, hy, ho⟩
    obtain ⟨x, hx, hxy⟩ := mem_filterMap.mp hy
    have hxo := (hf x o).mp ⟨y, hxy, ho⟩
    exact ⟨⟨x, hx, hxo.1⟩, hxo.2⟩
  · rintro ⟨⟨x, hx, ho⟩, hp⟩
    obtain ⟨y, hxy, hyo⟩ := (hf x o).mpr ⟨ho, hp⟩
    exact ⟨y, mem_filterMap.mpr ⟨x, hx, hxy⟩, hyo⟩

theorem covers_below (s : ℕ) (l : List Span) (o : ℕ) : Covers (below s l) o ↔ Covers l o ∧ o < s := by
  refine covers_filterMap (p := (· < s)) (fun x o => ?_) l o
  split_ifs with hx
  · simp
    omega
  · simp
    omega

theorem covers_above (e : ℕ) (l : List Span) (o : ℕ) : Covers (above e l) o ↔ Covers l o ∧ e ≤ o := by
  refine covers_filterMap (p := (e ≤ ·)) (fun x o => ?_) l o
  split_ifs with hx
  · simp
    omega
  · simp
    omega

theorem Within.below_eq_nil {lo hi s : ℕ} (h : Within lo l hi) (hs : s ≤ lo) :
    below s l = [] := by
  refine filterMap_eq_nil_iff.mpr fun x hx => if_neg ?_
  have := (h.bounds hx).1
  omega

theorem Within.above_eq_nil {lo hi e : ℕ} (h : Within lo l hi) (he : hi ≤ e) :
    above e l = [] := by
  refine filterMap_eq_nil_iff.mpr fun x hx => if_neg ?_
  have := (h.bounds hx).2.2
  omega

theorem Within.below {lo hi s : ℕ} (h : Within lo l hi) (hs : lo ≤ s) :
    Within lo (below s l) s := by
  induction l generalizing lo with
  | nil => exact hs
  | cons x l ih =>
    rw [below_cons]
    by_cases hxs : x.2 ≤ s
    · have h1 := h.2.1
      rw [if_pos (by omega), min_eq_left hxs]
      exact ⟨h.1, h1, ih h.2.2 hxs⟩
    -- the spans after the one that is cut start above `s`
    rw [h.2.2.below_eq_nil (by omega)]
    split_ifs with hx
    · exact ⟨h.1, by omega, min_le_right _ _⟩
    · exact hs

theorem Within.above_eq_self {lo hi e : ℕ} (h : Within lo l hi) (he : e ≤ lo) :
    above e l = l := by
  induction l generalizing lo with
  | nil => rfl
  | cons x l ih =>
    have h1 := h.1
    have h2 := h.2.1
    rw [above_cons, if_pos (by omega), ih h.2.2 (by omega), max_eq_right (by omega)]

theorem Within.above {lo hi e : ℕ} (h : Within lo l hi) (he : e ≤ hi) :
    Within e (above e l) hi := by
  induction l generalizing lo with
  | nil => exact he
  | cons x l ih =>
    rw [above_cons]
    split_ifs with hx
    · -- the rest lies above the span that is cut
      have h2 := h.2.1
      rw [h.2.2.above_eq_self (le_of_lt hx)]
      exact ⟨le_max_left _ _, by omega, h.2.2⟩
    · exact ih h.2.2

theorem total_below_cons (s : ℕ) (x : Span) (l : List Span) :
    total (below s (x :: l)) = min x.2 s - x.1 + total (below s l) := by
  rw [below_cons]
  split_ifs with hx
  · rw [total_cons]
  · omega

theorem total_above_cons (e : ℕ) (x : Span) (l : List Span) :
    total (above e (x :: l)) = x.2 - max e x.1 + total (above e l) := by
  rw [above_cons]
  split_ifs with hx
  · rw [total_cons]
  · omega

theorem total_below_add_above {s e : ℕ} (hse : s ≤ e) (l : List Span) :
    total (below s l) + total (above e l) ≤ total l := by
  induction l with
  | nil => exact le_refl 0
  | cons x l ih =>
    rw [total_below_cons, total_above_cons, total_cons]
    omega

/-! ### Joining neighbours -/

def joinFrom (s : Span) : List Span → List Span
  | [] => [s]
  | t :: l => if t.1 = s.2 then joinFrom (s.1, t.2) l else s :: joinFrom t l

def join : List Span → List Span
  | [] => []
  | s :: l => joinFrom s l

theorem Within.joinFrom (h : Within lo (s :: l) hi) :
    Within lo (joinFrom s l) hi := by
  induction l generalizing lo s with
  | nil => exact h
  | cons t l ih =>
    have h1 := h.2.1
    have h2 := h.2.2.2.1
    rw [joinFrom]
    split_ifs with hts
    · exact ih ⟨h.1, by omega, h.2.2.2.2⟩
    · exact ⟨h.1, h1, ih h.2.2⟩

theorem Within.join (h : Within lo l hi) :
    Within lo (join l) hi := by
  cases l with
  | nil => exact h
  | cons s l => exact h.joinFrom

theorem covers_joinFrom (h : Within lo (s :: l) hi) (o : ℕ) :
    Covers (joinFrom s l) o ↔ Covers (s :: l) o := by
  induction l generalizing lo s with
  | nil => rfl
  | cons t l ih =>
    have h1 := h.2.1
    have h2 := h.2.2.2.1
    rw [joinFrom]
    split_ifs with hts
    · have hst : Within lo ((s.1, t.2) :: l) hi := ⟨h.1, by omega, h.2.2.2.2⟩
      rw [ih hst, covers_cons, covers_cons, covers_cons]
      dsimp only
      constructor
      · rintro (ho | ho)
        · by_cases hos : o < s.2
          · exact .inl ⟨ho.1, hos⟩
          · exact .inr (.inl ⟨by omega, ho.2⟩)
        · exact .inr (.inr ho)
      · rintro (ho | ho | ho)
        · exact .inl ⟨ho.1, by omega⟩
        · exact .inl ⟨by omega, ho.2⟩
        · exact .inr ho
    · rw [covers_cons, ih h.2.2, covers_cons s]

theorem covers_join (h : Within lo l hi) (o : ℕ) :
    Covers (join l) o ↔ Covers l o := by
  cases l with
  | nil => rfl
  | cons s l => exact covers_joinFrom h o

theorem total_joinFrom (h : Within lo (s :: l) hi) :
    total (joinFrom s l) = total (s :: l) := by
  induction l generalizing lo s with
  | nil => rfl
  | cons t l ih =>
    have h1 := h.2.1
    have h2 := h.2.2.2.1
    rw [joinFrom]
    split_ifs with hts
    · have hst : Within lo ((s.1, t.2) :: l) hi := ⟨h.1, by omega, h.2.2.2.2⟩
      rw [ih hst, total_cons, total_cons, total_cons]
      dsimp only
      omega
    · rw [total_cons, ih h.2.2, total_cons s]

theorem total_join (h : Within lo l hi) : total (join l) = total l := by
  cases l with
  | nil => rfl
  | cons s l => exact total_joinFrom h

theorem isChain_joinFrom (s : Span) (l : List Span) :
    (joinFrom s l).IsChain fun x y => x.2 ≠ y.1 := by
  have hhead : ∀ (l : List Span) (s : Span), ∀ x ∈ (joinFrom s l).head?, x.1 = s.1 := by
    intro l
    induction l with
    | nil => simp [joinFrom]
    | cons t l ih =>
      intro s
      rw [joinFrom]
      split_ifs with hts
      · exact ih (s.1, t.2)
      · simp
  induction l generalizing s with
  | nil => exact .singleton s
  | cons t l ih =>
    rw [joinFrom]
    split_ifs with hts
    · exact ih (s.1, t.2)
    refine isChain_cons.mpr ⟨fun x hx => ?_, ih t⟩
    rw [hhead l t x hx]
    exact Ne.symm hts

theorem isChain_join (l : List Span) : (join l).IsChain fun x y => x.2 ≠ y.1 := by
  cases l with
  | nil => exact .nil
  | cons s l => exact isChain_joinFrom s l

end Spans
