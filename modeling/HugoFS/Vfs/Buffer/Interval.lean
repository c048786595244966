import HugoFS.Lib.Spans

/-!
# Interval lists

`adaptor.IntervalList`, the record of what was written into a block. Forwards and backwards it is
the same list, until `Merge` joins the last interval with its neighbour: the tail then still
points to the interval that was joined.
-/

namespace HugoFS.Vfs.Buffer

open Spans List Nat

structure IntervalList where
  items : List Span
  stale : List Span

namespace IntervalList

def empty : IntervalList := ⟨[], []⟩

def back (l : IntervalList) : List Span := l.stale ++ l.items.reverse

def leftRest (s : ℕ) : List Span → List Span
  | x :: _ => if x.1 < s then [(x.1, s)] else []
  | [] => []

def rightRest (e : ℕ) : List Span → List Span
  | y :: _ => if e < y.2 then [(e, y.2)] else []
  | [] => []

def linked (l : IntervalList) (passed : List Span) : List Span :=
  if l.stale.length < passed.length then (passed.drop l.stale.length).reverse
  else passed.getLast?.toList

def addInterval (s e : ℕ) (l : IntervalList) : IntervalList :=
  if e ≤ s then l
  else
    let passed := l.back.takeWhile fun y => e ≤ y.1
    { items := l.items.takeWhile (fun x => x.2 ≤ s) ++
        leftRest s (l.items.dropWhile fun x => x.2 ≤ s) ++ [(s, e)] ++
        rightRest e (l.back.dropWhile fun y => e ≤ y.1) ++ l.linked passed
      stale := if l.stale.length < passed.length then l.stale else passed.dropLast }

def merge (l : IntervalList) : IntervalList :=
  { items := join l.items
    stale := l.stale ++
      if (join l.items).getLast? = l.items.getLast? then [] else l.items.getLast?.toList }

def total (l : IntervalList) : ℕ := Spans.total l.items

def copy {β : Type} (size : ℕ) (l : IntervalList) (dst src : ℕ → β) : ℕ → β := fun o =>
  if Covers (l.merge.items.filter fun x => x.2 < size) o then src o else dst o

/-! ### Lists that were not merged -/

structure Proper (size : ℕ) (l : IntervalList) : Prop where
  within : Within 0 l.items size
  stale : l.stale = []

theorem proper_empty (size : ℕ) : Proper size empty := ⟨zero_le size, rfl⟩

theorem takeWhile_append_leftRest {lo hi : ℕ} {l : List Span} (h : Within lo l hi) (s : ℕ) :
    l.takeWhile (fun x => x.2 ≤ s) ++ leftRest s (l.dropWhile fun x => x.2 ≤ s) = below s l := by
  induction l generalizing lo with
  | nil => rfl
  | cons x l ih =>
    have h1 := h.2.1
    rw [below_cons]
    by_cases hx : x.2 ≤ s
    · rw [takeWhile_cons_of_pos (by simpa using hx),
        dropWhile_cons_of_pos (by simpa using hx), if_pos (by omega), min_eq_left hx,
        cons_append, ih h.2.2]
    -- the first interval that ends after `s` is cut, the rest lies above
    rw [takeWhile_cons_of_neg (by simpa using hx),
      dropWhile_cons_of_neg (by simpa using hx), leftRest,
      h.2.2.below_eq_nil (by omega), min_eq_right (by omega)]
    rfl

theorem rightRest_append_takeWhile {lo hi : ℕ} {l : List Span} (h : Within lo l hi) (e : ℕ) :
    rightRest e (l.reverse.dropWhile fun y => e ≤ y.1) ++
      (l.reverse.takeWhile fun y => e ≤ y.1).reverse = above e l := by
  -- the list is searched from its end
  induction l using List.reverseRecOn generalizing hi with
  | nil => rfl
  | append_singleton l x ih =>
    obtain ⟨hl, h1, -⟩ := h.of_snoc
    have habove : above e (l ++ [x]) = above e l ++ above e [x] := filterMap_append
    rw [reverse_append, reverse_singleton, singleton_append, habove, above_cons]
    by_cases hx : e ≤ x.1
    · rw [takeWhile_cons_of_pos (by simpa using hx),
        dropWhile_cons_of_pos (by simpa using hx), reverse_cons, ← append_assoc,
        ih hl, if_pos (by omega), max_eq_right hx]
      rfl
    rw [takeWhile_cons_of_neg (by simpa using hx),
      dropWhile_cons_of_neg (by simpa using hx), rightRest,
      hl.above_eq_nil (by omega), max_eq_left (by omega), reverse_nil,
      append_nil, nil_append]
    rfl

theorem linked_eq {l : IntervalList} (h : l.stale = []) (passed : List Span) :
    l.linked passed = passed.reverse := by
  rw [linked, h]
  cases passed with
  | nil => rfl
  | cons x passed => simp

theorem addInterval_items {size : ℕ} {l : IntervalList} (h : l.Proper size) {s e : ℕ}
    (hse : s < e) : (l.addInterval s e).items = below s l.items ++ [(s, e)] ++ above e l.items := by
  have hback : l.back = l.items.reverse := by rw [back, h.stale, nil_append]
  rw [addInterval, if_neg (by omega), hback]
  dsimp only
  rw [linked_eq h.stale, takeWhile_append_leftRest h.within, append_assoc,
    rightRest_append_takeWhile h.within]

section Add

variable {size : ℕ} {l : IntervalList} {s e : ℕ}

theorem Proper.addInterval (h : l.Proper size) (hse : s < e) (he : e ≤ size) :
    (l.addInterval s e).Proper size := by
  refine ⟨?_, ?_⟩
  · rw [addInterval_items h hse]
    have hmid : Within s [(s, e)] e := ⟨le_refl s, hse, le_refl e⟩
    exact ((h.within.below (zero_le s)).append hmid).append (h.within.above he)
  · rw [IntervalList.addInterval, if_neg (by omega)]
    dsimp only
    rw [h.stale]
    -- without joined intervals the search passes items only
    split
    · rfl
    next hlen =>
      rw [length_nil, not_lt, le_zero, length_eq_zero_iff] at hlen
      rw [hlen, dropLast_nil]

theorem covers_addInterval (h : l.Proper size) (hse : s < e) (o : ℕ) :
    Covers (l.addInterval s e).items o ↔ s ≤ o ∧ o < e ∨ Covers l.items o := by
  rw [addInterval_items h hse, covers_append, covers_append, covers_cons, covers_below, covers_above]
  constructor
  · rintro ((ho | ho | ho) | ho)
    · exact .inr ho.1
    · exact .inl ho
    · exact absurd ho (covers_nil o)
    · exact .inr ho.1
  · rintro (ho | ho)
    · exact .inl (.inr (.inl ho))
    · by_cases hs : o < s
      · exact .inl (.inl ⟨ho, hs⟩)
      by_cases he : e ≤ o
      · exact .inr ⟨ho, he⟩
      · exact .inl (.inr (.inl ⟨by omega, by omega⟩))

theorem total_addInterval_le (h : l.Proper size) (hse : s < e) :
    (l.addInterval s e).total ≤ l.total + (e - s) := by
  have hcut := total_below_add_above (le_of_lt hse) l.items
  rw [total, addInterval_items h hse, total_append, total_append, total_cons, total_nil, total]
  dsimp only
  omega

end Add

variable {l : IntervalList} {size : ℕ}

section

variable (h : Within 0 l.items size)
include h

theorem covers_merge (o : ℕ) :
    Covers l.merge.items o ↔ Covers l.items o := covers_join h o

theorem total_merge :
    l.merge.total = l.total := total_join h

theorem copy_eq {β : Type}
    {hi : ℕ} (hhi : ∀ o, Covers l.items o → o < hi) (hlt : hi < size) (dst src : ℕ → β) (o : ℕ) :
    l.copy size dst src o = if Covers l.items o then src o else dst o := by
  have hall : l.merge.items.filter (fun x => x.2 < size) = l.merge.items := by
    refine filter_eq_self.mpr fun x hx => ?_
    have hb := (h.join : Within 0 l.merge.items size).bounds hx
    -- the last offset of the interval is covered
    have hlast : Covers l.merge.items (x.2 - 1) := ⟨x, hx, by omega, by omega⟩
    have := hhi _ ((covers_merge h _).mp hlast)
    simp only [decide_eq_true_eq]
    omega
  rw [copy, hall]
  simp only [covers_merge h]

theorem copy_of_not_covers {β : Type}
    {dst src : ℕ → β} {o : ℕ} (ho : ¬Covers l.items o) : l.copy size dst src o = dst o := by
  rw [copy, if_neg]
  rintro ⟨x, hx, hxo⟩
  exact ho ((covers_merge h o).mp ⟨x, (mem_filter.mp hx).1, hxo⟩)

end

end IntervalList

end HugoFS.Vfs.Buffer
