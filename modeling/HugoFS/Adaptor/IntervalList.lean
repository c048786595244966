import HugoFS.Lib.Links
import HugoFS.Vfs.Buffer.Interval
import Mathlib.Data.List.TakeWhile
import Mathlib.Tactic.NormNum

/-!
# Interval lists in memory

`adaptor.IntervalList` as it is in memory: intervals linked in both directions, between two
sentinels that a link may bypass with nil. On well-formed lists the operations are those of
`Vfs.Buffer.IntervalList` on the intervals in their order.
-/

namespace HugoFS.Adaptor

open Links Spans Option Int64 Vfs.Buffer.IntervalList
open List hiding head tail
open Vfs.Buffer.IntervalList (leftRest rightRest)

inductive Ref
  | head
  | tail
  | node (n : ℕ)
deriving DecidableEq

def Ref.isNew (n : ℕ) : Ref → Bool
  | .node i => n ≤ i
  | _ => false

structure Interval where
  start : Int64
  stop : Int64

structure IntervalList extends Pointers Ref where
  intervals : ℕ → Interval
  headEnd : Int64
  allocated : ℕ

namespace IntervalList

open Ref

def newIntervalList : IntervalList where
  next r := if r = head then some tail else none
  prev r := if r = tail then some head else none
  intervals _ := ⟨0, 0⟩
  headEnd := Int64.minValue
  allocated := 0

def startOf (l : IntervalList) : Ref → Int64
  | head => Int64.minValue
  | tail => Int64.maxValue
  | node n => (l.intervals n).start

def endOf (l : IntervalList) : Ref → Int64
  | head => l.headEnd
  | tail => Int64.maxValue
  | node n => (l.intervals n).stop

def forward (l : IntervalList) : List Ref := nodes l.next tail l.allocated head

def total (l : IntervalList) : Int64 :=
  l.forward.foldl (fun t r => t + (l.endOf r - l.startOf r)) 0

/-! ### AddInterval -/

def leftStart (l : IntervalList) (start : Int64) (p : Ref) : Option Int64 :=
  ((l.next p).map l.startOf).filter (· < start)

def rightEnd (l : IntervalList) (stop : Int64) (q : Ref) : Option Int64 :=
  ((l.prev q).map l.endOf).filter (stop < ·)

def newNodes (l : IntervalList) (start stop : Int64) (p q : Ref) : List Ref :=
  ((l.leftStart start p).map fun _ => node (l.allocated + 1)).toList ++ node l.allocated ::
    ((l.rightEnd stop q).map fun _ => node (l.allocated + 2)).toList

def insertBetween (start stop : Int64) (p q : Ref) (l : IntervalList) : IntervalList :=
  let n := l.allocated
  let made : Pointers Ref := ⟨fun r => if r.isNew n then none else l.next r,
    fun r => if r.isNew n then none else l.prev r⟩
  { l with
    toPointers := connectAll head tail made (p :: (l.newNodes start stop p q ++ [q]))
    intervals := fun i =>
      if i = n then ⟨start, stop⟩
      else if i = n + 1 then ⟨(l.leftStart start p).getD 0, start⟩
      else if i = n + 2 then ⟨stop, (l.rightEnd stop q).getD 0⟩
      else l.intervals i
    allocated := n + 3 }

def addInterval (start stop : Int64) (l : IntervalList) : Option IntervalList :=
  if stop ≤ start then some l
  else
    match walk l.next (fun r => l.endOf r ≤ start) (l.allocated + 1) head,
      walk l.prev (fun r => stop ≤ l.startOf r) (l.allocated + 1) tail with
    | some p, some q => some (l.insertBetween start stop p q)
    | _, _ => none

/-! ### Well-formed lists -/

def pos (x : Int64) : ℕ := (x.toInt + 2 ^ 63).toNat

theorem coe_pos (x : Int64) : (pos x : ℤ) = x.toInt + 2 ^ 63 := by
  have := le_toInt x
  rw [pos, Int.toNat_of_nonneg]
  omega

theorem pos_lt (x : Int64) : pos x < 2 ^ 64 := by
  have := toInt_lt x
  have := coe_pos x
  omega

theorem pos_le_pos {x y : Int64} : pos x ≤ pos y ↔ x ≤ y := by
  rw [le_iff_toInt_le]
  have := coe_pos x
  have := coe_pos y
  omega

theorem pos_lt_pos {x y : Int64} : pos x < pos y ↔ x < y := by
  rw [lt_iff_toInt_lt]
  have := coe_pos x
  have := coe_pos y
  omega

theorem pos_inj {x y : Int64} : pos x = pos y ↔ x = y := by
  rw [← toInt_inj]
  have := coe_pos x
  have := coe_pos y
  omega

theorem exists_pos_eq {o : ℕ} (ho : o < 2 ^ 64) : ∃ x : Int64, pos x = o := by
  refine ⟨ofInt (o - 2 ^ 63), ?_⟩
  have := coe_pos (ofInt (o - 2 ^ 63))
  rw [toInt_ofInt_of_le] at this <;> omega

def span (l : IntervalList) (r : Ref) : Span := (pos (l.startOf r), pos (l.endOf r))

structure Visits (l : IntervalList) (rs : List Ref) : Prop where
  next : (head :: rs ++ [tail]).IsChain (Meets l.next tail)
  ordered : Within 0 (rs.map l.span) (2 ^ 64)
  allocated : ∀ r ∈ rs, ∃ n < l.allocated, r = node n

structure Lists (l : IntervalList) (rs : List Ref) : Prop extends l.Visits rs where
  prev : (tail :: rs.reverse ++ [head]).IsChain (Meets l.prev head)
  sentinel : l.headEnd = Int64.minValue

def WellFormed (l : IntervalList) : Prop := ∃ rs, l.Lists rs

def covered (l : IntervalList) : Set Int64 :=
  {x | ∃ r ∈ l.forward, l.startOf r ≤ x ∧ x < l.endOf r}

section Visits

variable {l : IntervalList} {rs : List Ref}

namespace Visits

section

variable (h : l.Visits rs)
include h

theorem not_mem {r : Ref} (hr : ∀ n < l.allocated, r ≠ node n) : r ∉ rs :=
  fun hmem => by
    obtain ⟨n, hn, rfl⟩ := h.allocated r hmem
    exact hr n hn rfl

theorem nodup_rs : rs.Nodup := .of_map _ h.ordered.nodup

theorem nodup : (head :: rs ++ [tail]).Nodup := by
  have hhead := h.not_mem (r := head) (by simp)
  have htail := h.not_mem (r := tail) (by simp)
  rw [nodup_append]
  refine ⟨nodup_cons.mpr ⟨hhead, h.nodup_rs⟩, nodup_singleton _, ?_⟩
  simp only [mem_cons, not_mem_nil, or_false]
  rintro r (rfl | hr) _ rfl heq
  · cases heq
  · exact htail (heq ▸ hr)

theorem length_le : rs.length ≤ l.allocated := by
  have hsub : rs ⊆ (List.range l.allocated).map node := by
    intro r hr
    obtain ⟨n, hn, rfl⟩ := h.allocated r hr
    exact mem_map_of_mem (mem_range.mpr hn)
  have := (h.nodup_rs.subperm hsub).length_le
  rwa [length_map, length_range] at this

theorem forward_eq : l.forward = rs :=
  nodes_eq h.next (h.not_mem (by simp)) h.length_le

theorem mem_covered (x : Int64) :
    x ∈ l.covered ↔ Covers (rs.map l.span) (pos x) := by
  rw [covered, h.forward_eq]
  simp [Covers, span, pos_le_pos, pos_lt_pos]

theorem ncard_covered : l.covered.ncard = Spans.total (rs.map l.span) := by
  have himage : pos '' l.covered = {o | Covers (rs.map l.span) o} := by
    ext o
    constructor
    · rintro ⟨x, hx, rfl⟩
      exact (h.mem_covered x).mp hx
    · intro ho
      obtain ⟨x, rfl⟩ := exists_pos_eq (h.ordered.covers ho).2
      exact ⟨x, (h.mem_covered x).mpr ho, rfl⟩
  rw [← h.ordered.ncard_covers, ← himage]
  exact (Set.ncard_image_of_injective _ fun x y => pos_inj.mp).symm

theorem toInt_total :
    l.total.toInt = (Spans.total (rs.map l.span) : ℤ).bmod (2 ^ 64) := by
  have hloop : ∀ (rs : List Ref) (t : Int64), (∀ r ∈ rs, l.startOf r < l.endOf r) →
      (rs.foldl (fun t r => t + (l.endOf r - l.startOf r)) t).toInt =
        (t.toInt + (Spans.total (rs.map l.span) : ℤ)).bmod (2 ^ 64) := by
    intro rs
    induction rs with
    | nil => intro t _; simp
    | cons r rs ih =>
      intro t hrs
      have hr := pos_lt_pos.mpr (hrs r mem_cons_self)
      have hlen : (((l.span r).2 - (l.span r).1 : ℕ) : ℤ) =
          (l.endOf r).toInt - (l.startOf r).toInt := by
        rw [span, Nat.cast_sub hr.le, coe_pos, coe_pos]
        omega
      rw [foldl_cons, ih _ fun r hr => hrs r (mem_cons_of_mem _ hr), map_cons,
        total_cons, Nat.cast_add, hlen, toInt_add, toInt_sub, ← Int.add_assoc]
      simp
  rw [total, h.forward_eq, hloop]
  · simp
  · intro r hr
    exact pos_lt_pos.mp (h.ordered.bounds (mem_map_of_mem hr)).2.1

theorem total_exact_iff :
    l.total.toInt = l.covered.ncard ↔ l.covered.ncard < 2 ^ 63 := by
  have hle := h.ordered.total_le
  rw [h.ncard_covered, h.toInt_total, Int.bmod_def]
  split_ifs <;> omega

end

end Visits

theorem Lists.links (h : l.Lists rs) :
    (head :: rs ++ [tail]).IsChain (Joined l.toPointers head tail) :=
  isChain_joined.mpr ⟨h.next, by simpa using h.prev⟩

theorem Visits.lists (h : l.Visits rs) (hsentinel : l.headEnd = minValue)
    (hlinks : (head :: rs ++ [tail]).IsChain (Joined l.toPointers head tail)) : l.Lists rs :=
  ⟨h, by simpa using (isChain_joined.mp hlinks).2, hsentinel⟩

end Visits

section Add

variable {l : IntervalList} {rs : List Ref} {s e : Int64}

theorem leftStart_eq {p : Ref} {m : List Ref} (hm : tail ∉ m)
    (h : (p :: m ++ [tail]).IsChain (Meets l.next tail)) :
    (l.leftStart s p).toList.map (fun x => (pos x, pos s)) = leftRest (pos s) (m.map l.span) := by
  cases m with
  | nil =>
    obtain h | ⟨-, h⟩ := (isChain_pair.mp h : Meets ..) <;>
      simp [leftStart, h, leftRest, startOf]
  | cons x m =>
    have hx : l.next p = some x :=
      (isChain_cons_cons.mp h).1.resolve_right fun hx => hm (hx.1 ▸ mem_cons_self)
    by_cases hxs : l.startOf x < s <;>
      simp [leftStart, hx, leftRest, span, hxs, pos_lt_pos, Option.filter]

theorem rightEnd_eq (hl : l.headEnd = minValue) {q : Ref} {m : List Ref}
    (hm : head ∉ m) (h : (q :: m ++ [head]).IsChain (Meets l.prev head)) :
    (l.rightEnd e q).toList.map (fun y => (pos e, pos y)) = rightRest (pos e) (m.map l.span) := by
  cases m with
  | nil =>
    obtain h | ⟨-, h⟩ := (isChain_pair.mp h : Meets ..) <;>
      simp [rightEnd, h, rightRest, endOf, hl]
  | cons y m =>
    have hy : l.prev q = some y :=
      (isChain_cons_cons.mp h).1.resolve_right fun hy => hm (hy.1 ▸ mem_cons_self)
    by_cases hye : e < l.endOf y <;>
      simp [rightEnd, hy, rightRest, span, hye, pos_lt_pos, Option.filter]

theorem span_insertBetween {p q r : Ref} (hr : ∃ n < l.allocated, r = node n) :
    (l.insertBetween s e p q).span r = l.span r := by
  obtain ⟨n, hn, rfl⟩ := hr
  have h0 : n ≠ l.allocated := by omega
  have h1 : n ≠ l.allocated + 1 := by omega
  have h2 : n ≠ l.allocated + 2 := by omega
  simp [span, startOf, endOf, insertBetween, h0, h1, h2]

theorem span_newNodes (l : IntervalList) (s e : Int64) (p q : Ref) :
    (l.newNodes s e p q).map (l.insertBetween s e p q).span =
      (l.leftStart s p).toList.map (fun x => (pos x, pos s)) ++ (pos s, pos e) ::
        (l.rightEnd e q).toList.map fun y => (pos e, pos y) := by
  cases h : l.leftStart s p <;> cases h' : l.rightEnd e q <;>
    simp [newNodes, span, startOf, endOf, insertBetween, h, h']

theorem mem_newNodes {p q r : Ref} (hr : r ∈ l.newNodes s e p q) :
    ∃ i, l.allocated ≤ i ∧ i < l.allocated + 3 ∧ r = node i := by
  simp only [newNodes, mem_append, mem_cons, mem_toList,
    map_eq_some_iff] at hr
  rcases hr with ⟨x, -, rfl⟩ | rfl | ⟨x, -, rfl⟩
  · exact ⟨_, by omega, by omega, rfl⟩
  · exact ⟨_, le_rfl, by omega, rfl⟩
  · exact ⟨_, by omega, by omega, rfl⟩

theorem nodup_newNodes (l : IntervalList) (s e : Int64) (p q : Ref) :
    (l.newNodes s e p q).Nodup := by
  cases h : l.leftStart s p <;> cases h' : l.rightEnd e q <;> simp [newNodes, h, h']

theorem Lists.links_insertBetween (h : l.Lists rs) {A B M N : List Ref} (hA : rs = A ++ M)
    (hB : rs.reverse = B ++ N) (hAB : ∀ r ∈ A, r ∉ B) :
    let l' := l.insertBetween s e (A.getLastD head) (B.getLastD tail)
    let new := l.newNodes s e (A.getLastD head) (B.getLastD tail)
    (head :: (A ++ (new ++ B.reverse)) ++ [tail]).IsChain (Joined l'.toPointers head tail) := by
  intro l' new
  have hnodup := h.nodup
  have hlinks := h.links
  have hsubB : ∀ r ∈ B, r ∈ rs := fun r hr =>
    mem_reverse.mp (hB ▸ mem_append_left _ hr)
  have hB' : rs = N.reverse ++ B.reverse := by rw [← reverse_append, ← hB, reverse_reverse]
  have hold : ∀ r ∈ head :: rs ++ [tail], ¬r.isNew l.allocated = true := by
    intro r hr
    simp only [mem_append, mem_cons, not_mem_nil, or_false] at hr
    rcases hr with (rfl | hr) | rfl
    · simp [isNew]
    · obtain ⟨n, hn, rfl⟩ := h.allocated r hr
      simpa [isNew] using hn
    · simp [isNew]
  have hnew : ∀ r ∈ new, r.isNew l.allocated = true := by
    intro r hr
    obtain ⟨i, hi, -, rfl⟩ := mem_newNodes hr
    simpa [isNew] using hi
  have hmade := isChain_congr hlinks (j := ⟨fun r => if r.isNew l.allocated then none else l.next r,
    fun r => if r.isNew l.allocated then none else l.prev r⟩)
    (fun r hr => if_neg (hold r (dropLast_subset _ hr)))
    fun r hr => if_neg (hold r (mem_of_mem_tail hr))
  have heq : head :: (A ++ (new ++ B.reverse)) ++ [tail] =
      head :: A ++ (new ++ (B.reverse ++ [tail])) := by simp
  rw [heq]
  refine isChain_insert ?_ ?_ ?_ (by simp [newNodes]) fun r hr => ?_
  · rw [hA, ← cons_append, append_assoc] at hmade
    exact hmade.left_of_append
  · rw [hB', ← cons_append, append_assoc] at hmade
    exact hmade.right_of_append
  · have hsubA : ∀ r ∈ A, r ∈ rs := fun r hr => hA ▸ mem_append_left _ hr
    have hnodupA : A.Nodup := ((hA ▸ h.nodup_rs : (A ++ M).Nodup)).of_append_left
    have hnodupB : B.Nodup := ((hB ▸ nodup_reverse.mpr h.nodup_rs : (B ++ N).Nodup)).of_append_left
    have hnodupN := nodup_newNodes l s e (A.getLastD head) (B.getLastD tail)
    simp only [nodup_append, nodup_cons, mem_append, mem_cons,
      mem_reverse, nodup_reverse] at hnodup hold ⊢
    grind
  · exact ⟨if_pos (hnew r hr), if_pos (hnew r hr)⟩

section

variable (h : l.Lists rs) (hs : minValue < s) (hse : s < e) (he : e < maxValue)
include h hs hse he

theorem addInterval_lists : ∃ l' rs', l.addInterval s e = some l' ∧ l'.Lists rs' ∧
      rs'.map l'.span =
        ((⟨rs.map l.span, []⟩ : Vfs.Buffer.IntervalList).addInterval (pos s) (pos e)).items ∧
      ∃ r ∈ rs', l'.startOf r = s ∧ l'.endOf r = e := by
  rw [← pos_lt_pos] at hs hse he
  let A := rs.takeWhile fun r => l.endOf r ≤ s
  let M := rs.dropWhile fun r => l.endOf r ≤ s
  let B := rs.reverse.takeWhile fun r => e ≤ l.startOf r
  let N := rs.reverse.dropWhile fun r => e ≤ l.startOf r
  have hA : rs = A ++ M := takeWhile_append_dropWhile.symm
  have hB : rs.reverse = B ++ N := takeWhile_append_dropWhile.symm
  have hsubA : ∀ r ∈ A, r ∈ rs := fun r hr => hA ▸ mem_append_left _ hr
  have hsubB : ∀ r ∈ B, r ∈ rs := fun r hr =>
    mem_reverse.mp (hB ▸ mem_append_left _ hr)
  -- an interval of the prefix ends before one of the suffix starts
  have hAB : ∀ r ∈ A, r ∉ B := by
    intro r hr hr'
    have hend : l.endOf r ≤ s := by simpa using mem_takeWhile_imp hr
    have hstart : e ≤ l.startOf r := by simpa using mem_takeWhile_imp hr'
    rw [← pos_le_pos] at hend hstart
    have hlt := (h.ordered.bounds (mem_map_of_mem (f := l.span) (hsubA r hr))).2.1
    simp only [span] at hlt
    omega
  have hwalks : l.addInterval s e =
      some (l.insertBetween s e (A.getLastD head) (B.getLastD tail)) := by
    have hlen := h.length_le
    have hmax : ¬maxValue ≤ s := by
      rw [← pos_le_pos]
      omega
    have hmin : ¬e ≤ minValue := by
      rw [← pos_le_pos]
      omega
    rw [addInterval, if_neg (by rw [← pos_le_pos]; omega),
      walk_eq h.next (h.not_mem (by simp)) (by simpa [endOf] using hmax) (by omega),
      walk_eq h.prev (by simpa using h.not_mem (by simp)) (by simpa [startOf] using hmin)
        (by rw [length_reverse]; omega)]
  have hleft := leftStart_eq (l := l) (s := s) (p := A.getLastD head) (m := M)
    (fun hm => h.not_mem (by simp) (hA ▸ mem_append_right A hm))
    (isChain_drop (hA ▸ h.next))
  have hright := rightEnd_eq (e := e) (q := B.getLastD tail) (m := N) h.sentinel
    (fun hm => h.not_mem (by simp)
      (mem_reverse.mp (hB ▸ mem_append_right B hm))) (isChain_drop (hB ▸ h.prev))
  generalize hp : A.getLastD head = p at hwalks hleft
  generalize hq : B.getLastD tail = q at hwalks hright
  have hlinks := hp ▸ hq ▸ h.links_insertBetween hA hB hAB (s := s) (e := e)
  have hspan : ∀ r ∈ rs, (l.insertBetween s e p q).span r = l.span r := fun r hr =>
    span_insertBetween (h.allocated r hr)
  have hspans : (A ++ (l.newNodes s e p q ++ B.reverse)).map (l.insertBetween s e p q).span =
      ((⟨rs.map l.span, []⟩ : Vfs.Buffer.IntervalList).addInterval (pos s) (pos e)).items := by
    rw [Vfs.Buffer.IntervalList.addInterval, if_neg (by omega)]
    simp only [linked_eq, back, nil_append,
      ← map_reverse, takeWhile_map, dropWhile_map, Function.comp_def, span,
      pos_le_pos]
    change _ = A.map l.span ++ leftRest (pos s) (M.map l.span) ++ _ ++
      rightRest (pos e) (N.map l.span) ++ B.reverse.map l.span
    rw [← hleft, ← hright, map_append, map_append, span_newNodes,
      map_congr_left fun r hr => hspan r (hsubA r hr),
      map_congr_left fun r hr => hspan r (hsubB r (mem_reverse.mp hr))]
    simp
  refine ⟨_, A ++ (l.newNodes s e p q ++ B.reverse), hwalks,
    Visits.lists ⟨(isChain_joined.mp hlinks).1, ?_, ?_⟩ h.sentinel hlinks, hspans,
    node l.allocated, by simp [newNodes], by simp [insertBetween, startOf, endOf]⟩
  · rw [hspans]
    exact (Vfs.Buffer.IntervalList.Proper.addInterval ⟨h.ordered, rfl⟩ hse (pos_lt e).le).within
  · intro r hr
    simp only [mem_append, mem_reverse] at hr
    rcases hr with hr | hr | hr
    · obtain ⟨i, hi, rfl⟩ := h.allocated r (hsubA r hr)
      exact ⟨i, Nat.lt_add_right 3 hi, rfl⟩
    · obtain ⟨i, -, hi, rfl⟩ := mem_newNodes hr
      exact ⟨i, hi, rfl⟩
    · obtain ⟨i, hi, rfl⟩ := h.allocated r (hsubB r hr)
      exact ⟨i, Nat.lt_add_right 3 hi, rfl⟩

theorem addInterval_covered : ∃ l' rs', l.addInterval s e = some l' ∧ l'.Lists rs' ∧
      l'.covered = l.covered ∪ {x | s ≤ x ∧ x < e} ∧ ∃ r ∈ rs', l'.startOf r = s ∧ l'.endOf r = e := by
  obtain ⟨l', rs', hadd, h', hspans, hr⟩ := addInterval_lists h hs hse he
  refine ⟨l', rs', hadd, h', ?_, hr⟩
  ext x
  rw [h'.mem_covered, hspans, covers_addInterval ⟨h.ordered, rfl⟩
    (pos_lt_pos.mpr hse), pos_le_pos, pos_lt_pos, or_comm, ← h.mem_covered]
  rfl

end

def AddsExactly (l : IntervalList) (s e : Int64) : Prop :=
  ∃ l', l.addInterval s e = some l' ∧ l'.WellFormed ∧
    l'.covered = l.covered ∪ {x | s ≤ x ∧ x < e} ∧
    (∃ r ∈ l'.forward, l'.startOf r = s ∧ l'.endOf r = e) ∧ l'.total.toInt = l'.covered.ncard

/-- `AddInterval` does what is asked of it, as long as the number of covered offsets is a
64-bit integer. -/
theorem addInterval_exact_iff (h : l.WellFormed) (hs : Int64.minValue < s) (hse : s < e)
    (he : e < Int64.maxValue) :
    l.AddsExactly s e ↔ (l.covered ∪ {x | s ≤ x ∧ x < e}).ncard < 2 ^ 63 := by
  obtain ⟨rs, h⟩ := h
  obtain ⟨l', rs', hadd, h', hcovered, r, hr, hrse⟩ := addInterval_covered h hs hse he
  rw [← hcovered, ← h'.total_exact_iff]
  constructor
  · rintro ⟨l'', hadd', -, -, -, htotal⟩
    obtain rfl := some.inj (hadd.symm.trans hadd')
    exact htotal
  · intro htotal
    exact ⟨l', hadd, ⟨rs', h'⟩, hcovered, ⟨r, h'.forward_eq ▸ hr, hrse⟩, htotal⟩

end Add

def added (spans : List (Int64 × Int64)) : Option IntervalList :=
  spans.foldlM (fun l s => l.addInterval s.1 s.2) newIntervalList

theorem lists_newIntervalList : newIntervalList.Lists [] :=
  ⟨⟨isChain_pair.mpr (.inl rfl), Nat.zero_le _, by simp⟩, isChain_pair.mpr (.inl rfl),
    rfl⟩

theorem exists_added (spans : List (Int64 × Int64))
    (h : ∀ s ∈ spans, minValue < s.1 ∧ s.1 < s.2 ∧ s.2 < maxValue) :
    ∃ l, added spans = some l ∧ l.WellFormed := by
  have hfold : ∀ l : IntervalList, l.WellFormed →
      ∃ l', spans.foldlM (fun l s => l.addInterval s.1 s.2) l = some l' ∧ l'.WellFormed := by
    induction spans with
    | nil => exact fun l hl => ⟨l, rfl, hl⟩
    | cons s spans ih =>
      rintro l ⟨rs, hl⟩
      obtain ⟨h1, h2, h3⟩ := h s mem_cons_self
      obtain ⟨l', rs', hadd, hl', -⟩ := addInterval_covered hl h1 h2 h3
      rw [foldlM_cons, hadd]
      exact ih (fun s hs => h s (mem_cons_of_mem _ hs)) l' ⟨rs', hl'⟩
  exact hfold _ ⟨[], lists_newIntervalList⟩

/-- `[2, 12)` splits the first and the last of three intervals, and the second one is dropped. -/
theorem addInterval_exact_sample :
    ∃ l, added [(0, 4), (6, 8), (10, 14)] = some l ∧ l.WellFormed ∧ l.AddsExactly 2 12 := by
  obtain ⟨l, hl, hwf⟩ := exists_added [(0, 4), (6, 8), (10, 14)] (by
    simp only [mem_cons, not_mem_nil, or_false]
    rintro s (rfl | rfl | rfl) <;> decide)
  have hsize : ((added [(0, 4), (6, 8), (10, 14)]).bind (addInterval 2 12)).map (fun l =>
      Spans.total (l.forward.map l.span)) = some 14 := by decide +kernel
  refine ⟨l, hl, hwf, (addInterval_exact_iff hwf (by decide) (by decide) (by decide)).mpr ?_⟩
  obtain ⟨rs, h⟩ := hwf
  obtain ⟨l', rs', hadd, h', hcovered, -⟩ :=
    addInterval_covered (s := 2) (e := 12) h (by decide) (by decide) (by decide)
  rw [hl, bind_some, hadd, map_some, some.injEq, h'.forward_eq, ← h'.ncard_covered] at hsize
  rw [← hcovered, hsize]
  norm_num

/-- The covered offsets are those from -5 * 10 ^ 18 to 5 * 10 ^ 18, more than an `int64` counts. -/
theorem total_wraps : ∃ l, added [(-5000000000000000000, -1), (0, 1), (2, 5000000000000000000)] =
    some l ∧ l.WellFormed ∧ ¬l.AddsExactly (-2) 3 := by
  obtain ⟨l, hl, hwf⟩ := exists_added [(-5000000000000000000, -1), (0, 1), (2, 5000000000000000000)]
    (by
      simp only [mem_cons, not_mem_nil, or_false]
      rintro s (rfl | rfl | rfl) <;> decide)
  refine ⟨l, hl, hwf, ?_⟩
  rintro ⟨l', hadd, -, -, -, htotal⟩
  have hvalue : ((added [(-5000000000000000000, -1), (0, 1), (2, 5000000000000000000)]).bind
      (addInterval (-2) 3)).map total = some (-8446744073709551616) := by decide +kernel
  rw [hl, bind_some, hadd, map_some, some.injEq] at hvalue
  have hint : (-8446744073709551616 : Int64).toInt = -8446744073709551616 := by decide
  rw [hvalue, hint] at htotal
  omega

end IntervalList

end HugoFS.Adaptor
