import HugoFS.Adaptor.IntervalList

/-!
# Merging and copying interval lists

`Merge` joins intervals that touch; it leaves `tail.Prev` behind when it joins the last one and
that has no `Next`. `Copy` merges first, and then leaves out an interval that ends with the
slices.
-/

namespace HugoFS.Adaptor.IntervalList

open Links Spans Nat Int64
open List hiding head tail
open Ref

/-! ### Merge -/

def setEnd (l : IntervalList) (x : Int64) : Ref → IntervalList
  | head => { l with headEnd := x }
  | tail => l
  | node n => { l with
      intervals := fun i => if i = n then ⟨(l.intervals n).start, x⟩ else l.intervals i }

def joinNext (l : IntervalList) (a p : Ref) : IntervalList :=
  { l.setEnd (l.endOf p) a with toPointers := bypass l.toPointers a p }

def mergeLoop : ℕ → Ref → Option Ref → IntervalList → Option IntervalList
  | _, _, none, l => some l
  | 0, _, some _, _ => none
  | k + 1, a, some p, l =>
    if p = tail then some l
    else if l.startOf p = l.endOf a then mergeLoop k a (l.next p) (l.joinNext a p)
    else mergeLoop k p (l.next p) l

def merge (l : IntervalList) : Option IntervalList :=
  mergeLoop (l.allocated + 1) head (l.next head) l

def Frayed (l : IntervalList) : Ref → List Ref → Prop
  | _, [] => False
  | a, [x] => l.startOf x = l.endOf a ∧ l.next x = none
  | _, x :: y :: m => l.Frayed x (y :: m)

structure Merged (l : IntervalList) (P : List Ref) (a : Ref) (m : List Ref) (l' : IntervalList)
    (m' : List Ref) : Prop where
  next : (P ++ a :: (m' ++ [tail])).IsChain (Meets l'.next tail)
  sublist : m'.Sublist m
  spans : (P ++ a :: m').map l'.span = P.map l.span ++ joinFrom (l.span a) (m.map l.span)
  allocated : l'.allocated = l.allocated
  links : (P ++ a :: (m ++ [tail])).IsChain (Joined l.toPointers head tail) → ¬l.Frayed a m →
    (P ++ a :: (m' ++ [tail])).IsChain (Joined l'.toPointers head tail)
  stale : (P ++ a :: (m ++ [tail])).IsChain (Joined l.toPointers head tail) → l.Frayed a m →
    ¬l'.WellFormed

section Merge

variable {l l' : IntervalList} {a x r : Ref} {P m rs : List Ref}

theorem startOf_joinNext (l : IntervalList) (a x : Ref) : (l.joinNext a x).startOf = l.startOf := by
  funext r
  cases r with
  | head => rfl
  | tail => rfl
  | node n =>
    cases a with
    | head => rfl
    | tail => rfl
    | node i =>
      by_cases h : n = i
      · simp [startOf, joinNext, setEnd, h]
      · simp [startOf, joinNext, setEnd, h]

theorem endOf_joinNext_of_ne (hr : r ≠ a) : (l.joinNext a x).endOf r = l.endOf r := by
  cases a <;> cases r <;> first | rfl | exact absurd rfl hr | skip
  rename_i i n
  have hne : n ≠ i := fun h => hr (h ▸ rfl)
  simp [endOf, joinNext, setEnd, hne]

theorem endOf_joinNext_self (ha : a ≠ tail) : (l.joinNext a x).endOf a = l.endOf x := by
  cases a with
  | head => rfl
  | tail => exact absurd rfl ha
  | node n => simp [endOf, joinNext, setEnd]

theorem allocated_joinNext (l : IntervalList) (a x : Ref) :
    (l.joinNext a x).allocated = l.allocated := by
  cases a <;> rfl

theorem span_joinNext_of_ne (hr : r ≠ a) : (l.joinNext a x).span r = l.span r := by
  rw [span, span, startOf_joinNext, endOf_joinNext_of_ne hr]

theorem frayed_congr (hstart : l'.startOf = l.startOf)
    (hsame : ∀ r ∈ a :: m, l'.endOf r = l.endOf r ∧ l'.next r = l.next r) :
    l'.Frayed a m ↔ l.Frayed a m := by
  induction m generalizing a with
  | nil => rfl
  | cons x m ih =>
    cases m with
    | nil => rw [Frayed, Frayed, hstart, (hsame a (by simp)).1, (hsame x (by simp)).2]
    | cons y m => exact ih fun r hr => hsame r (mem_cons_of_mem _ hr)

theorem frayed_joinNext (ha : a ≠ tail) (hne : ∀ r ∈ m, r ≠ a)
    (hend : ¬(m = [] ∧ l.next x = none)) :
    (l.joinNext a x).Frayed a m ↔ l.Frayed a (x :: m) := by
  cases m with
  | nil => exact ⟨False.elim, fun h => hend ⟨rfl, h.2⟩⟩
  | cons y m =>
    have hy : (l.joinNext a x).next y = l.next y := if_neg (hne y mem_cons_self)
    cases m with
    | nil => rw [Frayed, Frayed, Frayed, startOf_joinNext, endOf_joinNext_self ha, hy]
    | cons z m =>
      change (l.joinNext a x).Frayed y (z :: m) ↔ l.Frayed y (z :: m)
      exact frayed_congr (startOf_joinNext l a x) fun r hr =>
        ⟨endOf_joinNext_of_ne (hne r hr), if_neg (hne r hr)⟩

theorem links_joinNext (hnodup : (P ++ a :: x :: (m ++ [tail])).Nodup)
    (hend : ¬(m = [] ∧ l.next x = none))
    (h : (P ++ a :: x :: (m ++ [tail])).IsChain (Joined l.toPointers head tail)) :
    (P ++ a :: (m ++ [tail])).IsChain (Joined (l.joinNext a x).toPointers head tail) := by
  cases m with
  | nil =>
    obtain ⟨-, -, hx⟩ := isChain_append_cons_cons.mp h
    have hmeets : Meets l.next tail x tail := (isChain_pair.mp hx).1
    exact isChain_bypass hnodup (hmeets.resolve_right fun hx => hend ⟨rfl, hx.2⟩) h
  | cons y m =>
    obtain ⟨-, -, hx⟩ := isChain_append_cons_cons.mp h
    have hy : y ≠ tail := by
      simp only [nodup_append, nodup_cons, mem_append, mem_cons] at hnodup
      grind
    exact isChain_bypass hnodup
      ((isChain_cons_cons.mp hx).1.1.resolve_right fun hx => hy hx.1) h

theorem not_wellFormed_of_stale (hx : x ≠ head) (hxt : x ≠ tail) (htail : l.prev tail = some x)
    (hxa : Meets l.prev head x a) (ha : l.next a = none) : ¬l.WellFormed := by
  rintro ⟨rs, h⟩
  have hlinks : (tail :: rs.reverse ++ [head]).IsChain fun b c => Joined l.toPointers head tail c b := by
    have := isChain_reverse.mpr h.links
    simpa using this
  cases hrs : rs.reverse with
  | nil =>
    rw [hrs] at hlinks
    have hmeets : Meets l.prev head tail head := (isChain_pair.mp hlinks).2
    rw [Meets, htail] at hmeets
    simp [hx] at hmeets
  | cons y ys =>
    rw [hrs, cons_append, cons_append, isChain_cons_cons] at hlinks
    obtain ⟨⟨-, hy⟩, hlinks⟩ := hlinks
    have hxy : y = x := by
      rw [Meets, htail] at hy
      simpa [eq_comm] using hy
    -- the node before `x` is `a`, from which no link leads to `x`
    obtain ⟨z, zs, hz⟩ : ∃ z zs, ys ++ [head] = z :: zs :=
      exists_cons_of_ne_nil (by simp)
    rw [hxy, hz, isChain_cons_cons] at hlinks
    obtain ⟨⟨hnext, hprev⟩, -⟩ := hlinks
    have hza : z = a := by
      unfold Meets at hxa hprev
      grind
    rw [hza, Meets, ha] at hnext
    simp [hxt] at hnext

theorem mergeLoop_merged {k : ℕ} (hnodup : (P ++ a :: (m ++ [tail])).Nodup) (hhead : head ∉ m)
    (hnext : (P ++ a :: (m ++ [tail])).IsChain (Meets l.next tail)) (hk : m.length < k) :
    ∃ l' m', mergeLoop k a (l.next a) l = some l' ∧ l.Merged P a m l' m' := by
  induction m generalizing P a l k with
  | nil =>
    obtain ⟨k, rfl⟩ : ∃ j, k = j + 1 := ⟨k - 1, by omega⟩
    refine ⟨l, [], ?_, hnext, .slnil, by simp [joinFrom], rfl, fun h _ => h, fun _ h => h.elim⟩
    have hmeets : Meets l.next tail a tail := (isChain_append_cons_cons.mp hnext).2.1
    obtain h | ⟨-, h⟩ := hmeets <;> simp [mergeLoop, h]
  | cons x m ih =>
    obtain ⟨k, rfl⟩ : ∃ j, k = j + 1 := ⟨k - 1, by rw [length_cons] at hk; omega⟩
    have hk' : m.length < k := by
      rw [length_cons] at hk
      omega
    rw [mem_cons, not_or] at hhead
    have hfresh := hnodup
    simp only [nodup_append, nodup_cons, mem_cons, cons_append,
      mem_append] at hfresh
    have hx : x ≠ tail := by grind
    have ha : a ≠ tail := by grind
    have hmeets : Meets l.next tail a x := (isChain_append_cons_cons.mp hnext).2.1
    rw [hmeets.resolve_right fun h => hx h.1]
    simp only [mergeLoop, if_neg hx]
    by_cases htouch : l.startOf x = l.endOf a
    · have hneP : ∀ r ∈ P, r ≠ a := by grind
      have hnem : ∀ r ∈ m, r ≠ a := by grind
      have hafter : (l.joinNext a x).next a = l.next x := if_pos rfl
      have hnext' : (P ++ a :: (m ++ [tail])).IsChain (Meets (l.joinNext a x).next tail) :=
        isChain_bypass_next hnodup hnext
      obtain ⟨l', m', hloop, hm⟩ := ih
        (hnodup.sublist (.append_left (.cons_cons a (sublist_cons_self x _)) P)) hhead.2 hnext' hk'
      have hspan : (l.joinNext a x).span a = ((l.span a).1, (l.span x).2) := by
        rw [span, startOf_joinNext, endOf_joinNext_self ha]
        rfl
      rw [if_pos htouch, ← hafter]
      refine ⟨l', m', hloop, hm.next, hm.sublist.cons x, ?_,
        hm.allocated.trans (allocated_joinNext l a x), fun hlinks hf => ?_, fun hlinks hf => ?_⟩
      · have htouch' : (l.span x).1 = (l.span a).2 := congrArg pos htouch
        rw [hm.spans, hspan, map_congr_left fun r hr => span_joinNext_of_ne (hneP r hr),
          map_congr_left fun r hr => span_joinNext_of_ne (hnem r hr), map_cons, joinFrom,
          if_pos htouch']
      · have hend : ¬(m = [] ∧ l.next x = none) := by
          rintro ⟨rfl, h⟩
          exact hf ⟨htouch, h⟩
        exact hm.links (links_joinNext hnodup hend hlinks) (mt (frayed_joinNext ha hnem hend).mp hf)
      · by_cases hend : m = [] ∧ l.next x = none
        · obtain ⟨rfl, hxnext⟩ := hend
          rw [hafter, hxnext] at hloop
          obtain rfl : l.joinNext a x = l' := by simpa [mergeLoop] using hloop
          obtain ⟨-, ⟨-, hxa⟩, hxt⟩ := isChain_append_cons_cons.mp hlinks
          have htail : Meets l.prev head tail x := (isChain_pair.mp hxt).2
          have hprev : (l.joinNext a x).prev = l.prev := by
            funext r
            exact if_neg (by simp [hxnext])
          refine not_wellFormed_of_stale (Ne.symm hhead.1) hx (hprev ▸ ?_) (hprev ▸ hxa)
            (hafter.trans hxnext)
          exact htail.resolve_right fun h => hhead.1 h.1.symm
        · exact hm.stale (links_joinNext hnodup hend hlinks) ((frayed_joinNext ha hnem hend).mpr hf)
    · rw [if_neg htouch]
      obtain ⟨l', m', hloop, hm⟩ := ih (P := P ++ [a]) (by simpa using hnodup) hhead.2
        (by simpa using hnext) hk'
      have hfrayed : l.Frayed a (x :: m) ↔ l.Frayed x m := by
        cases m with
        | nil => exact ⟨fun h => htouch h.1, False.elim⟩
        | cons y m => rfl
      refine ⟨l', x :: m', hloop, by simpa using hm.next, hm.sublist.cons_cons x, ?_, hm.allocated,
        fun hlinks hf => ?_, fun hlinks hf => hm.stale (by simpa using hlinks) (hfrayed.mp hf)⟩
      · have hspans := hm.spans
        have hapart : (l.span x).1 ≠ (l.span a).2 := fun h => htouch (pos_inj.mp h)
        rw [map_cons, joinFrom, if_neg hapart]
        simpa using hspans
      · simpa using hm.links (by simpa using hlinks) (mt hfrayed.mpr hf)

theorem Visits.merge (h : l.Visits rs) (hl : l.headEnd = minValue)
    (hmin : minValue ∉ l.covered) :
    ∃ l' rs', l.merge = some l' ∧ l'.Visits rs' ∧ rs'.map l'.span = join (rs.map l.span) ∧
      l'.headEnd = minValue ∧ l.Merged [] head rs l' rs' := by
  obtain ⟨l', rs', hloop, hm⟩ := mergeLoop_merged (P := []) (a := head) h.nodup
    (h.not_mem (by simp)) h.next (lt_succ_of_le h.length_le)
  have hspans := hm.spans
  have hjoin : joinFrom (l.span head) (rs.map l.span) = l.span head :: join (rs.map l.span) := by
    cases rs with
    | nil => rfl
    | cons x rs =>
      have hx : (l.span x).1 ≠ (l.span head).2 := by
        intro heq
        refine hmin ((h.mem_covered _).mpr ?_)
        rw [map_cons, covers_cons]
        have hlt := h.ordered.2.1
        simp only [span, endOf, hl] at heq hlt ⊢
        exact .inl ⟨heq.le, heq ▸ hlt⟩
      rw [map_cons, joinFrom, if_neg hx]
      rfl
  rw [hjoin, nil_append, map_cons, map_nil, nil_append, cons.injEq] at hspans
  refine ⟨l', rs', hloop, ⟨hm.next, hspans.2 ▸ h.ordered.join, fun r hr => ?_⟩, hspans.2, ?_, hm⟩
  · rw [hm.allocated]
    exact h.allocated r (hm.sublist.subset hr)
  · exact (pos_inj.mp (congrArg Prod.snd hspans.1)).trans hl

theorem Lists.endOf_head_merge (h : l.Lists rs)
    (hmin : minValue ∈ l.covered) (hmerge : l.merge = some l') :
    minValue < l'.endOf head := by
  obtain ⟨l'', rs', hloop, hm⟩ := mergeLoop_merged (P := []) (a := head) h.nodup
    (h.not_mem (by simp)) h.next (lt_succ_of_le h.length_le)
  obtain rfl := Option.some.inj (hloop.symm.trans hmerge)
  have hcovers := (h.mem_covered _).mp hmin
  have hzero : pos minValue = 0 := rfl
  have hordered := h.ordered
  cases rs with
  | nil => simp at hcovers
  | cons x rs =>
    rw [map_cons] at hordered hcovers
    have hx : (l.span x).1 = 0 := by
      rcases (covers_cons ..).mp hcovers with hx | hcovers
      · omega
      have := (hordered.2.2.covers hcovers).1
      have := hordered.2.1
      omega
    have hspans := hm.spans
    have hhead : l.span head = (0, 0) := by rw [span, endOf, h.sentinel]; rfl
    rw [hhead, map_cons, joinFrom, if_pos hx] at hspans
    have hjoined : Within 0 ((0, (l.span x).2) :: rs.map l.span) (2 ^ 64) :=
      ⟨le_rfl, hx ▸ hordered.2.1, hordered.2.2⟩
    have hmem : l''.span head ∈ joinFrom (0, (l.span x).2) (rs.map l.span) := by
      rw [← nil_append (joinFrom _ _), ← map_nil, ← hspans]
      exact mem_map_of_mem mem_cons_self
    exact pos_lt_pos.mp (hjoined.joinFrom.bounds hmem).2.1

def MergesExactly (l : IntervalList) : Prop :=
  ∃ l', l.merge = some l' ∧ l'.WellFormed ∧ l'.covered = l.covered ∧
    (l'.forward.IsChain fun a b => l'.endOf a ≠ l'.startOf b) ∧
    ∀ s e, Int64.minValue < s → s < e → e < Int64.maxValue →
      ∃ l'', l'.addInterval s e = some l'' ∧ l''.covered = l'.covered ∪ {x | s ≤ x ∧ x < e}

/-- `Merge` does what is asked of it, unless the first interval starts at the smallest
integer, where it is joined with the sentinel, or the last one is joined and has no `Next`. -/
theorem merge_exact_iff (h : l.WellFormed) :
    l.MergesExactly ↔ Int64.minValue ∉ l.covered ∧ ¬l.Frayed head l.forward := by
  obtain ⟨rs, h⟩ := h
  rw [h.forward_eq]
  by_cases hmin : Int64.minValue ∈ l.covered
  · refine iff_of_false ?_ fun h => h.1 hmin
    rintro ⟨l', hmerge, ⟨rs', h'⟩, -⟩
    have hlt := h.endOf_head_merge hmin hmerge
    rw [endOf, h'.sentinel] at hlt
    exact lt_irrefl _ (pos_lt_pos.mpr hlt)
  · obtain ⟨l', rs', hmerge, hv, hspans, hhead, hm⟩ := h.toVisits.merge h.sentinel hmin
    by_cases hf : l.Frayed head rs
    · refine iff_of_false ?_ fun h => h.2 hf
      rintro ⟨l'', hmerge', hwf, -⟩
      obtain rfl := Option.some.inj (hmerge.symm.trans hmerge')
      exact hm.stale h.links hf hwf
    refine iff_of_true ?_ ⟨hmin, hf⟩
    have h' := hv.lists hhead (hm.links h.links hf)
    have hcovered : l'.covered = l.covered := by
      ext x
      rw [hv.mem_covered, hspans, covers_join h.ordered, h.mem_covered]
    refine ⟨l', hmerge, ⟨rs', h'⟩, hcovered, ?_, fun s e hs hse he => ?_⟩
    · have hapart : (rs'.map l'.span).IsChain fun x y => x.2 ≠ y.1 :=
        hspans ▸ isChain_join (rs.map l.span)
      rw [hv.forward_eq]
      exact ((isChain_map _).mp hapart).imp fun a b hab heq => hab (congrArg pos heq)
    · obtain ⟨l'', -, hadd, -, hunion, -⟩ := addInterval_covered h' hs hse he
      exact ⟨l'', hadd, hunion⟩

end Merge

theorem merge_exact_sample :
    ∃ l, added [(0, 2), (2, 4), (6, 8)] = some l ∧ l.WellFormed ∧ l.MergesExactly := by
  obtain ⟨l, hl, hwf⟩ := exists_added [(0, 2), (2, 4), (6, 8)] (by
    simp only [mem_cons, not_mem_nil, or_false]
    rintro s (rfl | rfl | rfl) <;> decide)
  have hvalues : (added [(0, 2), (2, 4), (6, 8)]).map (fun l => (l.forward,
      l.forward.map fun r => (l.startOf r, l.endOf r))) =
      some ([node 0, node 3, node 6], [(0, 2), (2, 4), (6, 8)]) := by decide +kernel
  rw [hl, Option.map_some, Option.some.injEq, Prod.mk.injEq] at hvalues
  obtain ⟨hforward, hvalues⟩ := hvalues
  simp only [hforward, map_cons, map_nil, cons.injEq, Prod.mk.injEq] at hvalues
  obtain ⟨⟨h0, -⟩, ⟨h3, h3'⟩, ⟨h6, -⟩, -⟩ := hvalues
  refine ⟨l, hl, hwf, (merge_exact_iff hwf).mpr ⟨?_, ?_⟩⟩
  · rintro ⟨r, hr, hstart, -⟩
    simp only [hforward, mem_cons, not_mem_nil, or_false] at hr
    rcases hr with rfl | rfl | rfl
    · exact absurd (h0 ▸ hstart) (by decide)
    · exact absurd (h3 ▸ hstart) (by decide)
    · exact absurd (h6 ▸ hstart) (by decide)
  · rw [hforward]
    rintro ⟨htouch, -⟩
    exact absurd (h6 ▸ h3' ▸ htouch : (6 : Int64) = 4) (by decide)

/-- After `[0, 2)` and `[2, 4)` were merged, the tail still leads to the second interval. -/
theorem merge_leaves_tail :
    ∃ l, added [(0, 2), (2, 4)] = some l ∧ l.WellFormed ∧ ¬l.MergesExactly := by
  obtain ⟨l, hl, hwf⟩ := exists_added [(0, 2), (2, 4)] (by
    simp only [mem_cons, not_mem_nil, or_false]
    rintro s (rfl | rfl) <;> decide)
  have hvalues : ((added [(0, 2), (2, 4)]).bind merge).map (fun l =>
      (l.prev tail, l.prev (node 3), l.next (node 0))) =
      some (some (node 3), some (node 0), none) := by decide +kernel
  refine ⟨l, hl, hwf, ?_⟩
  rintro ⟨l', hmerge, hwf', -⟩
  rw [hl, Option.bind_some, hmerge, Option.map_some, Option.some.injEq, Prod.mk.injEq,
    Prod.mk.injEq] at hvalues
  obtain ⟨htail, hprev, hnext⟩ := hvalues
  exact not_wellFormed_of_stale (by simp) (by simp) htail (.inl hprev) hnext hwf'

/-! ### Copy -/

def copyStep {β : Type} (l : IntervalList) (src : List β) (done : ℕ × List β) (r : Ref) :
    Option (ℕ × List β) :=
  let start := (l.startOf r).toInt
  let stop := (l.endOf r).toInt
  if stop < src.length ∧ stop < done.2.length then
    if 0 ≤ start ∧ start ≤ stop then
      some (done.1 + (stop - start).toNat, done.2.take start.toNat ++
        ((src.take stop.toNat).drop start.toNat ++ done.2.drop stop.toNat))
    else none
  else some done

def copy {β : Type} (l : IntervalList) (dst src : List β) :
    Option (IntervalList × Except Unit (ℕ × List β)) :=
  l.merge.bind fun l' =>
    if dst.length ≠ src.length then some (l', .error ())
    else (l'.forward.foldlM (l'.copyStep src) (0, dst)).map fun done => (l', .ok done)

def CopiesExactly {β : Type} (l : IntervalList) (dst src : List β) : Prop :=
  ∃ l' dst', l.copy dst src = some (l', .ok (l.covered.ncard, dst')) ∧
    dst'.length = dst.length ∧ ∀ i < dst.length,
      (Int64.ofNat i ∈ l.covered → dst'[i]? = src[i]?) ∧
      (Int64.ofNat i ∉ l.covered → dst'[i]? = dst[i]?)

section Copy

variable {β : Type} {l : IntervalList} {rs : List Ref} {dst src : List β} {L : ℕ}

theorem length_copied {s e : ℕ} (hdst : dst.length = L) (hsrc : src.length = L) (hse : s ≤ e)
    (he : e ≤ L) : (dst.take s ++ ((src.take e).drop s ++ dst.drop e)).length = L := by
  simp only [length_append, length_take, length_drop, hdst, hsrc]
  omega

theorem getElem?_copied {s e : ℕ} (hdst : dst.length = L) (hsrc : src.length = L) (hse : s ≤ e)
    (he : e ≤ L) (i : ℕ) : (dst.take s ++ ((src.take e).drop s ++ dst.drop e))[i]? =
      if s ≤ i ∧ i < e then src[i]? else dst[i]? := by
  have hs : s ≤ L := by omega
  simp only [getElem?_append, length_take, length_drop, getElem?_take,
    getElem?_drop, hdst, hsrc, min_eq_left hs, min_eq_left he]
  split_ifs <;> first | rfl | omega | (congr 1; omega)

theorem foldlM_copyStep {b lo n : ℕ} (hb : b = 2 ^ 63) (hdst : dst.length = L)
    (hsrc : src.length = L) (hlo : b ≤ lo) (h : Within lo (rs.map l.span) (b + L)) :
    ∃ dst', rs.foldlM (l.copyStep src) (n, dst) =
        some (n + Spans.total ((rs.map l.span).filter fun s => s.2 < b + L), dst') ∧
      dst'.length = L ∧ ∀ i, dst'[i]? =
        if Covers ((rs.map l.span).filter fun s => s.2 < b + L) (b + i) then src[i]? else dst[i]? := by
  induction rs generalizing lo n dst with
  | nil => exact ⟨dst, rfl, hdst, fun i => by simp⟩
  | cons r rs ih =>
    obtain ⟨h1, h2, h3⟩ := h
    have hle := h3.le
    have hstart := coe_pos (l.startOf r)
    have hstop := coe_pos (l.endOf r)
    simp only [span] at h1 h2 h3 hle
    rw [foldlM_cons, map_cons, filter_cons, copyStep]
    by_cases hlt : (l.span r).2 < b + L
    · have hstop' : pos (l.endOf r) < b + L := hlt
      obtain ⟨dst', hfold, hlength, hbytes⟩ := ih
        (n := n + ((l.endOf r).toInt - (l.startOf r).toInt).toNat)
        (length_copied (s := (l.startOf r).toInt.toNat) (e := (l.endOf r).toInt.toNat) hdst hsrc
          (by omega) (by omega)) (by omega) h3
      rw [if_pos ⟨by omega, by rw [hdst]; omega⟩, if_pos ⟨by omega, by omega⟩,
        if_pos (decide_eq_true hlt)]
      refine ⟨dst', hfold.trans (congrArg some (Prod.ext ?_ rfl)), hlength, fun i => ?_⟩
      · rw [total_cons, span]
        omega
      · rw [hbytes, getElem?_copied hdst hsrc (by omega) (by omega)]
        have hin : (l.span r).1 ≤ b + i ∧ b + i < (l.span r).2 ↔
            (l.startOf r).toInt.toNat ≤ i ∧ i < (l.endOf r).toInt.toNat := by
          rw [span]
          omega
        simp only [covers_cons, hin]
        by_cases hrest : Covers ((rs.map l.span).filter fun s => s.2 < b + L) (b + i)
        · rw [if_pos hrest, if_pos (.inr hrest)]
        · simp only [hrest, or_false, if_false]
    · rw [if_neg fun hc => hlt (by rw [span]; omega), if_neg (mt of_decide_eq_true hlt)]
      exact ih hdst (by omega) h3

theorem pos_ofNat {i : ℕ} (hi : i < 2 ^ 63) : pos (ofNat i) = 2 ^ 63 + i := by
  have := coe_pos (ofNat i)
  rw [toInt_ofNat_of_lt hi] at this
  omega

theorem Lists.within (h : l.Lists rs)
    (hin : ∀ r ∈ l.forward, 0 ≤ l.startOf r ∧ (l.endOf r).toInt ≤ L) :
    Within (2 ^ 63) (rs.map l.span) (2 ^ 63 + L) := by
  refine h.ordered.of_bounds (by omega) fun s hs => ?_
  obtain ⟨r, hr, rfl⟩ := mem_map.mp hs
  rw [← h.forward_eq] at hr
  have := pos_le_pos.mpr (hin r hr).1
  have := coe_pos 0
  rw [toInt_zero] at this
  have := coe_pos (l.endOf r)
  have := (hin r hr).2
  simp only [span]
  omega

theorem Lists.copy_joined (h : l.Lists rs) (hsrc : src.length = dst.length)
    (hin : ∀ r ∈ l.forward, 0 ≤ l.startOf r ∧ (l.endOf r).toInt ≤ dst.length) :
    ∃ l' dst', l.copy dst src = some (l', .ok (Spans.total ((join (rs.map l.span)).filter
        fun s => s.2 < 2 ^ 63 + dst.length), dst')) ∧ dst'.length = dst.length ∧
      ∀ i, dst'[i]? = if Covers ((join (rs.map l.span)).filter
        fun s => s.2 < 2 ^ 63 + dst.length) (2 ^ 63 + i) then src[i]? else dst[i]? := by
  have hmin : minValue ∉ l.covered := by
    rintro ⟨r, hr, hstart, -⟩
    have := pos_le_pos.mpr (hin r hr).1
    have := pos_le_pos.mpr hstart
    have : pos minValue = 0 := rfl
    have := coe_pos 0
    rw [toInt_zero] at this
    omega
  have hwithin := h.within hin
  generalize hb : 2 ^ 63 = b at hwithin ⊢
  obtain ⟨l', rs', hmerge, hv, hspans, -, -⟩ := h.toVisits.merge h.sentinel hmin
  obtain ⟨dst', hfold, hlength, hbytes⟩ := foldlM_copyStep (n := 0) hb.symm rfl hsrc
    (le_refl b) (hspans ▸ hwithin.join : Within b (rs'.map l'.span) (b + dst.length))
  rw [hspans, zero_add] at hfold
  rw [hspans] at hbytes
  refine ⟨l', dst', ?_, hlength, hbytes⟩
  rw [copy, hmerge, Option.bind_some, if_neg (not_not.mpr hsrc.symm), hv.forward_eq, hfold]
  rfl

/-- `Copy` does what is asked of it unless an interval ends with the slices. -/
theorem copy_exact_iff (h : l.WellFormed) (hdst : dst.length < 2 ^ 63)
    (hsrc : src.length = dst.length)
    (hin : ∀ r ∈ l.forward, 0 ≤ l.startOf r ∧ (l.endOf r).toInt ≤ dst.length) :
    l.CopiesExactly dst src ↔ ∀ r ∈ l.forward, (l.endOf r).toInt ≠ dst.length := by
  obtain ⟨rs, h⟩ := h
  obtain ⟨l', dst', hcopy, hlength, hbytes⟩ := h.copy_joined hsrc hin
  have hwithin := h.within hin
  have hends : (∃ s ∈ join (rs.map l.span), s.2 = 2 ^ 63 + dst.length) ↔
      ∃ r ∈ l.forward, (l.endOf r).toInt = dst.length := by
    rw [hwithin.join.exists_end_iff (by omega), covers_join hwithin,
      ← hwithin.exists_end_iff (by omega), h.forward_eq]
    simp only [mem_map, exists_exists_and_eq_and]
    refine exists_congr fun r => and_congr_right fun _ => ?_
    have := coe_pos (l.endOf r)
    simp only [span]
    omega
  have hmem : ∀ i < dst.length, Int64.ofNat i ∈ l.covered ↔
      Covers (join (rs.map l.span)) (2 ^ 63 + i) := fun i hi => by
    rw [h.mem_covered, pos_ofNat (by omega), covers_join hwithin]
  generalize 2 ^ 63 = b at hwithin hbytes hmem hends hcopy
  constructor
  · rintro ⟨l'', dst'', hcopy', -, -⟩ r hr hend
    obtain ⟨s, hs, hsend⟩ := hends.mpr ⟨r, hr, hend⟩
    have hlt := hwithin.join.total_filter_lt (p := fun s => s.2 < b + dst.length) hs
      (by simp [hsend])
    rw [hcopy] at hcopy'
    simp only [Option.some.injEq, Prod.mk.injEq, Except.ok.injEq] at hcopy'
    rw [h.ncard_covered, ← total_join hwithin] at hcopy'
    omega
  · intro hnone
    have hall : (join (rs.map l.span)).filter (fun s => s.2 < b + dst.length) =
        join (rs.map l.span) := by
      refine filter_eq_self.mpr fun s hs => decide_eq_true ?_
      refine lt_of_le_of_ne (hwithin.join.bounds hs).2.2 fun hend => ?_
      obtain ⟨r, hr, hend⟩ := hends.mp ⟨s, hs, hend⟩
      exact hnone r hr hend
    rw [hall, total_join hwithin, ← h.ncard_covered] at hcopy
    refine ⟨l', dst', hcopy, hlength, fun i hi => ?_⟩
    rw [hbytes, hall]
    exact ⟨fun hc => if_pos ((hmem i hi).mp hc), fun hc => if_neg (mt (hmem i hi).mpr hc)⟩

end Copy

theorem copy_exact_sample :
    ∃ l, added [(0, 1)] = some l ∧ l.WellFormed ∧ l.CopiesExactly [1, 2] [3, 4] := by
  obtain ⟨l, hl, hwf⟩ := exists_added [(0, 1)] (by
    simp only [mem_singleton]
    rintro s rfl
    decide)
  have hvalues : (added [(0, 1)]).map (fun l => l.forward.map fun r => (l.startOf r, l.endOf r)) =
      some [(0, 1)] := by decide +kernel
  rw [hl, Option.map_some, Option.some.injEq, map_eq_singleton_iff] at hvalues
  obtain ⟨r, hforward, hr⟩ := hvalues
  obtain ⟨hstart, hstop⟩ := Prod.mk.inj hr
  refine ⟨l, hl, hwf, (copy_exact_iff hwf ?_ ?_ ?_).mpr ?_⟩
  · simp
  · rfl
  · simp [hforward, hstart, hstop]
  · simp [hforward, hstop]

/-- The interval ends with the slices, and nothing is copied. -/
theorem copy_skips_last :
    ∃ l, added [(0, 2)] = some l ∧ l.WellFormed ∧ ¬l.CopiesExactly [1, 2] [3, 4] := by
  obtain ⟨l, hl, hwf⟩ := exists_added [(0, 2)] (by
    simp only [mem_singleton]
    rintro s rfl
    decide)
  have hvalues : ((added [(0, 2)]).map fun l => l.forward.map fun r => (l.startOf r, l.endOf r)) =
      some [(0, 2)] := by decide +kernel
  have hcopied : ((added [(0, 2)]).bind fun l => (l.copy [1, 2] [3, 4]).map fun c =>
      c.2.toOption.map Prod.snd) = some (some [1, 2]) := by decide +kernel
  rw [hl, Option.map_some, Option.some.injEq, map_eq_singleton_iff] at hvalues
  obtain ⟨r, hforward, hr⟩ := hvalues
  obtain ⟨hstart, hstop⟩ := Prod.mk.inj hr
  refine ⟨l, hl, hwf, ?_⟩
  rintro ⟨l', dst', hcopy, -, hbytes⟩
  have hmem : Int64.ofNat 0 ∈ l.covered := ⟨r, by simp [hforward], by rw [hstart, hstop]; decide⟩
  rw [hl, Option.bind_some, hcopy, Option.map_some, Option.some.injEq] at hcopied
  obtain rfl : dst' = [1, 2] := Option.some.inj hcopied
  exact absurd ((hbytes 0 (by decide)).1 hmem) (by decide)

end HugoFS.Adaptor.IntervalList
