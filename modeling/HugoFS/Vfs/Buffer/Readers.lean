import HugoFS.Lib.FiniteMap
import HugoFS.Lib.Runs

/-!
# Readers and finished uploads

A reader counts itself in for each block of its range. An upload that has ended waits until nobody
reads its block. All of them wait for one condition, and the last reader of a block wakes up the
longest waiter, whatever its block is.
-/

namespace HugoFS.Vfs.Buffer

open List Runs

/-- `ranges` are those that are locked, and `woken` the uploads that were woken up and have not
looked at their block yet. -/
structure Readers where
  activeReadBlocks : ℕ → Option ℤ
  ranges : Multiset (ℕ × ℕ)
  waiting : List ℕ
  woken : List ℕ

namespace Readers

def init : Readers := ⟨fun _ => none, 0, [], []⟩

def blocks (size : ℕ) (r : ℕ × ℕ) : List ℕ :=
  let startIdx := r.1 / size
  let endIdx := r.2 / size + if 0 < r.2 % size then 1 else 0
  range' startIdx (endIdx - startIdx)

/-- A loop that visits each block of a range once. -/
def visit (size : ℕ) (r : ℕ × ℕ) (f : Option ℤ → Option ℤ) (m : ℕ → Option ℤ) (i : ℕ) : Option ℤ :=
  if i ∈ blocks size r then f (m i) else m i

def lockForRead (size : ℕ) (r : ℕ × ℕ) (s : Readers) : Readers :=
  { s with
    activeReadBlocks := visit size r (fun n => some (n.elim 1 (· + 1))) s.activeReadBlocks
    ranges := r ::ₘ s.ranges }

def signals (size : ℕ) (r : ℕ × ℕ) (s : Readers) : ℕ :=
  (blocks size r).countP fun i => s.activeReadBlocks i = some 1

def unlockForRead (size : ℕ) (r : ℕ × ℕ) (s : Readers) : Readers where
  activeReadBlocks := visit size r (Option.bind · fun n => if n = 1 then none else some (n - 1))
    s.activeReadBlocks
  ranges := s.ranges.erase r
  waiting := s.waiting.drop (s.signals size r)
  woken := s.woken ++ s.waiting.take (s.signals size r)

def isLocked (s : Readers) (i : ℕ) : Bool := (s.activeReadBlocks i).any (0 < ·)

/-- A finished upload that holds `blockLock`: it waits, or its block is released. -/
def release (s : Readers) (i : ℕ) : Readers :=
  if s.isLocked i then { s with waiting := s.waiting ++ [i] } else s

inductive Event
  | lock (r : ℕ × ℕ)
  | unlock (r : ℕ × ℕ)
  | uploaded (i : ℕ)
  | wake (i : ℕ)

def next (size : ℕ) : Event → Readers → Readers
  | .lock r, s => s.lockForRead size r
  | .unlock r, s => s.unlockForRead size r
  | .uploaded i, s => s.release i
  | .wake i, s => { s.release i with woken := s.woken.erase i }

def enabled (s : Readers) : Event → Bool
  | .unlock r => r ∈ s.ranges
  | .wake i => i ∈ s.woken
  | .lock _ | .uploaded _ => true

/-! ### The counts -/

def Meets (size i : ℕ) (r : ℕ × ℕ) : Prop := r.1 < (i + 1) * size ∧ i * size < r.2
deriving Decidable

def holders (size : ℕ) (s : Readers) (i : ℕ) : ℕ := s.ranges.countP fun r => i ∈ blocks size r

def Counted (size : ℕ) (s : Readers) : Prop :=
  ∀ i, s.activeReadBlocks i = if s.holders size i = 0 then none else some ↑(s.holders size i)

variable {size : ℕ} {s : Readers} {r : ℕ × ℕ}

theorem mem_blocks (hsize : 0 < size) {i : ℕ} : i ∈ blocks size r ↔ Meets size i r := by
  have hstop : i < r.2 / size + (if 0 < r.2 % size then 1 else 0) ↔ i * size < r.2 := by
    have hdiv := Nat.div_add_mod' r.2 size
    have hlt := Nat.mod_lt r.2 hsize
    have hmul : ∀ {a b : ℕ}, a < b → a * size + size ≤ b * size := fun h =>
      Nat.succ_mul _ size ▸ Nat.mul_le_mul_right size h
    rcases Nat.lt_trichotomy i (r.2 / size) with h | rfl | h
    · have := hmul h
      split_ifs <;> omega
    · split_ifs <;> omega
    · have := hmul h
      split_ifs <;> omega
  rw [blocks, mem_range'_1, Meets, ← Nat.div_lt_iff_lt_mul hsize, ← hstop]
  omega

theorem holders_unlock (size : ℕ) (hr : r ∈ s.ranges) (i : ℕ) : s.holders size i =
    (s.unlockForRead size r).holders size i + if i ∈ blocks size r then 1 else 0 := by
  rw [holders, ← Multiset.cons_erase hr, Multiset.countP_cons]
  rfl

theorem Counted.release (h : s.Counted size) (i : ℕ) : (s.release i).Counted size := by
  rw [Readers.release]
  split <;> exact h

theorem Counted.lock (h : s.Counted size) : (s.lockForRead size r).Counted size := by
  intro i
  have hholders : (s.lockForRead size r).holders size i =
    s.holders size i + if i ∈ blocks size r then 1 else 0 := Multiset.countP_cons _ _ _
  rw [hholders, lockForRead]
  dsimp only
  rw [visit, h i]
  split_ifs <;> simp_all

theorem Counted.unlock (h : s.Counted size) (hr : r ∈ s.ranges) :
    (s.unlockForRead size r).Counted size := by
  intro i
  have hholders := holders_unlock size hr i
  generalize (s.unlockForRead size r).holders size i = n at hholders ⊢
  rw [unlockForRead]
  dsimp only
  rw [visit, h i, hholders]
  split_ifs <;> simp_all

theorem Counted.next (h : s.Counted size) {e : Event} (he : s.enabled e) :
    (next size e s).Counted size := by
  cases e with
  | lock r => exact h.lock
  | unlock r => exact h.unlock (of_decide_eq_true he)
  | uploaded i => exact h.release i
  | wake i => exact h.release i

theorem Counted.isLocked_iff (h : s.Counted size) (i : ℕ) :
    s.isLocked i = true ↔ 0 < s.holders size i := by
  rw [isLocked, h i]
  split_ifs <;> simp_all [Nat.pos_iff_ne_zero]

/-- The range has a byte of the block. -/
def Overlaps (size i : ℕ) (r : ℕ × ℕ) : Prop := ∃ x ∈ range' r.1 (r.2 - r.1), x / size = i
deriving Decidable

theorem meets_iff (hsize : 0 < size) (hr : r.1 < r.2) {i : ℕ} :
    Meets size i r ↔ Overlaps size i r := by
  simp only [Overlaps, mem_range'_1, Nat.add_sub_cancel' hr.le, Nat.div_eq_iff hsize]
  rw [Meets, Nat.succ_mul]
  refine ⟨fun h => ⟨max r.1 (i * size), by omega⟩, ?_⟩
  rintro ⟨x, hx, hi⟩
  omega

/-- No finished upload sleeps while nobody reads its block. -/
def Awake (size : ℕ) (s : Readers) : Prop := ∀ i ∈ s.waiting, s.holders size i ≠ 0

/-- As many of the longest waiters as blocks become free include all that wait for these. -/
def WakesAll (size : ℕ) (s : Readers) : Event → Prop
  | .unlock r => ∀ i ∈ s.waiting.drop (s.signals size r), i ∈ blocks size r → s.activeReadBlocks i ≠ some 1
  | .lock _ | .uploaded _ | .wake _ => True

theorem Awake.release (hc : s.Counted size) (h : s.Awake size) (i : ℕ) : (s.release i).Awake size := by
  rw [Readers.release]
  split
  next hlocked =>
    intro j hj
    rcases mem_append.mp hj with hj | hj
    · exact h j hj
    · obtain rfl := mem_singleton.mp hj
      exact Nat.ne_of_gt ((hc.isLocked_iff j).mp hlocked)
  · exact h

theorem awake_unlock_iff (hc : s.Counted size) (h : s.Awake size) (hr : r ∈ s.ranges) :
    (s.unlockForRead size r).Awake size ↔ s.WakesAll size (.unlock r) := by
  refine forall₂_congr fun i hi => ?_
  have hpos := h i (mem_of_mem_drop hi)
  have hholders := holders_unlock size hr i
  rw [hc i, if_neg hpos, ne_eq, ne_eq, Option.some.injEq]
  split_ifs at hholders with hblock
  · simp only [hblock, true_imp_iff]
    omega
  · simp only [hblock, false_imp_iff, iff_true]
    omega

theorem Awake.next (hc : s.Counted size) (ha : s.Awake size) {e : Event} (he : s.enabled e)
    (hw : s.WakesAll size e) : (next size e s).Awake size := by
  cases e with
  | lock r => exact fun i hi => Nat.ne_of_gt (Nat.lt_of_lt_of_le (Nat.pos_of_ne_zero (ha i hi))
      (Multiset.countP_le_of_le _ (Multiset.le_cons_self _ _)))
  | unlock r => exact (awake_unlock_iff hc ha (of_decide_eq_true he)).mpr hw
  | uploaded i => exact ha.release hc i
  | wake i => exact ha.release hc i

/-- No finished upload sleeps in vain exactly as long as the wake-ups go to those whose block has become
free. -/
theorem always_awake_iff (size : ℕ) (es : List Event)
    (h : Legal (next size) (fun s e => s.enabled e) es init) :
    Always (next size) (Awake size) es init ↔ Legal (next size) (WakesAll size) es init := by
  refine always_iff_legal (I := fun s => s.Counted size ∧ s.Awake size) (fun s hs => hs.2) ?_ ?_ h
    ⟨fun _ => rfl, fun _ hi => (by cases hi)⟩
  · rintro s e ⟨hc, ha⟩ he hw
    exact ⟨hc.next he, ha.next hc he hw⟩
  · rintro s e ⟨hc, ha⟩ he ha'
    cases e with
    | unlock r => exact (awake_unlock_iff hc ha (of_decide_eq_true he)).mp ha'
    | _ => trivial

/-- The last reader of block 1 wakes up the upload of block 0, which goes to sleep behind that of
block 1, and the last reader of block 0 wakes up the latter. -/
def lostWakeUp : List Event :=
  [.lock (0, 4), .lock (4, 8), .uploaded 0, .uploaded 1, .unlock (4, 8), .wake 0, .unlock (0, 4), .wake 1]

theorem always_awake_iff_sample :
    (Always (next 4) (Awake 4) lostWakeUp init ↔ Legal (next 4) (WakesAll 4) lostWakeUp init) ∧
      (exec (next 4) lostWakeUp init).ranges = 0 ∧ (exec (next 4) lostWakeUp init).waiting = [0] :=
  ⟨always_awake_iff 4 _ (by decide), by decide, by decide⟩

/-- In every run whose wake-ups go to all uploads of the blocks that become free, no upload of a
block that nobody reads is asleep. -/
theorem unread_not_waiting (size : ℕ) (s : Readers)
    (h : Reach (next size) (fun s e => s.enabled e ∧ s.WakesAll size e) init s) (i : ℕ)
    (hfree : s.isLocked i = false) : i ∉ s.waiting := by
  obtain ⟨hc, ha⟩ : s.Counted size ∧ s.Awake size :=
    h.invariant (I := fun s => s.Counted size ∧ s.Awake size)
      (fun _ _ hI he => ⟨hI.1.next he.1, hI.2.next hI.1 he.1 he.2⟩)
      ⟨fun _ => rfl, fun _ hi => (by cases hi)⟩
  intro hi
  have hlocked := (hc.isLocked_iff i).mpr (Nat.pos_of_ne_zero (ha i hi))
  cases hfree.symm.trans hlocked

theorem unread_not_waiting_sample :
    let s := exec (next 4) [.lock (0, 4), .uploaded 0, .unlock (0, 4)] init
    s.isLocked 0 = false ∧ 0 ∉ s.waiting := by
  refine ⟨rfl, unread_not_waiting 4 _ (reach_exec ?_) 0 rfl⟩
  exact ⟨⟨rfl, trivial⟩, ⟨rfl, trivial⟩, ⟨rfl, fun _ hi => (by cases hi)⟩, trivial⟩

/-- Nobody reads block 0, nobody is about to wake up, and its upload sleeps. -/
theorem upload_sleeps_unread :
    let s := exec (next 4) lostWakeUp init
    Legal (next 4) (fun s e => s.enabled e) lostWakeUp init ∧
      s.isLocked 0 = false ∧ s.woken = [] ∧ 0 ∈ s.waiting := by
  decide

end Readers

end HugoFS.Vfs.Buffer
