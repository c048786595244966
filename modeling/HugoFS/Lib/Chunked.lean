import Mathlib.Algebra.Order.Ring.Nat

/-!
# Streams that arrive in pieces

A stream is the list of the pieces in which it arrives. One read gets at most what is left of
the first piece (`read_eq`); what a full read returns depends on the stream alone
(`readFull_eq`).
-/

namespace Chunked

open List Nat

variable {α : Type} {cs : List (List α)}

def read (k : ℕ) : List (List α) → Option (List α × List (List α))
  | [] => none
  | [] :: cs => read k cs
  | (a :: c) :: cs => some ((a :: c).take k, (a :: c).drop k :: cs)

def readFull : ℕ → List (List α) → Option (List α × List (List α))
  | 0, cs => some ([], cs)
  | _ + 1, [] => none
  | k + 1, c :: cs =>
    if k + 1 ≤ c.length then some (c.take (k + 1), c.drop (k + 1) :: cs)
    else (readFull (k + 1 - c.length) cs).map fun r => (c ++ r.1, r.2)

def skip : ℕ → List (List α) → List (List α)
  | 0, cs => cs
  | _ + 1, [] => []
  | k + 1, c :: cs => if k + 1 ≤ c.length then c.drop (k + 1) :: cs else skip (k + 1 - c.length) cs

def avail : List (List α) → ℕ
  | [] => 0
  | [] :: cs => avail cs
  | c :: _ => c.length

section Pieces

variable {k : ℕ} {c : List α}

@[simp] theorem skip_zero (cs : List (List α)) : skip 0 cs = cs := by cases cs <;> rfl

theorem skip_cons_of_le (hk : 0 < k) (h : k ≤ c.length) :
    skip k (c :: cs) = c.drop k :: cs := by
  obtain ⟨k, rfl⟩ := exists_eq_succ_of_ne_zero hk.ne'
  exact if_pos h

theorem skip_cons_of_lt (h : c.length < k) : skip k (c :: cs) = skip (k - c.length) cs := by
  obtain ⟨k, rfl⟩ := exists_eq_succ_of_ne_zero (zero_lt_of_lt h).ne'
  exact if_neg (not_le.mpr h)

theorem readFull_cons_of_le (hk : 0 < k) (h : k ≤ c.length) :
    readFull k (c :: cs) = some (c.take k, c.drop k :: cs) := by
  obtain ⟨k, rfl⟩ := exists_eq_succ_of_ne_zero hk.ne'
  exact if_pos h

theorem readFull_cons_of_lt (h : c.length < k) :
    readFull k (c :: cs) = (readFull (k - c.length) cs).map fun r => (c ++ r.1, r.2) := by
  obtain ⟨k, rfl⟩ := exists_eq_succ_of_ne_zero (zero_lt_of_lt h).ne'
  exact if_neg (not_le.mpr h)

end Pieces

theorem flatten_skip (k : ℕ) (cs : List (List α)) : (skip k cs).flatten = cs.flatten.drop k := by
  induction cs generalizing k with
  | nil => cases k <;> rfl
  | cons c cs ih =>
    rcases Nat.eq_zero_or_pos k with rfl | hk
    · simp
    by_cases h : k ≤ c.length
    · rw [skip_cons_of_le hk h, flatten_cons, flatten_cons, drop_append_of_le_length h]
    have hnil : c.drop k = [] := drop_eq_nil_of_le (by omega)
    rw [skip_cons_of_lt (by omega), ih, flatten_cons, drop_append, hnil, nil_append]

theorem skip_skip (j k : ℕ) (cs : List (List α)) : skip j (skip k cs) = skip (k + j) cs := by
  induction cs generalizing j k with
  | nil => cases j <;> cases k <;> rfl
  | cons c cs ih =>
    rcases Nat.eq_zero_or_pos k with rfl | hk
    · simp
    rcases Nat.eq_zero_or_pos j with rfl | hj
    · simp
    by_cases h : k ≤ c.length
    · -- the first piece has what is left out first
      rw [skip_cons_of_le hk h]
      have hlen : (c.drop k).length = c.length - k := length_drop
      by_cases h' : k + j ≤ c.length
      · rw [skip_cons_of_le hj (by omega), skip_cons_of_le (by omega) h', drop_drop]
      rw [skip_cons_of_lt (by omega), skip_cons_of_lt (by omega), hlen]
      congr 1
      omega
    · rw [skip_cons_of_lt (by omega), ih, skip_cons_of_lt (by omega)]
      congr 1
      omega

theorem readFull_eq (k : ℕ) (cs : List (List α)) :
    readFull k cs = if k ≤ cs.flatten.length then some (cs.flatten.take k, skip k cs) else none := by
  induction cs generalizing k with
  | nil => cases k <;> rfl
  | cons c cs ih =>
    rcases Nat.eq_zero_or_pos k with rfl | hk
    · simp [readFull]
    have hlen : (c :: cs).flatten.length = c.length + cs.flatten.length := by
      rw [flatten_cons, length_append]
    by_cases h : k ≤ c.length
    · rw [readFull_cons_of_le hk h, skip_cons_of_le hk h, if_pos (by omega), flatten_cons,
        take_append_of_le_length h]
    rw [readFull_cons_of_lt (by omega), skip_cons_of_lt (by omega), ih, hlen]
    by_cases hfit : k ≤ c.length + cs.flatten.length
    · have htake : c.take k = c := take_of_length_le (by omega)
      rw [if_pos (by omega), if_pos hfit, flatten_cons, take_append, htake, Option.map_some]
    · rw [if_neg (by omega), if_neg hfit, Option.map_none]

theorem avail_le (cs : List (List α)) : avail cs ≤ cs.flatten.length := by
  induction cs with
  | nil => exact le_rfl
  | cons c cs ih =>
    cases c with
    | nil => exact ih
    | cons a c => simp [avail]

theorem read_eq_none {k : ℕ} : read k cs = none ↔ cs.flatten = [] := by
  induction cs with
  | nil => simp [read]
  | cons c cs ih =>
    cases c with
    | nil => simpa [read] using ih
    | cons a c => simp [read]

theorem read_eq {k : ℕ} (hk : 0 < k) (hcs : cs.flatten ≠ []) :
    read k cs = some (cs.flatten.take (min k (avail cs)), skip (min k (avail cs)) cs) ∧
      0 < avail cs := by
  induction cs with
  | nil => exact absurd rfl hcs
  | cons c cs ih =>
    cases c with
    | nil =>
      obtain ⟨hread, hpos⟩ := ih hcs
      have havail : avail ([] :: cs) = avail cs := rfl
      have hmin : ([] : List α).length < min k (avail cs) := by
        rw [length_nil]
        omega
      refine ⟨hread.trans ?_, hpos⟩
      rw [havail, flatten_cons, nil_append, skip_cons_of_lt hmin, length_nil, Nat.sub_zero]
    | cons a c =>
      have havail : avail ((a :: c) :: cs) = (a :: c).length := rfl
      have hlen : 0 < (a :: c).length := succ_pos _
      refine ⟨?_, hlen⟩
      rw [havail, read, skip_cons_of_le (by omega) (min_le_right ..), flatten_cons,
        take_append_of_le_length (min_le_right ..)]
      by_cases h : k ≤ (a :: c).length
      · rw [min_eq_left h]
      · rw [min_eq_right (by omega), take_of_length_le (Nat.le_of_not_le h), take_length,
          drop_eq_nil_of_le (Nat.le_of_not_le h), drop_length]

end Chunked
