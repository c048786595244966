import Mathlib.Data.List.Basic
import Mathlib.Logic.Function.Basic
import Mathlib.Data.Nat.Notation

/-!
# Unsynchronised appends to a shared list

Several threads append one element each to a shared list, and an append is a load of the
list and a later store of what was loaded with the element at its end. An append between
the load and the store of another thread is lost.
-/

namespace Appends

open List Function

inductive Step
  | load (i : ℕ)
  | store (i : ℕ)

def Step.thread : Step → ℕ
  | .load i | .store i => i

structure Shared (α : Type*) where
  list : List α
  loaded : ℕ → List α

variable {α : Type*} {steps : List Step}

def Step.next (items : List α) : Step → Shared α → Shared α
  | .load i, s => { s with loaded := Function.update s.loaded i s.list }
  | .store i, s =>
    match items[i]? with
    | none => s
    | some x => { s with list := s.loaded i ++ [x] }

def exec (items : List α) (steps : List Step) (s : Shared α) : Shared α :=
  steps.foldl (fun s e => e.next items s) s

def empty : Shared α := ⟨[], fun _ => []⟩

def run (items : List α) (steps : List Step) : List α := (exec items steps empty).list

def Complete (k : ℕ) (steps : List Step) : Prop :=
  ∀ i < k, steps.filter (fun e => e.thread = i) = [.load i, .store i]

theorem exec_cons (items : List α) (e : Step) (steps : List Step) (s : Shared α) :
    exec items (e :: steps) s = exec items steps (e.next items s) := rfl

theorem exec_append (items : List α) (steps steps' : List Step) (s : Shared α) :
    exec items (steps ++ steps') s = exec items steps' (exec items steps s) := foldl_append

/-! ### Elements -/

def Shared.From (items : List α) (s : Shared α) : Prop :=
  (∀ x ∈ s.list, x ∈ items) ∧ ∀ i, ∀ x ∈ s.loaded i, x ∈ items

theorem Shared.From.next {items : List α} {s : Shared α} (h : s.From items) (e : Step) :
    (e.next items s).From items := by
  cases e with
  | load i =>
    refine ⟨h.1, ?_⟩
    rw [Step.next, forall_update_iff s.loaded fun _ l => ∀ x ∈ l, x ∈ items]
    exact ⟨h.1, fun j _ => h.2 j⟩
  | store i =>
    rw [Step.next]
    split
    · exact h
    next x hx =>
    refine ⟨fun y hy => ?_, h.2⟩
    obtain hy | hy := mem_append.mp hy
    · exact h.2 i y hy
    · rw [mem_singleton.mp hy]
      exact mem_of_getElem? hx

theorem mem_of_mem_run {items : List α} {x : α} (hx : x ∈ run items steps) :
    x ∈ items := by
  have hfrom : (exec items steps empty).From items :=
    foldlRecOn steps _ (by simp [Shared.From, empty]) fun _ h e _ => h.next e
  exact hfrom.1 x hx

@[simp] theorem run_nil (steps : List Step) : run ([] : List α) steps = [] :=
  eq_nil_iff_forall_not_mem.mpr fun _ hx => not_mem_nil (mem_of_mem_run hx)

/-! ### One thread, and threads one after the other -/

theorem exec_filter {x : α} (steps : List Step) {s t : Shared α} (hlist : s.list = t.list)
    (hloaded : s.loaded 0 = t.loaded 0) :
    (exec [x] steps s).list = (exec [x] (steps.filter fun e => e.thread = 0) t).list := by
  induction steps generalizing s t with
  | nil => exact hlist
  | cons e steps ih =>
    by_cases he : e.thread = 0
    · rw [filter_cons_of_pos (by simpa using he), exec_cons, exec_cons]
      cases e with
      | load i =>
        obtain rfl : i = 0 := he
        exact ih hlist (by simp [Step.next, hlist])
      | store i =>
        obtain rfl : i = 0 := he
        exact ih (by simp [Step.next, hloaded]) hloaded
    · rw [filter_cons_of_neg (by simpa using he), exec_cons]
      cases e with
      | load i =>
        have hi : 0 ≠ i := Ne.symm he
        exact ih hlist (by simp [Step.next, update_of_ne hi, hloaded])
      | store i =>
        have hnone : ([x] : List α)[i]? = none := by
          rw [getElem?_eq_none_iff, length_singleton]
          exact Nat.one_le_iff_ne_zero.mpr he
        exact ih (by simp [Step.next, hnone, hlist]) (by simp [Step.next, hnone, hloaded])

theorem run_singleton {x : α} (h : Complete 1 steps) : run [x] steps = [x] := by
  rw [run, exec_filter steps rfl rfl, h 0 Nat.one_pos]
  rfl

def inOrder (k : ℕ) : List Step := (List.range k).flatMap fun i => [.load i, .store i]

theorem inOrder_succ (k : ℕ) : inOrder (k + 1) = inOrder k ++ [.load k, .store k] := by
  simp [inOrder, range_succ]

theorem exec_inOrder (items : List α) {k : ℕ} (hk : k ≤ items.length) :
    (exec items (inOrder k) empty).list = items.take k := by
  induction k with
  | zero => rfl
  | succ k ih =>
    have hget : items[k]? = some (items[k]) := getElem?_eq_getElem hk
    rw [inOrder_succ, exec_append, exec_cons, exec_cons]
    show (Step.next items (.store k) _).list = _
    simp only [Step.next, hget, update_self]
    rw [ih (Nat.le_of_succ_le hk), take_append_getElem]

theorem run_inOrder (items : List α) : run items (inOrder items.length) = items := by
  rw [run, exec_inOrder items (Nat.le_refl _), take_length]

theorem complete_inOrder (k : ℕ) : Complete k (inOrder k) := by
  have hlater : ∀ k i, k ≤ i → (inOrder k).filter (fun e => e.thread = i) = [] := by
    intro k i hi
    rw [filter_eq_nil_iff]
    intro e he
    obtain ⟨j, hj, he⟩ := mem_flatMap.mp he
    have hj := mem_range.mp hj
    have hthread : e.thread = j := by
      simp only [mem_cons, not_mem_nil, or_false] at he
      obtain rfl | rfl := he <;> rfl
    simp only [hthread, decide_eq_true_eq]
    omega
  induction k with
  | zero => exact fun i hi => absurd hi (Nat.not_lt_zero i)
  | succ k ih =>
    intro i hi
    rw [inOrder_succ, filter_append]
    obtain hlt | rfl := Nat.lt_succ_iff_lt_or_eq.mp hi
    · rw [ih i hlt]
      simp [Step.thread, Nat.ne_of_gt hlt]
    · rw [hlater i i (Nat.le_refl i)]
      simp [Step.thread]

end Appends
