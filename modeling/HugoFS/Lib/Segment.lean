import Mathlib.Data.List.Basic
import Mathlib.Tactic.Common

/-!
# Segments of a sequence

A buffer, a file or a device is a function from offsets to values. `splice` writes a
list over it and `read` takes a list out of it.
-/

namespace Segment

open List Nat

variable {β : Type}

def splice (f : ℕ → β) (pos : ℕ) (p : List β) : ℕ → β := fun x =>
  if pos ≤ x then (p[x - pos]?).getD (f x) else f x

def read (f : ℕ → β) (pos n : ℕ) : List β := (List.range n).map fun k => f (pos + k)

section Splice

variable {f g : ℕ → β} {pos x : ℕ} {p : List β}

theorem splice_of_lt (h : x < pos) : splice f pos p x = f x := if_neg (by omega)

theorem splice_of_le (h : pos + p.length ≤ x) : splice f pos p x = f x := by
  rw [splice, if_pos (by omega), getElem?_eq_none (by omega), Option.getD_none]

theorem splice_of_not_mem (h : ¬(pos ≤ x ∧ x < pos + p.length)) : splice f pos p x = f x := by
  by_cases hx : x < pos
  · exact splice_of_lt hx
  · exact splice_of_le (by omega)

theorem splice_of_mem (h : pos ≤ x) (h' : x < pos + p.length) :
    splice f pos p x = p.get ⟨x - pos, by omega⟩ := by
  rw [splice, if_pos h, getElem?_eq_getElem (by omega), Option.getD_some]
  rfl

@[simp] theorem splice_nil : splice f pos [] = f := by
  funext x
  exact splice_of_not_mem fun h => Nat.lt_irrefl _ (Nat.lt_of_le_of_lt h.1 h.2)

theorem splice_append (q : List β) :
    splice (splice f pos p) (pos + p.length) q = splice f pos (p ++ q) := by
  funext x
  by_cases hx : pos + p.length ≤ x
  · have hsub : x - pos - p.length = x - (pos + p.length) := by omega
    rw [splice, if_pos hx, splice_of_le hx, splice, if_pos (by omega),
      getElem?_append_right (by omega), hsub]
  rw [splice_of_lt (by omega)]
  by_cases hpos : pos ≤ x
  · rw [splice, splice, if_pos hpos, if_pos hpos, getElem?_append_left (by omega)]
  · rw [splice_of_lt (by omega), splice_of_lt (by omega)]

theorem splice_map {γ : Type} (c : β → γ) (h : pos ≤ x) (h' : x < pos + p.length) (g : ℕ → γ) :
    splice g pos (p.map c) x = c (splice f pos p x) := by
  rw [splice_of_mem h h', splice_of_mem h (by rwa [length_map])]
  simp

theorem splice_shift (f : ℕ → β) (base pos : ℕ) (p : List β) (x : ℕ) :
    splice f (base + pos) p (base + x) = splice (fun y => f (base + y)) pos p x := by
  have hsub : base + x - (base + pos) = x - pos := by omega
  by_cases h : pos ≤ x
  · rw [splice, splice, if_pos h, if_pos (by omega), hsub]
  · rw [splice_of_lt (by omega), splice_of_lt (by omega)]

theorem splice_other_block {size i j o : ℕ} (hp : pos + p.length ≤ size) (ho : o < size) (hij : j ≠ i) :
    splice f (i * size + pos) p (j * size + o) = f (j * size + o) := by
  refine splice_of_not_mem fun hin => ?_
  rcases Nat.lt_or_gt_of_ne hij with h | h
  · have := Nat.mul_le_mul_right size (Nat.succ_le_of_lt h)
    rw [Nat.succ_mul] at this
    omega
  have := Nat.mul_le_mul_right size (Nat.succ_le_of_lt h)
  rw [Nat.succ_mul] at this
  omega

end Splice

section Read

variable (f : ℕ → β) (pos : ℕ)

@[simp] theorem read_zero : read f pos 0 = [] := rfl

@[simp] theorem length_read (n : ℕ) : (read f pos n).length = n := by simp [read]

theorem read_add (m n : ℕ) : read f pos (m + n) = read f pos m ++ read f (pos + m) n := by
  rw [read, read, read, range_add, map_append, map_map]
  congr 1
  exact map_congr_left fun k _ => congrArg f (by simp [Nat.add_assoc])

variable {f pos}

theorem read_congr {g : ℕ → β} {pos' n : ℕ} (h : ∀ k < n, f (pos + k) = g (pos' + k)) :
    read f pos n = read g pos' n :=
  map_congr_left fun k hk => h k (mem_range.mp hk)

end Read

theorem same_block {size off k : ℕ} (h : off % size + k < size) :
    (off + k) / size = off / size ∧ (off + k) % size = off % size + k := by
  have hk : off + k = size * (off / size) + (off % size + k) := by
    have := div_add_mod off size
    omega
  rw [hk, mul_add_div (by omega), div_eq_of_lt h, mul_add_mod, mod_eq_of_lt h]
  exact ⟨rfl, rfl⟩

end Segment
