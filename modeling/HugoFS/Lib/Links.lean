import Mathlib.Data.List.Chain
import Mathlib.Data.List.Nodup
import Mathlib.Logic.Function.Basic

/-!
# Doubly linked lists

Nodes with links in both directions, between a head and a tail to which a link may be missing.
A list is a chain of nodes that are `Joined`. `connect` joins two nodes and `bypass` takes one
out.
-/

namespace Links

open List

variable {α : Type} [DecidableEq α]

structure Pointers (α : Type) where
  next : α → Option α
  prev : α → Option α

/-- The node `b` comes after `a`; the sentinel `stop` may be missing. -/
def Meets (link : α → Option α) (stop a b : α) : Prop :=
  link a = some b ∨ b = stop ∧ link a = none

def Joined (k : Pointers α) (head tail a b : α) : Prop :=
  Meets k.next tail a b ∧ Meets k.prev head b a

/-- The nodes of a loop, for at most as many rounds as there are nodes. -/
def nodes (link : α → Option α) (stop : α) : ℕ → α → List α
  | 0, _ => []
  | k + 1, a =>
    match link a with
    | none => []
    | some b => if b = stop then [] else b :: nodes link stop k b

/-- A loop that goes on while the next node passes the test; `none` when it makes more
rounds than there are nodes. -/
def walk (link : α → Option α) (test : α → Bool) : ℕ → α → Option α
  | 0, _ => none
  | k + 1, a =>
    match link a with
    | none => some a
    | some b => if test b then walk link test k b else some a

section Loops

variable {link : α → Option α} {stop a : α} {l : List α} {k : ℕ}

theorem nodes_eq (h : (a :: l ++ [stop]).IsChain (Meets link stop)) (hstop : stop ∉ l)
    (hk : l.length ≤ k) : nodes link stop k a = l := by
  induction l generalizing a k with
  | nil =>
    cases k with
    | zero => rfl
    | succ k =>
      obtain h | ⟨-, h⟩ := (isChain_pair.mp h : Meets link stop a stop) <;> simp [nodes, h]
  | cons b l ih =>
    obtain ⟨hb, hl⟩ := isChain_cons_cons.mp h
    rw [mem_cons, not_or] at hstop
    rw [length_cons] at hk
    obtain ⟨k, rfl⟩ : ∃ j, k = j + 1 := ⟨k - 1, by omega⟩
    have hlink : link a = some b := hb.resolve_right fun hb => hstop.1 hb.1.symm
    simp [nodes, hlink, Ne.symm hstop.1, ih hl hstop.2 (Nat.le_of_succ_le_succ hk)]

omit [DecidableEq α] in
theorem walk_eq {test : α → Bool} (h : (a :: l ++ [stop]).IsChain (Meets link stop))
    (hstop : stop ∉ l) (htest : test stop = false) (hk : l.length < k) :
    walk link test k a = some ((l.takeWhile test).getLastD a) := by
  induction l generalizing a k with
  | nil =>
    obtain ⟨k, rfl⟩ : ∃ j, k = j + 1 := ⟨k - 1, by omega⟩
    obtain h | ⟨-, h⟩ := (isChain_pair.mp h : Meets link stop a stop) <;>
      simp [walk, h, htest]
  | cons b l ih =>
    obtain ⟨hb, hl⟩ := isChain_cons_cons.mp h
    rw [mem_cons, not_or] at hstop
    rw [length_cons] at hk
    obtain ⟨k, rfl⟩ : ∃ j, k = j + 1 := ⟨k - 1, by omega⟩
    have hlink : link a = some b := hb.resolve_right fun hb => hstop.1 hb.1.symm
    cases htb : test b with
    | false => simp [walk, hlink, htb]
    | true =>
      simp only [walk, hlink, htb, if_true]
      rw [takeWhile_cons_of_pos htb, getLastD_cons]
      exact ih hl hstop.2 (Nat.lt_of_succ_lt_succ hk)

omit [DecidableEq α] in
theorem isChain_drop {R : α → α → Prop} {m m' : List α} (h : (a :: (l ++ m) ++ m').IsChain R) :
    (l.getLastD a :: m ++ m').IsChain R := by
  induction l generalizing a with
  | nil => exact h
  | cons b l ih =>
    rw [getLastD_cons]
    exact ih (isChain_cons_cons.mp h).2

end Loops

/-! ### Joining nodes -/

def connect (head tail : α) (k : Pointers α) (a b : α) : Pointers α where
  next c := if c = a ∧ b ≠ tail then some b else k.next c
  prev c := if c = b ∧ a ≠ head then some a else k.prev c

def connectAll (head tail : α) : Pointers α → List α → Pointers α
  | k, a :: b :: l => connectAll head tail (connect head tail k a b) (b :: l)
  | k, _ => k

section Connect

variable {head tail a p q : α} {k : Pointers α} {l : List α}

theorem connectAll_next (ha : a ∉ l.dropLast) :
    (connectAll head tail k l).next a = k.next a := by
  fun_induction connectAll head tail k l with
  | case1 k b c l ih =>
    rw [dropLast_cons_cons, mem_cons, not_or] at ha
    rw [ih ha.2]
    exact if_neg fun h => ha.1 h.1
  | case2 => rfl

theorem connectAll_prev (ha : a ∉ l.tail) : (connectAll head tail k l).prev a = k.prev a := by
  fun_induction connectAll head tail k l with
  | case1 k b c l ih =>
    rw [tail_cons, mem_cons, not_or] at ha
    rw [ih ha.2]
    exact if_neg fun h => ha.1 h.1
  | case2 => rfl

theorem isChain_connectAll (hnodup : (p :: (l ++ [q])).Nodup) (hl : l ≠ [])
    (hnew : ∀ a ∈ l, a ≠ head ∧ a ≠ tail ∧ k.next a = none)
    (hprev : p = head → ∀ a ∈ l.head?, k.prev a = none) :
    (p :: (l ++ [q])).IsChain (Joined (connectAll head tail k (p :: (l ++ [q]))) head tail) := by
  induction l generalizing p k with
  | nil => exact absurd rfl hl
  | cons b l ih =>
    rw [cons_append] at hnodup ⊢
    obtain ⟨hp, hnodup'⟩ := nodup_cons.mp hnodup
    obtain ⟨hbhead, hbtail, hb⟩ := hnew b mem_cons_self
    refine isChain_cons_cons.mpr ⟨⟨.inl ?_, ?_⟩, ?_⟩
    · rw [connectAll, connectAll_next fun h => hp (dropLast_subset _ h)]
      exact if_pos ⟨rfl, hbtail⟩
    · rw [Meets, connectAll, connectAll_prev (nodup_cons.mp hnodup').1]
      by_cases hph : p = head
      · exact .inr ⟨hph, (if_neg fun h => h.2 hph).trans (hprev hph b rfl)⟩
      · exact .inl (if_pos ⟨rfl, hph⟩)
    have hbp : ∀ a ∈ b :: l, (connect head tail k p b).next a = none := by
      intro a ha
      have hap : a ≠ p := fun heq => hp (heq ▸ mem_append_left [q] ha)
      exact (if_neg fun h => hap h.1).trans (hnew a ha).2.2
    cases l with
    | nil =>
      refine isChain_pair.mpr ⟨?_, .inl (if_pos ⟨rfl, hbhead⟩)⟩
      by_cases hqt : q = tail
      · exact .inr ⟨hqt, (if_neg fun h => h.2 hqt).trans (hbp b mem_cons_self)⟩
      · exact .inl (if_pos ⟨rfl, hqt⟩)
    | cons c l =>
      refine ih hnodup' (by simp) (fun a ha => ?_) fun heq => absurd heq hbhead
      obtain ⟨h1, h2, -⟩ := hnew a (mem_cons_of_mem _ ha)
      exact ⟨h1, h2, hbp a (mem_cons_of_mem _ ha)⟩

omit [DecidableEq α] in
theorem isChain_imp {R S : α → α → Prop} (h : l.IsChain R)
    (hRS : ∀ a ∈ l.dropLast, ∀ b ∈ l.tail, R a b → S a b) : l.IsChain S := by
  induction h with
  | nil => exact .nil
  | singleton a => exact .singleton a
  | @cons_cons a b l hab _ ih =>
    refine .cons_cons (hRS a (by simp) b (by simp) hab) (ih fun c hc d hd => ?_)
    exact hRS c (by simp [hc]) d (mem_cons_of_mem _ hd)

omit [DecidableEq α] in
theorem isChain_congr {j : Pointers α} (h : l.IsChain (Joined k head tail))
    (hnext : ∀ a ∈ l.dropLast, j.next a = k.next a) (hprev : ∀ a ∈ l.tail, j.prev a = k.prev a) :
    l.IsChain (Joined j head tail) :=
  isChain_imp h fun a ha b hb hab => by
    rw [Joined, Meets, Meets, hnext a ha, hprev b hb]
    exact hab

omit [DecidableEq α] in
theorem isChain_joined : l.IsChain (Joined k head tail) ↔
    l.IsChain (Meets k.next tail) ∧ l.reverse.IsChain (Meets k.prev head) := by
  rw [isChain_reverse]
  refine ⟨fun h => ⟨h.imp fun _ _ h => h.1, h.imp fun _ _ h => h.2⟩, fun h => ?_⟩
  obtain ⟨hnext, hprev⟩ := h
  induction hnext with
  | nil => exact .nil
  | singleton a => exact .singleton a
  | cons_cons hab _ ih =>
    obtain ⟨hba, hprev⟩ := isChain_cons_cons.mp hprev
    exact .cons_cons ⟨hab, hba⟩ (ih hprev)

omit [DecidableEq α] in
theorem exists_concat (a : α) (l : List α) : ∃ X, a :: l = X ++ [l.getLastD a] := by
  induction l generalizing a with
  | nil => exact ⟨[], rfl⟩
  | cons b l ih =>
    obtain ⟨X, hX⟩ := ih b
    exact ⟨a :: X, by rw [getLastD_cons, cons_append, ← hX]⟩

/-- New nodes between a chain that starts with the head and one that ends with the tail; the
nodes of the second one are given from the tail on. -/
theorem isChain_insert {A B : List α} (hA : (head :: A).IsChain (Joined k head tail))
    (hB : (B.reverse ++ [tail]).IsChain (Joined k head tail))
    (hnodup : (head :: A ++ (l ++ (B.reverse ++ [tail]))).Nodup) (hl : l ≠ [])
    (hnew : ∀ a ∈ l, k.next a = none ∧ k.prev a = none) :
    (head :: A ++ (l ++ (B.reverse ++ [tail]))).IsChain (Joined
      (connectAll head tail k (A.getLastD head :: (l ++ [B.getLastD tail]))) head tail) := by
  obtain ⟨X, hX⟩ := exists_concat head A
  obtain ⟨Y, hY⟩ := exists_concat tail B
  have hY' : B.reverse ++ [tail] = B.getLastD tail :: Y.reverse := by
    rw [← reverse_cons, hY, reverse_concat]
  have hends : ∀ a ∈ l, a ≠ head ∧ a ≠ tail := by
    intro a ha
    simp only [nodup_append, mem_cons, mem_append] at hnodup
    grind
  generalize A.getLastD head = p at hX ⊢
  generalize B.getLastD tail = q at hY' ⊢
  rw [hX] at hA
  rw [hY'] at hB
  rw [hX, hY', append_assoc, singleton_append] at hnodup ⊢
  have hpath : (p :: (l ++ [q])).Nodup := hnodup.sublist (by simp)
  have hlast : (p :: (l ++ [q])).dropLast = p :: l := by
    rw [← cons_append, dropLast_concat]
  simp only [nodup_append, nodup_cons, mem_cons, mem_append] at hnodup
  -- the chains before `p` and after `q` keep their links
  rw [isChain_split, isChain_cons_split]
  refine ⟨isChain_congr hA (fun a ha => connectAll_next ?_) fun a ha => connectAll_prev ?_,
    isChain_connectAll hpath hl
      (fun a ha => ⟨(hends a ha).1, (hends a ha).2, (hnew a ha).1⟩)
      fun _ a ha => (hnew a (mem_of_mem_head? ha)).2,
    isChain_congr hB (fun a ha => connectAll_next ?_) fun a ha => connectAll_prev ?_⟩
  · rw [dropLast_concat] at ha
    rw [hlast]
    grind
  · have ha' := mem_of_mem_tail ha
    rw [tail_cons]
    grind
  · have ha' := dropLast_subset _ ha
    rw [hlast]
    grind
  · rw [tail_cons] at ha ⊢
    grind

end Connect

/-! ### Taking out nodes -/

/-- The node `x` after `a` is taken out. Its own links stay as they are. -/
def bypass (k : Pointers α) (a x : α) : Pointers α where
  next c := if c = a then k.next x else k.next c
  prev c := if k.next x = some c then some a else k.prev c

section Bypass

variable {head tail a x b : α} {k : Pointers α} {l l' : List α}

theorem isChain_bypass_next (hnodup : (l ++ a :: x :: l').Nodup)
    (h : (l ++ a :: x :: l').IsChain (Meets k.next tail)) :
    (l ++ a :: l').IsChain (Meets (bypass k a x).next tail) := by
  simp only [nodup_append, nodup_cons, mem_cons] at hnodup
  obtain ⟨hl, -, hl'⟩ := isChain_append_cons_cons.mp h
  rw [isChain_cons] at hl'
  rw [isChain_split, isChain_cons]
  refine ⟨isChain_imp hl fun c hc d _ hcd => ?_, fun c hc => ?_,
    hl'.2.imp_of_mem_imp fun c d hc _ hcd => ?_⟩
  · rw [dropLast_concat] at hc
    have hnext : (bypass k a x).next c = k.next c := if_neg (by grind)
    rwa [Meets, hnext]
  · have hnext : (bypass k a x).next a = k.next x := if_pos rfl
    rw [Meets, hnext]
    exact hl'.1 c hc
  · have hnext : (bypass k a x).next c = k.next c := if_neg (by grind)
    rwa [Meets, hnext]

theorem isChain_bypass (hnodup : (l ++ a :: x :: b :: l').Nodup) (hb : k.next x = some b)
    (h : (l ++ a :: x :: b :: l').IsChain (Joined k head tail)) :
    (l ++ a :: b :: l').IsChain (Joined (bypass k a x) head tail) := by
  simp only [nodup_append, nodup_cons, mem_cons] at hnodup
  obtain ⟨hl, -, hl'⟩ := isChain_append_cons_cons.mp h
  refine isChain_append_cons_cons.mpr ⟨isChain_congr hl (fun c hc => if_neg ?_)
    (fun c hc => if_neg ?_), ⟨.inl ((if_pos rfl).trans hb), .inl (if_pos hb)⟩,
    isChain_congr (isChain_cons_cons.mp hl').2 (fun c hc => if_neg ?_) fun c hc => if_neg ?_⟩
  · rw [dropLast_concat] at hc
    grind
  · have := mem_of_mem_tail hc
    grind
  · have := dropLast_subset _ hc
    grind
  · rw [tail_cons] at hc
    grind

end Bypass

end Links
