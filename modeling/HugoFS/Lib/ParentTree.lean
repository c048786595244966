import Mathlib.Logic.Relation

/-!
# Trees as child relations

A child relation is a rooted tree when only nodes have children, every node is reached from the
root, and no point is its own ancestor. The one operation is `regraft`: all edges to a point
are replaced by a single edge from a node that does not lie below it.
-/

open Relation

variable {α : Type*}

structure ParentTree (node : α → Prop) (child : α → α → Prop) (root : α) : Prop where
  source : ∀ {u v}, child u v → node u
  reach : ∀ {x}, node x → ReflTransGen child root x
  acyclic : ∀ x, ¬TransGen child x x

/-- `child'` arises from `child` by hanging `x` below `p`, where edges to points
that are not nodes may be dropped. -/
structure Regrafts (node : α → Prop) (child child' : α → α → Prop) (p x : α) : Prop where
  sound : ∀ {u v}, child' u v → child u v ∧ v ≠ x ∨ u = p ∧ v = x
  kept : ∀ {u v}, child u v → v ≠ x → node v → child' u v
  hung : child' p x

namespace ParentTree

variable {node node' : α → Prop} {child child' : α → α → Prop} {root p x : α}

section

variable (h : ParentTree node child root) {y : α}
include h

theorem eq_of_reach (hx : ¬node x) (hy : ReflTransGen child x y) : y = x := by
  rcases hy.cases_head with rfl | ⟨c, hc, -⟩
  · rfl
  · exact absurd (h.source hc) hx

section

variable (hg : Regrafts node child child' p x)
include hg

theorem reach_kept_below (hy : ReflTransGen child x y) (hn : node y) :
    ReflTransGen child' x y := by
  induction hy with
  | refl => exact .refl
  | @tail b c hb hbc ih =>
    -- an edge back to `x` would close a cycle
    have hne : c ≠ x := by
      rintro rfl
      exact h.acyclic _ (TransGen.tail' hb hbc)
    exact (ih (h.source hbc)).tail (hg.kept hbc hne hn)

theorem reach_kept_beside {a : α} (hy : ReflTransGen child a y) (hn : node y)
    (hx : ¬ReflTransGen child x y) : ReflTransGen child' a y := by
  induction hy using ReflTransGen.head_induction_on with
  | refl => exact .refl
  | @head a c hac hcy ih =>
    have hne : c ≠ x := by
      rintro rfl
      exact hx hcy
    have hc : node c := by
      rcases hcy.cases_head with rfl | ⟨d, hd, -⟩
      · exact hn
      · exact h.source hd
    exact ih.head (hg.kept hac hne hc)

omit h in
theorem reach_old (hp : ¬ReflTransGen child x p)
    (hy : ReflTransGen child' x y) : ReflTransGen child x y := by
  induction hy with
  | refl => exact .refl
  | tail _ hbc ih =>
    rcases hg.sound hbc with ⟨hbc, -⟩ | ⟨rfl, -⟩
    · exact ih.tail hbc
    · exact absurd ih hp

omit h in
theorem path_cases {a b : α} (hab : TransGen child' a b) :
    TransGen child a b ∨ ReflTransGen child' a p ∧ ReflTransGen child' x b := by
  induction hab with
  | single hac =>
    rcases hg.sound hac with ⟨hac, -⟩ | ⟨rfl, rfl⟩
    · exact .inl (.single hac)
    · exact .inr ⟨.refl, .refl⟩
  | @tail b c hab hbc ih =>
    rcases hg.sound hbc with ⟨hold, -⟩ | ⟨rfl, rfl⟩
    · exact ih.imp (fun h => h.tail hold) fun h => ⟨h.1, h.2.tail hbc⟩
    · exact .inr ⟨hab.to_reflTransGen, .refl⟩

theorem regraft
    (hp : node p) (hbelow : ¬ReflTransGen child x p) (hsrc : ∀ {u v}, child' u v → node' u)
    (hnode : ∀ {y}, node' y → node y ∨ y = x) : ParentTree node' child' root where
  source := hsrc
  reach {y} hy := by
    have hroot : ReflTransGen child' root x :=
      (h.reach_kept_beside hg (h.reach hp) hp hbelow).tail hg.hung
    rcases hnode hy with hy | rfl
    · by_cases hxy : ReflTransGen child x y
      · exact hroot.trans (h.reach_kept_below hg hxy hy)
      · exact h.reach_kept_beside hg (h.reach hy) hy hxy
    · exact hroot
  acyclic y hy := by
    rcases path_cases hg hy with hold | ⟨hyp, hxy⟩
    · exact h.acyclic y hold
    · exact hbelow (reach_old hg hbelow (hxy.trans hyp))

end

theorem congr (hn : ∀ x, node' x ↔ node x)
    (hc : ∀ u v, child' u v ↔ child u v) : ParentTree node' child' root := by
  obtain rfl : node' = node := funext fun x => propext (hn x)
  obtain rfl : child' = child := funext fun u => funext fun v => propext (hc u v)
  exact h

end

end ParentTree
