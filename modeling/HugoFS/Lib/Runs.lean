import Mathlib.Data.Nat.Notation
import Mathlib.Logic.Function.Basic
import Mathlib.Logic.Relation

/-!
# Runs of a guarded system

A system takes steps `next c` for calls `c` that its guard allows in the current state. What is
not determined by the state (a clock, a choice, a failure) is part of the call. A property that
holds initially and is kept by every allowed step holds in every state that is reached.
-/

namespace Runs

open Function

variable {σ C : Type} (next : C → σ → σ) (ok : σ → C → Prop)
variable {cs : List C} {st : σ}

inductive Step : σ → σ → Prop
  | call {st : σ} (c : C) (hok : ok st c) : Step st (next c st)

def Reach (st : σ) : σ → Prop := Relation.ReflTransGen (Step next ok) st

def exec (cs : List C) (st : σ) : σ := cs.foldl (fun st c => next c st) st

def Legal : List C → σ → Prop
  | [], _ => True
  | c :: cs, st => ok st c ∧ Legal cs (next c st)

instance Legal.instDecidable [∀ st c, Decidable (ok st c)] :
    (cs : List C) → (st : σ) → Decidable (Legal next ok cs st)
  | [], _ => isTrue trivial
  | c :: cs, st =>
    have := Legal.instDecidable cs (next c st)
    inferInstanceAs (Decidable (ok st c ∧ Legal next ok cs (next c st)))

def Always (P : σ → Prop) : List C → σ → Prop
  | [], st => P st
  | c :: cs, st => P st ∧ Always P cs (next c st)

instance Always.instDecidable (P : σ → Prop) [DecidablePred P] :
    (cs : List C) → (st : σ) → Decidable (Always next P cs st)
  | [], st => inferInstanceAs (Decidable (P st))
  | c :: cs, st =>
    have := Always.instDecidable P cs (next c st)
    inferInstanceAs (Decidable (P st ∧ Always next P cs (next c st)))

variable {next ok}

@[simp] theorem exec_cons (c : C) (cs : List C) (st : σ) :
    exec next (c :: cs) st = exec next cs (next c st) := rfl

theorem Reach.refl (st : σ) : Reach next ok st st := Relation.ReflTransGen.refl

theorem Reach.step {st st' : σ} (h : Reach next ok st st') {c : C} (hok : ok st' c) :
    Reach next ok st (next c st') :=
  Relation.ReflTransGen.tail h (.call c hok)

theorem Reach.trans {st st' st'' : σ} (h : Reach next ok st st')
    (h' : Reach next ok st' st'') : Reach next ok st st'' :=
  Relation.ReflTransGen.trans h h'

theorem Reach.invariant {I : σ → Prop} (hstep : ∀ st c, I st → ok st c → I (next c st))
    {st st' : σ} (h : Reach next ok st st') (hI : I st) : I st' := by
  induction h with
  | refl => exact hI
  | tail _ hs ih =>
    cases hs with
    | call c hok => exact hstep _ c ih hok

theorem reach_exec (h : Legal next ok cs st) :
    Reach next ok st (exec next cs st) := by
  induction cs generalizing st with
  | nil => exact .refl st
  | cons c cs ih => exact ((Reach.refl st).step h.1).trans (ih h.2)

theorem Always.head {P : σ → Prop} (h : Always next P cs st) : P st := by
  cases cs with
  | nil => exact h
  | cons c cs => exact h.1

theorem Always.legal {D : σ → Prop} (h : Always next D cs st) :
    Legal next (fun st c => D (next c st)) cs st := by
  induction cs generalizing st with
  | nil => trivial
  | cons c cs ih => exact ⟨h.2.head, ih h.2⟩

theorem legal_of_forall (h : ∀ st c, ok st c) : Legal next ok cs st := by
  induction cs generalizing st with
  | nil => trivial
  | cons c cs ih => exact ⟨h st c, ih⟩

variable {I P : σ → Prop} {dom : σ → C → Prop}

/-- The exact guard of a property of states together with one of steps: among the calls of
a domain, those that keep both are the allowed ones. -/
theorem always_and_legal_iff {T : σ → C → Prop} (hP : ∀ st, I st → P st)
    (hkeep : ∀ st c, I st → dom st c → ok st c → I (next c st) ∧ T st c)
    (hbreak : ∀ st c, I st → dom st c → P (next c st) → T st c → ok st c)
    (hdom : Legal next dom cs st) (hI : I st) :
    Always next P cs st ∧ Legal next T cs st ↔ Legal next ok cs st := by
  induction cs generalizing st with
  | nil => exact iff_of_true ⟨hP st hI, trivial⟩ trivial
  | cons c cs ih =>
    constructor
    · rintro ⟨hA, hT⟩
      have hok := hbreak st c hI hdom.1 hA.2.head hT.1
      have hI' := (hkeep st c hI hdom.1 hok).1
      exact ⟨hok, (ih hdom.2 hI').mp ⟨hA.2, hT.2⟩⟩
    · intro h
      obtain ⟨hI', hT⟩ := hkeep st c hI hdom.1 h.1
      obtain ⟨hA, hL⟩ := (ih hdom.2 hI').mpr h.2
      exact ⟨⟨hP st hI, hA⟩, hT, hL⟩

theorem always_iff_legal (hP : ∀ st, I st → P st)
    (hkeep : ∀ st c, I st → dom st c → ok st c → I (next c st))
    (hbreak : ∀ st c, I st → dom st c → P (next c st) → ok st c)
    (hdom : Legal next dom cs st) (hI : I st) :
    Always next P cs st ↔ Legal next ok cs st := by
  have h := always_and_legal_iff (T := fun _ _ => True) hP
    (fun st c hI hd hok => ⟨hkeep st c hI hd hok, trivial⟩)
    (fun st c hI hd hp _ => hbreak st c hI hd hp) hdom hI
  rw [← h]
  exact (and_iff_left (legal_of_forall fun _ _ => trivial)).symm

/-- The invariant rule along one run, with a domain of calls and a guard. -/
theorem always_of_legal (hP : ∀ st, I st → P st)
    (hkeep : ∀ st c, I st → dom st c → ok st c → I (next c st))
    (hdom : Legal next dom cs st) (h : Legal next ok cs st) (hI : I st) :
    Always next P cs st := by
  induction cs generalizing st with
  | nil => exact hP st hI
  | cons c cs ih => exact ⟨hP st hI, ih hdom.2 h.2 (hkeep st c hI hdom.1 h.1)⟩

/-- The progress rule: as long as the goal is not reached, some allowed step keeps the
invariant and lowers the measure. -/
theorem exists_reach {goal : σ → Prop} (μ : σ → ℕ)
    (hstep : ∀ st, I st → ¬goal st → ∃ c, ok st c ∧ I (next c st) ∧ μ (next c st) < μ st)
    (hI : I st) : ∃ st', Reach next ok st st' ∧ I st' ∧ goal st' := by
  induction hn : μ st using Nat.strongRecOn generalizing st with
  | _ n ih =>
    by_cases hgoal : goal st
    · exact ⟨st, .refl st, hI, hgoal⟩
    obtain ⟨c, hok, hI', hlt⟩ := hstep st hI hgoal
    obtain ⟨st', hreach, h⟩ := ih _ (hn ▸ hlt) hI' rfl
    exact ⟨st', ((Reach.refl st).step hok).trans hreach, h⟩

theorem update_eq_some {κ α : Type} [DecidableEq κ] {f : κ → Option α} {k k' : κ} {x : Option α}
    {a : α} (h : update f k x k' = some a) :
    k' = k ∧ x = some a ∨ k' ≠ k ∧ f k' = some a := by
  by_cases hk : k' = k
  · subst hk
    rw [update_self] at h
    exact .inl ⟨rfl, h⟩
  · rw [update_of_ne hk] at h
    exact .inr ⟨hk, h⟩

end Runs
