import HugoFS.Lib.Program
import HugoFS.Lib.Runs

/-!
# Calls in flight

Clients issue calls on one store and advance them one store operation at a time. `Move.Isolated`
is the condition on a step: it gets in the way of no other call in flight. In a run of such
steps the calls behave as if each had been executed alone (`serial_of_isolated`).

The proof keeps the store of the serial execution beside the real one. They differ only in the
writes of calls in flight, and each such call, started on any store that agrees with the serial
one on what it has seen, would get where it is.
-/

namespace KV

open Function Finmap Runs Finset

variable {K : Type} [DecidableEq K] {V : K → Type} {ε ρ O κ : Type}

/-! ### The system -/

/-- What is left of a call: a program, or a transaction that waits to commit with
its result, its writes, the keys the store tracks for it, and the keys that were
written since its snapshot. -/
inductive Rest (V : K → Type) (ε ρ : Type) : Type
  | call (c : Call V ε ρ)
  | commit (r : Except ε ρ) (ws : List (Write V)) (tracked dirty : Finset K)

/-- One turn of a call: the keys it sees, its writes, and what is left, or the
result with which the call completes. -/
structure Turn (V : K → Type) (ε ρ : Type) where
  sees : K → Bool
  writes : List (Write V)
  next : Rest V ε ρ ⊕ Except ε ρ

def settle : Call V ε ρ → Rest V ε ρ ⊕ Except ε ρ
  | .done r => .inr r
  | c => .inl (.call c)

/-- The commit of a transaction. The caller gets the error of the body, and never
that of the commit. -/
def commitTurn (ws : List (Write V)) (tracked dirty : Finset K) : Except ε ρ → Turn V ε ρ
  | .error e => ⟨fun _ => false, [], .inr (.error e)⟩
  | .ok a => ⟨fun _ => false, if Disjoint tracked dirty then ws else [], .inr (.ok a)⟩

def Rest.turn : Rest V ε ρ → Finmap V → Turn V ε ρ
  | .call (.done r), _ => ⟨fun _ => false, [], .inr r⟩
  | .call (.get k next), s => ⟨fun x => x == k, [], settle (next (s.lookup k))⟩
  | .call (.scan p next), s => ⟨p, [], settle (next (s.restrict p))⟩
  | .call (.write ws next), _ => ⟨fun _ => false, ws, settle next⟩
  | .call (.txn b), s =>
    ⟨b.observes s, [], .inl (.commit (b.log s).1 (b.log s).2 (b.tracked s ∅) ∅)⟩
  | .commit r ws tracked dirty, _ => commitTurn ws tracked dirty r

def Rest.mark (ks : Finset K) : Rest V ε ρ → Rest V ε ρ
  | .call c => .call c
  | .commit r ws tracked dirty => .commit r ws tracked (dirty ∪ ks)

/-- A call in flight: its operation, what is left of it, and what it has seen and
written so far. -/
structure Job (V : K → Type) (ε ρ O : Type) where
  op : O
  rest : Rest V ε ρ
  seen : K → Bool
  wrote : List (Write V)

def Job.mark (ks : Finset K) (j : Job V ε ρ O) : Job V ε ρ O := { j with rest := j.rest.mark ks }

/-- The store, the call each client has in flight, and the completed calls with
what they reported. -/
structure Sys (κ : Type) (V : K → Type) (ε ρ O : Type) where
  store : Finmap V
  jobs : κ → Option (Job V ε ρ O)
  log : List (O × Except ε ρ)

inductive Move (κ O : Type)
  | issue (c : κ) (o : O)
  | advance (c : κ)

variable [DecidableEq κ] (calls : O → Call V ε ρ) {r : Rest V ε ρ} {seen : K → Bool} {s : Finmap V}

def Sys.issue (st : Sys κ V ε ρ O) (c : κ) (o : O) : Sys κ V ε ρ O :=
  match st.jobs c with
  | some _ => st
  | none =>
    match settle (calls o) with
    | .inr r => { st with log := st.log ++ [(o, r)] }
    | .inl rest => { st with jobs := Function.update st.jobs c (some ⟨o, rest, fun _ => false, []⟩) }

def nextJobs (jobs : κ → Option (Job V ε ρ O)) (c : κ) (j : Job V ε ρ O) (t : Turn V ε ρ) :
    κ → Option (Job V ε ρ O) :=
  Function.update (fun c' => (jobs c').map (Job.mark (writeKeys t.writes))) c
    (match t.next with
      | .inl rest => some ⟨j.op, rest, fun k => j.seen k || t.sees k, j.wrote ++ t.writes⟩
      | .inr _ => none)

def Sys.advance (st : Sys κ V ε ρ O) (c : κ) : Sys κ V ε ρ O :=
  match st.jobs c with
  | none => st
  | some j =>
    let t := j.rest.turn st.store
    { store := applyWrites t.writes st.store
      jobs := nextJobs st.jobs c j t
      log := match t.next with
        | .inl _ => st.log
        | .inr r => st.log ++ [(j.op, r)] }

def Move.next : Move κ O → Sys κ V ε ρ O → Sys κ V ε ρ O
  | .issue c o, st => st.issue calls c o
  | .advance c, st => st.advance c

def Turn.Clear (t : Turn V ε ρ) (j : Job V ε ρ O) : Prop :=
  (∀ k ∈ writeKeys t.writes, j.seen k = false ∧ k ∉ writeKeys j.wrote) ∧
    ∀ k ∈ writeKeys j.wrote, t.sees k = false
deriving Decidable

def Move.Isolated (st : Sys κ V ε ρ O) : Move κ O → Prop
  | .issue _ _ => True
  | .advance c => ∀ j ∈ st.jobs c, ∀ c', c' ≠ c → ∀ j' ∈ st.jobs c',
      (j.rest.turn st.store).Clear j'

instance [Fintype κ] (st : Sys κ V ε ρ O) (m : Move κ O) : Decidable (m.Isolated st) := by
  cases m <;> dsimp only [Move.Isolated] <;> infer_instance

/-- Completed calls, executed one after another from `s`, report what was reported
and lead to `s'`. -/
def Serial : List (O × Except ε ρ) → Finmap V → Finmap V → Prop
  | [], s, s' => s' = s
  | (o, r) :: h, s, s' => ((calls o).run s).1 = r ∧ Serial h ((calls o).run s).2 s'

instance Serial.instDecidable [DecidableEq ε] [DecidableEq ρ] [DecidableEq (Finmap V)] :
    (h : List (O × Except ε ρ)) → (s s' : Finmap V) → Decidable (Serial calls h s s')
  | [], s, s' => inferInstanceAs (Decidable (s' = s))
  | (o, r) :: h, s, s' =>
    have := Serial.instDecidable h ((calls o).run s).2 s'
    inferInstanceAs (Decidable (((calls o).run s).1 = r ∧ Serial calls h ((calls o).run s).2 s'))

/-! ### Serial executions -/

section Serial

variable {calls} {h : List (O × Except ε ρ)} {s s' : Finmap V}

theorem Serial.concat (hs : Serial calls h s s') {o : O} {r : Except ε ρ} {s'' : Finmap V}
    (hr : (calls o).run s' = (r, s'')) : Serial calls (h ++ [(o, r)]) s s'' := by
  induction h generalizing s with
  | nil =>
    obtain rfl : s' = s := hs
    exact ⟨by rw [hr], by rw [hr]; rfl⟩
  | cons x h ih => exact ⟨hs.1, ih hs.2⟩

theorem Serial.filter_isOk (hc : ∀ o, (calls o).FailsClean) (hs : Serial calls h s s') :
    Serial calls (h.filter fun x => x.2.isOk) s s' := by
  induction h generalizing s with
  | nil => exact hs
  | cons x h ih =>
    obtain ⟨o, r⟩ := x
    have ih' := ih hs.2
    rcases r with e | a
    · rw [hc o s e hs.1] at ih'
      exact ih'
    · exact ⟨hs.1, ih'⟩

end Serial

/-! ### One turn -/

def Rest.run : Rest V ε ρ → Finmap V → Except ε ρ × Finmap V
  | .call c, s => c.run s
  | .commit (.ok a) ws _ _, s => (.ok a, applyWrites ws s)
  | .commit (.error e) _ _ _, s => (.error e, s)

def runNext : Rest V ε ρ ⊕ Except ε ρ → Finmap V → Except ε ρ × Finmap V
  | .inl r, s => r.run s
  | .inr r, s => (r, s)

/-- A transaction that waits tracks only keys it has seen, and none of these was
written since. -/
def Rest.Clean (seen : K → Bool) : Rest V ε ρ → Prop
  | .call _ => True
  | .commit _ _ tracked dirty => (∀ k ∈ tracked, seen k = true) ∧ ∀ k ∈ dirty, seen k = false

@[simp] theorem Rest.run_mark (r : Rest V ε ρ) (ks : Finset K) (s : Finmap V) :
    (r.mark ks).run s = r.run s := by
  rcases r with c | ⟨_ | _, _, _, _⟩ <;> rfl

theorem Rest.Clean.mark (h : r.Clean seen) {ks : Finset K}
    (hk : ∀ k ∈ ks, seen k = false) : (r.mark ks).Clean seen := by
  cases r with
  | call c => trivial
  | commit r ws tracked dirty =>
    refine ⟨h.1, fun k hm => ?_⟩
    rcases mem_union.mp hm with hm | hm
    · exact h.2 k hm
    · exact hk k hm

theorem runNext_settle (c : Call V ε ρ) (s : Finmap V) : runNext (settle c) s = c.run s := by
  cases c <;> rfl

theorem Body.observes_of_tracked (b : Body V ε ρ) {own : Finset K} {k : K}
    (h : k ∈ b.tracked s own) : b.observes s k = true := by
  induction b generalizing s own with
  | pure a => simp [tracked] at h
  | throw e => simp [tracked] at h
  | get k' next ih =>
    rcases mem_union.mp h with h | h
    · split_ifs at h
      · cases h
      · simp [observes, mem_singleton.mp h]
    · simp [observes, ih _ h]
  | scan p next ih =>
    rcases mem_union.mp h with h | h
    · rw [mem_keys, ← lookup_isSome, lookup_restrict] at h
      by_cases hp : p k = true
      · simp [observes, hp]
      · simp [hp] at h
    · simp [observes, ih _ h]
  | put k' v next ih => exact ih h
  | del k' next ih => exact ih h

open Rest

/-- A turn leads on as the call would alone, on every store that agrees with the
present one on what the turn sees. -/
theorem Rest.run_turn (hc : r.Clean seen) {u : Finmap V}
    (hs : ∀ k, (r.turn s).sees k = true → u.lookup k = s.lookup k) :
    r.run u = runNext (r.turn s).next (applyWrites (r.turn s).writes u) := by
  cases r with
  | call c =>
    cases c with
    | done r => rfl
    | get k next =>
      show (next (u.lookup k)).run u = runNext (settle (next (s.lookup k))) u
      rw [hs k (beq_self_eq_true k), runNext_settle]
    | scan p next =>
      show (next (u.restrict p)).run u = runNext (settle (next (s.restrict p))) u
      rw [Body.restrict_congr (p := p) fun k hk => hs k hk, runNext_settle]
    | write ws next => exact (runNext_settle next _).symm
    | txn b =>
      have hl : b.log u = b.log s := b.log_congr fun k hk => (hs k hk).symm
      show (Call.txn b).run u = (commit (b.log s).1 (b.log s).2 _ _).run u
      rw [Call.run, Body.exec_eq_log, hl]
      rcases b.log s with ⟨_ | a, ws⟩ <;> rfl
  | commit r ws tracked dirty =>
    rcases r with e | a
    · rfl
    have hd : Disjoint tracked dirty :=
      disjoint_left.mpr fun k ht hd => by
        simpa [hc.1 k ht] using hc.2 k hd
    show _ = (_, applyWrites (if Disjoint tracked dirty then ws else []) u)
    rw [if_pos hd]
    rfl

theorem Rest.clean_of_turn {r' : Rest V ε ρ}
    (h : (r.turn s).next = .inl r') : r'.Clean fun k => seen k || (r.turn s).sees k := by
  have hsettle : ∀ c : Call V ε ρ, settle c = .inl r' → r'.Clean fun k => seen k || (r.turn s).sees k := by
    intro c hc
    cases c <;> cases hc <;> trivial
  cases r with
  | call c =>
    cases c with
    | done r => cases h
    | get k next => exact hsettle _ h
    | scan p next => exact hsettle _ h
    | write ws next => exact hsettle _ h
    | txn b =>
      cases h
      refine ⟨fun k hk => ?_, fun k hk => by cases hk⟩
      show (seen k || b.observes s k) = true
      rw [b.observes_of_tracked hk, Bool.or_true]
  | commit r ws tracked dirty => cases r <;> cases h

/-! ### The serial execution beside the real one -/

/-- Started on a store that agrees with `S` on what the job has seen, its call
gets where the job is. -/
structure Replays (S : Finmap V) (j : Job V ε ρ O) : Prop where
  run_eq : ∀ u : Finmap V, (∀ k, j.seen k = true → u.lookup k = S.lookup k) →
    (calls j.op).run u = j.rest.run (applyWrites j.wrote u)
  clean : j.rest.Clean j.seen

/-- `S` is the store of the serial execution of the completed calls, and the real
store is `S` with the writes of the calls in flight. -/
structure Shadow (s₀ : Finmap V) (st : Sys κ V ε ρ O) (S : Finmap V) : Prop where
  serial : Serial calls st.log s₀ S
  replays : ∀ {c j}, st.jobs c = some j → Replays calls S j
  apart : ∀ {c c' j j'}, c ≠ c' → st.jobs c = some j → st.jobs c' = some j' →
    ∀ k ∈ writeKeys j.wrote, j'.seen k = false ∧ k ∉ writeKeys j'.wrote
  own : ∀ {c j k}, st.jobs c = some j → k ∈ writeKeys j.wrote →
    st.store.lookup k = (applyWrites j.wrote S).lookup k
  other : ∀ {k}, (∀ c j, st.jobs c = some j → k ∉ writeKeys j.wrote) →
    st.store.lookup k = S.lookup k

section Shadow

variable {calls} {s₀ S : Finmap V} {st : Sys κ V ε ρ O} {c c' : κ} {j i : Job V ε ρ O}
  {jobs : κ → Option (Job V ε ρ O)}

omit [DecidableEq κ] in
theorem Shadow.lookup_eq (h : Shadow calls s₀ st S) (hj : st.jobs c = some j) {k : K}
    (hk : ∀ c' j', c' ≠ c → st.jobs c' = some j' → k ∉ writeKeys j'.wrote) :
    st.store.lookup k = (applyWrites j.wrote S).lookup k := by
  by_cases hw : k ∈ writeKeys j.wrote
  · exact h.own hj hw
  rw [lookup_applyWrites_of_notMem hw]
  refine h.other fun c' j' hj' => ?_
  by_cases hc : c' = c
  · subst hc
    cases hj.symm.trans hj'
    exact hw
  · exact hk c' j' hc hj'

omit [DecidableEq κ] in
theorem Shadow.lookup_turn (h : Shadow calls s₀ st S) (hj : st.jobs c = some j)
    (ws : List (Write V)) {k : K}
    (hk : ∀ c' j', c' ≠ c → st.jobs c' = some j' → k ∉ writeKeys j'.wrote) :
    (applyWrites ws st.store).lookup k = (applyWrites (j.wrote ++ ws) S).lookup k := by
  rw [applyWrites_append]
  exact lookup_applyWrites_congr ws (h.lookup_eq hj hk)

omit [DecidableEq κ] in
/-- The call of a job, started on a store that agrees with the serial one, gets
through the next turn. -/
theorem Shadow.run_eq (h : Shadow calls s₀ st S) (hj : st.jobs c = some j)
    (hok : ∀ c', c' ≠ c → ∀ j' ∈ st.jobs c', (j.rest.turn st.store).Clear j')
    {u : Finmap V}
    (hu : ∀ k, (j.seen k || (j.rest.turn st.store).sees k) = true → u.lookup k = S.lookup k) :
    (calls j.op).run u = runNext (j.rest.turn st.store).next
      (applyWrites (j.wrote ++ (j.rest.turn st.store).writes) u) := by
  rw [(h.replays hj).run_eq u fun k hk => hu k (by rw [hk, Bool.true_or]),
    applyWrites_append]
  refine run_turn (h.replays hj).clean fun k hk => ?_
  rw [h.lookup_eq hj fun c' j' hc hj' => ?_]
  · exact lookup_applyWrites_congr _ (hu k (by rw [hk, Bool.or_true]))
  intro hw
  rw [(hok c' hc j' hj').2 k hw] at hk
  cases hk

theorem nextJobs_cases {t : Turn V ε ρ} {j' : Job V ε ρ O} (h : nextJobs jobs c j t c' = some j') :
    (c' = c ∧ ∃ r, t.next = .inl r ∧
      j' = ⟨j.op, r, fun k => j.seen k || t.sees k, j.wrote ++ t.writes⟩) ∨
    (c' ≠ c ∧ ∃ i, jobs c' = some i ∧ j' = i.mark (writeKeys t.writes)) := by
  by_cases hc : c' = c
  · subst hc
    rw [nextJobs, update_self] at h
    split at h
    · next r hr =>
      cases h
      exact .inl ⟨rfl, r, hr, rfl⟩
    · cases h
  · rw [nextJobs, update_of_ne hc] at h
    obtain ⟨i, hi, rfl⟩ := Option.map_eq_some_iff.mp h
    exact .inr ⟨hc, i, hi, rfl⟩

theorem nextJobs_of_ne {t : Turn V ε ρ} (hc : c' ≠ c) (hi : jobs c' = some i) :
    nextJobs jobs c j t c' = some (i.mark (writeKeys t.writes)) := by
  rw [nextJobs, update_of_ne hc, hi]
  rfl

section

variable (h : Shadow calls s₀ st S)
include h

omit [DecidableEq κ] in
theorem Shadow.replays_mark (hc : c' ≠ c) (hj : st.jobs c = some j) (hi : st.jobs c' = some i)
    {ws : List (Write V)} (hws : ∀ k ∈ writeKeys ws, i.seen k = false ∧ k ∉ writeKeys i.wrote)
    {S' : Finmap V} (hS : ∀ k ∉ writeKeys (j.wrote ++ ws), S'.lookup k = S.lookup k) :
    Replays calls S' (i.mark (writeKeys ws)) where
  run_eq u hu := by
    show _ = (i.rest.mark _).run _
    rw [run_mark]
    refine (h.replays hi).run_eq u fun k hk => (hu k hk).trans (hS k fun hkw => ?_)
    have hnot : i.seen k = false := by
      rw [writeKeys_append, Finset.mem_union] at hkw
      rcases hkw with hkw | hkw
      · exact (h.apart hc.symm hj hi k hkw).1
      · exact (hws k hkw).1
    rw [hnot] at hk
    cases hk
  clean := (h.replays hi).clean.mark fun k hk => (hws k hk).1

section

variable (hj : st.jobs c = some j)
  (hok : ∀ c', c' ≠ c → ∀ j' ∈ st.jobs c', (j.rest.turn st.store).Clear j')
include hj hok

theorem Shadow.advance_inl (hr : (j.rest.turn st.store).next = .inl r) :
    Shadow calls s₀ (st.advance c) S := by
  have hadv : st.advance c = ⟨applyWrites (j.rest.turn st.store).writes st.store,
      nextJobs st.jobs c j (j.rest.turn st.store), st.log⟩ := by
    simp only [Sys.advance, hj, hr]
  rw [hadv]
  have hkeys : ∀ {k}, k ∈ writeKeys (j.wrote ++ (j.rest.turn st.store).writes) →
      ∀ c' i, c' ≠ c → st.jobs c' = some i →
        i.seen k = false ∧ k ∉ writeKeys i.wrote := by
    intro k hk c' i hc hi
    rw [writeKeys_append, Finset.mem_union] at hk
    rcases hk with hk | hk
    · exact h.apart hc.symm hj hi k hk
    · exact (hok c' hc i hi).1 k hk
  refine ⟨h.serial, fun {c' j'} hj' => ?_, fun {c₁ c₂ j₁ j₂} hc h₁ h₂ k hk => ?_,
    fun {c' j' k} hj' hk => ?_, fun {k} hk => ?_⟩
  · rcases nextJobs_cases hj' with ⟨-, r', hr', rfl⟩ | ⟨hc', i, hi, rfl⟩
    · refine ⟨fun u hu => ?_, clean_of_turn hr'⟩
      rw [h.run_eq hj hok hu, hr']
      rfl
    · exact h.replays_mark hc' hj hi (hok c' hc' i hi).1 fun _ _ => rfl
  · rcases nextJobs_cases h₁ with ⟨rfl, r₁, -, rfl⟩ | ⟨hc₁, i₁, hi₁, rfl⟩ <;>
      rcases nextJobs_cases h₂ with ⟨rfl, r₂, -, rfl⟩ | ⟨hc₂, i₂, hi₂, rfl⟩
    · exact absurd rfl hc
    · exact hkeys hk c₂ i₂ hc₂ hi₂
    · -- what another job has written, the turn neither sees nor writes
      have hold := h.apart hc hi₁ hj k hk
      have hclear := hok c₁ hc i₁ hi₁
      refine ⟨?_, fun hw => (hkeys hw c₁ i₁ hc hi₁).2 hk⟩
      show (j.seen k || (j.rest.turn st.store).sees k) = false
      rw [hold.1, hclear.2 k hk]
      rfl
    · exact h.apart hc hi₁ hi₂ k hk
  · rcases nextJobs_cases hj' with ⟨rfl, r', -, rfl⟩ | ⟨hc', i, hi, rfl⟩
    · exact h.lookup_turn hj _ fun c' i hc' hi => (hkeys hk c' i hc' hi).2
    have hnot : k ∉ writeKeys (j.rest.turn st.store).writes :=
      fun hw => ((hok c' hc' i hi).1 k hw).2 hk
    show _ = (applyWrites i.wrote S).lookup k
    rw [lookup_applyWrites_of_notMem hnot]
    exact h.own hi hk
  · have hmine : k ∉ writeKeys (j.wrote ++ (j.rest.turn st.store).writes) := by
      refine hk c ⟨j.op, r, fun k => j.seen k || (j.rest.turn st.store).sees k, _⟩ ?_
      show nextJobs st.jobs c j _ c = _
      rw [nextJobs, update_self, hr]
    have hothers : ∀ c' i, c' ≠ c → st.jobs c' = some i → k ∉ writeKeys i.wrote :=
      fun c' i hc' hi => hk c' (i.mark _) (nextJobs_of_ne hc' hi)
    rw [h.lookup_turn hj _ hothers, lookup_applyWrites_of_notMem hmine]

theorem Shadow.advance_inr {r : Except ε ρ} (hr : (j.rest.turn st.store).next = .inr r) :
    Shadow calls s₀ (st.advance c)
      (applyWrites (j.wrote ++ (j.rest.turn st.store).writes) S) := by
  have hadv : st.advance c = ⟨applyWrites (j.rest.turn st.store).writes st.store,
      nextJobs st.jobs c j (j.rest.turn st.store), st.log ++ [(j.op, r)]⟩ := by
    simp only [Sys.advance, hj, hr]
  have hrun := h.run_eq hj hok (u := S) fun _ _ => rfl
  rw [hr] at hrun
  -- the job is gone, so every job that is left belongs to another client
  have hleft : ∀ {c' j'}, nextJobs st.jobs c j (j.rest.turn st.store) c' = some j' →
      c' ≠ c ∧ ∃ i, st.jobs c' = some i ∧
        j' = i.mark (writeKeys (j.rest.turn st.store).writes) := by
    intro c' j' hj'
    rcases nextJobs_cases hj' with ⟨-, r', hr', -⟩ | hother
    · rw [hr] at hr'
      cases hr'
    · exact hother
  rw [hadv]
  refine ⟨h.serial.concat hrun, fun {c' j'} hj' => ?_, fun {c₁ c₂ j₁ j₂} hc h₁ h₂ k hk => ?_,
    fun {c' j' k} hj' hk => ?_, fun {k} hk => ?_⟩
  · obtain ⟨hc', i, hi, rfl⟩ := hleft hj'
    exact h.replays_mark hc' hj hi (hok c' hc' i hi).1
      fun k hk => lookup_applyWrites_of_notMem hk S
  · obtain ⟨-, i₁, hi₁, rfl⟩ := hleft h₁
    obtain ⟨-, i₂, hi₂, rfl⟩ := hleft h₂
    exact h.apart hc hi₁ hi₂ k hk
  · obtain ⟨hc', i, hi, rfl⟩ := hleft hj'
    have hnot : k ∉ writeKeys (j.rest.turn st.store).writes :=
      fun hw => ((hok c' hc' i hi).1 k hw).2 hk
    show _ = (applyWrites i.wrote _).lookup k
    rw [lookup_applyWrites_of_notMem hnot, h.own hi hk]
    exact lookup_applyWrites_of_mem hk _ _
  · exact h.lookup_turn hj _ fun c' i hc' hi => hk c' (i.mark _) (nextJobs_of_ne hc' hi)

end

theorem Shadow.issue (c : κ) (o : O) :
    Shadow calls s₀ (st.issue calls c o) S := by
  rw [Sys.issue]
  split
  · exact h
  next hidle =>
  have hrun := runNext_settle (calls o)
  split
  · next r hr =>
    refine ⟨h.serial.concat ?_, h.replays, h.apart, h.own, h.other⟩
    rw [← hrun S, hr]
    rfl
  next rest hr =>
  have hclean : rest.Clean fun _ => false := by
    cases hc : calls o <;> rw [hc] at hr <;> cases hr <;> trivial
  -- the new job has seen and written nothing
  have hcases : ∀ {c' j'}, update st.jobs c (some ⟨o, rest, fun _ => false, []⟩) c' = some j' →
      j' = ⟨o, rest, fun _ => false, []⟩ ∨ st.jobs c' = some j' := by
    intro c' j' hj'
    obtain ⟨-, hj'⟩ | ⟨-, hj'⟩ := update_eq_some hj'
    · exact .inl (Option.some.inj hj').symm
    · exact .inr hj'
  refine ⟨h.serial, fun {c' j'} hj' => ?_, fun {c₁ c₂ j₁ j₂} hc h₁ h₂ k hk => ?_,
    fun {c' j' k} hj' hk => ?_, fun {k} hk => h.other fun c' j' hj' => ?_⟩
  · rcases hcases hj' with rfl | hj'
    · refine ⟨fun u _ => ?_, hclean⟩
      rw [← hrun u, hr]
      rfl
    · exact h.replays hj'
  · rcases hcases h₁ with rfl | h₁
    · cases hk
    rcases hcases h₂ with rfl | h₂
    · exact ⟨rfl, fun hs => by cases hs⟩
    · exact h.apart hc h₁ h₂ k hk
  · rcases hcases hj' with rfl | hj'
    · cases hk
    · exact h.own hj' hk
  · refine hk c' j' ?_
    show update st.jobs c _ c' = _
    rw [update_of_ne, hj']
    rintro rfl
    rw [hidle] at hj'
    cases hj'

end

theorem exists_shadow_next {m : Move κ O} (h : ∃ S, Shadow calls s₀ st S)
    (hok : m.Isolated st) : ∃ S, Shadow calls s₀ (m.next calls st) S := by
  obtain ⟨S, h⟩ := h
  cases m with
  | issue c o => exact ⟨S, h.issue c o⟩
  | advance c =>
    rcases hj : st.jobs c with _ | j
    · refine ⟨S, ?_⟩
      show Shadow calls s₀ (st.advance c) S
      simp only [Sys.advance, hj]
      exact h
    rcases hr : (j.rest.turn st.store).next with r | r
    · exact ⟨S, h.advance_inl hj (hok j hj) hr⟩
    · exact ⟨_, h.advance_inr hj (hok j hj) hr⟩

end Shadow

def Sys.start (κ : Type) (s : Finmap V) : Sys κ V ε ρ O := ⟨s, fun _ => none, []⟩

/-- In a run of isolated steps that leaves no call in flight, the completed calls
behave as if executed one after another in the order of their completion. -/
theorem serial_of_isolated {calls : O → Call V ε ρ} {st : Sys κ V ε ρ O}
    (h : Reach (Move.next calls) (fun st m => m.Isolated st) (Sys.start κ s) st)
    (hidle : ∀ c, st.jobs c = none) : Serial calls st.log s st.store := by
  have hstart : Shadow calls s (Sys.start κ s : Sys κ V ε ρ O) s :=
    ⟨rfl, fun hj => (by cases hj), fun _ hj => (by cases hj), fun hj => (by cases hj), fun _ => rfl⟩
  obtain ⟨S, hS⟩ := Reach.invariant (I := fun st => ∃ S, Shadow calls s st S)
    (fun _ _ hI hok => exists_shadow_next hI hok) h ⟨s, hstart⟩
  have hstore : st.store = S := by
    apply ext_lookup
    intro k
    refine hS.other fun c j hj => ?_
    rw [hidle c] at hj
    cases hj
  rw [hstore]
  exact hS.serial

end KV
