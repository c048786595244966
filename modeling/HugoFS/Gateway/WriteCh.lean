import HugoFS.Gateway.Coordinator
import Mathlib.Algebra.BigOperators.Group.Multiset.Basic
import Mathlib.Algebra.Order.Group.Multiset
import Mathlib.Tactic.Abel

/-!
# The write channel

`WriteCh` collects the requests of `WriteAsync` and passes them to `Write` in batches, each a
goroutine of `writeRequests`. A channel with room for one token is meant to keep the batches
apart. A send on an unbuffered channel and its receive are one step; nobody receives from
`errc`.
-/

namespace HugoFS.Gateway

open HugoFS.Storage Multiset Function Runs

structure Request where
  id : ℕ
  key : BlockKey
  block : Bytes
deriving DecidableEq

structure Batch where
  /-- The requests that are not yet passed to `Write`. -/
  todo : Multiset Request
  /-- The requests whose `Write` has not returned. -/
  writing : Multiset Request
  /-- A `Write` has returned an error. -/
  failed : Bool
  /-- There is still a flush to acknowledge. -/
  isFlush : Bool
deriving DecidableEq

inductive Loop
  /-- At the select of the outer loop. -/
  | select
  /-- At the select of the inner loop. -/
  | collect
  /-- Before the push for a full slice. -/
  | full
  /-- In the loop of `closedCase`. -/
  | drain
  /-- Before the push of `closedCase`. -/
  | last
  /-- The loop has ended, or runs its last batch. -/
  | closed
deriving DecidableEq

inductive FlushStage
  | idle
  /-- At the send on `flushc`. -/
  | called
  /-- At the receive from `flushackc`. -/
  | taken
deriving DecidableEq

structure Flush where
  stage : FlushStage
  before : List Request

structure WriteCh (κ : Type) where
  loop : Loop
  reqs : List Request
  /-- There is a token in `pendingCh`. -/
  pending : Bool
  batches : Multiset Batch
  flushes : κ → Flush
  accepted : List Request
  passed : Multiset Request
  returned : Multiset Request

namespace Batch

def new (reqs : List Request) (isFlush : Bool) : Batch := ⟨reqs, 0, false, isFlush⟩

def begin (b : Batch) (r : Request) : Batch :=
  { b with todo := b.todo.erase r, writing := r ::ₘ b.writing }

def finish (b : Batch) (r : Request) (ok : Bool) : Batch :=
  { b with writing := b.writing.erase r, failed := b.failed || !ok }

def ack (b : Batch) : Batch := { b with isFlush := false }

def Executing (b : Batch) : Prop := ¬(b.todo = 0 ∧ b.writing = 0)
deriving Decidable

def Done (b : Batch) : Prop := ¬b.Executing ∧ b.failed = false
deriving Decidable

end Batch

def newWriteCh (κ : Type) : WriteCh κ := ⟨.select, [], false, 0, fun _ => ⟨.idle, []⟩, [], 0, 0⟩

def maxReqs : ℕ := 10

variable {b : Batch} {r : Request}

namespace WriteCh

variable {κ : Type} [DecidableEq κ]

inductive Event (κ : Type)
  /-- `sendReq`: the loop receives the request. -/
  | send (key : BlockKey) (block : Bytes)
  /-- `flushImmediate` is called. -/
  | callFlush (c : κ)
  /-- The loop receives from `flushc`. -/
  | takeFlush (c : κ)
  /-- The loop finds that the channel has been closed. -/
  | close
  /-- The default case of `closedCase`. -/
  | drained
  /-- The loop pushes a token and starts a batch. -/
  | push
  /-- The request is passed to `Write`. -/
  | begin (b : Batch) (r : Request)
  /-- The `Write` of the request returns. -/
  | finish (b : Batch) (r : Request) (ok : Bool)
  /-- A flush is acknowledged, and the call of `flushImmediate` returns. -/
  | ack (b : Batch) (c : κ)
  /-- The goroutine takes a token, and ends. -/
  | pop (b : Batch)

def receive (s : WriteCh κ) (r : Request) : WriteCh κ :=
  { s with
    reqs := s.reqs ++ [r]
    accepted := s.accepted ++ [r]
    loop :=
      if s.loop = .drain then .drain
      else if maxReqs ≤ (s.reqs ++ [r]).length then .full
      else .collect }

def flushCase (s : WriteCh κ) (c : κ) : WriteCh κ :=
  { s with
    batches := .new s.reqs true ::ₘ .new [] false ::ₘ s.batches
    reqs := []
    flushes := Function.update s.flushes c ⟨.taken, (s.flushes c).before⟩ }

def setBatch (s : WriteCh κ) (b b' : Batch) : WriteCh κ :=
  { s with batches := b' ::ₘ s.batches.erase b }

def Event.next : Event κ → WriteCh κ → WriteCh κ
  | .send key block, s => s.receive ⟨s.accepted.length, key, block⟩
  | .callFlush c, s =>
    { s with flushes := Function.update s.flushes c ⟨.called, s.accepted⟩ }
  | .takeFlush c, s => s.flushCase c
  | .close, s => { s with loop := .drain }
  | .drained, s => { s with loop := .last }
  | .push, s =>
    { s with
      pending := true
      batches := .new s.reqs false ::ₘ s.batches
      reqs := []
      loop := if s.loop = .last then .closed else .select }
  | .begin b r, s =>
    { s.setBatch b (b.begin r) with passed := r ::ₘ s.passed }
  | .finish b r ok, s =>
    { s.setBatch b (b.finish r ok) with returned := r ::ₘ s.returned }
  | .ack b c, s =>
    { s.setBatch b b.ack with
      flushes := Function.update s.flushes c ⟨.idle, []⟩ }
  | .pop b, s => { s with batches := s.batches.erase b, pending := false }

def Event.Enabled (s : WriteCh κ) : Event κ → Prop
  | .send _ _ => s.loop = .select ∨ s.loop = .collect ∨ s.loop = .drain
  | .callFlush c => (s.flushes c).stage = .idle
  | .takeFlush c => s.loop = .select ∧ (s.flushes c).stage = .called
  | .close => s.loop = .select ∨ s.loop = .collect
  | .drained => s.loop = .drain
  | .push => (s.loop = .collect ∨ s.loop = .full ∨ s.loop = .last) ∧ s.pending = false
  | .begin b r => b ∈ s.batches ∧ r ∈ b.todo
  | .finish b r _ => b ∈ s.batches ∧ r ∈ b.writing
  | .ack b c => b ∈ s.batches ∧ b.Done ∧ b.isFlush = true ∧ (s.flushes c).stage = .taken
  | .pop b => b ∈ s.batches ∧ b.Done ∧ b.isFlush = false ∧ s.pending = true

instance (s : WriteCh κ) (e : Event κ) : Decidable (e.Enabled s) := by
  cases e <;> dsimp only [Event.Enabled] <;> infer_instance

/-! ### What becomes of the requests -/

structure Accounted (s : WriteCh κ) : Prop where
  ids : s.accepted.map Request.id = List.range s.accepted.length
  accepted : (s.accepted : Multiset Request) =
    s.reqs + (s.batches.map Batch.todo).sum + s.passed
  passed : s.passed = (s.batches.map Batch.writing).sum + s.returned
  /-- At the outer select the slice is empty. -/
  select : s.loop = .select → s.reqs = []
  closed : s.loop = .closed → s.reqs = []

omit [DecidableEq κ] in
theorem sum_setBatch {s : WriteCh κ} {b' : Batch} (hb : b ∈ s.batches)
    {M : Type} [AddCommMonoid M] {f : Batch → M} {u v : M} (h : f b + u = f b' + v) :
    (s.batches.map f).sum + u = ((s.setBatch b b').batches.map f).sum + v := by
  rw [setBatch, map_cons, sum_cons, ← sum_map_erase hb,
    add_right_comm, h, add_right_comm]

namespace Accounted

variable {s : WriteCh κ}

omit [DecidableEq κ] in
theorem init : (newWriteCh κ).Accounted := ⟨rfl, rfl, rfl, fun _ => rfl, fun _ => rfl⟩

section

variable (h : s.Accounted)
include h

omit [DecidableEq κ] in
theorem receive (key : BlockKey) (block : Bytes) :
    (s.receive ⟨s.accepted.length, key, block⟩).Accounted where
  ids := by
    simp only [WriteCh.receive, List.map_append, h.ids, List.length_append, List.map_singleton,
      List.length_singleton, List.range_succ]
  accepted := by
    simp only [WriteCh.receive, ← coe_add, h.accepted]
    abel
  passed := h.passed
  select hl := by
    simp only [WriteCh.receive] at hl
    split_ifs at hl
  closed hl := by
    simp only [WriteCh.receive] at hl
    split_ifs at hl

open Batch

theorem begin (hb : b ∈ s.batches) (hr : r ∈ b.todo) : ((Event.begin b r).next s).Accounted where
  __ := h
  accepted := by
    have hgive : b.todo + 0 = (b.begin r).todo + {r} := by
      rw [add_zero, Batch.begin, add_comm, singleton_add, cons_erase hr]
    show (s.accepted : Multiset Request) =
      s.reqs + ((s.setBatch b (b.begin r)).batches.map todo).sum + r ::ₘ s.passed
    rw [h.accepted, ← add_zero (s.batches.map todo).sum, sum_setBatch hb hgive,
      ← singleton_add]
    abel
  passed := by
    have htake : b.writing + {r} = (b.begin r).writing + 0 := by
      rw [add_zero, Batch.begin, add_comm, singleton_add]
    show r ::ₘ s.passed =
      ((s.setBatch b (b.begin r)).batches.map writing).sum + s.returned
    rw [h.passed, ← singleton_add, add_left_comm, ← add_assoc,
      sum_setBatch hb htake, add_zero]

theorem finish (ok : Bool) (hb : b ∈ s.batches)
    (hr : r ∈ b.writing) : ((Event.finish b r ok).next s).Accounted where
  __ := h
  accepted := by
    have hsame : b.todo + 0 = (b.finish r ok).todo + 0 := rfl
    show (s.accepted : Multiset Request) =
      s.reqs + ((s.setBatch b (b.finish r ok)).batches.map todo).sum + s.passed
    rw [h.accepted, ← add_zero (s.batches.map todo).sum, sum_setBatch hb hsame, add_zero]
  passed := by
    have hgive : b.writing + 0 = (b.finish r ok).writing + {r} := by
      rw [add_zero, Batch.finish, add_comm, singleton_add, cons_erase hr]
    show s.passed =
      ((s.setBatch b (b.finish r ok)).batches.map writing).sum + r ::ₘ s.returned
    rw [h.passed, ← add_zero (s.batches.map writing).sum, sum_setBatch hb hgive,
      ← singleton_add, add_assoc]

omit [DecidableEq κ] in
theorem congr {s' : WriteCh κ} (haccepted : s'.accepted = s.accepted)
    (hpassed : s'.passed = s.passed) (hreturned : s'.returned = s.returned)
    (htodo : (s'.reqs : Multiset Request) + (s'.batches.map todo).sum =
      s.reqs + (s.batches.map todo).sum)
    (hwriting : (s'.batches.map writing).sum = (s.batches.map writing).sum)
    (hreqs : s'.loop = .select ∨ s'.loop = .closed → s'.reqs = []) : s'.Accounted where
  ids := haccepted ▸ h.ids
  accepted := by rw [haccepted, h.accepted, htodo, hpassed]
  passed := by rw [hpassed, h.passed, hwriting, hreturned]
  select hl := hreqs (.inl hl)
  closed hl := hreqs (.inr hl)

theorem next {e : Event κ} (he : e.Enabled s) : (e.next s).Accounted := by
  have hreqs : s.loop = .select ∨ s.loop = .closed → s.reqs = [] := fun hl =>
    hl.elim h.select h.closed
  cases e with
  | send key block => exact h.receive key block
  | callFlush c => exact h.congr rfl rfl rfl rfl rfl hreqs
  | takeFlush c =>
    refine h.congr rfl rfl rfl ?_ ?_ fun _ => rfl
    · simp [Event.next, flushCase, new]
    · simp [Event.next, flushCase, new]
  | close => exact h.congr rfl rfl rfl rfl rfl fun hl => by simp [Event.next] at hl
  | drained => exact h.congr rfl rfl rfl rfl rfl fun hl => by simp [Event.next] at hl
  | push =>
    refine h.congr rfl rfl rfl ?_ ?_ fun _ => rfl
    · simp [Event.next, new]
    · simp [Event.next, new]
  | begin b r => exact h.begin he.1 he.2
  | finish b r ok => exact h.finish ok he.1 he.2
  | ack b c =>
    have htodo : b.todo + 0 = b.ack.todo + 0 := rfl
    have hwriting : b.writing + 0 = b.ack.writing + 0 := rfl
    refine h.congr rfl rfl rfl (congrArg _ ?_) ?_ hreqs
    · show ((s.setBatch b b.ack).batches.map todo).sum = _
      rw [← add_zero (s.batches.map todo).sum, sum_setBatch he.1 htodo, add_zero]
    · show ((s.setBatch b b.ack).batches.map writing).sum = _
      rw [← add_zero (s.batches.map writing).sum, sum_setBatch he.1 hwriting, add_zero]
  | pop b =>
    obtain ⟨hb, hdone, -⟩ := he
    obtain ⟨htodo, hwriting⟩ := not_not.mp hdone.1
    refine h.congr rfl rfl rfl ?_ ?_ hreqs
    · rw [← sum_map_erase (m := s.batches) hb, htodo, zero_add]
      rfl
    · rw [← sum_map_erase (m := s.batches) hb, hwriting, zero_add]
      rfl

omit [DecidableEq κ] in
theorem nodup : s.accepted.Nodup :=
  .of_map Request.id (h.ids ▸ List.nodup_range)

omit [DecidableEq κ] in
theorem passed_nodup : s.passed.Nodup := by
  have hall : (s.accepted : Multiset Request).Nodup := coe_nodup.mpr h.nodup
  rw [h.accepted] at hall
  exact nodup_of_le (le_add_left _ _) hall

omit [DecidableEq κ] in
theorem returned_of_quiet (hreqs : s.reqs = [])
    (hquiet : ∀ b ∈ s.batches, ¬b.Executing) (hr : r ∈ s.accepted) :
    r ∈ s.returned := by
  have hnone : ∀ f : Batch → Multiset Request, (∀ b ∈ s.batches, f b = 0) →
      (s.batches.map f).sum = 0 := fun f hf =>
    sum_eq_zero fun x hx => by
      obtain ⟨b, hb, rfl⟩ := mem_map.mp hx
      exact hf b hb
  have hr' : r ∈ (s.accepted : Multiset Request) := hr
  rw [h.accepted, h.passed, hreqs, hnone _ fun b hb => (not_not.mp (hquiet b hb)).1,
    hnone _ fun b hb => (not_not.mp (hquiet b hb)).2] at hr'
  simpa using hr'

end

end Accounted

/-! ### Flushing -/

def Event.Settled (s : WriteCh κ) : Event κ → Prop
  | .takeFlush _ => ∀ b ∈ s.batches, ¬b.Executing
  | _ => True

instance (s : WriteCh κ) (e : Event κ) : Decidable (e.Settled s) := by
  cases e <;> dsimp only [Event.Settled] <;> infer_instance

structure Flush.Settled (s : WriteCh κ) (f : Flush) : Prop where
  called : f.stage = .called → ∀ r ∈ f.before, r ∈ s.accepted
  taken : f.stage = .taken → ∀ r ∈ f.before, r ∈ s.returned

open WriteCh.Flush

omit [DecidableEq κ] in
theorem Flush.Settled.mono {s s' : WriteCh κ} {f : Flush} (h : Settled s f)
    (haccepted : ∀ r ∈ s.accepted, r ∈ s'.accepted)
    (hreturned : ∀ r ∈ s.returned, r ∈ s'.returned) : Settled s' f :=
  ⟨fun hf r hr => haccepted r (h.called hf r hr), fun hf r hr => hreturned r (h.taken hf r hr)⟩

omit [DecidableEq κ] in
theorem Flush.Settled.idle (s : WriteCh κ) : Settled s ⟨.idle, []⟩ :=
  ⟨fun _ _ hr => absurd hr List.not_mem_nil, fun _ _ hr => absurd hr List.not_mem_nil⟩

structure FlushesSettled (s : WriteCh κ) : Prop where
  accounted : s.Accounted
  flushes : ∀ c, Flush.Settled s (s.flushes c)

namespace FlushesSettled

variable {s : WriteCh κ}

omit [DecidableEq κ] in
theorem init : (newWriteCh κ).FlushesSettled :=
  ⟨.init, fun _ => .idle _⟩

theorem update (h : s.FlushesSettled) {f : Flush} (hf : Settled s f) (c : κ) :
    ∀ c', Settled s (update s.flushes c f c') :=
  (forall_update_iff s.flushes fun _ f => Settled s f).mpr
    ⟨hf, fun c' _ => h.flushes c'⟩

theorem next (h : s.FlushesSettled) {e : Event κ} (he : e.Enabled s) (hset : e.Settled s) :
    (e.next s).FlushesSettled := by
  refine ⟨h.accounted.next he, ?_⟩
  cases e with
  | send key block =>
    exact fun c => (h.flushes c).mono (fun r hr => List.mem_append_left _ hr) fun r hr => hr
  | callFlush c =>
    intro c'
    have hf : Settled s ⟨.called, s.accepted⟩ :=
      ⟨fun _ r hr => hr, fun hc => absurd hc (by simp)⟩
    exact (h.update hf c c').mono (fun r hr => hr) fun r hr => hr
  | takeFlush c =>
    intro c'
    -- The slice is empty here, so only the batches could have a request left.
    have hf : Settled s ⟨.taken, (s.flushes c).before⟩ :=
      ⟨fun hc => absurd hc (by simp), fun _ r hr => h.accounted.returned_of_quiet
        (h.accounted.select he.1) hset ((h.flushes c).called he.2 r hr)⟩
    exact (h.update hf c c').mono (fun r hr => hr) fun r hr => hr
  | ack b c =>
    exact fun c' => (h.update (.idle s) c c').mono (fun r hr => hr) fun r hr => hr
  | finish b r ok =>
    exact fun c => (h.flushes c).mono (fun r' hr => hr) fun r' hr => mem_cons_of_mem hr
  | close | drained | push | begin _ _ | pop _ =>
    exact fun c => (h.flushes c).mono (fun r hr => hr) fun r hr => hr

end FlushesSettled

/-- In every run in which the loop receives a flush only while no batch is being written:
when a call of `flushImmediate` returns, every request that was accepted before the call
has been passed to `Write`, and that `Write` has returned. -/
theorem flush_waits_for_writes {s : WriteCh κ}
    (hs : Reach Event.next (fun s e => e.Enabled s ∧ e.Settled s) (newWriteCh κ) s)
    {b : Batch} {c : κ} (hack : (Event.ack b c).Enabled s) :
    ∀ r ∈ (s.flushes c).before, r ∈ s.passed ∧ r ∈ s.returned := by
  have h : s.FlushesSettled := Reach.invariant (I := FlushesSettled)
    (fun _ _ hI hok => hI.next hok.1 hok.2) hs .init
  intro r hr
  have hret := (h.flushes c).taken hack.2.2.2 r hr
  refine ⟨?_, hret⟩
  rw [h.accounted.passed]
  exact mem_add.mpr (.inr hret)

def settledFlush : List (Event Unit) :=
  let r : Request := ⟨0, (1, 0), [1]⟩
  [.send (1, 0) [1], .push, .begin (.new [r] false) r, .finish ⟨0, {r}, false, false⟩ r true,
    .pop ⟨0, 0, false, false⟩, .callFlush (), .takeFlush ()]

theorem flush_waits_for_writes_sample :
    Reach Event.next (fun s e => e.Enabled s ∧ e.Settled s) (newWriteCh Unit)
        (exec Event.next settledFlush (newWriteCh Unit)) ∧
      ∀ r ∈ ((exec Event.next settledFlush (newWriteCh Unit)).flushes ()).before,
        r ∈ (exec Event.next settledFlush (newWriteCh Unit)).passed ∧
          r ∈ (exec Event.next settledFlush (newWriteCh Unit)).returned := by
  have hrun : Reach Event.next (fun s e => e.Enabled s ∧ e.Settled s) (newWriteCh Unit)
      (exec Event.next settledFlush (newWriteCh Unit)) :=
    reach_exec (by decide +kernel)
  exact ⟨hrun, flush_waits_for_writes hrun
    (by decide +kernel : (Event.ack (.new [] true) ()).Enabled _)⟩

def hastyFlush : List (Event Unit) :=
  [.send (1, 0) [1], .push, .callFlush (), .takeFlush ()]

theorem flush_returns_early :
    Reach Event.next (fun s e => e.Enabled s) (newWriteCh Unit)
        (exec Event.next hastyFlush (newWriteCh Unit)) ∧
      (Event.ack (.new [] true) ()).Enabled
        (exec Event.next hastyFlush (newWriteCh Unit)) ∧
      ∃ r ∈ ((exec Event.next hastyFlush (newWriteCh Unit)).flushes ()).before,
        r ∉ (exec Event.next hastyFlush (newWriteCh Unit)).passed := by
  refine ⟨reach_exec (by decide +kernel), by decide +kernel, ?_⟩
  exact ⟨⟨0, (1, 0), [1]⟩, by decide +kernel, by decide +kernel⟩

/-! ### Batches one at a time -/

def Event.Smooth : Event κ → Prop
  | .takeFlush _ => False
  | .finish _ _ ok => ok = true
  | _ => True

instance (e : Event κ) : Decidable e.Smooth := by
  cases e <;> dsimp only [Event.Smooth] <;> infer_instance

def Event.Internal : Event κ → Prop
  | .drained | .push | .begin _ _ | .finish _ _ _ | .pop _ => True
  | _ => False

structure Orderly (s : WriteCh κ) : Prop where
  accounted : s.Accounted
  tokens : s.batches.card = s.pending.toNat
  plain : ∀ b ∈ s.batches, b.failed = false ∧ b.isFlush = false

namespace Orderly

variable {s : WriteCh κ}

omit [DecidableEq κ] in
theorem init : (newWriteCh κ).Orderly :=
  ⟨.init, rfl, fun b hb => absurd hb (notMem_zero b)⟩

omit [DecidableEq κ] in
theorem setBatch (h : s.Orderly) (hb : b ∈ s.batches) (b' : Batch)
    (hb' : b'.failed = b.failed ∧ b'.isFlush = b.isFlush) :
    (s.setBatch b b').batches.card = s.pending.toNat ∧
      ∀ x ∈ (s.setBatch b b').batches, x.failed = false ∧ x.isFlush = false := by
  refine ⟨?_, fun x hx => ?_⟩
  · rw [WriteCh.setBatch, card_cons, card_erase_add_one hb, h.tokens]
  · rcases mem_cons.mp hx with rfl | hx
    · rw [hb'.1, hb'.2]
      exact h.plain b hb
    · exact h.plain x (mem_of_mem_erase hx)

theorem next (h : s.Orderly) {e : Event κ} (he : e.Enabled s) (hsm : e.Smooth) :
    (e.next s).Orderly := by
  have hacc := h.accounted.next he
  cases e with
  | send _ _ | callFlush _ | close | drained => exact ⟨hacc, h.tokens, h.plain⟩
  | takeFlush c => exact absurd hsm id
  | push =>
    have hnone : s.batches.card = 0 := by rw [h.tokens, he.2, Bool.toNat_false]
    refine ⟨hacc, ?_, fun b hb => ?_⟩
    · simp [Event.next, hnone]
    · rcases mem_cons.mp hb with rfl | hb
      · exact ⟨rfl, rfl⟩
      · exact h.plain b hb
  | begin b r =>
    obtain ⟨htok, hplain⟩ := h.setBatch he.1 (b.begin r) ⟨rfl, rfl⟩
    exact ⟨hacc, htok, hplain⟩
  | finish b r ok =>
    obtain rfl : ok = true := hsm
    obtain ⟨htok, hplain⟩ := h.setBatch he.1 (b.finish r true)
      ⟨by simp [Batch.finish], rfl⟩
    exact ⟨hacc, htok, hplain⟩
  | ack b c =>
    exact absurd ((h.plain b he.1).2.symm.trans he.2.2.1) (by decide)
  | pop b =>
    refine ⟨hacc, ?_, fun x hx => h.plain x (mem_of_mem_erase hx)⟩
    have hcard := card_erase_add_one he.1
    rw [h.tokens, he.2.2.2] at hcard
    show (s.batches.erase b).card = 0
    simpa using hcard

omit [DecidableEq κ] in
theorem card_executing (h : s.Orderly) : (s.batches.filter Batch.Executing).card ≤ 1 :=
  calc (s.batches.filter Batch.Executing).card
      ≤ s.batches.card := card_le_card (filter_le _ _)
    _ = s.pending.toNat := h.tokens
    _ ≤ 1 := Bool.toNat_le _

end Orderly

end WriteCh

/-! ### Progress -/

def Loop.work : Loop → ℕ
  | .drain => 1
  | _ => 0

def Batch.work (b : Batch) : ℕ := 2 * b.todo.card + b.writing.card + 1

namespace WriteCh

variable {κ : Type} [DecidableEq κ]
variable {s : WriteCh κ}

def work (s : WriteCh κ) : ℕ := 4 * s.reqs.length + s.loop.work + (s.batches.map Batch.work).sum

theorem work_begin (hb : b ∈ s.batches)
    (hr : r ∈ b.todo) : ((Event.begin b r).next s).work < s.work := by
  have hwork : b.work + 0 = (b.begin r).work + 1 := by
    have hcard := card_erase_add_one hr
    simp only [Batch.work, Batch.begin, card_cons]
    omega
  have hsum := sum_setBatch hb hwork
  simp only [work, Event.next, setBatch] at hsum ⊢
  omega

theorem work_finish (ok : Bool) (hb : b ∈ s.batches)
    (hr : r ∈ b.writing) : ((Event.finish b r ok).next s).work < s.work := by
  have hwork : b.work + 0 = (b.finish r ok).work + 1 := by
    have hcard := card_erase_add_one hr
    simp only [Batch.work, Batch.finish]
    omega
  have hsum := sum_setBatch hb hwork
  simp only [work, Event.next, setBatch] at hsum ⊢
  omega

theorem work_pop (hb : b ∈ s.batches) :
    ((Event.pop b).next s).work < s.work := by
  have hsum : b.work + ((s.batches.erase b).map Batch.work).sum = (s.batches.map Batch.work).sum :=
    sum_map_erase hb
  have hpos : 1 ≤ b.work := Nat.le_add_left ..
  simp only [work, Event.next]
  omega

theorem work_push (hreqs : s.reqs ≠ []) :
    ((Event.push : Event κ).next s).work < s.work := by
  have hpos := List.length_pos_iff.mpr hreqs
  have hloop : Loop.work (if s.loop = .last then .closed else .select) = 0 := by split_ifs <;> rfl
  simp only [work, Event.next, hloop, map_cons, sum_cons, Batch.work, Batch.new,
    coe_card, card_zero, List.length_nil]
  omega

def Event.Advances (s : WriteCh κ) (e : Event κ) : Prop := e.Enabled s ∧ e.Smooth ∧ e.Internal

theorem Orderly.exists_step (h : s.Orderly) (hleft : ¬∀ r ∈ s.accepted, r ∈ s.returned) :
    ∃ e : Event κ, e.Advances s ∧ (e.next s).work < s.work := by
  by_cases hb : ∃ b, b ∈ s.batches
  · obtain ⟨b, hb⟩ := hb
    by_cases htodo : b.todo = 0
    · by_cases hwriting : b.writing = 0
      · have hpending : s.pending = true := by
          have hpos := card_pos_iff_exists_mem.mpr ⟨b, hb⟩
          rw [h.tokens] at hpos
          cases hp : s.pending with
          | false => simp [hp] at hpos
          | true => rfl
        obtain ⟨hfailed, hflush⟩ := h.plain b hb
        exact ⟨.pop b, ⟨⟨hb, ⟨not_not.mpr ⟨htodo, hwriting⟩, hfailed⟩, hflush, hpending⟩, trivial,
          trivial⟩, work_pop hb⟩
      · obtain ⟨r, hr⟩ := exists_mem_of_ne_zero hwriting
        exact ⟨.finish b r true, ⟨⟨hb, hr⟩, rfl, trivial⟩, work_finish true hb hr⟩
    · obtain ⟨r, hr⟩ := exists_mem_of_ne_zero htodo
      exact ⟨.begin b r, ⟨⟨hb, hr⟩, trivial, trivial⟩, work_begin hb hr⟩
  · -- Without a batch the slice has the requests that are left.
    have hreqs : s.reqs ≠ [] := fun hnil => hleft fun r hr =>
      h.accounted.returned_of_quiet hnil (fun b hb' => absurd ⟨b, hb'⟩ hb) hr
    have hpending : s.pending = false := by
      have hzero : s.batches = 0 := eq_zero_of_forall_notMem fun b hb' => hb ⟨b, hb'⟩
      have htok := h.tokens
      rw [hzero, card_zero] at htok
      cases hp : s.pending with
      | false => rfl
      | true => simp [hp] at htok
    cases hl : s.loop with
    | select => exact absurd (h.accounted.select hl) hreqs
    | closed => exact absurd (h.accounted.closed hl) hreqs
    | collect | full | last =>
      exact ⟨.push, ⟨⟨by simp [hl], hpending⟩, trivial, trivial⟩, work_push hreqs⟩
    | drain =>
      refine ⟨.drained, ⟨hl, trivial, trivial⟩, ?_⟩
      simp only [work, Event.next, hl, Loop.work]
      omega

theorem Event.Advances.accepted {e : Event κ} (h : e.Advances s) :
    (e.next s).accepted = s.accepted := by
  obtain ⟨-, -, hi⟩ := h
  cases e with
  | drained | push | begin _ _ | finish _ _ _ | pop _ => rfl
  | send _ _ | callFlush _ | takeFlush _ | close | ack _ _ => exact absurd hi id

/-- In every run in which no flush is received and no `Write` fails: at most one batch is
being written, no request is passed to `Write` twice, and the loop and the batches can go
on, without any caller, until every accepted request is written. -/
theorem batches_take_turns {s : WriteCh κ}
    (hs : Reach Event.next (fun s e => e.Enabled s ∧ e.Smooth) (newWriteCh κ) s) :
    (s.batches.filter Batch.Executing).card ≤ 1 ∧ s.passed.Nodup ∧
      ∃ s', Reach Event.next (fun s e => e.Advances s) s s' ∧
        ∀ r ∈ s.accepted, r ∈ s'.passed ∧ r ∈ s'.returned := by
  have h : s.Orderly := Reach.invariant (I := Orderly)
    (fun _ _ hI hok => hI.next hok.1 hok.2) hs .init
  refine ⟨h.card_executing, h.accounted.passed_nodup, ?_⟩
  have hstep : ∀ s' : WriteCh κ, s'.Orderly ∧ s'.accepted = s.accepted →
      (¬∀ r ∈ s'.accepted, r ∈ s'.returned) →
      ∃ e : Event κ, e.Advances s' ∧ ((e.next s').Orderly ∧ (e.next s').accepted = s.accepted) ∧
        (e.next s').work < s'.work := by
    intro s' hI hleft
    obtain ⟨e, he, hlt⟩ := hI.1.exists_step hleft
    exact ⟨e, he, ⟨hI.1.next he.1 he.2.1, he.accepted.trans hI.2⟩, hlt⟩
  obtain ⟨s', hreach, ⟨horderly, hacc⟩, hgoal⟩ := exists_reach work hstep ⟨h, rfl⟩
  refine ⟨s', hreach, fun r hr => ?_⟩
  have hret := hgoal r (hacc.symm ▸ hr)
  refine ⟨?_, hret⟩
  rw [horderly.accounted.passed]
  exact mem_add.mpr (.inr hret)

def oneBatch : List (Event Unit) := [.send (1, 0) [1], .push, .send (1, 1) [2]]

theorem batches_take_turns_sample :
    Reach Event.next (fun s e => e.Enabled s ∧ e.Smooth) (newWriteCh Unit)
        (exec Event.next oneBatch (newWriteCh Unit)) ∧
      ∃ s', Reach Event.next (fun s e => e.Advances s)
          (exec Event.next oneBatch (newWriteCh Unit)) s' ∧
        ∀ r ∈ (exec Event.next oneBatch (newWriteCh Unit)).accepted,
          r ∈ s'.passed ∧ r ∈ s'.returned := by
  have hrun : Reach Event.next (fun s e => e.Enabled s ∧ e.Smooth) (newWriteCh Unit)
      (exec Event.next oneBatch (newWriteCh Unit)) :=
    reach_exec (by decide +kernel)
  exact ⟨hrun, (batches_take_turns hrun).2.2⟩

/-! ### Errors that nobody receives -/

structure Jammed (s : WriteCh κ) : Prop where
  pending : s.pending = true
  loop : s.loop ≠ .select ∧ s.loop ≠ .closed
  failed : ∀ b ∈ s.batches, b.failed = true ∧ ¬b.Executing

theorem Jammed.next (h : s.Jammed) {e : Event κ} (he : e.Enabled s) :
    (e.next s).Jammed ∧ (e.next s).passed = s.passed := by
  cases e with
  | send key block =>
    refine ⟨⟨h.pending, ?_, h.failed⟩, rfl⟩
    simp only [Event.next, receive]
    split_ifs <;> simp
  | callFlush c => exact ⟨⟨h.pending, h.loop, h.failed⟩, rfl⟩
  | takeFlush c => exact absurd he.1 h.loop.1
  | close => exact ⟨⟨h.pending, by simp [Event.next], h.failed⟩, rfl⟩
  | drained => exact ⟨⟨h.pending, by simp [Event.next], h.failed⟩, rfl⟩
  | push => exact absurd (h.pending.symm.trans he.2) (by decide)
  | begin b r =>
    have hnone := (not_not.mp (h.failed b he.1).2).1
    exact absurd (hnone ▸ he.2) (notMem_zero r)
  | finish b r ok =>
    have hnone := (not_not.mp (h.failed b he.1).2).2
    exact absurd (hnone ▸ he.2) (notMem_zero r)
  | ack b c => exact absurd ((h.failed b he.1).1.symm.trans he.2.1.2) (by decide)
  | pop b => exact absurd ((h.failed b he.1).1.symm.trans he.2.1.2) (by decide)

theorem Jammed.passed {s s' : WriteCh κ} (h : s.Jammed)
    (hs : Reach Event.next (fun s e => e.Enabled s) s s') : s'.passed = s.passed := by
  have hinv : s'.Jammed ∧ s'.passed = s.passed :=
    Reach.invariant (I := fun s' : WriteCh κ => s'.Jammed ∧ s'.passed = s.passed)
      (fun st e hI he => ⟨(hI.1.next he).1, (hI.1.next he).2.trans hI.2⟩) hs ⟨h, rfl⟩
  exact hinv.2

def stolenToken : List (Event Unit) :=
  [.callFlush (), .takeFlush (), .ack (.new [] true) (), .send (1, 0) [1], .push,
    .pop (.new [] false), .send (1, 1) [2], .push]

def failedWrite : List (Event Unit) :=
  let r : Request := ⟨0, (1, 0), [1]⟩
  [.send (1, 0) [1], .push, .begin (.new [r] false) r, .finish ⟨0, {r}, false, false⟩ r false,
    .send (1, 1) [2]]

theorem batches_overlap_or_jam :
    (∃ s, Reach Event.next (fun s e => e.Enabled s) (newWriteCh Unit) s ∧
      (s.batches.filter Batch.Executing).card = 2) ∧
    ∃ s, Reach Event.next (fun s e => e.Enabled s) (newWriteCh Unit) s ∧
      ∃ r ∈ s.accepted, ∀ s', Reach Event.next (fun s e => e.Enabled s) s s' →
        r ∉ s'.passed := by
  refine ⟨⟨exec Event.next stolenToken (newWriteCh Unit), reach_exec (by decide +kernel),
    by decide +kernel⟩, exec Event.next failedWrite (newWriteCh Unit),
    reach_exec (by decide +kernel), ⟨1, (1, 1), [2]⟩, by decide +kernel, fun s' hs' => ?_⟩
  have hjam : (exec Event.next failedWrite (newWriteCh Unit)).Jammed :=
    ⟨by decide +kernel, by decide +kernel, by decide +kernel⟩
  rw [hjam.passed hs']
  decide +kernel

end WriteCh

end HugoFS.Gateway
