import HugoFS.Lib.FiniteMap
import HugoFS.Lib.Runs
import HugoFS.Tcp.Codec
import Mathlib.Tactic.Abel

/-!
# Calls on a TCP connection

Callers send requests on one connection, each under a sequence number of its own, and the read
loop `input` completes the call that a response names. Each section under `mutex` is one step.
The reply of a call points to the header of the last response that the loop has read, which
each turn of the loop resets.
-/

namespace HugoFS.Tcp

open Multiset Function Finmap Runs Option

/-! ### The connection -/

inductive Ending (J : Type)
  /-- `ErrShutdown`. -/
  | shutdown
  /-- `WriteRequest` has failed. -/
  | unsent
  /-- The error that has ended the read loop. -/
  | unanswered
  /-- The error text of the response with this number. -/
  | serverError (seq : UInt64) (text : ByteString)
  /-- The body and the block of the response with this number, unless reading them failed. -/
  | reply (seq : UInt64) (payload : Option (Option J × ByteString))
deriving DecidableEq

namespace Ending

variable {J : Type}

def seq? : Ending J → Option UInt64
  | .serverError seq _ | .reply seq _ => some seq
  | .shutdown | .unsent | .unanswered => none

def isReply : Ending J → Bool
  | .reply _ _ => true
  | _ => false

end Ending

inductive ReqMutex (κ : Type)
  | free
  /-- `send`, before the call is registered. -/
  | locked (call : κ)
  /-- `send`, after the connection was found to be closed. -/
  | refused (call : κ)
  /-- `send`, in `WriteRequest`. -/
  | writing (seq : UInt64)
  /-- `send`, after an error of `WriteRequest`. -/
  | failed (seq : UInt64)
  /-- `send`, after it has removed what was pending under its number. -/
  | removed (call : Option κ)
  /-- The end of `input`. -/
  | sweeping
deriving DecidableEq

inductive Input (κ : Type)
  /-- At the top of the loop, before `response` is reset. -/
  | turning
  /-- In `ReadResponseHeader`. -/
  | reading
  /-- A header has been read. -/
  | received
  /-- What was pending under the number of the header has been removed. -/
  | matched (call : Option κ)
  /-- After the loop, before `reqMutex.Lock`. -/
  | ended
  | finished
deriving DecidableEq

def ProtoHeader.zero : ProtoHeader := ⟨0, [], 0, []⟩

structure Client (κ J : Type) where
  waiting : Multiset κ
  reqMutex : ReqMutex κ
  pending : Finmap fun _ : UInt64 => κ
  seq : UInt64
  closing : Bool
  shutdown : Bool
  input : Input κ
  /-- The variable of `input`. -/
  response : ProtoHeader
  /-- The calls passed to `send`. -/
  started : Multiset κ
  /-- The number under which a call was registered. -/
  numbers : κ → Option UInt64
  /-- The calls of `done`. -/
  signals : Multiset κ
  endings : κ → Option (Ending J)
  /-- What a caller found at `Reply.Header` when it received from `Done`. -/
  headers : κ → Option ProtoHeader

namespace Client

variable {κ J : Type}

def new (κ J : Type) : Client κ J where
  waiting := 0
  reqMutex := .free
  pending := ∅
  seq := 0
  closing := false
  shutdown := false
  input := .turning
  response := .zero
  started := 0
  numbers _ := none
  signals := 0
  endings _ := none
  headers _ := none

variable [DecidableEq κ]

def done (c : κ) (e : Ending J) (s : Client κ J) : Client κ J :=
  { s with signals := c ::ₘ s.signals, endings := Function.update s.endings c (some e) }

def readBody (h : ProtoHeader) (got : Option (Option J × ByteString)) :
    Option (Option J × ByteString) :=
  if h.bodyLength = 0 then some (none, []) else got

def complete (call : Option κ) (got : Option (Option J × ByteString)) (s : Client κ J) :
    Client κ J :=
  let payload := readBody s.response got
  let input : Input κ := if payload.isSome then .turning else .ended
  match call with
  | none => { s with input := input }
  | some c =>
    if s.response.error ≠ [] then
      { s.done c (.serverError s.response.seq s.response.error) with input := .turning }
    else { s.done c (.reply s.response.seq payload) with input := input }

def sweep (s : Client κ J) : Client κ J :=
  { s with
    shutdown := true
    signals := s.pending.values + s.signals
    endings := fun c => if c ∈ s.pending.values then some .unanswered else s.endings c
    reqMutex := .free
    input := .finished }

inductive Event (κ J : Type)
  /-- A caller calls `send`. -/
  | send (c : κ)
  | lock (c : κ)
  | register (c : κ)
  /-- The signal of a refused call. -/
  | refuse (c : κ)
  /-- `WriteRequest` returns. -/
  | write (seq : UInt64) (ok : Bool)
  | remove (seq : UInt64)
  /-- The signal after a failed write. -/
  | signal (call : Option κ)
  /-- The next turn of the loop resets `response`. -/
  | turn
  /-- `ReadResponseHeader` returns a header or fails. -/
  | receive (header : Option ProtoHeader)
  | find
  | complete (call : Option κ) (got : Option (Option J × ByteString))
  | lockSweep
  | sweep
  | close
  /-- A caller receives from `Done` and looks at its reply. -/
  | take (c : κ)

namespace Event

def next : Event κ J → Client κ J → Client κ J
  | .send c, s => { s with waiting := c ::ₘ s.waiting, started := c ::ₘ s.started }
  | .lock c, s => { s with waiting := s.waiting.erase c, reqMutex := .locked c }
  | .register c, s =>
    if s.shutdown || s.closing then { s with reqMutex := .refused c }
    else
      { s with
        seq := s.seq + 1
        pending := s.pending.insert s.seq c
        numbers := Function.update s.numbers c (some s.seq)
        reqMutex := .writing s.seq }
  | .refuse c, s => { s.done c .shutdown with reqMutex := .free }
  | .write seq ok, s => { s with reqMutex := if ok then .free else .failed seq }
  | .remove seq, s =>
    { s with reqMutex := .removed (s.pending.lookup seq), pending := s.pending.erase seq }
  | .signal none, s => { s with reqMutex := .free }
  | .signal (some c), s => { s.done c .unsent with reqMutex := .free }
  | .turn, s => { s with response := .zero, input := .reading }
  | .receive none, s => { s with input := .ended }
  | .receive (some h), s => { s with response := h, input := .received }
  | .find, s =>
    { s with
      input := .matched (s.pending.lookup s.response.seq)
      pending := s.pending.erase s.response.seq }
  | .complete call got, s => s.complete call got
  | .lockSweep, s => { s with reqMutex := .sweeping }
  | .sweep, s => s.sweep
  | .close, s => { s with closing := true }
  | .take c, s => { s with headers := Function.update s.headers c (some s.response) }

def Enabled : Event κ J → Client κ J → Prop
  | .send c, s => c ∉ s.started ∧ s.started.card + 1 < 2 ^ 64
  | .lock c, s => c ∈ s.waiting ∧ s.reqMutex = .free
  | .register c, s => s.reqMutex = .locked c
  | .refuse c, s => s.reqMutex = .refused c
  | .write seq _, s => s.reqMutex = .writing seq
  | .remove seq, s => s.reqMutex = .failed seq
  | .signal call, s => s.reqMutex = .removed call
  | .turn, s => s.input = .turning
  | .receive _, s => s.input = .reading
  | .find, s => s.input = .received
  | .complete call _, s => s.input = .matched call
  | .lockSweep, s => s.input = .ended ∧ s.reqMutex = .free
  | .sweep, s => s.reqMutex = .sweeping
  | .close, _ => True
  | .take c, s => c ∈ s.signals ∧ s.headers c = none

instance (e : Event κ J) (s : Client κ J) : Decidable (e.Enabled s) := by
  cases e <;> dsimp only [Enabled] <;> infer_instance

end Event

end Client

/-! ### Every call is owed one signal -/

section Owed

variable {κ : Type}

def ReqMutex.owed : ReqMutex κ → Multiset κ
  | .locked c | .refused c | .removed (some c) => {c}
  | .free | .writing _ | .failed _ | .removed none | .sweeping => 0

def ReqMutex.unnumbered : ReqMutex κ → Multiset κ
  | .locked c => {c}
  | .free | .refused _ | .writing _ | .failed _ | .removed _ | .sweeping => 0

def Input.owed : Input κ → Multiset κ
  | .matched (some c) => {c}
  | .turning | .reading | .received | .matched none | .ended | .finished => 0

end Owed

namespace Client

variable {κ J : Type}

def registered (s : Client κ J) : Multiset κ := if s.shutdown then 0 else s.pending.values

def unsignalled (s : Client κ J) : Multiset κ :=
  s.waiting + s.reqMutex.owed + s.registered + s.input.owed

structure Accounted (s : Client κ J) : Prop where
  nodup : s.started.Nodup
  started : s.started = s.unsignalled + s.signals
  finished : s.shutdown = true ↔ s.input = .finished
  writing : ∀ seq, s.reqMutex = .writing seq ∨ s.reqMutex = .failed seq → s.shutdown = false
  sweeping : s.reqMutex = .sweeping → s.input = .ended

open ReqMutex

theorem Accounted.new : (new κ J).Accounted where
  nodup := nodup_zero
  started := by simp [Client.new, unsignalled, owed, registered, Input.owed]
  finished := by simp [Client.new]
  writing := by simp [Client.new]
  sweeping := by simp [Client.new]

variable {s : Client κ J} {c : κ} {call : Option κ} {e : Event κ J} {i : Input κ}

theorem registered_eq_add (hs : s.shutdown = false) (q : UInt64) :
    s.registered = (s.pending.lookup q).elim 0 ({·}) + (s.pending.erase q).values := by
  rw [registered, hs, if_neg (by decide)]
  cases hq : s.pending.lookup q with
  | none => rw [erase_of_lookup_none hq]; exact (zero_add _).symm
  | some c => rw [values_of_lookup hq]; rfl

namespace Accounted

variable {c : κ}

section

variable (h : s.Accounted)
include h

theorem of_unsignalled (hc : c ∈ s.unsignalled) :
    c ∈ s.started ∧ c ∉ s.signals := by
  have hnd := h.started ▸ h.nodup
  refine ⟨by rw [h.started]; exact mem_add.mpr (.inl hc), ?_⟩
  exact disjoint_left.mp (nodup_add.mp hnd).2.2 hc

theorem shutdown_eq_false (hi : s.input ≠ .finished) : s.shutdown = false := by
  cases hs : s.shutdown with
  | true => exact absurd (h.finished.mp hs) hi
  | false => rfl

theorem not_sweeping (hi : s.input ≠ .ended) : s.reqMutex ≠ .sweeping :=
  fun hm => hi (h.sweeping hm)

theorem withMutex {m : ReqMutex κ} (ho : m.owed = s.reqMutex.owed)
    (hw : ∀ seq, m = .writing seq ∨ m = .failed seq → s.shutdown = false)
    (hsw : m = .sweeping → s.input = .ended) : { s with reqMutex := m }.Accounted where
  __ := h
  started := by
    show s.started = s.waiting + m.owed + s.registered + s.input.owed + s.signals
    rw [ho]
    exact h.started
  writing := hw
  sweeping := hsw

theorem withInput (hi : s.input ≠ .ended ∧ s.input ≠ .finished) (ho : i.owed = s.input.owed)
    (hf : i ≠ .finished) (r : ProtoHeader) :
    { s with input := i, response := r }.Accounted where
  __ := h
  started := by
    show s.started = s.waiting + s.reqMutex.owed + s.registered + i.owed + s.signals
    rw [ho]
    exact h.started
  finished := by simp [h.shutdown_eq_false hi.2, hf]
  sweeping := fun hm => absurd hm (h.not_sweeping hi.1)

end

variable [DecidableEq κ]

section

variable (h : s.Accounted)
include h

open Event

theorem send (hc : c ∉ s.started) :
    ((send c).next s).Accounted where
  nodup := nodup_cons.mpr ⟨hc, h.nodup⟩
  started := by
    show c ::ₘ s.started = _
    simp only [h.started, next, unsignalled, cons_add]
    rfl
  __ := h

theorem lock (hc : c ∈ s.waiting) (hm : s.reqMutex = .free) :
    ((lock c).next s).Accounted where
  __ := h
  started := by
    obtain ⟨w, hw⟩ := exists_cons_of_mem hc
    show s.started = s.waiting.erase c + {c} + s.registered + s.input.owed + s.signals
    rw [h.started, unsignalled, hm, hw, erase_cons_head, ← singleton_add]
    simp only [owed]
    abel
  writing := by simp [next]
  sweeping := by simp [next]

theorem register (hm : s.reqMutex = .locked c)
    (hfresh : s.pending.lookup s.seq = none) : ((register c).next s).Accounted := by
  by_cases hclosed : (s.shutdown || s.closing) = true
  · rw [next, if_pos hclosed]
    exact h.withMutex (by rw [hm]; rfl) (by simp) (by simp)
  rw [next, if_neg hclosed]
  have hs : s.shutdown = false := by
    cases hs : s.shutdown with
    | true => simp [hs] at hclosed
    | false => rfl
  exact
    { nodup := h.nodup
      started := by
        show s.started = s.waiting + 0 + (if s.shutdown then 0
          else (s.pending.insert s.seq c).values) + s.input.owed + s.signals
        rw [h.started, unsignalled, hm, registered, hs, if_neg (by decide), if_neg (by decide),
          values_insert hfresh, ← singleton_add]
        simp only [owed]
        abel
      finished := h.finished
      writing := fun _ _ => hs
      sweeping := by simp }

theorem done (ho : s.reqMutex.owed = {c}) (e : Ending J) :
    { s.done c e with reqMutex := .free }.Accounted where
  __ := h
  started := by
    show s.started = s.waiting + 0 + s.registered + s.input.owed + c ::ₘ s.signals
    rw [h.started, unsignalled, ho, ← singleton_add]
    abel
  writing := by simp
  sweeping := by simp

theorem remove {q : UInt64} (hm : s.reqMutex = .failed q) :
    ((remove q).next s).Accounted where
  __ := h
  started := by
    -- the map cannot hold calls that were signalled: the loop's end waits for `reqMutex`
    have hs := h.writing q (.inr hm)
    show s.started = s.waiting + owed (.removed (s.pending.lookup q)) +
      (if s.shutdown then 0 else (s.pending.erase q).values) + s.input.owed + s.signals
    rw [h.started, unsignalled, hm, registered_eq_add hs q, hs, if_neg (by decide)]
    cases s.pending.lookup q with
    | none => simp [owed]
    | some c => simp only [owed, Option.elim]; abel
  writing := by simp [next]
  sweeping := by simp [next]

theorem find (hi : s.input = .received) :
    ((find : Event κ J).next s).Accounted where
  __ := h
  started := by
    have hs := h.shutdown_eq_false (by simp [hi])
    show s.started = s.waiting + s.reqMutex.owed +
      (if s.shutdown then 0 else (s.pending.erase s.response.seq).values) +
      Input.owed (.matched (s.pending.lookup s.response.seq)) + s.signals
    rw [h.started, unsignalled, hi, registered_eq_add hs s.response.seq, hs, if_neg (by decide)]
    cases s.pending.lookup s.response.seq with
    | none => simp [Input.owed]
    | some c => simp only [Input.owed, Option.elim]; abel
  finished := by simp [next, h.shutdown_eq_false (show s.input ≠ .finished by simp [hi])]
  sweeping := fun hm => absurd hm (h.not_sweeping (by simp [hi]))

theorem doneInput (hi : s.input = .matched (some c)) (e : Ending J)
    (ho : i.owed = 0) (hf : i ≠ .finished) :
    { s.done c e with input := i }.Accounted where
  __ := h
  started := by
    show s.started = s.waiting + s.reqMutex.owed + s.registered + i.owed + c ::ₘ s.signals
    rw [h.started, unsignalled, hi, ho, ← singleton_add]
    simp only [Input.owed]
    abel
  finished := by
    have hs : s.shutdown = false := h.shutdown_eq_false (by simp [hi])
    simp [Client.done, hs, hf]
  sweeping := fun hm => absurd hm (h.not_sweeping (by simp [hi]))

theorem complete (hi : s.input = .matched call)
    (got : Option (Option J × ByteString)) : (s.complete call got).Accounted := by
  have hgoes (b : Bool) : (if b then .turning else .ended : Input κ).owed = 0 ∧
      (if b then .turning else .ended : Input κ) ≠ .finished := by
    cases b <;> exact ⟨rfl, by simp⟩
  cases call with
  | none =>
    exact h.withInput (by simp [hi]) (by rw [hi]; exact (hgoes _).1) (hgoes _).2 s.response
  | some c =>
    rw [Client.complete]
    split
    · exact h.doneInput hi _ rfl (by simp)
    · exact h.doneInput hi _ (hgoes _).1 (hgoes _).2

theorem sweep (hm : s.reqMutex = .sweeping) : s.sweep.Accounted where
  nodup := h.nodup
  started := by
    have hi := h.sweeping hm
    have hs := h.shutdown_eq_false (by simp [hi])
    show s.started = s.waiting + 0 + 0 + 0 + (s.pending.values + s.signals)
    rw [h.started, unsignalled, hm, hi, registered, hs, if_neg (by decide)]
    simp only [owed, Input.owed]
    abel
  finished := by simp [Client.sweep]
  writing := by simp [Client.sweep]
  sweeping := by simp [Client.sweep]

theorem next (he : e.Enabled s)
    (hfresh : s.pending.lookup s.seq = none) : (e.next s).Accounted := by
  cases e with
  | send c => exact h.send he.1
  | lock c => exact h.lock he.1 he.2
  | register c => exact h.register he hfresh
  | refuse c => exact h.done (by rw [show s.reqMutex = .refused c from he]; rfl) _
  | write q ok =>
    have hm : s.reqMutex = .writing q := he
    refine h.withMutex ?_ (fun _ _ => h.writing q (.inl hm)) ?_
    · rw [hm]; cases ok <;> rfl
    · cases ok <;> simp
  | remove q => exact h.remove he
  | signal call =>
    have hm : s.reqMutex = .removed call := he
    cases call with
    | none => exact h.withMutex (by rw [hm]; rfl) (by simp) (by simp)
    | some c => exact h.done (by rw [hm]; rfl) _
  | turn =>
    have hi : s.input = .turning := he
    exact h.withInput (by simp [hi]) (by rw [hi]; rfl) (by simp) _
  | receive header =>
    have hi : s.input = .reading := he
    cases header with
    | none => exact h.withInput (by simp [hi]) (by rw [hi]; rfl) (by simp) _
    | some r => exact h.withInput (by simp [hi]) (by rw [hi]; rfl) (by simp) _
  | find => exact h.find he
  | complete call got => exact h.complete he got
  | lockSweep => exact h.withMutex (by rw [he.2]; rfl) (by simp) fun _ => he.1
  | sweep => exact h.sweep he
  | close => exact { h with }
  | take c => exact { h with }

theorem count_signals_le (c : κ) : s.signals.count c ≤ 1 := by
  have hnd := h.started ▸ h.nodup
  exact nodup_iff_count_le_one.mp (nodup_add.mp hnd).2.1 c

theorem count_signals_eq (hi : s.input = .finished) (hw : s.waiting = 0)
    (hm : s.reqMutex = .free) (hc : c ∈ s.started) : s.signals.count c = 1 := by
  have hall : s.started = s.signals := by
    rw [h.started, unsignalled, hw, hm, registered, h.finished.mpr hi, hi]
    simp [owed, Input.owed]
  rw [← hall]
  exact count_eq_one_of_mem h.nodup hc

end

end Accounted

/-! ### Sequence numbers -/

structure Numbered (s : Client κ J) : Prop where
  bound : s.started.card < 2 ^ 64
  count : s.seq.toNat + (s.waiting + s.reqMutex.unnumbered).card ≤ s.started.card
  fresh : ∀ c ∈ s.waiting + s.reqMutex.unnumbered, s.numbers c = none
  started : ∀ c q, s.numbers c = some q → c ∈ s.started
  lt : ∀ c q, s.numbers c = some q → q.toNat < s.seq.toNat
  inj : ∀ c c' q, s.numbers c = some q → s.numbers c' = some q → c = c'
  pending : ∀ q c, s.pending.lookup q = some c → s.numbers c = some q
  matched : ∀ c, s.input = .matched (some c) → s.numbers c = some s.response.seq
  ended : ∀ c e q, s.endings c = some e → e.seq? = some q → s.numbers c = some q

theorem Numbered.new : (new κ J).Numbered where
  bound := by simp [Client.new]
  count := by simp [Client.new, unnumbered]
  fresh := by simp [Client.new]
  started := by simp [Client.new]
  lt := by simp [Client.new]
  inj := by simp [Client.new]
  pending := by simp [Client.new]
  matched := by simp [Client.new]
  ended := by simp [Client.new]

namespace Numbered

theorem lookup_seq (h : s.Numbered) : s.pending.lookup s.seq = none := by
  cases hq : s.pending.lookup s.seq with
  | none => rfl
  | some c => exact absurd (h.lt c _ (h.pending _ c hq)) (lt_irrefl _)

theorem withMutex (h : s.Numbered) {m : ReqMutex κ} (hm : m.unnumbered = 0) :
    { s with reqMutex := m }.Numbered where
  __ := h
  count := by
    have hcount := h.count
    simp only [card_add] at hcount ⊢
    rw [hm, card_zero]
    omega
  fresh := fun c hc => h.fresh c (mem_add.mpr (.inl (by simpa [hm] using hc)))

theorem withInput (h : s.Numbered) (hi : ∀ c, i ≠ .matched (some c))
    (r : ProtoHeader) : { s with input := i, response := r }.Numbered :=
  { h with matched := fun c hc => absurd hc (hi c) }

theorem erase (h : s.Numbered) (q : UInt64) : { s with pending := s.pending.erase q }.Numbered where
  __ := h
  pending := by
    intro q' c hc
    exact h.pending q' c (lookup_erase_eq_some hc).2

variable [DecidableEq κ]

section

variable (h : s.Numbered)
include h

theorem send (hc : c ∉ s.started) (hlt : s.started.card + 1 < 2 ^ 64) :
    ((Event.send c).next s).Numbered where
  bound := by simpa [Event.next] using hlt
  count := by
    have hcount := h.count
    simp only [Event.next, cons_add, card_cons] at hcount ⊢
    omega
  fresh := by
    intro x hx
    simp only [Event.next, cons_add, mem_cons] at hx
    obtain rfl | hx := hx
    · cases hn : s.numbers x with
      | none => exact hn
      | some q => exact absurd (h.started x q hn) hc
    · exact h.fresh x hx
  started := fun x q hx => mem_cons_of_mem (h.started x q hx)
  __ := h

theorem lock (hc : c ∈ s.waiting) (hm : s.reqMutex = .free) :
    ((Event.lock c).next s).Numbered := by
  have hsame : s.waiting.erase c + unnumbered (.locked c) =
      s.waiting + s.reqMutex.unnumbered := by
    rw [hm, unnumbered, add_comm, singleton_add, cons_erase hc]
    exact (add_zero _).symm
  exact
    { h with
      count := by
        show s.seq.toNat + (s.waiting.erase c + unnumbered (.locked c)).card ≤ _
        rw [hsame]
        exact h.count
      fresh := by
        intro x hx
        apply h.fresh x
        rw [← hsame]
        exact hx }

theorem register (hm : s.reqMutex = .locked c) (hc : c ∉ s.waiting)
    (hst : c ∈ s.started) : ((Event.register c).next s).Numbered := by
  rw [Event.next]
  split
  · exact h.withMutex rfl
  have hnone : s.numbers c = none := h.fresh c (by simp [hm, unnumbered])
  have hcount : s.seq.toNat + s.waiting.card + 1 ≤ s.started.card := by
    simpa [hm, unnumbered, add_assoc] using h.count
  have hseq : (s.seq + 1).toNat = s.seq.toNat + 1 := by
    have hbound := h.bound
    rw [UInt64.toNat_add]
    exact Nat.mod_eq_of_lt (by simpa using by omega)
  -- numbers that were given before stay
  have hold {x : κ} {q : UInt64} (hx : s.numbers x = some q) :
      update s.numbers c (some s.seq) x = some q := by
    rw [update_of_ne _ _ _]
    · exact hx
    · rintro rfl
      simp [hnone] at hx
  have hnew {x : κ} {q : UInt64} (hx : update s.numbers c (some s.seq) x = some q) :
      (x = c ∧ q = s.seq) ∨ (x ≠ c ∧ s.numbers x = some q) :=
    (update_eq_some hx).imp_left fun h => ⟨h.1, (some.inj h.2).symm⟩
  exact
    { bound := h.bound
      count := by
        show (s.seq + 1).toNat + (s.waiting + 0).card ≤ s.started.card
        rw [hseq, add_zero]
        omega
      fresh := by
        intro x hx
        have hxw : x ∈ s.waiting := by simpa [unnumbered] using hx
        have hxc : x ≠ c := fun heq => hc (heq ▸ hxw)
        show update s.numbers c (some s.seq) x = none
        rw [update_of_ne hxc]
        exact h.fresh x (mem_add.mpr (.inl hxw))
      started := by
        intro x q hx
        obtain ⟨rfl, -⟩ | ⟨-, hx⟩ := hnew hx
        · exact hst
        · exact h.started x q hx
      lt := by
        intro x q hx
        show q.toNat < (s.seq + 1).toNat
        rw [hseq]
        obtain ⟨-, rfl⟩ | ⟨-, hx⟩ := hnew hx
        · omega
        · exact Nat.lt_succ_of_lt (h.lt x q hx)
      inj := by
        intro x y q hx hy
        obtain ⟨rfl, rfl⟩ | ⟨-, hx⟩ := hnew hx
        · obtain ⟨rfl, -⟩ | ⟨-, hy⟩ := hnew hy
          · rfl
          · exact absurd (h.lt y _ hy) (lt_irrefl _)
        obtain ⟨-, rfl⟩ | ⟨-, hy⟩ := hnew hy
        · exact absurd (h.lt x _ hx) (lt_irrefl _)
        · exact h.inj x y q hx hy
      pending := by
        intro q x hx
        obtain ⟨rfl, rfl⟩ | ⟨-, hx⟩ := lookup_insert_eq_some hx
        · exact update_self ..
        · exact hold (h.pending q x hx)
      matched := fun x hx => hold (h.matched x hx)
      ended := fun x e q hx hq => hold (h.ended x e q hx hq) }

theorem done {e : Ending J}
    (he : ∀ q, e.seq? = some q → s.numbers c = some q) : (s.done c e).Numbered where
  __ := h
  ended := by
    intro x e' q hx hq
    obtain ⟨hxc, hx⟩ | ⟨-, hx⟩ := update_eq_some hx
    · cases hx
      rw [hxc]
      exact he q hq
    · exact h.ended x e' q hx hq

theorem complete (hi : s.input = .matched call)
    (got : Option (Option J × ByteString)) : (s.complete call got).Numbered := by
  have hgoes (b : Bool) (c : κ) : (if b then .turning else .ended : Input κ) ≠ .matched (some c) := by
    cases b <;> simp
  cases call with
  | none => exact h.withInput (hgoes _) s.response
  | some c =>
    have hc := h.matched c hi
    rw [Client.complete]
    split
    · exact (h.done fun q hq => by rw [hc]; exact hq).withInput (by simp) s.response
    · exact (h.done fun q hq => by rw [hc]; exact hq).withInput (hgoes _) s.response

theorem sweep : s.sweep.Numbered :=
  { h.withMutex (m := .free) rfl with
    matched := by simp [Client.sweep]
    ended := by
      intro c e q hc hq
      simp only [Client.sweep] at hc
      split at hc
      · cases hc
        cases hq
      · exact h.ended c e q hc hq }

theorem next (hacc : s.Accounted) (he : e.Enabled s) :
    (e.next s).Numbered := by
  cases e with
  | send c => exact h.send he.1 he.2
  | lock c => exact h.lock he.1 he.2
  | register c =>
    have hm : s.reqMutex = .locked c := he
    have hnd := hacc.started ▸ hacc.nodup
    have hc : c ∈ s.reqMutex.owed := by simp [hm, owed]
    refine h.register hm ?_ (hacc.of_unsignalled (by simp [unsignalled, hc])).1
    intro hw
    have hdis := (nodup_add.mp (nodup_add.mp (nodup_add.mp
      (nodup_add.mp hnd).1).1).1).2.2
    exact disjoint_left.mp hdis hw hc
  | refuse c => exact (h.done (by simp [Ending.seq?])).withMutex rfl
  | write q ok => exact h.withMutex (by cases ok <;> rfl)
  | remove q => exact (h.withMutex (m := .removed (s.pending.lookup q)) rfl).erase q
  | signal call =>
    cases call with
    | none => exact h.withMutex rfl
    | some c => exact (h.done (by simp [Ending.seq?])).withMutex rfl
  | turn => exact h.withInput (by simp) _
  | receive header =>
    cases header with
    | none => exact h.withInput (by simp) _
    | some r => exact h.withInput (by simp) _
  | find =>
    exact
      { h.erase s.response.seq with
        matched := by
          intro c hc
          exact h.pending _ c (by simpa [Event.next] using hc) }
  | complete call got => exact h.complete he got
  | lockSweep => exact h.withMutex rfl
  | sweep => exact h.sweep
  | close => exact { h with }
  | take c => exact { h with }

end

end Numbered

/-! ### Replies -/

/-- The loop begins its next turn when the callers of all completed calls have looked at their
replies. -/
def Event.Patient : Event κ J → Client κ J → Prop
  | .turn, s =>
    ∀ c ∈ s.signals, (s.endings c).any Ending.isReply = true → (s.headers c).isSome = true
  | _, _ => True

instance Event.instDecidablePatient [DecidableEq κ] (e : Event κ J) (s : Client κ J) :
    Decidable (e.Patient s) := by
  cases e <;> dsimp only [Patient] <;> infer_instance

/-- A reply that its caller has not looked at is the last, and the loop has not gone on. -/
structure Current (s : Client κ J) : Prop where
  signalled : ∀ c e, s.endings c = some e → c ∈ s.signals
  received : ∀ c h, s.headers c = some h → c ∈ s.signals
  unread : ∀ c q p, s.endings c = some (.reply q p) → s.headers c = none →
    s.response.seq = q ∧ s.input ≠ .reading
  read : ∀ c q p h, s.endings c = some (.reply q p) → s.headers c = some h → h.seq = q

theorem Current.new : (new κ J).Current where
  signalled := by simp [Client.new]
  received := by simp [Client.new]
  unread := by simp [Client.new]
  read := by simp [Client.new]

namespace Current

theorem withInput (h : s.Current)
    (hall : ∀ c q p, s.endings c = some (.reply q p) → s.headers c ≠ none)
    (i : Input κ) (r : ProtoHeader) : { s with response := r, input := i }.Current where
  __ := h
  unread := fun c q p hc hnone => absurd hnone (hall c q p hc)

theorem leave (h : s.Current) (hi : i ≠ .reading) {m : Finmap fun _ : UInt64 => κ} :
    { s with pending := m, input := i }.Current :=
  { h with unread := fun c q p hc hnone => ⟨(h.unread c q p hc hnone).1, hi⟩ }

theorem goes_ne (b : Bool) : (if b then .turning else .ended : Input κ) ≠ .reading := by
  cases b <;> simp

theorem receive (h : s.Current) (hi : s.input = .reading) (i : Input κ) (r : ProtoHeader) :
    { s with response := r, input := i }.Current :=
  h.withInput (fun c q p hc hnone => (h.unread c q p hc hnone).2 hi) i r

variable [DecidableEq κ]

theorem done (h : s.Current) (hc : c ∉ s.signals) {e : Ending J}
    (he : ∀ q p, e = .reply q p → s.response.seq = q ∧ s.input ≠ .reading) : (s.done c e).Current where
  signalled := by
    intro x e' hx
    obtain ⟨hxc, -⟩ | ⟨-, hx⟩ := update_eq_some hx
    · exact hxc ▸ mem_cons_self c _
    · exact mem_cons_of_mem (h.signalled x e' hx)
  received := fun x hd hx => mem_cons_of_mem (h.received x hd hx)
  unread := by
    intro x q p hx hnone
    obtain ⟨-, hx⟩ | ⟨-, hx⟩ := update_eq_some hx
    · exact he q p (some.inj hx)
    · exact h.unread x q p hx hnone
  read := by
    intro x q p hd hx hsome
    obtain ⟨hxc, -⟩ | ⟨-, hx⟩ := update_eq_some hx
    · exact absurd (hxc ▸ h.received x hd hsome) hc
    · exact h.read x q p hd hx hsome

theorem complete (h : s.Current) (hacc : s.Accounted)
    (hi : s.input = .matched call) (got : Option (Option J × ByteString)) :
    (s.complete call got).Current := by
  cases call with
  | none => exact h.leave (goes_ne _)
  | some c =>
    have hc := (hacc.of_unsignalled (c := c) (by simp [unsignalled, hi, Input.owed])).2
    rw [Client.complete]
    split
    · exact (h.done hc (by simp)).leave (by simp)
    refine (h.done hc ?_).leave (goes_ne _)
    intro q p heq
    exact ⟨(Ending.reply.inj heq).1, by simp [hi]⟩

theorem sweep (h : s.Current) : s.sweep.Current where
  signalled := by
    intro c e hc
    simp only [Client.sweep] at hc ⊢
    split at hc
    · next hmem => exact mem_add.mpr (.inl hmem)
    · exact mem_add.mpr (.inr (h.signalled c e hc))
  received := fun c hd hc => mem_add.mpr (.inr (h.received c hd hc))
  unread := by
    intro c q p hc hnone
    simp only [Client.sweep] at hc
    split at hc
    · cases hc
    · exact ⟨(h.unread c q p hc hnone).1, by simp [Client.sweep]⟩
  read := by
    intro c q p hd hc hsome
    simp only [Client.sweep] at hc
    split at hc
    · cases hc
    · exact h.read c q p hd hc hsome

theorem take (h : s.Current) (hc : c ∈ s.signals) (hnone : s.headers c = none) :
    ((Event.take c).next s).Current where
  signalled := h.signalled
  received := by
    intro x hd hx
    obtain ⟨hxc, -⟩ | ⟨-, hx⟩ := update_eq_some hx
    · exact hxc ▸ hc
    · exact h.received x hd hx
  unread := by
    intro x q p hx hn
    by_cases hxc : x = c
    · subst hxc
      simp [Event.next] at hn
    · simp only [Event.next, update_of_ne hxc] at hn
      exact h.unread x q p hx hn
  read := by
    intro x q p hd hx hs
    obtain ⟨hxc, hs⟩ | ⟨-, hs⟩ := update_eq_some hs
    · obtain rfl := some.inj hs
      exact (h.unread x q p hx (hxc ▸ hnone)).1
    · exact h.read x q p hd hx hs

theorem next (h : s.Current) (hacc : s.Accounted) (he : e.Enabled s)
    (hp : e.Patient s) : (e.next s).Current := by
  cases e with
  | refuse c =>
    have hm : s.reqMutex = .refused c := he
    have hc := (hacc.of_unsignalled (c := c) (by simp [unsignalled, hm, owed])).2
    exact { h.done hc (by simp) with }
  | signal call =>
    have hm : s.reqMutex = .removed call := he
    cases call with
    | none => exact { h with }
    | some c =>
      have hc := (hacc.of_unsignalled (c := c) (by simp [unsignalled, hm, owed])).2
      exact { h.done hc (by simp) with }
  | register c =>
    rw [Event.next]
    split
    · exact { h with }
    · exact { h with }
  | turn =>
    refine h.withInput (fun c q p hc hnone => ?_) _ _
    have hsome := hp c (h.signalled c _ hc) (by rw [hc]; rfl)
    simp [hnone] at hsome
  | receive header =>
    cases header with
    | none => exact h.receive he _ s.response
    | some r => exact h.receive he _ r
  | find => exact h.leave (by simp)
  | complete call got => exact h.complete hacc he got
  | sweep => exact h.sweep
  | take c => exact h.take he.1 he.2
  | send | lock | write | remove | lockSweep | close => exact { h with }

end Current

variable [DecidableEq κ]

theorem accounted_and_numbered (hs : Reach Event.next (fun s e => e.Enabled s) (new κ J) s) :
    s.Accounted ∧ s.Numbered :=
  Reach.invariant (I := fun s : Client κ J => s.Accounted ∧ s.Numbered)
    (fun _ _ hI he => ⟨hI.1.next he hI.2.lookup_seq, hI.2.next hI.1 he⟩) hs ⟨.new, .new⟩

def sendSteps (c : κ) (seq : UInt64) (ok : Bool) : List (Event κ Unit) :=
  [.send c, .lock c, .register c, .write seq ok]

def answerSteps (c : κ) (seq : UInt64) : List (Event κ Unit) :=
  [.turn, .receive (some ⟨seq, [], 0, []⟩), .find, .complete (some c) none]

/-- The first of three calls is answered, the second cannot be sent, and the third is pending when
the connection breaks. -/
def threeCalls : Client (Fin 3) Unit :=
  exec Event.next (sendSteps 0 0 true ++ sendSteps 1 1 false ++ [.remove 1, .signal (some 1)] ++
    sendSteps 2 2 true ++ answerSteps 0 0 ++ [.turn, .receive none, .lockSweep, .sweep])
    (new (Fin 3) Unit)

theorem accounted_and_numbered_sample :
    threeCalls.signals = {2, 0, 1} ∧ (∀ c, threeCalls.numbers c = some (.ofNat c)) ∧
      threeCalls.Accounted ∧ threeCalls.Numbered :=
  ⟨by decide +kernel, by decide +kernel, accounted_and_numbered (reach_exec (by decide +kernel))⟩

/-- In every run in which the read loop waits for the callers of completed calls: no number
is given to two calls, and every pending call is under its own; no call is signalled twice;
a call that a response completes gets the one with its number, and finds that number in its
reply; and after the end of the read loop and of every `send` each call is signalled. -/
theorem calls_complete
    (hs : Reach Event.next (fun s e => e.Enabled s ∧ e.Patient s) (new κ J) s) :
    (∀ c c' q, s.numbers c = some q → s.numbers c' = some q → c = c') ∧
    (∀ q c, s.pending.lookup q = some c → s.numbers c = some q) ∧
    (∀ c, s.signals.count c ≤ 1) ∧
    (∀ c e q, s.endings c = some e → e.seq? = some q → s.numbers c = some q) ∧
    (∀ c q p h, s.endings c = some (.reply q p) → s.headers c = some h →
      s.numbers c = some h.seq) ∧
    (s.input = .finished → s.waiting = 0 → s.reqMutex = .free →
      ∀ c ∈ s.started, s.signals.count c = 1) := by
  obtain ⟨hacc, hnum, hcur⟩ : s.Accounted ∧ s.Numbered ∧ s.Current :=
    Reach.invariant (I := fun s : Client κ J => s.Accounted ∧ s.Numbered ∧ s.Current)
      (fun _ _ hI hok => ⟨hI.1.next hok.1 hI.2.1.lookup_seq, hI.2.1.next hI.1 hok.1,
        hI.2.2.next hI.1 hok.1 hok.2⟩) hs ⟨.new, .new, .new⟩
  refine ⟨hnum.inj, hnum.pending, hacc.count_signals_le, hnum.ended, ?_, ?_⟩
  · intro c q p h hc hh
    rw [hcur.read c q p h hc hh]
    exact hnum.ended c _ q hc rfl
  · intro hi hw hm c hc
    exact hacc.count_signals_eq hi hw hm hc

/-! ### Two calls -/

def patientCalls : List (Event Bool Unit) :=
  sendSteps false 0 true ++ sendSteps true 1 true ++ answerSteps true 1 ++ [.take true] ++
    answerSteps false 0 ++ [.take false, .turn, .receive none, .lockSweep, .sweep]

theorem calls_complete_sample :
    let s := exec Event.next patientCalls (new Bool Unit)
    s.input = .finished ∧ s.waiting = 0 ∧ s.reqMutex = .free ∧
      ∀ c ∈ s.started, s.signals.count c = 1 := by
  have hs : Reach Event.next (fun s e => e.Enabled s ∧ e.Patient s) (new Bool Unit)
      (exec Event.next patientCalls (new Bool Unit)) :=
    reach_exec (by decide +kernel)
  have hend := (calls_complete hs).2.2.2.2.2
  exact ⟨rfl, by decide +kernel, rfl, hend rfl (by decide +kernel) rfl⟩

def hastyInput : List (Event Bool Unit) :=
  sendSteps false 0 true ++ sendSteps true 1 true ++ answerSteps false 0 ++
    [.turn, .receive (some ⟨1, [], 0, []⟩), .take false]

theorem reply_has_other_header :
    Reach Event.next (fun s e => e.Enabled s) (new Bool Unit)
        (exec Event.next hastyInput (new Bool Unit)) ∧
      (exec Event.next hastyInput (new Bool Unit)).numbers false = some 0 ∧
      (exec Event.next hastyInput (new Bool Unit)).endings false =
        some (.reply 0 (some (none, []))) ∧
      (exec Event.next hastyInput (new Bool Unit)).headers false =
        some ⟨1, [], 0, []⟩ :=
  ⟨reach_exec (by decide +kernel), by decide +kernel, by decide +kernel, by decide +kernel⟩

end Client

end HugoFS.Tcp
