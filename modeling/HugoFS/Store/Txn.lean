import HugoFS.Lib.Fallible

/-!
# Transactions of the store package

`DoInTxn` and `DoInTikvTranaction`, with every outcome of the operations of a transaction. The
commit is made in a deferred function, and nobody looks at what it returns. On Badger a counter
is covered by no transaction.
-/

namespace HugoFS.Store

open KV

inductive Backend
  | badger
  | tikv
deriving DecidableEq

inductive CommitOutcome
  | ok
  | failed
  | undetermined
deriving DecidableEq

def CommitOutcome.applied (o : CommitOutcome) : Bool := o != .failed

/-- What the engine answers. The error of a rollback is only logged. -/
structure TxnOutcome (ε : Type) where
  newTransaction : Option ε
  begin_ : Option ε
  commit : CommitOutcome

def TxnOutcome.good {ε : Type} : TxnOutcome ε := ⟨none, none, .ok⟩

section Txn

variable {K : Type} [DecidableEq K] {V : K → Type} {C : Type} [DecidableEq C] {φ ε α : Type}

@[ext] structure Durable (V : K → Type) (C : Type) where
  db : Finmap V
  seq : C → Option UInt64

def Backend.number : Backend → Option UInt64 → UInt64
  | .badger, none => 1
  | .tikv, none => 2
  | _, some n => n + 1

def Backend.incr (b : Backend) (c : C) (q : C → Option UInt64) :
    Except φ UInt64 × (C → Option UInt64) :=
  (.ok (b.number (q c)), Function.update q c (some (b.number (q c))))

def Backend.callback (b : Backend) (plan : ℕ → Option φ) (cb : Prog V C φ ε α)
    (st : Durable V C) : ProgRun V (C → Option UInt64) ε α :=
  cb.exec b.incr plan 0 st.db st.seq

def Backend.dropped (b : Backend) (st : Durable V C)
    (r : ProgRun V (C → Option UInt64) ε α) : Durable V C :=
  ⟨st.db, match b with
    | .badger => r.seq
    | .tikv => st.seq⟩

def Backend.committed (b : Backend) (o : CommitOutcome) (st : Durable V C)
    (r : ProgRun V (C → Option UInt64) ε α) : Durable V C :=
  if o.applied then ⟨r.view, r.seq⟩ else b.dropped st r

def Backend.deferred (b : Backend) (o : TxnOutcome ε) (st : Durable V C)
    (r : ProgRun V (C → Option UInt64) ε α) : Durable V C :=
  match r.ending with
  | .returned (.error _) => b.dropped st r
  | .returned (.ok _) => b.committed o.commit st r
  | .panicked => b.committed o.commit st r

def doInTxn (b : Backend) (plan : ℕ → Option φ) (o : TxnOutcome ε) (cb : Prog V C φ ε α)
    (st : Durable V C) : Ending ε α × Durable V C :=
  match o.newTransaction with
  | some e => (.returned (.error e), st)
  | none =>
    if b = .tikv ∧ o.begin_.isSome then (.panicked, st)
    else ((b.callback plan cb st).ending, b.deferred o st (b.callback plan cb st))

open Backend

def doInTikvTranaction (plan : ℕ → Option φ) (o : TxnOutcome ε) (cb : Prog V C φ ε α)
    (st : Durable V C) : Ending ε α × Durable V C :=
  match o.begin_ with
  | some e => (.returned (.error e), st)
  | none =>
    ((Backend.tikv.callback plan cb st).ending,
      Backend.tikv.deferred o st (Backend.tikv.callback plan cb st))

def Faithful (st : Durable V C) (r : ProgRun V (C → Option UInt64) ε α)
    (out : Ending ε α × Durable V C) : Prop :=
  (∀ a, out.1 = .returned (.ok a) → out.2 = ⟨applyWrites r.writes st.db, r.seq⟩) ∧
    ∀ e, out.1 = .returned (.error e) → out.2 = st

def Settles (b : Backend) (o : TxnOutcome ε) (st : Durable V C)
    (r : ProgRun V (C → Option UInt64) ε α) : Prop :=
  (∀ a, r.ending = .returned (.ok a) →
    o.commit = .failed → st.db = r.view ∧ (b = .tikv → st.seq = r.seq)) ∧
  ∀ e, r.ending = .returned (.error e) → b = .badger → r.seq = st.seq

theorem deferred_faithful_iff (b : Backend) (o : TxnOutcome ε) (plan : ℕ → Option φ)
    (cb : Prog V C φ ε α) (st : Durable V C) :
    Faithful st (b.callback plan cb st)
        ((b.callback plan cb st).ending, b.deferred o st (b.callback plan cb st)) ↔
      Settles b o st (b.callback plan cb st) := by
  have hview : (b.callback plan cb st).view = applyWrites (b.callback plan cb st).writes st.db :=
    cb.exec_view _ plan 0 st.db st.seq
  generalize b.callback plan cb st = r at hview ⊢
  rw [Faithful, Settles, deferred, ← hview]
  -- only the way the callback ended decides which half of the statement matters
  rcases hr : r.ending with (e | a) | _
  · cases b <;> simp [dropped, Durable.ext_iff]
  · cases o.commit <;> cases b <;>
      simp [committed, dropped, CommitOutcome.applied, Durable.ext_iff]
  · simp

/-- A transaction is faithful to its caller exactly when it settles, or the callback
was never run; and so is a single operation of the TiKV store. -/
theorem transactions_faithful_iff (b : Backend) (plan : ℕ → Option φ) (o : TxnOutcome ε)
    (cb : Prog V C φ ε α) (st : Durable V C) :
    (Faithful st (b.callback plan cb st) (doInTxn b plan o cb st) ↔
      (o.newTransaction = none → ¬(b = .tikv ∧ o.begin_.isSome) →
        Settles b o st (b.callback plan cb st))) ∧
    (Faithful st (Backend.tikv.callback plan cb st) (doInTikvTranaction plan o cb st) ↔
      (o.begin_ = none → Settles .tikv o st (Backend.tikv.callback plan cb st))) := by
  constructor
  · rw [doInTxn]
    cases hnew : o.newTransaction with
    | some e => simp [Faithful]
    | none =>
      by_cases hbegin : b = .tikv ∧ o.begin_.isSome
      · simp [Faithful, hbegin]
      · simpa [hbegin] using deferred_faithful_iff b o plan cb st
  · rw [doInTikvTranaction]
    cases hbegin : o.begin_ with
    | some e => simp [Faithful]
    | none => simpa using deferred_faithful_iff .tikv o plan cb st

def saveOp (k : K) (v : V k) : Prog V C φ φ Unit :=
  .write [.put k v] fun
    | some e => .throw e
    | none => pure ()

end Txn

def takesAndFails : Prog (fun _ : Bool => ℕ) Unit Unit Unit Unit :=
  .incr () fun _ => .throw ()

/-- A save whose commit failed is reported as done, by `DoInTxn` and by the TiKV
store; and a failed transaction has moved a sequence. -/
theorem transactions_unfaithful :
    let o : TxnOutcome Unit := ⟨none, none, .failed⟩
    let st : Durable (fun _ : Bool => ℕ) Unit := ⟨∅, fun _ => none⟩
    let cb : Prog (fun _ : Bool => ℕ) Unit Unit Unit Unit := saveOp true 7
    ((doInTxn .badger (fun _ => none) o cb st).1 = .returned (.ok ()) ∧
      (doInTxn .badger (fun _ => none) o cb st).2.db.lookup true = none) ∧
    ((doInTikvTranaction (fun _ => none) o cb st).1 = .returned (.ok ()) ∧
      (doInTikvTranaction (fun _ => none) o cb st).2.db.lookup true = none) ∧
    ((doInTxn .badger (fun _ => none) .good takesAndFails st).1 = .returned (.error ()) ∧
      (doInTxn .badger (fun _ => none) .good takesAndFails st).2.seq () = some 1) :=
  ⟨⟨rfl, rfl⟩, ⟨rfl, rfl⟩, rfl, rfl⟩

end HugoFS.Store
