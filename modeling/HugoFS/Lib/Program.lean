import HugoFS.Lib.FiniteMap

/-!
# Programs over a keyed store

A store is a finite map whose value type depends on the key. `KV.Body` is the body of one
transaction and `KV.Call` one call of a service. `exec` and `run` execute them alone;
`Body.log` and `Body.observes` are what an interleaved execution needs.
-/

namespace KV

open Finmap Except

variable {K : Type} [DecidableEq K] {V : K → Type} {ε α β ρ : Type}
variable {k : K} {s s' : Finmap V}

/-- One write of a batch: a record is saved, or a set of records is deleted. -/
inductive Write (V : K → Type) : Type
  | put (k : K) (v : V k)
  | del (ks : Finset K)

def Write.keys : Write V → Finset K
  | .put k _ => {k}
  | .del ks => ks

def Write.apply : Write V → Finmap V → Finmap V
  | .put k v, s => s.insert k v
  | .del ks, s => s.restrict (fun k => decide (k ∉ ks))

open Write

theorem Write.lookup_apply_of_notMem {w : Write V} (h : k ∉ w.keys) (s : Finmap V) :
    (w.apply s).lookup k = s.lookup k := by
  cases w with
  | put k' v => exact lookup_insert_of_ne s (by simpa [keys] using h)
  | del ks =>
    have h' : k ∉ ks := h
    simp [apply, lookup_restrict, h']

theorem Write.lookup_apply_of_mem {w : Write V} (h : k ∈ w.keys)
    (s s' : Finmap V) : (w.apply s).lookup k = (w.apply s').lookup k := by
  cases w with
  | put k' v =>
    obtain rfl : k = k' := by simpa [keys] using h
    simp [apply]
  | del ks =>
    have h' : k ∈ ks := h
    simp [apply, lookup_restrict, h']

theorem Write.lookup_apply_congr (w : Write V)
    (h : s.lookup k = s'.lookup k) : (w.apply s).lookup k = (w.apply s').lookup k := by
  by_cases hk : k ∈ w.keys
  · exact lookup_apply_of_mem hk s s'
  · rw [lookup_apply_of_notMem hk, lookup_apply_of_notMem hk, h]

theorem Write.apply_del_singleton (k : K) (s : Finmap V) :
    (del {k}).apply s = s.erase k := by
  apply ext_lookup
  intro x
  by_cases hx : x = k
  · subst hx
    simp [apply, lookup_restrict]
  · simp [apply, lookup_restrict, hx, lookup_erase_ne hx]

def applyWrites (ws : List (Write V)) (s : Finmap V) : Finmap V :=
  ws.foldl (fun s w => w.apply s) s

def writeKeys (ws : List (Write V)) : Finset K :=
  ws.foldr (fun w ks => w.keys ∪ ks) ∅

@[simp] theorem applyWrites_nil (s : Finmap V) : applyWrites [] s = s := rfl

@[simp] theorem applyWrites_cons (w : Write V) (ws : List (Write V)) (s : Finmap V) :
    applyWrites (w :: ws) s = applyWrites ws (w.apply s) := rfl

theorem applyWrites_append (ws ws' : List (Write V)) (s : Finmap V) :
    applyWrites (ws ++ ws') s = applyWrites ws' (applyWrites ws s) :=
  List.foldl_append

@[simp] theorem writeKeys_nil : writeKeys ([] : List (Write V)) = ∅ := rfl

@[simp] theorem writeKeys_cons (w : Write V) (ws : List (Write V)) :
    writeKeys (w :: ws) = w.keys ∪ writeKeys ws := rfl

theorem writeKeys_append (ws ws' : List (Write V)) :
    writeKeys (ws ++ ws') = writeKeys ws ∪ writeKeys ws' := by
  induction ws with
  | nil => simp
  | cons w ws ih => rw [List.cons_append, writeKeys_cons, writeKeys_cons, ih, Finset.union_assoc]

theorem lookup_applyWrites_of_notMem {ws : List (Write V)} (h : k ∉ writeKeys ws) (s : Finmap V) :
    (applyWrites ws s).lookup k = s.lookup k := by
  induction ws generalizing s with
  | nil => rfl
  | cons w ws ih =>
    rw [writeKeys_cons, Finset.mem_union, not_or] at h
    rw [applyWrites_cons, ih h.2, lookup_apply_of_notMem h.1]

theorem lookup_applyWrites_congr (ws : List (Write V)) (h : s.lookup k = s'.lookup k) :
    (applyWrites ws s).lookup k = (applyWrites ws s').lookup k := by
  induction ws generalizing s s' with
  | nil => exact h
  | cons w ws ih => exact ih (w.lookup_apply_congr h)

theorem lookup_applyWrites_of_mem {ws : List (Write V)} (h : k ∈ writeKeys ws) (s s' : Finmap V) :
    (applyWrites ws s).lookup k = (applyWrites ws s').lookup k := by
  induction ws generalizing s s' with
  | nil => simp at h
  | cons w ws ih =>
    by_cases hk : k ∈ writeKeys ws
    · exact ih hk _ _
    rw [writeKeys_cons, Finset.mem_union] at h
    rw [applyWrites_cons, applyWrites_cons]
    exact lookup_applyWrites_congr ws (lookup_apply_of_mem (h.resolve_right hk) s s')

inductive Body (V : K → Type) (ε α : Type) : Type
  | pure (a : α)
  | throw (e : ε)
  | get (k : K) (next : Option (V k) → Body V ε α)
  | scan (p : K → Bool) (next : Finmap V → Body V ε α)
  | put (k : K) (v : V k) (next : Body V ε α)
  | del (k : K) (next : Body V ε α)

namespace Body

variable {f : α → Body V ε β} {b : Body V ε α} {s s' : Finmap V} {e : ε}

def bind : Body V ε α → (α → Body V ε β) → Body V ε β
  | .pure a, f => f a
  | .throw e, _ => .throw e
  | .get k next, f => .get k (fun v => (next v).bind f)
  | .scan p next, f => .scan p (fun m => (next m).bind f)
  | .put k v next, f => .put k v (next.bind f)
  | .del k next, f => .del k (next.bind f)

instance : Monad (Body V ε) where
  pure := .pure
  bind := .bind

def failIf (c : Bool) (e : ε) : Body V ε Unit :=
  if c then .throw e else .pure ()

/-- Execute a body alone: its result and the store it leaves, or its error. -/
def exec : Body V ε α → Finmap V → Except ε (α × Finmap V)
  | .pure a, s => .ok (a, s)
  | .throw e, _ => .error e
  | .get k next, s => (next (s.lookup k)).exec s
  | .scan p next, s => (next (s.restrict p)).exec s
  | .put k v next, s => next.exec (s.insert k v)
  | .del k next, s => next.exec (s.erase k)

theorem exec_bind (b : Body V ε α) (f : α → Body V ε β) (s : Finmap V) :
    (b >>= f).exec s = match b.exec s with
      | .ok (a, s') => (f a).exec s'
      | .error e => .error e := by
  change (b.bind f).exec s = _
  induction b generalizing s with
  | pure a => rfl
  | throw e => rfl
  | get k next ih => exact ih _ s
  | scan p next ih => exact ih _ s
  | put k v next ih => exact ih _
  | del k next ih => exact ih _

/-! Inverting a successful execution, step by step. -/

@[simp] theorem exec_bind_ok {r : β × Finmap V} :
    (b >>= f).exec s = .ok r ↔ ∃ a s', b.exec s = .ok (a, s') ∧ (f a).exec s' = .ok r := by
  rw [exec_bind]
  rcases b.exec s with e | ⟨a, s'⟩
  · simp
  constructor
  · exact fun h => ⟨a, s', rfl, h⟩
  · rintro ⟨a', s'', h, hr⟩
    cases h
    exact hr

@[simp] theorem exec_pure_ok {a a' : α} :
    (Pure.pure a : Body V ε α).exec s = .ok (a', s') ↔ a' = a ∧ s' = s := by
  change ok (a, s) = ok (a', s') ↔ _
  rw [ok.injEq, Prod.mk.injEq, eq_comm, @eq_comm _ s]

@[simp] theorem exec_throw_ok {r : α × Finmap V} :
    (Body.throw e : Body V ε α).exec s = .ok r ↔ False := by
  change error e = ok r ↔ _
  simp

@[simp] theorem exec_failIf_ok {c : Bool} {u : Unit} :
    (failIf c e : Body V ε Unit).exec s = .ok (u, s') ↔ c = false ∧ s = s' := by
  cases c
  · change (Pure.pure () : Body V ε Unit).exec s = _ ↔ _
    rw [exec_pure_ok, @eq_comm _ s]
    simp
  · change (.throw e : Body V ε Unit).exec s = _ ↔ _
    simp

def Avoids (e : ε) (b : Body V ε α) : Prop := ∀ s, b.exec s ≠ .error e

theorem avoids_pure (e : ε) (a : α) : Avoids e (Pure.pure a : Body V ε α) := by
  rintro s ⟨⟩

theorem avoids_throw {e e' : ε} (h : e' ≠ e) : Avoids e (.throw e' : Body V ε α) := by
  intro s hs
  cases hs
  exact h rfl

theorem avoids_failIf {e e' : ε} (c : Bool) (h : e' ≠ e) :
    Avoids e (failIf c e' : Body V ε Unit) := by
  cases c with
  | true => exact avoids_throw h
  | false => exact avoids_pure e ()

theorem Avoids.exec_bind_error (hb : b.Avoids e) :
    (b >>= f).exec s = .error e ↔ ∃ a s', b.exec s = .ok (a, s') ∧ (f a).exec s' = .error e := by
  rw [exec_bind]
  have hne := hb s
  rcases hr : b.exec s with e' | ⟨a, s'⟩
  · constructor
    · intro h
      cases h
      exact absurd hr hne
    · rintro ⟨a, s', h, -⟩
      cases h
  · constructor
    · exact fun h => ⟨a, s', rfl, h⟩
    · rintro ⟨a', s'', h, he⟩
      cases h
      exact he

theorem exec_bind_error_of_avoids
    (hf : ∀ a, (f a).Avoids e) : (b >>= f).exec s = .error e ↔ b.exec s = .error e := by
  rw [exec_bind]
  rcases b.exec s with e' | ⟨a, s'⟩
  · constructor <;> exact fun h => congrArg _ (error.inj h)
  · exact iff_of_false (hf a s') (by rintro ⟨⟩)

theorem Avoids.bind (hb : b.Avoids e) (hf : ∀ a, (f a).Avoids e) : (b >>= f).Avoids e := by
  intro s h
  obtain ⟨a, s', -, ha⟩ := hb.exec_bind_error.mp h
  exact hf a s' ha

def log : Body V ε α → Finmap V → Except ε α × List (Write V)
  | .pure a, _ => (.ok a, [])
  | .throw e, _ => (.error e, [])
  | .get k next, s => (next (s.lookup k)).log s
  | .scan p next, s => (next (s.restrict p)).log s
  | .put k v next, s =>
      let r := next.log (s.insert k v)
      (r.1, .put k v :: r.2)
  | .del k next, s =>
      let r := next.log (s.erase k)
      (r.1, .del {k} :: r.2)

/-- The keys whose values a body looks at: those it reads and every key of a bucket that
it scans. -/
def observes : Body V ε α → Finmap V → K → Bool
  | .pure _, _, _ => false
  | .throw _, _, _ => false
  | .get k next, s, x => x == k || (next (s.lookup k)).observes s x
  | .scan p next, s, x => p x || (next (s.restrict p)).observes s x
  | .put k v next, s, x => next.observes (s.insert k v) x
  | .del k next, s, x => next.observes (s.erase k) x

/-- The keys that the store's conflict detection records for a body: those it reads
and did not write itself before, and those present in a bucket that it scans. `own`
holds the keys written so far. -/
def tracked : Body V ε α → Finmap V → Finset K → Finset K
  | .pure _, _, _ => ∅
  | .throw _, _, _ => ∅
  | .get k next, s, own =>
      (if k ∈ own then ∅ else {k}) ∪ (next (s.lookup k)).tracked s own
  | .scan p next, s, own =>
      (s.restrict p).keys ∪ (next (s.restrict p)).tracked s own
  | .put k v next, s, own => next.tracked (s.insert k v) (insert k own)
  | .del k next, s, own => next.tracked (s.erase k) (insert k own)

theorem exec_eq_log (b : Body V ε α) (s : Finmap V) :
    b.exec s = match b.log s with
      | (.ok a, ws) => .ok (a, applyWrites ws s)
      | (.error e, _) => .error e := by
  induction b generalizing s with
  | pure a => rfl
  | throw e => rfl
  | get k next ih => exact ih _ s
  | scan p next ih => exact ih _ s
  | put k v next ih =>
    rw [exec, ih, log]
    rcases next.log (s.insert k v) with ⟨_ | _, _⟩ <;> rfl
  | del k next ih =>
    rw [exec, ih, log]
    rcases next.log (s.erase k) with ⟨_ | _, _⟩ <;> simp [apply_del_singleton]

theorem restrict_congr {p : K → Bool}
    (h : ∀ k, p k → s.lookup k = s'.lookup k) : s.restrict p = s'.restrict p := by
  apply ext_lookup
  intro k
  rw [lookup_restrict, lookup_restrict]
  by_cases hk : p k = true
  · rw [if_pos hk, if_pos hk, h k hk]
  · rw [if_neg hk, if_neg hk]

theorem log_congr (b : Body V ε α)
    (h : ∀ k, b.observes s k = true → s.lookup k = s'.lookup k) : b.log s' = b.log s := by
  induction b generalizing s s' with
  | pure a => rfl
  | throw e => rfl
  | get k next ih =>
    have hk : s.lookup k = s'.lookup k := h k (by simp [observes])
    rw [log, log, ← hk]
    exact ih _ fun x hx => h x (by simp [observes, hx])
  | scan p next ih =>
    have hp : s.restrict p = s'.restrict p :=
      restrict_congr fun k hk => h k (by simp [observes, hk])
    rw [log, log, ← hp]
    exact ih _ fun x hx => h x (by simp [observes, hx])
  | put k v next ih =>
    have hl : next.log (s'.insert k v) = next.log (s.insert k v) :=
      ih fun x hx => (Write.put k v).lookup_apply_congr (h x hx)
    rw [log, log, hl]
  | del k next ih =>
    have hl : next.log (s'.erase k) = next.log (s.erase k) := by
      refine ih fun x hx => ?_
      rw [← apply_del_singleton, ← apply_del_singleton]
      exact (Write.del {k}).lookup_apply_congr (h x hx)
    rw [log, log, hl]

end Body

/-- One call of a service: reads and batch writes of its own, possibly ended by
one transaction whose result is the result of the call. -/
inductive Call (V : K → Type) (ε ρ : Type) : Type
  | done (r : Except ε ρ)
  | get (k : K) (next : Option (V k) → Call V ε ρ)
  | scan (p : K → Bool) (next : Finmap V → Call V ε ρ)
  | write (ws : List (Write V)) (next : Call V ε ρ)
  | txn (b : Body V ε ρ)

namespace Call

variable {b : Body V ε ρ}

/-- Execute a call alone: what it reports and the store it leaves. A transaction
that exits with an error leaves the store as it was. -/
def run : Call V ε ρ → Finmap V → Except ε ρ × Finmap V
  | .done r, s => (r, s)
  | .get k next, s => (next (s.lookup k)).run s
  | .scan p next, s => (next (s.restrict p)).run s
  | .write ws next, s => next.run (applyWrites ws s)
  | .txn b, s => match b.exec s with
      | .ok (a, s') => (.ok a, s')
      | .error e => (.error e, s)

def map {σ : Type} (f : ρ → σ) : Call V ε ρ → Call V ε σ
  | .done r => .done (r.map f)
  | .get k next => .get k fun v => (next v).map f
  | .scan p next => .scan p fun m => (next m).map f
  | .write ws next => .write ws (next.map f)
  | .txn b => .txn (b >>= fun a => pure (f a))

theorem run_txn : (txn b).run s = match b.exec s with
    | .ok (a, s') => (.ok a, s')
    | .error e => (.error e, s) := rfl

theorem run_map {σ : Type} (f : ρ → σ) (c : Call V ε ρ) (s : Finmap V) :
    (c.map f).run s = ((c.run s).1.map f, (c.run s).2) := by
  induction c generalizing s with
  | done r => rfl
  | get k next ih => exact ih _ s
  | scan p next ih => exact ih _ s
  | write ws next ih => exact ih _
  | txn b =>
    rw [map, run_txn, run_txn, Body.exec_bind]
    rcases b.exec s with e | ⟨a, s'⟩ <;> rfl

open Call

theorem run_txn_cases (b : Body V ε ρ) (s : Finmap V) :
    (∃ a s', b.exec s = .ok (a, s') ∧ (txn b).run s = (.ok a, s')) ∨
      ∃ e, (txn b).run s = (.error e, s) := by
  rw [run_txn]
  rcases b.exec s with e | ⟨a, s'⟩
  · exact .inr ⟨e, rfl⟩
  · exact .inl ⟨a, s', rfl, rfl⟩

theorem run_txn_ok {a : ρ} (h : b.exec s = .ok (a, s')) : (txn b).run s = (.ok a, s') := by
  rw [run_txn, h]

theorem run_txn_error {e : ε} (h : b.exec s = .error e) : (txn b).run s = (.error e, s) := by
  rw [run_txn, h]

theorem run_txn_fst_error {e : ε} : ((txn b).run s).1 = .error e ↔ b.exec s = .error e := by
  rw [run_txn]
  rcases b.exec s with e' | ⟨a, s'⟩
  · constructor <;> exact fun h => congrArg _ (error.inj h)
  · exact iff_of_false (by rintro ⟨⟩) (by rintro ⟨⟩)

def FailsClean (c : Call V ε ρ) : Prop :=
  ∀ s e, (c.run s).1 = .error e → (c.run s).2 = s

theorem failsClean_done (r : Except ε ρ) : (.done r : Call V ε ρ).FailsClean :=
  fun _ _ _ => rfl

theorem failsClean_get {k : K} {next : Option (V k) → Call V ε ρ}
    (h : ∀ v, (next v).FailsClean) : (get k next).FailsClean :=
  fun s e he => h (s.lookup k) s e he

theorem failsClean_txn (b : Body V ε ρ) : (txn b).FailsClean := by
  intro s e he
  cases hb : b.exec s with
  | ok r => rw [run_txn_ok hb] at he; cases he
  | error e' => rw [run_txn_error hb]

theorem FailsClean.map {σ : Type} {c : Call V ε ρ} (h : c.FailsClean) (f : ρ → σ) :
    (c.map f).FailsClean := by
  intro s e he
  rw [run_map] at he ⊢
  rcases hc : (c.run s).1 with e' | a
  · exact h s e' hc
  · rw [hc] at he
    cases he

end Call

end KV
