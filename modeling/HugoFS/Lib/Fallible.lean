import HugoFS.Lib.Program

/-!
# Programs whose operations may fail

`KV.Prog` is the body of a transaction as its author sees it: every operation on the store
answers with a result or with an error of the engine. `Prog.exec` runs it against a plan that
says which operations fail.
-/

namespace KV

variable {K : Type} {V : K → Type} {C φ ε δ α β σ : Type}

inductive Edit (V : K → Type) : Type
  | put (k : K) (v : V k)
  | del (k : K)

def Edit.toWrite : Edit V → Write V
  | .put k v => .put k v
  | .del k => .del {k}

inductive Prog (V : K → Type) (C φ ε α : Type) : Type
  | ret (r : Except ε α)
  | panic
  | get (k : K) (next : Except φ (Option (V k)) → Prog V C φ ε α)
  | scan (p : K → Bool) (next : Except φ (Finmap V) → Prog V C φ ε α)
  | write (es : List (Edit V)) (next : Option φ → Prog V C φ ε α)
  | incr (c : C) (next : Except φ UInt64 → Prog V C φ ε α)

inductive Ending (ε α : Type)
  | returned (r : Except ε α)
  | panicked

/-- A finished execution: how it ended, what the program sees of the store, the
state of the counters, the writes that succeeded, and the number of operations. -/
structure ProgRun (V : K → Type) (σ ε α : Type) where
  ending : Ending ε α
  view : Finmap V
  seq : σ
  writes : List (Write V)
  ops : ℕ

namespace Prog

def bind : Prog V C φ ε α → (α → Prog V C φ ε β) → Prog V C φ ε β
  | .ret (.ok a), f => f a
  | .ret (.error e), _ => .ret (.error e)
  | .panic, _ => .panic
  | .get k next, f => .get k (fun v => (next v).bind f)
  | .scan p next, f => .scan p (fun m => (next m).bind f)
  | .write es next, f => .write es (fun e => (next e).bind f)
  | .incr c next, f => .incr c (fun n => (next n).bind f)

instance : Monad (Prog V C φ ε) where
  pure a := .ret (.ok a)
  bind := .bind

def throw (e : ε) : Prog V C φ ε α := .ret (.error e)

def failIf (c : Bool) (e : ε) : Prog V C φ ε Unit :=
  if c then .throw e else .ret (.ok ())

variable [DecidableEq K] {f : α → Prog V C φ ε β}

/-- Execute a program from operation number `n` on. `seq` takes the next number of
a counter, `plan` tells which operations fail. -/
def exec (seq : C → σ → Except φ UInt64 × σ) (plan : ℕ → Option φ) :
    Prog V C φ ε α → ℕ → Finmap V → σ → ProgRun V σ ε α
  | .ret r, n, s, q => ⟨.returned r, s, q, [], n⟩
  | .panic, n, s, q => ⟨.panicked, s, q, [], n⟩
  | .get k next, n, s, q =>
    (next (match plan n with
      | some e => .error e
      | none => .ok (s.lookup k))).exec seq plan (n + 1) s q
  | .scan p next, n, s, q =>
    (next (match plan n with
      | some e => .error e
      | none => .ok (s.restrict p))).exec seq plan (n + 1) s q
  | .write es next, n, s, q =>
    match plan n with
    | some e => (next (some e)).exec seq plan (n + 1) s q
    | none =>
      let ws := es.map Edit.toWrite
      let r := (next none).exec seq plan (n + 1) (applyWrites ws s) q
      { r with writes := ws ++ r.writes }
  | .incr c next, n, s, q =>
    match plan n with
    | some e => (next (.error e)).exec seq plan (n + 1) s q
    | none => (next (seq c q).1).exec seq plan (n + 1) s (seq c q).2

theorem exec_view (seq : C → σ → Except φ UInt64 × σ) (plan : ℕ → Option φ)
    (b : Prog V C φ ε α) (n : ℕ) (s : Finmap V) (q : σ) :
    (b.exec seq plan n s q).view = applyWrites (b.exec seq plan n s q).writes s := by
  induction b generalizing n s q with
  | ret r => rfl
  | panic => rfl
  | get k next ih => exact ih _ _ s q
  | scan p next ih => exact ih _ _ s q
  | write es next ih =>
    rw [exec]
    cases plan n with
    | some e => exact ih _ _ s q
    | none =>
      rw [applyWrites_append]
      exact ih _ _ _ q
  | incr c next ih =>
    rw [exec]
    cases plan n with
    | some e => exact ih _ _ s q
    | none => exact ih _ _ s _

/-! ### What a successful execution has done -/

section Ensures

variable (seq : C → σ → Except φ UInt64 × σ) (plan : ℕ → Option φ)
variable {Q : α → Finmap V → σ → List (Write V) → ℕ → Prop}

/-- If the program returns a result, `Q` holds of the result, of what the program
then sees, of the counters, of its writes and of the number of its operations. -/
def Ensures (b : Prog V C φ ε α) (n : ℕ) (s : Finmap V) (q : σ)
    (Q : α → Finmap V → σ → List (Write V) → ℕ → Prop) : Prop :=
  ∀ a, (b.exec seq plan n s q).ending = .returned (.ok a) →
    Q a (b.exec seq plan n s q).view (b.exec seq plan n s q).seq
      (b.exec seq plan n s q).writes (b.exec seq plan n s q).ops

variable {seq plan} {n : ℕ} {s : Finmap V} {q : σ}

theorem ensures_pure {a : α}
    (h : Q a s q [] n) : (pure a : Prog V C φ ε α).Ensures seq plan n s q Q := by
  intro a' ha
  cases ha
  exact h

theorem ensures_throw {e : ε} :
    (throw e : Prog V C φ ε α).Ensures seq plan n s q Q := by
  intro a ha
  cases ha

theorem ensures_panic :
    (.panic : Prog V C φ ε α).Ensures seq plan n s q Q := by
  intro a ha
  cases ha

theorem ensures_failIf {c : Bool} {e : ε} :
    (failIf c e : Prog V C φ ε Unit).Ensures seq plan n s q
      fun _ s' q' ws m => s' = s ∧ q' = q ∧ ws = [] ∧ m = n := by
  cases c with
  | true => exact ensures_throw
  | false => exact ensures_pure ⟨rfl, rfl, rfl, rfl⟩

open Prog

theorem Ensures.bind {b : Prog V C φ ε α} {R : β → Finmap V → σ → List (Write V) → ℕ → Prop}
    (hb : b.Ensures seq plan n s q Q)
    (hf : ∀ a s' q' ws m, Q a s' q' ws m → (f a).Ensures seq plan m s' q'
      fun r s'' q'' ws' m' => R r s'' q'' (ws ++ ws') m') :
    (b >>= f).Ensures seq plan n s q R := by
  induction b generalizing n s q Q R with
  | ret r =>
    cases r with
    | ok a => exact hf a s q [] n (hb a rfl)
    | error e => exact ensures_throw
  | panic => exact ensures_panic
  | get k next ih => exact ih _ hb hf
  | scan p next ih => exact ih _ hb hf
  | write es next ih =>
    cases hn : plan n with
    | some e =>
      have hb' : (next (some e)).Ensures seq plan (n + 1) s q Q := by
        simpa only [Ensures, exec, hn] using hb
      have h := ih (some e) hb' hf
      change (write es fun e => next e >>= f).Ensures seq plan n s q R
      simpa only [Ensures, exec, hn] using h
    | none =>
      -- the writes of this operation come before those of the rest
      have hb' : (next none).Ensures seq plan (n + 1) (applyWrites (es.map Edit.toWrite) s) q
          fun a s' q' ws m => Q a s' q' (es.map Edit.toWrite ++ ws) m := by
        simpa only [Ensures, exec, hn] using hb
      have h := ih none (R := fun r s'' q'' ws m => R r s'' q'' (es.map Edit.toWrite ++ ws) m)
        hb' fun a s' q' ws m hQ => by
          simpa only [List.append_assoc] using hf a s' q' _ m hQ
      change (write es fun e => next e >>= f).Ensures seq plan n s q R
      simpa only [Ensures, exec, hn] using h
  | incr c next ih =>
    cases hn : plan n with
    | some e =>
      have hb' : (next (.error e)).Ensures seq plan (n + 1) s q Q := by
        simpa only [Ensures, exec, hn] using hb
      have h := ih (.error e) hb' hf
      change (incr c fun r => next r >>= f).Ensures seq plan n s q R
      simpa only [Ensures, exec, hn] using h
    | none =>
      have hb' : (next (seq c q).1).Ensures seq plan (n + 1) s (seq c q).2 Q := by
        simpa only [Ensures, exec, hn] using hb
      have h := ih (seq c q).1 hb' hf
      change (incr c fun r => next r >>= f).Ensures seq plan n s q R
      simpa only [Ensures, exec, hn] using h

end Ensures

variable {b : Prog V C φ ε α}

/-! ### How many numbers a program takes -/

def AtMost : Prog V C φ ε α → ℕ → Prop
  | .ret _, _ => True
  | .panic, _ => True
  | .get _ next, m => ∀ v, (next v).AtMost m
  | .scan _ next, m => ∀ v, (next v).AtMost m
  | .write _ next, m => ∀ e, (next e).AtMost m
  | .incr _ _, 0 => False
  | .incr _ next, m + 1 => ∀ v, (next v).AtMost m

omit [DecidableEq K] in
theorem AtMost.mono {m m' : ℕ} (h : b.AtMost m) (hm : m ≤ m') :
    b.AtMost m' := by
  induction b generalizing m m' with
  | ret r => trivial
  | panic => trivial
  | get k next ih => exact fun v => ih v (h v) hm
  | scan p next ih => exact fun v => ih v (h v) hm
  | write es next ih => exact fun e => ih e (h e) hm
  | incr c next ih =>
    cases m with
    | zero => exact h.elim
    | succ m =>
      obtain ⟨k, rfl⟩ : ∃ k, m' = k + 1 := ⟨m' - 1, by omega⟩
      exact fun v => ih v (h v) (by omega)

omit [DecidableEq K] in
theorem AtMost.bind {m k : ℕ}
    (hb : b.AtMost m) (hf : ∀ a, (f a).AtMost k) : (b >>= f).AtMost (m + k) := by
  induction b generalizing m with
  | ret r =>
    cases r with
    | ok a => exact (hf a).mono (by omega)
    | error e => trivial
  | panic => trivial
  | get _ next ih => exact fun v => ih v (hb v)
  | scan _ next ih => exact fun v => ih v (hb v)
  | write _ next ih => exact fun e => ih e (hb e)
  | incr c next ih =>
    cases m with
    | zero => exact hb.elim
    | succ m =>
      rw [Nat.succ_add]
      exact fun v => ih v (hb v)

theorem exec_seq_of_le_one (seq : C → σ → Except φ UInt64 × σ) (plan : ℕ → Option φ) {m : ℕ} (hm : m ≤ 1)
    (h : b.AtMost m) (n : ℕ) (s : Finmap V) (q : σ) :
    (b.exec seq plan n s q).seq = q ∨ m = 1 ∧ ∃ c, (b.exec seq plan n s q).seq = (seq c q).2 := by
  induction b generalizing m n s q with
  | ret r => exact .inl rfl
  | panic => exact .inl rfl
  | get k next ih => exact ih _ hm (h _) _ s q
  | scan p next ih => exact ih _ hm (h _) _ s q
  | write es next ih =>
    rw [exec]
    cases plan n with
    | some e => exact ih _ hm (h _) _ s q
    | none => exact ih _ hm (h _) _ _ q
  | incr c next ih =>
    obtain rfl | rfl := Nat.le_one_iff_eq_zero_or_eq_one.mp hm
    · exact h.elim
    -- nothing is left to count
    have hrest : ∀ v n q', ((next v).exec seq plan n s q').seq = q' := fun v n q' =>
      (ih v (Nat.zero_le 1) (h v) n s q').resolve_right fun h => Nat.zero_ne_one h.1
    rw [exec]
    cases plan n with
    | some e => exact .inl (hrest _ _ q)
    | none => exact .inr ⟨rfl, c, hrest _ _ _⟩

end Prog

end KV
