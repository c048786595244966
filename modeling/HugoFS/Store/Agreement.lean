import HugoFS.Store.Tikv

/-!
# The two back ends side by side

The same calls are sent to a `BadgerStore` and to a `TikvStore` that hold the same pairs.
`StoreOp.Agrees` tells from the call and from the stored keys when they do the same.
-/

namespace HugoFS.Store

open ByteString List BadgerStore

inductive StoreOp
  | save (key : Key) (value : Value)
  | get (key : Key)
  | delete (key : Key)
  | scan (pre start stop : Key)
  | getByBucket (pre : Key)
  | deleteByBucket (pre : Key) (fits : ℕ → Bool)
  | incr (key : Key) (step : UInt64)

inductive StoreResult
  | ok
  | value (r : Except StoreError Value)
  | pairs (l : List (Key × Value))
  | bucket (b : Db)
  | number (r : Except StoreError UInt64)
deriving DecidableEq

def BadgerStore.step (m : Db) : StoreOp → StoreResult × Db
  | .save k v => (.ok, save m k v)
  | .get k => (.value (get m k), m)
  | .delete k => (.ok, delete m k)
  | .scan pre start stop => (.pairs (scan m pre start stop), m)
  | .getByBucket pre => (.bucket (getByBucket m pre), m)
  | .deleteByBucket pre fits => (.ok, deleteByBucket m pre fits)
  | .incr k count => (.number (incr m k count).1, (incr m k count).2)

def TikvStore.step (m : Db) : StoreOp → StoreResult × Db
  | .save k v => (.ok, save m k v)
  | .get k => (.value (get m k), m)
  | .delete k => (.ok, delete m k)
  | .scan pre start stop => (.pairs (scan m pre start stop), m)
  | .getByBucket pre => (.bucket (getByBucket m pre), m)
  | .deleteByBucket pre _ => (.ok, deleteByBucket m pre)
  | .incr k step => (.number (incr m k step).1, (incr m k step).2)

def runAll (step : Db → StoreOp → StoreResult × Db) (m : Db) :
    List StoreOp → List StoreResult × Db
  | [] => ([], m)
  | op :: ops =>
    let r := step m op
    let rs := runAll step r.2 ops
    (r.1 :: rs.1, rs.2)

/-- No stored key has the name of the bucket as a proper part of its first component. -/
def Divided (m : Db) (pre : Key) : Prop :=
  ∀ e ∈ m.entries, pre <+: e.1 → pre ++ seperator <+: e.1

/-- Every key below the root is one that Badger returns for the bucket `/`. -/
def Shallow (m : Db) : Prop :=
  ∀ e ∈ m.entries, seperator <+: e.1 → e.1 ≠ seperator ∧ e.1.count 47 ≤ 1

/-- No key is returned for the bucket `//` by one store alone. -/
def Unmixed (m : Db) : Prop :=
  ∀ e ∈ m.entries, seperator <+: e.1 →
    e.1 = seperator ∨ (1 < e.1.count 47 ∧ ¬seperator ++ seperator <+: e.1)

/-- When the two stores do the same on a call. The counters never do. -/
def StoreOp.Agrees (m : Db) : StoreOp → Prop
  | .save _ _ => True
  | .delete _ => True
  | .get k => k = seperator ∨ ¬seperator <:+ k ∨ m.get (trimSuffix k) = m.get k
  | .scan pre start stop =>
    stop ≠ [] ∧ pre <+: start ∧ (m.get stop = none ∨ stop < start ∨ ¬pre <+: stop)
  | .getByBucket pre =>
    if pre = seperator then Shallow m
    else if pre = seperator ++ seperator then Unmixed m
    else seperator <:+ pre ∨ Divided m pre
  | .deleteByBucket pre _ =>
    (m.iterFrom (deletePrefix pre)).length ≤ 10 ∧ (seperator <:+ pre ∨ Divided m pre)
  | .incr _ _ => False

def AgreeAlong (m : Db) : List StoreOp → Prop
  | [] => True
  | op :: ops => op.Agrees m ∧ AgreeAlong (TikvStore.step m op).2 ops

section Steps

variable {m : Db} {k pre start stop x : Key}

theorem get_eq_iff :
    get m k = TikvStore.get m k ↔ (StoreOp.get k).Agrees m := by
  have hvals : get m k = TikvStore.get m k ↔
      m.get (readKey k) = m.get k := by
    rw [BadgerStore.get, TikvStore.get]
    cases m.get (readKey k) <;> cases m.get k <;> simp
  rw [hvals, StoreOp.Agrees, readKey]
  by_cases hk : k = seperator
  · simp [hk]
  by_cases hs : seperator <:+ k
  · simp [hk, hs]
  · simp [hk, hs, trimSuffix_of_not hs]

theorem hasPrefix_append_eq_iff :
    hasPrefix x (pre ++ seperator) = hasPrefix x pre ↔ (pre <+: x → pre ++ seperator <+: x) := by
  rw [Bool.eq_iff_iff, hasPrefix_iff, hasPrefix_iff]
  exact ⟨fun h => h.mpr, fun h => ⟨fun hx => (prefix_append pre seperator).trans hx, h⟩⟩

theorem readKey_seperator : readKey seperator = seperator := rfl

theorem readKey_double : readKey (seperator ++ seperator) = seperator := rfl

theorem inBucket_seperator :
    inBucket seperator x = true ↔
      seperator <+: x ∧ x ≠ seperator ∧ x.count 47 ≤ 1 := by
  simp [inBucket, bucketPrefix, hasPrefix_iff, and_assoc]

theorem one_lt_count_of_double (h : seperator ++ seperator <+: x) :
    1 < x.count 47 := by
  obtain ⟨t, rfl⟩ := h
  rw [count_append]
  have hdouble : (seperator ++ seperator).count 47 = 2 := by decide
  omega

open StoreOp

open SortedMap

theorem getByBucket_eq_iff :
    getByBucket m pre = TikvStore.getByBucket m pre ↔
      (getByBucket pre).Agrees m := by
  rw [getByBucket_eq, TikvStore.getByBucket_eq, filter_eq_filter_iff,
    Agrees]
  by_cases hroot : pre = seperator
  · rw [if_pos hroot, hroot, readKey_seperator]
    refine forall₂_congr fun e _ => ?_
    rw [Bool.eq_iff_iff, inBucket_seperator, hasPrefix_iff]
    exact ⟨fun h hx => (h.mpr hx).2, fun h => ⟨fun hx => hx.1, fun hx => ⟨hx, h hx⟩⟩⟩
  rw [if_neg hroot]
  by_cases hdouble : pre = seperator ++ seperator
  · rw [if_pos hdouble, hdouble, readKey_double]
    refine forall₂_congr fun e _ => ?_
    rw [Bool.eq_iff_iff, inBucket_seperator, hasPrefix_iff]
    have hone : seperator ++ seperator <+: e.1 → seperator <+: e.1 :=
      fun h => (prefix_append seperator seperator).trans h
    have hcount := @one_lt_count_of_double e.1
    grind
  rw [if_neg hdouble]
  by_cases hs : seperator <:+ pre
  · refine iff_of_true (fun e _ => ?_) (.inl hs)
    obtain ⟨name, rfl⟩ := hs
    have hname : name ≠ seperator := fun h => hdouble (by rw [h])
    rw [readKey, if_pos hroot, trimSuffix_append, inBucket_of_ne hname]
  rw [readKey, if_pos hroot, trimSuffix_of_not hs, or_iff_right hs]
  refine forall₂_congr fun e _ => ?_
  rw [inBucket_of_ne hroot]
  exact hasPrefix_append_eq_iff

theorem deleteByBucket_agrees {fits : ℕ → Bool} (h : (deleteByBucket pre fits).Agrees m) :
    deleteByBucket m pre fits = TikvStore.deleteByBucket m pre := by
  obtain ⟨hlen, hbucket⟩ := h
  rw [deleteByBucket_eq hlen, TikvStore.deleteByBucket_eq, filter_eq_filter_iff, deletePrefix]
  by_cases hs : seperator <:+ pre
  · rw [if_pos (hasSuffix_iff.mpr hs)]
    exact fun _ _ => rfl
  rw [if_neg (mt hasSuffix_iff.mp hs)]
  intro e he
  rw [Bool.not_inj_iff, hasPrefix_append_eq_iff]
  exact hbucket.resolve_left hs e he

theorem badger_scan_eq (hstop : stop ≠ []) (hstart : pre <+: start) :
    scan m pre start stop =
      (m.iterFrom start).filter fun e => hasPrefix e.1 pre && e.1 ≤ stop := by
  rw [scan_eq_filter hstart]
  refine filter_congr fun e _ => ?_
  by_cases hle : e.1 ≤ stop
  · simp [hle, not_lt_of_ge hle]
  · simp [hle, lt_of_not_ge hle, hstop]

theorem scan_eq (h : (scan pre start stop).Agrees m) :
    scan m pre start stop = TikvStore.scan m pre start stop := by
  obtain ⟨hstop, hstart, hend⟩ := h
  rw [badger_scan_eq hstop hstart, TikvStore.scan, TikvStore.iter, filter_filter]
  refine filter_congr fun e he => ?_
  obtain ⟨hmem, hse⟩ := mem_filter.mp he
  by_cases heq : e.1 = stop
  · -- the last key is returned by neither store
    have hpre : ¬pre <+: stop := by
      have hget : m.get stop = some e.2 := by
        rw [← heq]
        exact get_eq_some_iff.mpr hmem
      have hle : ¬stop < start := not_lt_of_ge (by simpa [heq] using hse)
      rcases hend with hnone | hlt | hpre
      · rw [hget] at hnone
        cases hnone
      · exact absurd hlt hle
      · exact hpre
    have hfalse : hasPrefix e.1 pre = false := by
      rw [heq, ← Bool.not_eq_true, hasPrefix_iff]
      exact hpre
    simp [hfalse]
  · have hlt : e.1 ≤ stop ↔ e.1 < stop := le_iff_lt_or_eq.trans (or_iff_left heq)
    simp [hstop, hlt]

theorem step_eq {op : StoreOp} (h : op.Agrees m) :
    step m op = TikvStore.step m op := by
  cases op with
  | save k v => rfl
  | delete k => rfl
  | get k => rw [step, TikvStore.step, get_eq_iff.mpr h]
  | scan pre start stop => rw [step, TikvStore.step, scan_eq h]
  | getByBucket pre => rw [step, TikvStore.step, getByBucket_eq_iff.mpr h]
  | deleteByBucket pre fits => rw [step, TikvStore.step, deleteByBucket_agrees h]
  | incr k step => exact h.elim

end Steps

/-- Along a run whose calls meet their conditions the two stores return the same
results and hold the same pairs, and a key that was saved is read back. -/
theorem stores_agree (m : Db) (ops : List StoreOp) (h : AgreeAlong m ops) :
    runAll BadgerStore.step m ops = runAll TikvStore.step m ops ∧
      ∀ k v, (StoreOp.get k).Agrees (m.put k v) →
        BadgerStore.get (BadgerStore.save m k v) k = .ok v ∧
          TikvStore.get (TikvStore.save m k v) k = .ok v := by
  constructor
  · induction ops generalizing m with
    | nil => rfl
    | cons op ops ih =>
      obtain ⟨hop, hops⟩ := h
      rw [runAll, runAll, step_eq hop]
      simp only [ih _ hops]
  · intro k v hk
    have htikv : TikvStore.get (m.put k v) k = .ok v := by simp [TikvStore.get]
    exact ⟨(get_eq_iff.mpr hk).trans htikv, htikv⟩

def sampleCalls : List StoreOp :=
  [.save (ofText "b/1") (ofText "x"), .getByBucket (ofText "b/"),
    .scan (ofText "b") (ofText "b") (ofText "c"),
    .get (ofText "b/1"), .deleteByBucket (ofText "b/") fun _ => true]

theorem stores_agree_sample :
    AgreeAlong .empty sampleCalls ∧
      runAll BadgerStore.step .empty sampleCalls = runAll TikvStore.step .empty sampleCalls := by
  have h : AgreeAlong .empty sampleCalls := by
    refine ⟨trivial, ?_, ⟨by decide, by decide, .inl (by decide +kernel)⟩,
      .inr (.inl (by decide)), ⟨by decide +kernel, .inl (by decide)⟩, trivial⟩
    exact .inl (by decide)
  exact ⟨h, (stores_agree .empty sampleCalls h).1⟩

def samplePairs : List StoreOp :=
  [.save (ofText "b/1") (ofText "x"),
    .save (ofText "b2") (ofText "y")]

/-- Eleven keys of one bucket. -/
def sampleBucket : List StoreOp :=
  (List.range 11).map fun i => .save (ofText "b/" ++ [i.toUInt8]) []

theorem stores_disagree :
    runAll BadgerStore.step .empty
        [.save (ofText "k/") (ofText "v"), .get (ofText "k/")] ≠
      runAll TikvStore.step .empty
        [.save (ofText "k/") (ofText "v"), .get (ofText "k/")] ∧
    (runAll BadgerStore.step .empty (samplePairs ++ [.getByBucket (ofText "b")])).1 ≠
      (runAll TikvStore.step .empty (samplePairs ++ [.getByBucket (ofText "b")])).1 ∧
    (runAll BadgerStore.step .empty
        (samplePairs ++ [.scan (ofText "b") (ofText "b") []])).1 ≠
      (runAll TikvStore.step .empty
        (samplePairs ++ [.scan (ofText "b") (ofText "b") []])).1 ∧
    runAll BadgerStore.step .empty [.incr (ofText "n") 1] ≠
      runAll TikvStore.step .empty [.incr (ofText "n") 1] ∧
    (runAll BadgerStore.step .empty
        (sampleBucket ++ [.deleteByBucket (ofText "b/") fun _ => true])).2.entries =
      [(ofText "b/" ++ [0], [])] ∧
    (runAll TikvStore.step .empty
        (sampleBucket ++ [.deleteByBucket (ofText "b/") fun _ => true])).2.entries = [] := by
  decide +kernel

end HugoFS.Store
