import HugoFS.Meta.Faults

/-!
# Inode numbers

`newInode` takes every number from the counter: on Badger a sequence outside the transaction, on
TiKV a record that the transaction reads and writes. A service is started, stopped and started
again with calls of `CreateInode` in flight, and the engine may fail wherever it likes. A
failed `Incr` counts as the number zero, and a commit that TiKV refuses as a success.
-/

namespace HugoFS.Meta.Faulty

open KV Store Function Runs Option Prog

/-! ### Successful callbacks -/

section Ensures

variable {b : Backend} {plan : ℕ → Option EngineErr} {n : ℕ} {s : Store}
  {q : Unit → Option UInt64} {onErr : LoadErr → CallErr}

theorem ensures_getAttr (i : Ino) :
    (getAttr i onErr).Ensures b.incr plan n s q fun a s' q' ws m =>
      attrAt s i = some a ∧ s' = s ∧ q' = q ∧ ws = [] ∧ m = n + 1 := by
  intro a ha
  rw [getAttr, Prog.exec] at ha ⊢
  cases hn : plan n with
  | some e =>
    simp only [hn] at ha
    cases ha
  | none =>
    simp only [hn] at ha ⊢
    cases hr : s.lookup (.attr i) with
    | none =>
      rw [hr] at ha
      cases ha
    | some r =>
      rw [hr] at ha
      cases ha
      exact ⟨by rw [attrAt, hr]; rfl, rfl, rfl, rfl, rfl⟩

theorem ensures_findEntry (p : Ino) (name : String) :
    (findEntry b p name).Ensures b.incr plan n s q fun _ s' q' ws m =>
      s' = s ∧ q' = q ∧ ws = [] ∧ (name ≠ "" → m = n + 1) := by
  intro a ha
  rw [findEntry]
  split_ifs with hname
  · exact ⟨rfl, rfl, rfl, fun h => absurd hname h⟩
  · rw [Prog.exec]
    cases plan n <;> exact ⟨rfl, rfl, rfl, fun _ => rfl⟩

theorem ensures_nextIno :
    nextIno.Ensures b.incr plan n s q fun i s' q' ws m =>
      s' = s ∧ ws = [] ∧ m = n + 1 ∧
        (plan n = none → i = b.number (q ()) ∧ q' () = some (b.number (q ()))) := by
  intro i hi
  rw [nextIno, Prog.exec] at hi ⊢
  cases hn : plan n with
  | some e =>
    exact ⟨rfl, rfl, rfl, fun h => absurd h (some_ne_none e)⟩
  | none =>
    simp only [hn] at hi ⊢
    cases hi
    exact ⟨rfl, rfl, rfl, fun _ => ⟨rfl, by simp [Backend.incr, Prog.exec]⟩⟩

theorem ensures_saveEntry (e : Entry) :
    (saveEntry e onErr).Ensures b.incr plan n s q fun _ _ q' ws _ =>
      e.name ≠ "" ∧ q' = q ∧ ws = [.put (.entry e.parentIno e.name) (.ofEntry e)] := by
  intro a ha
  rw [saveEntry] at ha ⊢
  split_ifs at ha ⊢ with hname
  · cases ha
  rw [Prog.exec] at ha ⊢
  cases hn : plan n with
  | some e =>
    simp only [hn] at ha
    cases ha
  | none => exact ⟨hname, rfl, rfl⟩

theorem ensures_saveAttrs (as : List Attr) :
    (saveAttrs as onErr).Ensures b.incr plan n s q fun _ _ q' ws _ =>
      q' = q ∧ ws = as.map fun a => .put (.attr a.inode) (.ofAttr a) := by
  intro a ha
  rw [saveAttrs, Prog.exec] at ha ⊢
  cases hn : plan n with
  | some e =>
    simp only [hn] at ha
    cases ha
  | none =>
    refine ⟨rfl, ?_⟩
    simp [afterWrite, Prog.exec, Edit.toWrite, comp_def]

def Creates (s : Store) (i : Ino) (ws : List (Write Rec)) : Prop :=
  ∃ (e : Entry) (pAttr a : Attr), (attrAt s pAttr.inode).isSome ∧ e.ino = i ∧ a.inode = i ∧
    ws = [.put (.entry e.parentIno e.name) (.ofEntry e),
      .put (.attr pAttr.inode) (.ofAttr pAttr), .put (.attr a.inode) (.ofAttr a)]

theorem newInode_parent (i : Ino) (now : Time) (attr pAttr : Attr) :
    (newInode i now attr pAttr).2.inode = pAttr.inode := by
  simp only [newInode]
  split_ifs <;> rfl

theorem ensures_createInodeTxn (req : CreateInodeReq) (now : Time) (h2 : plan 2 = none) :
    (createInodeTxn b req now).Ensures b.incr plan 0 s q fun a _ q' ws _ =>
      a.inode = b.number (q ()) ∧ q' () = some a.inode ∧ Creates s a.inode ws := by
  refine (ensures_getAttr _).bind ?_
  rintro pAttr _ _ _ _ ⟨hp, rfl, rfl, rfl, rfl⟩
  refine ensures_failIf.bind ?_
  rintro - _ _ _ _ ⟨rfl, rfl, rfl, rfl⟩
  refine ensures_failIf.bind ?_
  rintro - _ _ _ _ ⟨rfl, rfl, rfl, rfl⟩
  refine (ensures_findEntry _ _).bind ?_
  rintro entry _ _ _ m ⟨rfl, rfl, rfl, hm⟩
  refine ensures_failIf.bind ?_
  rintro - _ _ _ _ ⟨rfl, rfl, rfl, rfl⟩
  cases hattr : req.attr with
  | none => exact ensures_panic
  | some attr =>
    refine ensures_nextIno.bind ?_
    rintro i _ q' _ _ ⟨rfl, rfl, rfl, hi⟩
    refine (ensures_saveEntry _).bind ?_
    rintro - _ _ _ _ ⟨hname, rfl, rfl⟩
    -- the name is not empty, so the entry was read and the number came next
    obtain ⟨rfl, hq⟩ := hi (by rw [hm hname]; exact h2)
    refine (ensures_saveAttrs _).bind ?_
    rintro - _ _ _ _ ⟨rfl, rfl⟩
    refine ensures_pure ?_
    rw [(newInode_kept ..).1]
    refine ⟨rfl, hq, _, _, _, ?_, ?_, ?_, rfl⟩
    · rw [newInode_parent, attrAt_inode hp, hp]
      rfl
    · rfl
    · exact (newInode_kept ..).1

theorem atMost_getAttr (i : Ino) : (getAttr i onErr).AtMost 0 := by
  intro v
  cases v with
  | error e => trivial
  | ok r => cases r <;> trivial

theorem atMost_failIf (c : Bool) (e : CallErr) : (.failIf c e : FTxn Unit).AtMost 0 := by
  cases c <;> trivial

theorem atMost_findEntry (p : Ino) (name : String) : (findEntry b p name).AtMost 0 := by
  rw [findEntry]
  split_ifs
  · trivial
  · intro v
    cases v <;> trivial

theorem atMost_nextIno : nextIno.AtMost 1 := by
  intro v
  cases v <;> trivial

theorem atMost_saveEntry (e : Entry) : (saveEntry e onErr).AtMost 0 := by
  rw [saveEntry]
  split_ifs
  · trivial
  · intro v
    cases v <;> trivial

theorem atMost_saveAttrs (as : List Attr) : (saveAttrs as onErr).AtMost 0 := by
  intro v
  cases v <;> trivial

theorem atMost_createInodeTxn (req : CreateInodeReq) (now : Time) :
    (createInodeTxn b req now).AtMost 1 := by
  refine (atMost_getAttr _).bind (k := 1) fun pAttr => ?_
  refine (atMost_failIf _ _).bind (k := 1) fun _ => ?_
  refine (atMost_failIf _ _).bind (k := 1) fun _ => ?_
  refine (atMost_findEntry _ _).bind (k := 1) fun entry => ?_
  refine (atMost_failIf _ _).bind (k := 1) fun _ => ?_
  cases req.attr with
  | none => trivial
  | some attr =>
    refine atMost_nextIno.bind (k := 0) fun i => ?_
    refine (atMost_saveEntry _).bind (k := 0) fun _ => ?_
    exact (atMost_saveAttrs _).bind (k := 0) fun _ => trivial

end Ensures

/-! ### The system -/

/-- A call of `CreateInode` in flight: the request, the store when its transaction
began, whether the counter was written since then, and the execution of the callback
once it is over. -/
structure CreateJob where
  req : CreateInodeReq
  now : Time
  snap : Durable Rec Unit
  stale : Bool
  run : Option (ProgRun Rec (Unit → Option UInt64) CallErr Attr)

def CreateJob.number (j : CreateJob) : Option Ino :=
  j.run.bind fun r =>
    match r.ending with
    | .returned (.ok a) => some a.inode
    | _ => none

structure NumState (κ : Type) where
  running : Bool
  store : Durable Rec Unit
  jobs : κ → Option CreateJob
  returned : List Ino

def NumState.empty {κ : Type} : NumState κ := ⟨false, ⟨∅, fun _ => none⟩, fun _ => none, []⟩

/-- What happens: the service is started or stops, a leased number of the Badger
sequence is lost, a call begins its transaction, the callback is executed, and the
transaction is committed. `plan` tells which operations fail, `replied` whether the
reply reaches the client. -/
inductive NumCall (κ : Type)
  | start (plan : ℕ → Option EngineErr) (now : Time) (uid gid : UInt32)
  | stop
  | lapse
  | begin_ (k : κ) (req : CreateInodeReq) (now : Time)
  | callback (k : κ) (plan : ℕ → Option EngineErr)
  | commit (k : κ) (o : CommitOutcome) (replied : Bool)

def saveRoot (b : Backend) (f : Option EngineErr) (root : Attr) (st : Durable Rec Unit) :
    Bool × Durable Rec Unit :=
  match f with
  | some e => ((reported b e).isNone, st)
  | none => (true, { st with db := putAttr st.db root })

/-- `init`, and whether it returns no error: a missing root takes a number, which is
not used, and is saved. The operations are the read, `Incr` and the save. -/
def init (b : Backend) (plan : ℕ → Option EngineErr) (root : Attr) (st : Durable Rec Unit) :
    Bool × Durable Rec Unit :=
  match loaded b (plan 0) (attrAt st.db rootIno) with
  | .ok _ => (true, st)
  | .error (.store .notFound) =>
    match plan 1 with
    | none =>
      saveRoot b (plan 2) root { st with seq := (b.incr (φ := EngineErr) () st.seq).2 }
    | some e => if (reported b e).isSome then (false, st) else saveRoot b (plan 2) root st
  | .error _ => (false, st)

section Steps

variable {κ : Type} [DecidableEq κ] (b : Backend)
variable {st : Durable Rec Unit} {i : Ino} {s : Store} {k : κ} {ws : List (Write Rec)} {a : Attr}

def counterFor (st : NumState κ) (j : CreateJob) : Unit → Option UInt64 :=
  match b with
  | .badger => st.store.seq
  | .tikv => j.snap.seq

def CreateJob.execute (st : NumState κ) (plan : ℕ → Option EngineErr) (j : CreateJob) :
    ProgRun Rec (Unit → Option UInt64) CallErr Attr :=
  (createInodeTxn b j.req j.now).exec b.incr plan 0 j.snap.db (counterFor b st j)

def CreateJob.applied (o : CommitOutcome) (j : CreateJob) : Bool :=
  o.applied && !(b == .tikv && j.stale)

def published (st : Durable Rec Unit) (r : ProgRun Rec (Unit → Option UInt64) CallErr Attr) :
    Durable Rec Unit :=
  ⟨applyWrites r.writes st.db, match b with
    | .badger => st.seq
    | .tikv => r.seq⟩

def CreateJob.outdate (written : Bool) (j : CreateJob) : CreateJob :=
  { j with stale := j.stale || written }

def NumState.finish (k : κ) (o : CommitOutcome) (replied : Bool) (j : CreateJob)
    (r : ProgRun Rec (Unit → Option UInt64) CallErr Attr) (st : NumState κ) : NumState κ :=
  let jobs := Function.update st.jobs k none
  match r.ending with
  | .returned (.ok a) =>
    { st with
      store := if j.applied b o then published b st.store r else st.store
      jobs := fun k' => (jobs k').map (CreateJob.outdate (j.applied b o))
      returned := if replied then a.inode :: st.returned else st.returned }
  | _ => { st with jobs := jobs }

def NumState.next : NumCall κ → NumState κ → NumState κ
  | .start plan now uid gid, st =>
    if st.running then st
    else
      let r := init b plan (rootAttr now uid gid) st.store
      { st with running := r.1, store := r.2 }
  | .stop, st => { st with running := false, jobs := fun _ => none }
  | .lapse, st =>
    match b with
    | .badger =>
      { st with store := { st.store with seq := (b.incr (φ := EngineErr) () st.store.seq).2 } }
    | .tikv => st
  | .begin_ k req now, st =>
    if st.running ∧ st.jobs k = none then
      { st with jobs := Function.update st.jobs k (some ⟨req, now, st.store, false, none⟩) }
    else st
  | .callback k plan, st =>
    match st.jobs k with
    | some j =>
      if j.run.isSome then st
      else
        let r := j.execute b st plan
        { st with
          store := match b with
            | .badger => { st.store with seq := r.seq }
            | .tikv => st.store
          jobs := Function.update st.jobs k (some { j with run := some r }) }
    | none => st
  | .commit k o replied, st =>
    match st.jobs k with
    | some j =>
      match j.run with
      | some r => st.finish b k o replied j r
      | none => st
    | none => st

/-! ### Conditions -/

def Room (st : Durable Rec Unit) : Prop := st.seq () ≠ some (-1)
deriving Decidable

open CreateJob

def NumState.reply (st : NumState κ) (k : κ) : Option Ino := (st.jobs k).bind CreateJob.number

/-- The condition on a step. The counter does not overflow; `Incr`, which is operation
2 of a call that gets that far, does not fail; and TiKV carries out the commit of a
call whose success is reported. -/
def NumCall.Regular (st : NumState κ) : NumCall κ → Prop
  | .start _ _ _ _ => Room st.store
  | .lapse => Room st.store
  | .callback _ plan => Room st.store ∧ plan 2 = none
  | .commit k o replied => b = .tikv → replied = true → (st.reply k).isSome →
      (st.jobs k).all (CreateJob.applied b o)
  | _ => True

instance (st : NumState κ) (c : NumCall κ) : Decidable (c.Regular b st) := by
  cases c <;> unfold NumCall.Regular <;> infer_instance

def Stored (s : Store) (i : Ino) : Prop :=
  (attrAt s i).isSome ∨ ∃ p n e, entryAt s p n = some e ∧ e.ino = i

def NumState.Fresh (st : NumState κ) (i : Ino) : Prop :=
  i ≠ 0 ∧ i ≠ 1 ∧ i ∉ st.returned ∧ ¬Stored st.store.db i

/-! ### What is stored -/

theorem not_stored_empty (i : Ino) : ¬Stored ∅ i := by
  rintro (h | ⟨p, n, e, he, -⟩)
  · cases h
  · cases he

theorem stored_putAttr (h : Stored (putAttr s a) i) :
    Stored s i ∨ i = a.inode := by
  obtain h | ⟨p, n, e, he, rfl⟩ := h
  · by_cases hi : i = a.inode
    · exact .inr hi
    · rw [attrAt_putAttr, if_neg hi] at h
      exact .inl (.inl h)
  · rw [entryAt_putAttr] at he
    exact .inl (.inr ⟨p, n, e, he, rfl⟩)

theorem stored_putEntry {x : Entry} (h : Stored (putEntry s x) i) :
    Stored s i ∨ i = x.ino := by
  obtain h | ⟨p, n, e, he, rfl⟩ := h
  · rw [attrAt_putEntry] at h
    exact .inl (.inl h)
  rw [entryAt_putEntry] at he
  split_ifs at he
  · cases he
    exact .inr rfl
  · exact .inl (.inr ⟨p, n, e, he, rfl⟩)

theorem isSome_attrAt_putAttr (h : (attrAt s i).isSome) :
    (attrAt (putAttr s a) i).isSome := by
  rw [attrAt_putAttr]
  split_ifs
  · rfl
  · exact h

def AttrsKept (s s' : Store) : Prop := ∀ i, (attrAt s i).isSome → (attrAt s' i).isSome

theorem AttrsKept.trans {s' s'' : Store} (h : AttrsKept s s') (h' : AttrsKept s' s'') :
    AttrsKept s s'' := fun i hi => h' i (h i hi)

theorem Creates.attrsKept {snap : Store}
    (h : Creates snap i ws) : AttrsKept s (applyWrites ws s) := by
  obtain ⟨e, pAttr, a, -, -, -, rfl⟩ := h
  intro j hj
  refine isSome_attrAt_putAttr (isSome_attrAt_putAttr ?_)
  exact (attrAt_putEntry s e j).symm ▸ hj

theorem Creates.stored {snap : Store} {i j : Ino}
    (h : Creates snap i ws) (hs : AttrsKept snap s) (hj : Stored (applyWrites ws s) j) :
    Stored s j ∨ j = i := by
  obtain ⟨e, pAttr, a, hp, rfl, ha, rfl⟩ := h
  obtain hj | rfl := stored_putAttr (s := putAttr (putEntry s e) pAttr) (a := a) hj
  · obtain hj | rfl := stored_putAttr hj
    · exact stored_putEntry hj
    · exact .inl (.inl (hs _ hp))
  · exact .inr ha

/-! ### The counter -/

def top : Option UInt64 → ℕ
  | some n => n.toNat
  | none =>
    match b with
    | .badger => 0
    | .tikv => 1

theorem toNat_number (h : Room st) :
    (b.number (st.seq ())).toNat = top b (st.seq ()) + 1 := by
  rw [Room] at h
  cases hq : st.seq () with
  | none => cases b <;> rfl
  | some n =>
    have hn : n ≠ -1 := fun hn => h (by rw [hq, hn])
    have hlt := n.toNat_lt
    have hne : n.toNat ≠ 2 ^ 64 - 1 := fun he => hn (UInt64.toNat_inj.mp he)
    cases b <;> simp [Backend.number, top, UInt64.toNat_add] <;> omega

theorem room_iff : Room st ↔ top b (st.seq ()) < 2 ^ 64 - 1 := by
  rw [Room]
  cases hq : st.seq () with
  | none => cases b <;> simp [top]
  | some n =>
    have hlt := n.toNat_lt
    have hmax : (-1 : UInt64).toNat = 2 ^ 64 - 1 := rfl
    rw [top, ne_eq, some_inj, ← UInt64.toNat_inj, hmax]
    omega

theorem seq_incr (q : Unit → Option UInt64) :
    (b.incr (φ := EngineErr) () q).2 () = some (b.number (q ())) := by
  simp [Backend.incr]

/-! ### The invariant -/

structure JobOk (st : Durable Rec Unit) (j : CreateJob) : Prop where
  kept : AttrsKept j.snap.db st.db
  made : ∀ r a, j.run = some r → r.ending = .returned (.ok a) →
    Creates j.snap.db a.inode r.writes
  older : b = .tikv → top b (j.snap.seq ()) ≤ top b (st.seq ())
  current : b = .tikv → j.stale = false → j.snap.seq () = st.seq ()
  follows : b = .tikv → ∀ r a, j.run = some r → r.ending = .returned (.ok a) →
    a.inode.toNat = top b (j.snap.seq ()) + 1 ∧ r.seq () = some a.inode

theorem JobOk.badger {j : CreateJob} (hkept : AttrsKept j.snap.db st.db)
    (hmade : ∀ r a, j.run = some r → r.ending = .returned (.ok a) →
      Creates j.snap.db a.inode r.writes) : JobOk .badger st j where
  kept := hkept
  made := hmade
  older hb := by cases hb
  current hb := by cases hb
  follows hb := by cases hb

theorem JobOk.new (req : CreateInodeReq) (now : Time) (st : Durable Rec Unit) :
    JobOk b st ⟨req, now, st, false, none⟩ where
  kept _ hi := hi
  made r a hr := by cases hr
  older _ := le_refl _
  current _ _ := rfl
  follows _ r a hr := by cases hr

structure Inv (st : NumState κ) : Prop where
  stored : ∀ i, Stored st.store.db i → i.toNat ≤ top b (st.store.seq ())
  returned : ∀ i ∈ st.returned, i.toNat ≤ top b (st.store.seq ())
  started : b = .tikv ∨ st.running = true → 1 ≤ top b (st.store.seq ())
  idle : st.running = false → ∀ k, st.jobs k = none
  jobs : ∀ k j, st.jobs k = some j → JobOk b st.store j
  owned : b = .badger → ∀ k i, st.reply k = some i → st.Fresh i ∧
    i.toNat ≤ top b (st.store.seq ()) ∧ ∀ k', k' ≠ k → st.reply k' ≠ some i

omit [DecidableEq κ] in
theorem inv_empty : Inv b (.empty : NumState κ) where
  stored i hi := absurd hi (not_stored_empty i)
  returned i hi := absurd hi List.not_mem_nil
  started h := by
    obtain rfl | h := h
    · exact le_refl 1
    · cases h
  idle _ _ := rfl
  jobs k j hj := by cases hj
  owned _ k i hi := by cases hi

omit [DecidableEq κ] in
theorem Inv.fresh_of_lt {st : NumState κ} (h : Inv b st) (hi : 2 ≤ i.toNat)
    (hlt : top b (st.store.seq ()) < i.toNat) : st.Fresh i := by
  refine ⟨?_, ?_, fun hmem => ?_, fun hs => ?_⟩
  · rintro rfl
    exact absurd hi (by decide)
  · rintro rfl
    exact absurd hi (by decide)
  · have := h.returned i hmem
    omega
  · have := h.stored i hs
    omega

theorem top_incr (hroom : Room st) :
    top b ((b.incr (φ := EngineErr) () st.seq).2 ()) = top b (st.seq ()) + 1 := by
  rw [seq_incr, top, toNat_number b hroom]

theorem saveRoot_spec (f : Option EngineErr) {root : Attr} (hroot : root.inode = 1)
    (st : Durable Rec Unit) :
    (saveRoot b f root st).2.seq = st.seq ∧
      ∀ i, Stored (saveRoot b f root st).2.db i → Stored st.db i ∨ i = 1 := by
  cases f with
  | some e => exact ⟨rfl, fun i hi => .inl hi⟩
  | none => exact ⟨rfl, fun i hi => hroot ▸ stored_putAttr hi⟩

theorem init_spec (plan : ℕ → Option EngineErr) {root : Attr}
    (hroot : root.inode = 1) (hroom : Room st) (htikv : b = .tikv → 1 ≤ top b (st.seq ())) :
    top b (st.seq ()) ≤ top b ((init b plan root st).2.seq ()) ∧
      (∀ i, Stored (init b plan root st).2.db i →
        Stored st.db i ∨ i = 1 ∧ 1 ≤ top b ((init b plan root st).2.seq ())) ∧
      ((init b plan root st).1 = true →
        Stored st.db 1 ∨ 1 ≤ top b ((init b plan root st).2.seq ())) := by
  have hincr := top_incr b hroom
  unfold init
  cases hl : loaded b (plan 0) (attrAt st.db rootIno) with
  | ok a =>
    have ha : (attrAt st.db 1).isSome := isSome_iff_exists.mpr ⟨a, loaded_ok hl⟩
    exact ⟨le_refl _, fun i hi => .inl hi, fun _ => .inl (.inl ha)⟩
  | error e =>
    cases e with
    | engine => exact ⟨le_refl _, fun i hi => .inl hi, fun h => by cases h⟩
    | store e =>
      cases e with
      | keyEqPrefix => exact ⟨le_refl _, fun i hi => .inl hi, fun h => by cases h⟩
      | notFound =>
        cases h1 : plan 1 with
        | none =>
          obtain ⟨hseq, hdb⟩ := saveRoot_spec b (plan 2) hroot
            { st with seq := (b.incr (φ := EngineErr) () st.seq).2 }
          dsimp only
          rw [hseq, hincr]
          exact ⟨by omega, fun i hi => (hdb i hi).imp_right fun hi => ⟨hi, by omega⟩,
            fun _ => .inr (by omega)⟩
        | some e =>
          dsimp only
          split_ifs with hrep
          · exact ⟨le_refl _, fun i hi => .inl hi, fun h => by cases h⟩
          -- only TiKV hides an error of `Incr`, that of the commit
          have hb : b = .tikv := by
            cases b with
            | tikv => rfl
            | badger => exact absurd rfl hrep
          obtain ⟨hseq, hdb⟩ := saveRoot_spec b (plan 2) hroot st
          rw [hseq]
          exact ⟨le_refl _, fun i hi => (hdb i hi).imp_right fun hi => ⟨hi, htikv hb⟩,
            fun _ => .inr (htikv hb)⟩

open NumState

variable {st : NumState κ}

theorem Inv.start (h : Inv b st) {plan : ℕ → Option EngineErr} {now : Time}
    {uid gid : UInt32} (hroom : Room st.store) :
    Inv b (.next b (.start plan now uid gid) st) := by
  rw [next]
  split_ifs with hrun
  · exact h
  have hrun' : st.running = false := by simpa using hrun
  have hroot : (rootAttr now uid gid).inode = 1 := rfl
  obtain ⟨htop, hdb, hok⟩ := init_spec b plan hroot hroom fun hb => h.started (.inl hb)
  have hjobs := h.idle hrun'
  exact {
    stored := fun i hi => by
      obtain hi | ⟨rfl, h1⟩ := hdb i hi
      · exact (h.stored i hi).trans htop
      · exact h1
    returned := fun i hi => (h.returned i hi).trans htop
    started := fun hb => by
      obtain hb | hb := hb
      · exact (h.started (.inl hb)).trans htop
      obtain h1 | h1 := hok hb
      · exact (h.stored 1 h1).trans htop
      · exact h1
    idle := fun _ k => hjobs k
    jobs := fun k j hj => by
      cases (hjobs k).symm.trans hj
    owned := fun _ k i hi => by
      rw [reply, hjobs k] at hi
      cases hi }

theorem Inv.stop (h : Inv b st) : Inv b (.next b .stop st) where
  __ := h
  started hb := by
    obtain hb | hb := hb
    · exact h.started (.inl hb)
    · cases hb
  idle _ _ := rfl
  jobs k j hj := by cases hj
  owned _ k i hi := by cases hi

theorem Inv.lapse (h : Inv b st) (hroom : Room st.store) :
    Inv b (.next b .lapse st) := by
  cases b with
  | tikv => exact h
  | badger =>
    have htop : top .badger (st.store.seq ()) ≤
        top .badger ((Backend.incr (φ := EngineErr) .badger () st.store.seq).2 ()) := by
      rw [top_incr .badger hroom]
      omega
    exact {
      stored := fun i hi => (h.stored i hi).trans htop
      returned := fun i hi => (h.returned i hi).trans htop
      started := fun hb => (h.started hb).trans htop
      idle := h.idle
      jobs := fun k j hj => .badger (h.jobs k j hj).kept (h.jobs k j hj).made
      owned := fun hb k i hi => by
        obtain ⟨hfresh, hle, hother⟩ := h.owned hb k i hi
        exact ⟨hfresh, hle.trans htop, hother⟩ }

omit [DecidableEq κ] in
theorem Inv.one_le (h : Inv b st) {j : CreateJob}
    (hj : st.jobs k = some j) : 1 ≤ top b (st.store.seq ()) := by
  refine h.started (.inr ?_)
  by_contra hrun
  cases (h.idle (by simpa using hrun) k).symm.trans hj

theorem owned_update {st st' : NumState κ} (h : Inv b st) (hb : b = .badger)
    {x : Option CreateJob} (hjobs : st'.jobs = update st.jobs k x)
    (hdb : st'.store.db = st.store.db) (hret : st'.returned = st.returned)
    (htop : top b (st.store.seq ()) ≤ top b (st'.store.seq ()))
    (hx : ∀ i, x.bind number = some i →
      2 ≤ i.toNat ∧ top b (st.store.seq ()) < i.toNat ∧ i.toNat ≤ top b (st'.store.seq ())) :
    ∀ k' i, st'.reply k' = some i → st'.Fresh i ∧ i.toNat ≤ top b (st'.store.seq ()) ∧
      ∀ k'', k'' ≠ k' → st'.reply k'' ≠ some i := by
  have hfresh : ∀ i, st'.Fresh i ↔ st.Fresh i := fun i => by
    rw [Fresh, Fresh, hdb, hret]
  have hreply : ∀ k', st'.reply k' = if k' = k then x.bind number else st.reply k' := by
    intro k'
    rw [reply, hjobs]
    split_ifs with hk
    · rw [hk, update_self]
    · rw [update_of_ne hk]
      rfl
  intro k' i hi
  rw [hreply] at hi
  split_ifs at hi with hk
  · obtain ⟨h2, hlt, hle⟩ := hx i hi
    refine ⟨(hfresh i).mpr (h.fresh_of_lt b h2 hlt), hle, fun k'' hk'' hi' => ?_⟩
    -- the other numbers lie at or below the old counter
    rw [hreply, if_neg (hk ▸ hk'')] at hi'
    have := (h.owned hb k'' i hi').2.1
    omega
  · obtain ⟨hf, hle, hother⟩ := h.owned hb k' i hi
    refine ⟨(hfresh i).mpr hf, hle.trans htop, fun k'' hk'' hi' => ?_⟩
    rw [hreply] at hi'
    split_ifs at hi' with hk
    · have := (hx i hi').2.1
      omega
    · exact hother k'' hk'' hi'

theorem Inv.begin (h : Inv b st) (k : κ) (req : CreateInodeReq) (now : Time) :
    Inv b (next b (.begin_ k req now) st) := by
  rw [next]
  split_ifs with hk
  · exact {
      stored := h.stored
      returned := h.returned
      started := h.started
      idle := fun hrun => by
        cases hrun.symm.trans hk.1
      jobs := fun k' j hj => by
        obtain ⟨-, hj⟩ | ⟨-, hj⟩ := update_eq_some hj
        · cases hj
          exact JobOk.new b req now st.store
        · exact h.jobs k' j hj
      owned := fun hb => owned_update b h hb rfl rfl rfl (le_refl _) fun i hi => by cases hi }
  · exact h

section Callback

variable {j : CreateJob} {plan : ℕ → Option EngineErr}

omit [DecidableEq κ] in
theorem execute_ok (h2 : plan 2 = none) (ha : (j.execute b st plan).ending = .returned (.ok a)) :
    a.inode = b.number (counterFor b st j ()) ∧ (j.execute b st plan).seq () = some a.inode ∧
      Creates j.snap.db a.inode (j.execute b st plan).writes :=
  ensures_createInodeTxn j.req j.now h2 a ha

omit [DecidableEq κ] in
theorem execute_seq (st : NumState κ) (j : CreateJob) (plan : ℕ → Option EngineErr) :
    (j.execute b st plan).seq = counterFor b st j ∨
    (j.execute b st plan).seq = (b.incr (φ := EngineErr) () (counterFor b st j)).2 := by
  obtain h | ⟨-, c, h⟩ := exec_seq_of_le_one b.incr plan le_rfl (atMost_createInodeTxn j.req j.now) 0
    j.snap.db (counterFor b st j)
  · exact .inl h
  · exact .inr h

end Callback

variable {plan : ℕ → Option EngineErr} {j : CreateJob}

theorem number_eq_some {i : Ino} (h : j.number = some i) :
    ∃ r a, j.run = some r ∧ r.ending = .returned (.ok a) ∧ a.inode = i := by
  obtain ⟨r, hr, hi⟩ := bind_eq_some_iff.mp h
  cases hend : r.ending with
  | panicked =>
    rw [hend] at hi
    cases hi
  | returned x =>
    rw [hend] at hi
    cases x with
    | error e => cases hi
    | ok a => exact ⟨r, a, hr, hend, some_inj.mp hi⟩

theorem Inv.callback_badger (h : Inv .badger st) (hj : st.jobs k = some j) (hroom : Room st.store)
    (h2 : plan 2 = none) :
    Inv .badger { st with
      store := { st.store with seq := (j.execute .badger st plan).seq }
      jobs := update st.jobs k (some { j with run := some (j.execute .badger st plan) }) } := by
  have hone := h.one_le .badger hj
  have htop : top .badger (st.store.seq ()) ≤ top .badger ((j.execute .badger st plan).seq ()) := by
    obtain hs | hs := execute_seq .badger st j plan
    · rw [hs]
      exact le_refl _
    · rw [hs]
      exact (Nat.le_succ _).trans (top_incr .badger hroom).ge
  exact {
    stored := fun i hi => (h.stored i hi).trans htop
    returned := fun i hi => (h.returned i hi).trans htop
    started := fun hb => (h.started hb).trans htop
    idle := fun hrun k' => by
      cases (h.idle hrun k).symm.trans hj
    jobs := fun k' j' hj' => by
      obtain ⟨-, hj'⟩ | ⟨-, hj'⟩ := update_eq_some hj'
      · cases hj'
        refine JobOk.badger (h.jobs k j hj).kept fun r a hr ha => ?_
        cases hr
        exact (execute_ok .badger h2 ha).2.2
      · exact JobOk.badger (h.jobs k' j' hj').kept (h.jobs k' j' hj').made
    owned := fun hb => owned_update .badger h hb rfl rfl rfl htop fun i hi => by
      rw [bind_some] at hi
      obtain ⟨r, a, hr, ha, rfl⟩ := number_eq_some hi
      cases hr
      obtain ⟨hnum, hseq, -⟩ := execute_ok .badger h2 ha
      have hnat : a.inode.toNat = top .badger (st.store.seq ()) + 1 := by
        rw [hnum]
        exact toNat_number .badger hroom
      have hle : top .badger ((j.execute .badger st plan).seq ()) = a.inode.toNat := by
        rw [hseq, top]
      exact ⟨by omega, by omega, hle.ge⟩ }

theorem Inv.callback_tikv (h : Inv .tikv st) (hj : st.jobs k = some j) (hroom : Room st.store)
    (h2 : plan 2 = none) :
    Inv .tikv { st with
      jobs := update st.jobs k (some { j with run := some (j.execute .tikv st plan) }) } where
  __ := h
  idle hrun k' := by
    cases (h.idle hrun k).symm.trans hj
  jobs k' j' hj' := by
    obtain ⟨-, hj'⟩ | ⟨-, hj'⟩ := update_eq_some hj'
    · cases hj'
      have hok := h.jobs k j hj
      have hsnap : Room j.snap := by
        have hle := hok.older rfl
        rw [room_iff .tikv] at hroom ⊢
        omega
      exact {
        kept := hok.kept
        made := fun r a hr ha => by
          cases hr
          exact (execute_ok .tikv h2 ha).2.2
        older := hok.older
        current := hok.current
        follows := fun _ r a hr ha => by
          cases hr
          obtain ⟨hnum, hseq, -⟩ := execute_ok .tikv h2 ha
          refine ⟨?_, hseq⟩
          rw [hnum]
          exact toNat_number .tikv hsnap }
    · exact h.jobs k' j' hj'
  owned hb := by cases hb

theorem Inv.callback (h : Inv b st) (k : κ) (hroom : Room st.store) (h2 : plan 2 = none) :
    Inv b (.next b (.callback k plan) st) := by
  rw [next]
  cases hj : st.jobs k with
  | none => exact h
  | some j =>
    dsimp only
    split_ifs with hrun
    · exact h
    cases b with
    | badger => exact h.callback_badger hj hroom h2
    | tikv => exact h.callback_tikv hj hroom h2

theorem Inv.remove (h : Inv b st) (k : κ) :
    Inv b { st with jobs := update st.jobs k none } where
  __ := h
  idle hrun k' := by
    by_cases hk : k' = k
    · subst hk
      exact update_self _ _ _
    · exact (update_of_ne hk _ _).trans (h.idle hrun k')
  jobs k' j hj := by
    obtain ⟨-, hj⟩ | ⟨-, hj⟩ := update_eq_some hj
    · cases hj
    · exact h.jobs k' j hj
  owned hb := owned_update b h hb rfl rfl rfl (le_refl _) fun i hi => by cases hi

section Finish

variable {k : κ} {j : CreateJob} {a : Attr}
  {r : ProgRun Rec (Unit → Option UInt64) CallErr Attr} {o : CommitOutcome} {replied w : Bool}

theorem finish_of_not_ok (ha : ∀ a, r.ending ≠ .returned (.ok a)) :
    st.finish b k o replied j r = { st with jobs := update st.jobs k none } := by
  rw [finish]
  cases hend : r.ending with
  | panicked => rfl
  | returned x =>
    cases x with
    | error e => rfl
    | ok a => exact absurd hend (ha a)

theorem finish_jobs {k' : κ} {j' : CreateJob}
    (h : (update st.jobs k none k').map (.outdate w) = some j') :
    k' ≠ k ∧ ∃ j₀, st.jobs k' = some j₀ ∧ j' = j₀.outdate w := by
  obtain ⟨j₀, hj₀, rfl⟩ := map_eq_some_iff.mp h
  obtain ⟨-, hn⟩ | ⟨hk, hj⟩ := update_eq_some hj₀
  · cases hn
  · exact ⟨hk, j₀, hj, rfl⟩

theorem reply_finish {k' : κ} :
    ((update st.jobs k none k').map (outdate w)).bind number =
      if k' = k then none else st.reply k' := by
  split_ifs with hk
  · rw [hk, update_self]
    rfl
  · rw [update_of_ne hk, reply]
    cases st.jobs k' <;> rfl

theorem finish_idle (h : ∀ k, st.jobs k = none) (k' : κ) :
    (update st.jobs k none k').map (outdate w) = none := by
  by_cases hk : k' = k
  · subst hk
    rw [update_self]
    rfl
  · rw [update_of_ne hk, h k']
    rfl

omit [DecidableEq κ] in
theorem finish_db (hok : JobOk b st.store j) (hr : j.run = some r)
    (ha : r.ending = .returned (.ok a)) (c : Bool) :
    AttrsKept st.store.db (if c then published b st.store r else st.store).db ∧
      ∀ i, Stored (if c then published b st.store r else st.store).db i →
        Stored st.store.db i ∨ c = true ∧ i = a.inode := by
  have hmade := hok.made r a hr ha
  cases c with
  | false => exact ⟨fun _ hi => hi, fun _ hi => .inl hi⟩
  | true =>
    exact ⟨hmade.attrsKept, fun i hi => (hmade.stored hok.kept hi).imp_right fun hi => ⟨rfl, hi⟩⟩

omit [DecidableEq κ] in
theorem mem_returned {i : Ino}
    (hi : i ∈ if replied = true then a.inode :: st.returned else st.returned) :
    i ∈ st.returned ∨ replied = true ∧ i = a.inode := by
  split_ifs at hi with hrep
  · exact (List.mem_cons.mp hi).symm.imp_right fun hi => ⟨hrep, hi⟩
  · exact .inl hi

omit [DecidableEq κ] in
theorem reply_of_ok (hj : st.jobs k = some j) (hr : j.run = some r)
    (ha : r.ending = .returned (.ok a)) : st.reply k = some a.inode := by
  rw [reply, hj, bind_some, number, hr, bind_some, ha]

theorem Inv.finish_ok (h : Inv b st) (hok : JobOk b st.store j) (hr : j.run = some r)
    (ha : r.ending = .returned (.ok a)) {store : Durable Rec Unit}
    (hstore : (if j.applied b o then published b st.store r else st.store) = store)
    (htop : top b (st.store.seq ()) ≤ top b (store.seq ()))
    (hle : j.applied b o = true ∨ replied = true → a.inode.toNat ≤ top b (store.seq ()))
    (hjobs : ∀ k' j₀, st.jobs k' = some j₀ → JobOk b store (j₀.outdate (j.applied b o)))
    (hother : b = .badger → ∀ k', k' ≠ k → st.reply k' ≠ some a.inode) :
    Inv b (st.finish b k o replied j r) := by
  obtain ⟨-, hdb⟩ := finish_db b hok hr ha (j.applied b o)
  rw [hstore] at hdb
  rw [finish, ha]
  dsimp only
  rw [hstore]
  exact {
    stored := fun i hi => by
      obtain hi | ⟨happ, rfl⟩ := hdb i hi
      · exact (h.stored i hi).trans htop
      · exact hle (.inl happ)
    returned := fun i hi => by
      obtain hi | ⟨hrep, rfl⟩ := mem_returned hi
      · exact (h.returned i hi).trans htop
      · exact hle (.inr hrep)
    started := fun hb => (h.started hb).trans htop
    idle := fun hrun => finish_idle (h.idle hrun)
    jobs := fun k' j' hj' => by
      obtain ⟨-, j₀, hj₀, rfl⟩ := finish_jobs hj'
      exact hjobs k' j₀ hj₀
    owned := fun hb k' i hi => by
      rw [reply, reply_finish] at hi
      split_ifs at hi with hk
      obtain ⟨⟨h0, h1, hret, hst⟩, hle', hother'⟩ := h.owned hb k' i hi
      have hne : i ≠ a.inode := fun he => hother hb k' hk (he ▸ hi)
      refine ⟨⟨h0, h1, fun hmem => ?_, fun hs => ?_⟩, hle'.trans htop, fun k'' hk'' hi' => ?_⟩
      · obtain hmem | ⟨-, he⟩ := mem_returned hmem
        · exact hret hmem
        · exact hne he
      · obtain hs | ⟨-, he⟩ := hdb i hs
        · exact hst hs
        · exact hne he
      · rw [reply, reply_finish] at hi'
        split_ifs at hi' with hkk
        exact hother' k'' hk'' hi' }

theorem Inv.finish_badger (h : Inv .badger st) (hj : st.jobs k = some j) (hr : j.run = some r) :
    Inv .badger (st.finish .badger k o replied j r) := by
  by_cases hend : ∃ a, r.ending = .returned (.ok a)
  · obtain ⟨a, ha⟩ := hend
    have hok := h.jobs k j hj
    obtain ⟨hkept, -⟩ := finish_db .badger hok hr ha (j.applied .badger o)
    obtain ⟨-, hle, hother⟩ := h.owned rfl k _ (reply_of_ok hj hr ha)
    have hseq : (if j.applied .badger o then published .badger st.store r else st.store).seq =
        st.store.seq := by
      split_ifs <;> rfl
    refine h.finish_ok .badger hok hr ha rfl (by rw [hseq]) (fun _ => by rw [hseq]; exact hle)
      (fun k' j₀ hj₀ => ?_) fun _ => hother
    exact .badger ((h.jobs k' j₀ hj₀).kept.trans hkept) (h.jobs k' j₀ hj₀).made
  · rw [finish_of_not_ok .badger fun a ha => hend ⟨a, ha⟩]
    exact h.remove .badger k

theorem Inv.finish_tikv (h : Inv .tikv st) (hj : st.jobs k = some j) (hr : j.run = some r)
    (hreg : replied = true → (st.reply k).isSome → j.applied .tikv o = true) :
    Inv .tikv (st.finish .tikv k o replied j r) := by
  by_cases hend : ∃ a, r.ending = .returned (.ok a)
  · obtain ⟨a, ha⟩ := hend
    have hok := h.jobs k j hj
    obtain ⟨hkept, -⟩ := finish_db .tikv hok hr ha (j.applied .tikv o)
    cases happ : j.applied .tikv o with
    | false =>
      -- nothing is stored and nothing is reported
      have hrep : ¬replied = true := by
        intro hrep
        have hsome : (st.reply k).isSome := by rw [reply_of_ok hj hr ha]; rfl
        cases happ.symm.trans (hreg hrep hsome)
      refine h.finish_ok .tikv hok hr ha (if_neg (by simp [happ])) (le_refl _)
        (fun hc => absurd hc (by simp [happ, hrep])) (fun k' j₀ hj₀ => ?_) fun hb => by cases hb
      have hok₀ := h.jobs k' j₀ hj₀
      exact ⟨hok₀.kept, hok₀.made, hok₀.older,
        fun hb hs => hok₀.current hb (by simpa [outdate, happ] using hs), hok₀.follows⟩
    | true =>
      -- the counter has not moved since the call began, so its number is the next one
      have hstale : j.stale = false := by
        simp only [applied, Bool.and_eq_true, Bool.not_eq_true'] at happ
        simpa using happ.2
      obtain ⟨hnat, hseq⟩ := hok.follows rfl r a hr ha
      rw [hok.current rfl hstale] at hnat
      have htop : top .tikv ((published .tikv st.store r).seq ()) =
          top .tikv (st.store.seq ()) + 1 := by
        change top .tikv (r.seq ()) = _
        rw [hseq, top, hnat]
      rw [happ] at hkept
      refine h.finish_ok .tikv hok hr ha (if_pos happ) (by omega) (fun _ => by omega)
        (fun k' j₀ hj₀ => ?_) fun hb => by cases hb
      have hok₀ := h.jobs k' j₀ hj₀
      refine ⟨hok₀.kept.trans hkept, hok₀.made, fun _ => ?_, fun _ hs => ?_, hok₀.follows⟩
      · exact (hok₀.older rfl).trans (by omega)
      · simp [outdate, happ] at hs
  · rw [finish_of_not_ok .tikv fun a ha => hend ⟨a, ha⟩]
    exact h.remove .tikv k

end Finish

theorem Inv.next (h : Inv b st) (c : NumCall κ) (hc : c.Regular b st) :
    Inv b (next b c st) := by
  cases c with
  | start plan now uid gid => exact h.start b hc
  | stop => exact h.stop b
  | lapse => exact h.lapse b hc
  | begin_ k req now => exact h.begin b k req now
  | callback k plan => exact h.callback b k hc.1 hc.2
  | commit k o replied =>
    rw [NumState.next]
    cases hj : st.jobs k with
    | none => exact h
    | some j =>
      dsimp only
      cases hr : j.run with
      | none => exact h
      | some r =>
        cases b with
        | badger => exact h.finish_badger hj hr
        | tikv =>
          refine h.finish_tikv hj hr fun hrep hsome => ?_
          have hall := hc rfl hrep hsome
          rwa [hj, all_some] at hall

/-- In every run of regular steps, whatever is interleaved and however often the
service is started, a call that reports success reports a number that is not zero, not
that of the root, was not reported before and belongs to no stored inode. -/
theorem created_numbers_fresh {st : NumState κ}
    (hst : Reach (NumState.next b) (fun st c => c.Regular b st) .empty st) (k : κ)
    (o : CommitOutcome) (hc : (NumCall.commit k o true).Regular b st) (i : Ino)
    (hi : st.reply k = some i) : st.Fresh i := by
  have hinv : Inv b st := hst.invariant (fun st c h hc => h.next b c hc) (inv_empty b)
  cases b with
  | badger => exact (hinv.owned rfl k i hi).1
  | tikv =>
    obtain ⟨j, hj, hnum⟩ := bind_eq_some_iff.mp hi
    obtain ⟨r, a, hr, ha, rfl⟩ := number_eq_some hnum
    have happ : j.applied .tikv o = true := by
      have hall := hc rfl rfl (by rw [hi]; rfl)
      rwa [hj, all_some] at hall
    have hstale : j.stale = false := by
      simp only [CreateJob.applied, Bool.and_eq_true, Bool.not_eq_true'] at happ
      simpa using happ.2
    have hok := hinv.jobs k j hj
    have hnat := (hok.follows rfl r a hr ha).1
    rw [hok.current rfl hstale] at hnat
    have hone := hinv.one_le .tikv hj
    exact hinv.fresh_of_lt .tikv (by omega) (by omega)

end Steps

def fileReq (name : String) : CreateInodeReq := ⟨rootIno, name, some (.ofMode 0o644)⟩

def noFault : ℕ → Option EngineErr := fun _ => none

def numbersRun : List (NumCall ℕ) :=
  [.start noFault ⟨1, 0⟩ 0 0, .begin_ 0 (fileReq "a") ⟨2, 0⟩, .callback 0 noFault,
    .commit 0 .ok true, .stop, .start noFault ⟨3, 0⟩ 0 0, .begin_ 1 (fileReq "b") ⟨4, 0⟩,
    .callback 1 noFault]

theorem created_numbers_fresh_sample :
    Legal (NumState.next .tikv) (fun st c => c.Regular .tikv st) numbersRun .empty ∧
    (exec (NumState.next .tikv) numbersRun .empty).reply 1 = some 4 ∧
    (exec (NumState.next .tikv) numbersRun .empty).Fresh 4 := by
  have hlegal : Legal (NumState.next .tikv) (fun st c => c.Regular .tikv st) numbersRun
      .empty := by decide +kernel
  have hreply : (exec (NumState.next .tikv) numbersRun .empty).reply 1 = some 4 := by
    decide +kernel
  exact ⟨hlegal, hreply,
    created_numbers_fresh .tikv (reach_exec hlegal) 1 .ok (by decide +kernel) 4 hreply⟩

def incrFails : ℕ → Option EngineErr := fun n => if n = 2 then some .other else none

def failedNumbers : List (NumCall ℕ) :=
  [.start noFault ⟨1, 0⟩ 0 0, .begin_ 0 (fileReq "a") ⟨2, 0⟩, .callback 0 incrFails,
    .commit 0 .ok true, .begin_ 1 (fileReq "b") ⟨3, 0⟩, .callback 1 incrFails, .commit 1 .ok true]

def overlappingNumbers : List (NumCall ℕ) :=
  [.start noFault ⟨1, 0⟩ 0 0, .begin_ 0 (fileReq "a") ⟨2, 0⟩, .begin_ 1 (fileReq "b") ⟨2, 0⟩,
    .callback 0 noFault, .callback 1 noFault, .commit 0 .ok true, .commit 1 .ok true]

/-- On Badger both files get the inode zero when `Incr` fails; on TiKV two calls in
flight at the same time report the same number, and only one of the files exists. -/
theorem created_numbers_repeat :
    (exec (NumState.next .badger) failedNumbers .empty).returned = [0, 0] ∧
    (exec (NumState.next .tikv) overlappingNumbers .empty).returned = [3, 3] ∧
    entryAt (exec (NumState.next .tikv) overlappingNumbers .empty).store.db 1 "b" = none := by
  decide +kernel

end HugoFS.Meta.Faulty
