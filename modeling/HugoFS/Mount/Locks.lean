import HugoFS.Lib.Runs
import HugoFS.Meta.Locks

/-!
# Lock requests of the mount

`Setlk` and `Setlkw` read the locks of the inode, refuse when one of them belongs to another
owner or overlaps, and save the new lock in a second message; an unlock takes the same way. The
locks that were granted and not released since are kept beside the table.
-/

namespace HugoFS.Mount

open List Function Runs
open Meta (FileLock LockKind LockFlag)

/-! ### The requests -/

inductive LkOp
  | setlk
  | setlkw

structure LkRequest where
  op : LkOp
  owner : UInt64
  typ : UInt32
  start : UInt64
  end_ : UInt64
  pid : UInt32
  flags : UInt32

inductive Errno
  | ok
  | EINVAL
  | EBUSY
  | EINTR
deriving DecidableEq

def lockKind (typ : UInt32) : Option LockKind :=
  if typ = 0 then some .rdlck
  else if typ = 1 then some .wrlck
  else if typ = 2 then some .unlck
  else none

def fuseLK2pb (ino now : UInt64) (r : LkRequest) : Option FileLock :=
  (lockKind r.typ).map fun k =>
    { ino := ino
      owner := r.owner
      pid := r.pid
      start := r.start
      end_ := r.end_
      kind := k
      flag := if r.flags = 1 then .sh else .ex
      expireTime := now + 300 }

def isOverlapLR (l r : FileLock) : Bool :=
  (r.start ≤ l.start && l.start ≤ r.end_) || (r.start ≤ l.end_ && l.end_ ≤ r.end_)

def refused (lk : FileLock) (locks : List FileLock) : Bool :=
  locks.any fun l => l.owner ≠ lk.owner || isOverlapLR lk l

inductive ReadError
  | status
  | notFound
  | canceled
  | other

def readErrno : LkOp → ReadError → Errno
  | .setlk, _ => .EBUSY
  | .setlkw, .canceled => .EINTR
  | .setlkw, _ => .EBUSY

/-! ### The lock table -/

abbrev Table := List FileLock

def Table.view (t : Table) (now : UInt64) : List FileLock :=
  t.filter fun l => now ≤ l.expireTime

def sameKey (l l' : FileLock) : Bool := l.owner = l'.owner && l.pid = l'.pid

def Table.save (t : Table) (l : FileLock) : Table := l :: t.filter fun x => !sameKey x l

/-! ### Runs -/

structure Waiting where
  lock : FileLock
  seen : Table

structure LkState (ρ : Type) where
  table : Table
  waiting : ρ → Option Waiting
  result : ρ → Option Errno
  held : List FileLock

inductive LkCall (ρ : Type)
  | read (r : ρ) (req : LkRequest) (now : UInt64) (err : Option ReadError)
  | save (r : ρ) (ok : Bool)

def Intersects (l l' : FileLock) : Prop :=
  ∃ p, (l.start ≤ p ∧ p ≤ l.end_) ∧ (l'.start ≤ p ∧ p ≤ l'.end_)

def Conflict (l l' : FileLock) : Prop :=
  l.owner ≠ l'.owner ∧ Intersects l l' ∧ (l.kind = .wrlck ∨ l'.kind = .wrlck)

def grant (l : FileLock) (held : List FileLock) : List FileLock :=
  if l.kind = .unlck then
    held.filter fun x => !(x.owner = l.owner && (x.start ≤ l.end_ && l.start ≤ x.end_))
  else l :: held

namespace LkState

variable {ρ : Type} [DecidableEq ρ] {now ino : UInt64} {req : LkRequest} {lk : FileLock}

def empty : LkState ρ := ⟨[], fun _ => none, fun _ => none, []⟩

def return_ (st : LkState ρ) (r : ρ) (e : Errno) : LkState ρ :=
  { st with
    waiting := Function.update st.waiting r none
    result := Function.update st.result r (some e) }

def read (ino : UInt64) (st : LkState ρ) (r : ρ) (req : LkRequest) (now : UInt64)
    (err : Option ReadError) : LkState ρ :=
  match fuseLK2pb ino now req with
  | none => st.return_ r .EINVAL
  | some lk =>
    match err with
    | some e => st.return_ r (readErrno req.op e)
    | none =>
      if refused lk (st.table.view now) then st.return_ r .EBUSY
      else { st with waiting := Function.update st.waiting r (some ⟨lk, st.table⟩) }

def save (st : LkState ρ) (r : ρ) (ok : Bool) : LkState ρ :=
  match st.waiting r with
  | none => st
  | some w =>
    if ok then
      { st with
        table := st.table.save w.lock
        held := grant w.lock st.held }.return_ r .ok
    else st.return_ r .EBUSY

def next (ino : UInt64) : LkCall ρ → LkState ρ → LkState ρ
  | .read r req now err, st => st.read ino r req now err
  | .save r ok, st => st.save r ok

def Alone (st : LkState ρ) : LkCall ρ → Prop
  | .read _ req now _ => ∀ x ∈ st.table, x.owner ≠ req.owner → now ≤ x.expireTime
  | .save r _ => ∀ w, st.waiting r = some w →
      ∀ x ∈ st.table, x.owner ≠ w.lock.owner → x ∈ w.seen

instance (st : LkState ρ) (c : LkCall ρ) : Decidable (st.Alone c) := by
  cases c <;> dsimp only [Alone] <;> infer_instance

structure Sound (st : LkState ρ) : Prop where
  in_table : ∀ l ∈ st.held, ∃ x ∈ st.table, x.owner = l.owner
  own_seen : ∀ r w, st.waiting r = some w → ∀ x ∈ w.seen, x.owner = w.lock.owner
  one_owner : ∀ l ∈ st.held, ∀ l' ∈ st.held, l.owner = l'.owner

theorem fuseLK2pb_owner (h : fuseLK2pb ino now req = some lk) : lk.owner = req.owner := by
  obtain ⟨k, -, rfl⟩ := Option.map_eq_some_iff.mp h
  rfl

section Steps

variable {st : LkState ρ} {ino now : UInt64} {r : ρ} {req : LkRequest} {lk : FileLock}

theorem read_refused (hlk : fuseLK2pb ino now req = some lk)
    (h : refused lk (st.table.view now) = true) :
    st.read ino r req now none = st.return_ r .EBUSY := by
  simp only [read, hlk, h, if_true]

theorem read_passed (hlk : fuseLK2pb ino now req = some lk)
    (h : refused lk (st.table.view now) = false) :
    st.read ino r req now none =
      { st with waiting := update st.waiting r (some ⟨lk, st.table⟩) } := by
  simp only [read, hlk, h, Bool.false_eq_true, if_false]

theorem save_ok {w : Waiting} (hw : st.waiting r = some w) :
    st.save r true =
      { st with
        table := st.table.save w.lock
        held := grant w.lock st.held }.return_ r .ok := by
  simp only [save, hw, if_true]

end Steps

namespace Sound

variable {st : LkState ρ} {ino : UInt64}

omit [DecidableEq ρ] in
theorem empty : Sound (LkState.empty : LkState ρ) where
  in_table l hl := absurd hl not_mem_nil
  own_seen r w hw := by cases hw
  one_owner l hl := absurd hl not_mem_nil

theorem return_ (h : Sound st) (r : ρ) (e : Errno) : Sound (st.return_ r e) where
  __ := h
  own_seen r' w hw := by
    obtain ⟨-, hw⟩ | ⟨-, hw⟩ := update_eq_some hw
    · cases hw
    · exact h.own_seen r' w hw

theorem own_of_not_refused {t : Table} (hlive : ∀ x ∈ t, x.owner ≠ lk.owner → now ≤ x.expireTime)
    (hpass : refused lk (t.view now) = false) : ∀ x ∈ t, x.owner = lk.owner := by
  intro x hx
  by_contra hne
  have hview : x ∈ t.view now :=
    mem_filter.mpr ⟨hx, decide_eq_true (hlive x hx hne)⟩
  have htest := any_eq_false.mp hpass x hview
  simp [hne] at htest

theorem read (h : Sound st) {r : ρ} {err : Option ReadError}
    (hok : st.Alone (.read r req now err)) : Sound (st.read ino r req now err) := by
  cases hlk : fuseLK2pb ino now req with
  | none =>
    rw [LkState.read, hlk]
    exact h.return_ r _
  | some lk =>
    cases err with
    | some e =>
      rw [LkState.read, hlk]
      exact h.return_ r _
    | none =>
      cases hpass : refused lk (st.table.view now) with
      | true =>
        rw [read_refused hlk hpass]
        exact h.return_ r _
      | false =>
        have howner := fuseLK2pb_owner hlk
        have hown : ∀ x ∈ st.table, x.owner = lk.owner :=
          own_of_not_refused (fun x hx hne => hok x hx (howner ▸ hne)) hpass
        rw [read_passed hlk hpass]
        refine ⟨h.in_table, fun r' w hw => ?_, h.one_owner⟩
        obtain ⟨-, hw⟩ | ⟨-, hw⟩ := update_eq_some hw
        · cases hw
          exact hown
        · exact h.own_seen r' w hw

omit [DecidableEq ρ] in
theorem owner_eq (h : Sound st) {r : ρ} {ok : Bool} (hok : st.Alone (.save r ok)) {w : Waiting}
    (hw : st.waiting r = some w) : ∀ x ∈ st.table, x.owner = w.lock.owner := by
  intro x hx
  by_contra hne
  exact hne (h.own_seen r w hw x (hok w hw x hx hne))

theorem mem_grant {l x : FileLock} {held : List FileLock} (h : x ∈ grant l held) :
    x = l ∨ x ∈ held := by
  rw [grant] at h
  split at h
  · exact .inr (mem_filter.mp h).1
  · exact mem_cons.mp h

theorem save (h : Sound st) {r : ρ} {ok : Bool} (hok : st.Alone (.save r ok)) :
    Sound (st.save r ok) := by
  cases hw : st.waiting r with
  | none =>
    rw [LkState.save, hw]
    exact h
  | some w =>
    cases ok with
    | false =>
      rw [LkState.save, hw]
      exact h.return_ r _
    | true =>
      have htable := h.owner_eq hok hw
      -- a held lock has a companion in the table, which belongs to the requester
      have hheld : ∀ l ∈ grant w.lock st.held, l.owner = w.lock.owner := by
        intro l hl
        rcases mem_grant hl with rfl | hl
        · rfl
        · obtain ⟨x, hx, hxl⟩ := h.in_table l hl
          rw [← hxl, htable x hx]
      have hsaved : Sound { st with
          table := st.table.save w.lock
          held := grant w.lock st.held } :=
        { in_table := fun l hl => ⟨w.lock, mem_cons_self, (hheld l hl).symm⟩
          own_seen := h.own_seen
          one_owner := fun l hl l' hl' => by rw [hheld l hl, hheld l' hl'] }
      rw [save_ok hw]
      exact hsaved.return_ r _

theorem next (h : Sound st) {c : LkCall ρ} (hok : st.Alone c) : Sound (LkState.next ino c st) := by
  cases c with
  | read r req now err => exact h.read hok
  | save r ok => exact h.save hok

end Sound

def AloneReach (ino : UInt64) (st : LkState ρ) : Prop :=
  Reach (next ino) Alone empty st

theorem AloneReach.sound {st : LkState ρ} (h : AloneReach ino st) : Sound st :=
  Reach.invariant (fun _ _ hs hok => hs.next hok) h Sound.empty

/-! ### Unlocking -/

def request (ino : UInt64) (st : LkState ρ) (r : ρ) (req : LkRequest) (now : UInt64) :
    LkState ρ :=
  (st.read ino r req now none).save r true

def Meets (req : LkRequest) (l : FileLock) : Prop :=
  ∃ p, (req.start ≤ p ∧ p ≤ req.end_) ∧ (l.start ≤ p ∧ p ≤ l.end_)

def Releases (st' : LkState ρ) (r : ρ) (req : LkRequest) (now : UInt64) : Prop :=
  st'.result r = some .ok ∧
    ∀ x ∈ st'.table, x.owner = req.owner → x.kind ≠ .unlck → now ≤ x.expireTime → ¬Meets req x

def Unlockable (t : Table) (req : LkRequest) (now : UInt64) : Prop :=
  ∀ x ∈ t, now ≤ x.expireTime →
    x.owner = req.owner ∧ ¬(x.start ≤ req.start ∧ req.start ≤ x.end_) ∧
      ¬(x.start ≤ req.end_ ∧ req.end_ ≤ x.end_) ∧
      (x.kind ≠ .unlck → Meets req x → x.pid = req.pid)

theorem refused_eq_false_iff {t : Table} :
    refused lk (t.view now) = false ↔
      ∀ x ∈ t, now ≤ x.expireTime →
        x.owner = lk.owner ∧ ¬(x.start ≤ lk.start ∧ lk.start ≤ x.end_) ∧
          ¬(x.start ≤ lk.end_ ∧ lk.end_ ≤ x.end_) := by
  simp only [refused, Table.view, any_eq_false, mem_filter, decide_eq_true_eq,
    and_imp, isOverlapLR, Bool.or_eq_true, Bool.and_eq_true, not_or, ne_eq, not_not]

def unlockRecord (ino now : UInt64) (req : LkRequest) : FileLock where
  ino := ino
  owner := req.owner
  pid := req.pid
  start := req.start
  end_ := req.end_
  kind := .unlck
  flag := if req.flags = 1 then .sh else .ex
  expireTime := now + 300

theorem fuseLK2pb_unlock (h : req.typ = 2) :
    fuseLK2pb ino now req = some (unlockRecord ino now req) := by
  simp [fuseLK2pb, lockKind, h, unlockRecord]

section Unlock

variable {st : LkState ρ} {ino now : UInt64} {r : ρ} {req : LkRequest}

theorem request_refused (htyp : req.typ = 2)
    (h : refused (unlockRecord ino now req) (st.table.view now) = true) :
    (st.request ino r req now).result r = some .EBUSY := by
  rw [request, read_refused (fuseLK2pb_unlock htyp) h, save]
  simp [return_]

theorem request_passed (htyp : req.typ = 2)
    (h : refused (unlockRecord ino now req) (st.table.view now) = false) :
    (st.request ino r req now).result r = some .ok ∧
      (st.request ino r req now).table = st.table.save (unlockRecord ino now req) := by
  rw [request, read_passed (fuseLK2pb_unlock htyp) h, save_ok (update_self r _ _)]
  exact ⟨update_self r _ _, rfl⟩

theorem releases_iff (htyp : req.typ = 2) :
    Releases (st.request ino r req now) r req now ↔ Unlockable st.table req now := by
  cases hpass : refused (unlockRecord ino now req) (st.table.view now) with
  | true =>
    refine iff_of_false (fun h => ?_) (fun h => ?_)
    · have hbusy := request_refused (r := r) htyp hpass
      rw [h.1] at hbusy
      cases hbusy
    · rw [refused_eq_false_iff.mpr fun x hx hlive => ?_] at hpass
      · cases hpass
      · obtain ⟨howner, hstart, hend, -⟩ := h x hx hlive
        exact ⟨howner, hstart, hend⟩
  | false =>
    obtain ⟨hok, htable⟩ := request_passed (r := r) htyp hpass
    have hown := refused_eq_false_iff.mp hpass
    rw [Releases, htable]
    constructor
    · rintro ⟨-, hleft⟩ x hx hlive
      obtain ⟨howner, hstart, hend⟩ := hown x hx hlive
      refine ⟨howner, hstart, hend, fun hkind hmeets => ?_⟩
      -- a lock of another process would still be in the table
      by_contra hpid
      have hstays : x ∈ st.table.save (unlockRecord ino now req) :=
        mem_cons_of_mem _ (mem_filter.mpr ⟨hx, by simp [sameKey, unlockRecord, hpid]⟩)
      exact hleft x hstays howner hkind hlive hmeets
    · intro h
      refine ⟨hok, fun x hx howner hkind hlive hmeets => ?_⟩
      rcases mem_cons.mp hx with rfl | hx
      · exact hkind rfl
      obtain ⟨hx, hkey⟩ := mem_filter.mp hx
      have hpid := (h x hx hlive).2.2.2 hkind hmeets
      simp [sameKey, unlockRecord, howner, hpid] at hkey

end Unlock

end LkState

open LkState

/-- Along runs whose steps meet the condition no two conflicting locks are held;
and a request to unlock that is not interrupted releases its range exactly when
the table is as `Unlockable` says. -/
theorem lock_requests_exclusive {ρ : Type} [DecidableEq ρ] (ino : UInt64) (st : LkState ρ)
    (hst : AloneReach ino st) :
    (∀ l ∈ st.held, ∀ l' ∈ st.held, ¬Conflict l l') ∧
      ∀ (st' : LkState ρ) (r : ρ) (req : LkRequest) (now : UInt64), req.typ = 2 →
        (Releases (st'.request ino r req now) r req now ↔ Unlockable st'.table req now) := by
  refine ⟨fun l hl l' hl' h => ?_, fun st' r req now htyp => releases_iff htyp⟩
  exact h.1 (hst.sound.one_owner l hl l' hl')

/-! ### Sample runs -/

def writeLock (owner : UInt64) : LkRequest := ⟨.setlk, owner, 1, 0, 10, 1, 0⟩

def aloneCalls : List (LkCall (Fin 2)) :=
  [.read 0 (writeLock 7) 1000 none, .save 0 true, .read 1 (writeLock 8) 1001 none, .save 1 true]

def racingCalls : List (LkCall (Fin 2)) :=
  [.read 0 (writeLock 7) 1000 none, .read 1 (writeLock 8) 1001 none, .save 0 true, .save 1 true]

def lkAfter (calls : List (LkCall (Fin 2))) : LkState (Fin 2) :=
  exec (next 1) calls LkState.empty

theorem lock_requests_exclusive_sample :
    AloneReach 1 (lkAfter aloneCalls) ∧ (lkAfter aloneCalls).held.length = 1 ∧
      ∀ l ∈ (lkAfter aloneCalls).held, ∀ l' ∈ (lkAfter aloneCalls).held, ¬Conflict l l' := by
  have hlegal : Legal (next 1) Alone aloneCalls LkState.empty := by decide +kernel
  have hreach : AloneReach 1 (lkAfter aloneCalls) := reach_exec hlegal
  exact ⟨hreach, by decide +kernel, (lock_requests_exclusive 1 _ hreach).1⟩

/-- Two write locks of different owners on one range are held together, and the
holder of a lock cannot unlock its own range. -/
theorem lock_requests_race :
    (∃ l ∈ (lkAfter racingCalls).held, ∃ l' ∈ (lkAfter racingCalls).held, Conflict l l') ∧
      ((lkAfter (aloneCalls.take 2)).request 1 1 { writeLock 7 with typ := 2 } 1002).result 1 =
        some .EBUSY := by
  have hheld : (lkAfter racingCalls).held =
      [⟨1, 8, 1, 0, 10, .wrlck, .ex, 1301⟩, ⟨1, 7, 1, 0, 10, .wrlck, .ex, 1300⟩] := by
    decide +kernel
  refine ⟨?_, by decide +kernel⟩
  rw [hheld]
  refine ⟨_, mem_cons_self, _, mem_cons_of_mem _ mem_cons_self, ?_, ?_, .inl rfl⟩
  · decide
  · exact ⟨0, by decide, by decide⟩

end HugoFS.Mount
