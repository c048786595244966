import HugoFS.Lib.Runs
import HugoFS.Store.Badger

/-!
# File locks in the meta store

The lock calls of the inode service over a `BadgerStore`. All locks of an inode are read as a
bucket, but no lock key has a slash. A lock that is read alone is decoded into a nil message,
which panics. The history of the locks is kept beside the store.
-/

namespace HugoFS.Meta

open Store ByteString Function List Runs BadgerStore

inductive LockKind
  | rdlck
  | wrlck
  | unlck
deriving DecidableEq

inductive LockFlag
  | sh
  | ex
deriving DecidableEq

structure FileLock where
  ino : UInt64
  owner : UInt64
  pid : UInt32
  start : UInt64
  end_ : UInt64
  kind : LockKind
  flag : LockFlag
  expireTime : UInt64
deriving DecidableEq

structure LockId where
  ino : UInt64
  owner : UInt64
  pid : UInt32
deriving DecidableEq

def FileLock.id (l : FileLock) : LockId := ⟨l.ino, l.owner, l.pid⟩

/-! ### Keys -/

def fileLockKey (i : LockId) : Store.Key :=
  ofText "lk-" ++ decimal i.ino.toNat ++ ofText "-" ++
    decimal i.owner.toNat ++ ofText "-" ++ decimal i.pid.toNat

def fileLockInoPrefix (ino : UInt64) : Store.Key :=
  ofText "lk-" ++ decimal ino.toNat ++ ofText "-"

theorem fileLockKey_eq (i : LockId) :
    fileLockKey i = ofText "lk-" ++ (decimal i.ino.toNat ++
      45 :: (decimal i.owner.toNat ++ 45 :: decimal i.pid.toNat)) := by
  have hdash : ofText "-" = [45] := rfl
  simp [fileLockKey, hdash]

theorem fileLockKey_injective : Function.Injective fileLockKey := by
  intro i j h
  rw [fileLockKey_eq, fileLockKey_eq] at h
  have hdash : ∀ n, (45 : UInt8) ∉ decimal n := notMem_decimal (by decide)
  obtain ⟨hino, h⟩ := (append_sep_inj (hdash _) (hdash _)).mp (append_cancel_left h)
  obtain ⟨howner, hpid⟩ := (append_sep_inj (hdash _) (hdash _)).mp h
  have hino := UInt64.toNat_inj.mp (decimal_injective hino)
  have howner := UInt64.toNat_inj.mp (decimal_injective howner)
  have hpid := UInt32.toNat_inj.mp (decimal_injective hpid)
  cases i
  cases j
  simp_all

theorem slash_notMem_fileLockKey (i : LockId) : 47 ∉ fileLockKey i := by
  have hslash : ∀ n, (47 : UInt8) ∉ decimal n := notMem_decimal (by decide)
  have hhead : (47 : UInt8) ∉ ofText "lk-" := by decide
  rw [fileLockKey_eq]
  simp [hslash, hhead]

theorem readKey_fileLockKey (i : LockId) :
    readKey (fileLockKey i) = fileLockKey i := by
  have hmem : (47 : UInt8) ∈ seperator := by decide
  have hsuffix : ¬seperator <:+ fileLockKey i :=
    fun h => slash_notMem_fileLockKey i (h.subset hmem)
  rw [readKey, trimSuffix_of_not hsuffix, ite_self]

/-! ### The calls -/

inductive LockCall
  | acquire (lock : Option FileLock)
  | get (i : LockId)
  | getAll (ino : UInt64)
  | del (i : LockId)

inductive LockReply
  | done
  | lock (l : FileLock)
  | locks (ls : List FileLock)
  | storeError (e : StoreError)
  | panic
deriving DecidableEq

/-- `proto.Unmarshal` resets the message it is given. The one embedded in the new `FileLock` is
nil, so this panics, whatever the data. -/
def decodeFileLock (_data : Value) : Except LockReply FileLock := .error .panic

section Calls

variable (marshal : FileLock → Value) (now : UInt64)

def acquireFileLock (m : Db) : Option FileLock → LockReply × Db
  | none => (.panic, m)
  | some l => (.done, BadgerStore.save m (fileLockKey l.id) (marshal l))

def getFileLock (m : Db) (i : LockId) : LockReply × Db :=
  match BadgerStore.get m (fileLockKey i) with
  | .error e => (.storeError e, m)
  | .ok data =>
    match decodeFileLock data with
    | .error r => (r, m)
    | .ok fl =>
      -- the test is the wrong way round, and `GetFileLock` then reads a field of a nil lock
      if now < fl.expireTime then (.panic, BadgerStore.delete m (fileLockKey i))
      else (.lock fl, m)

def getFileLocksLoop (m : Db) (locks : List FileLock) :
    List (Store.Key × Value) → LockReply × Db
  | [] => (.locks locks, m)
  | e :: es =>
    match decodeFileLock e.2 with
    | .error r => (r, m)
    | .ok fl =>
      let m := if now < fl.expireTime then BadgerStore.delete m e.1 else m
      getFileLocksLoop m (locks ++ [fl]) es

def getFileLocks (m : Db) (ino : UInt64) : LockReply × Db :=
  getFileLocksLoop now m [] (BadgerStore.getByBucket m (fileLockInoPrefix ino)).entries

def delFileLock (m : Db) (i : LockId) : LockReply × Db :=
  (.done, BadgerStore.delete m (fileLockKey i))

def LockCall.serve (m : Db) : LockCall → LockReply × Db
  | .acquire l => acquireFileLock marshal m l
  | .get i => getFileLock now m i
  | .getAll ino => getFileLocks now m ino
  | .del i => delFileLock m i

end Calls

/-! ### Histories -/

structure LockState where
  db : Db
  saved : LockId → Option FileLock

def LockCall.record (saved : LockId → Option FileLock) : LockCall → LockId → Option FileLock
  | .acquire (some l) => Function.update saved l.id (some l)
  | .del i => Function.update saved i none
  | _ => saved

def LockState.next (marshal : FileLock → Value) (st : LockState) (x : UInt64 × LockCall) : LockState where
  db := (x.2.serve marshal x.1 st.db).2
  saved := x.2.record st.saved

def LockState.KeepsLive (st : LockState) (now : UInt64) (db' : Db) : Prop :=
  ∀ i l, st.saved i = some l → now ≤ l.expireTime →
    db'.get (fileLockKey i) = st.db.get (fileLockKey i)

/-- What is asked of a lookup: it finds the locks that have not expired, and leaves them. -/
def LockCall.Correct (marshal : FileLock → Value) (now : UInt64) (st : LockState)
    (call : LockCall) : Prop :=
  match call with
  | .get i =>
    (∀ l, st.saved i = some l → now ≤ l.expireTime → (call.serve marshal now st.db).1 = .lock l) ∧
      st.KeepsLive now (call.serve marshal now st.db).2
  | .getAll ino =>
    (∃ ls : List FileLock, (call.serve marshal now st.db).1 = .locks ls ∧ ls.Nodup ∧
      ∀ l, l ∈ ls ↔ ∃ i, i.ino = ino ∧ st.saved i = some l ∧ now ≤ l.expireTime) ∧
      st.KeepsLive now (call.serve marshal now st.db).2
  | _ => True

/-- The locks that the lookup is about have expired. -/
def LockCall.Spared (now : UInt64) (saved : LockId → Option FileLock) : LockCall → Prop
  | .get i => ∀ l, saved i = some l → l.expireTime < now
  | .getAll ino => ∀ i l, i.ino = ino → saved i = some l → l.expireTime < now
  | _ => True

def NoLocks (m : Db) : Prop := ∀ k, ofText "lk-" <+: k → m.get k = none

structure LockState.Tracks (marshal : FileLock → Value) (st : LockState) : Prop where
  get_key : ∀ i, st.db.get (fileLockKey i) = (st.saved i).map marshal
  id_eq : ∀ i l, st.saved i = some l → l.id = i
  key_of : ∀ k, ofText "lk-" <+: k → st.db.get k ≠ none → ∃ i, k = fileLockKey i

namespace LockState.Tracks

variable {marshal : FileLock → Value} {st : LockState} {now : UInt64}

theorem start {m : Db} (h : NoLocks m) : Tracks marshal ⟨m, fun _ => none⟩ where
  get_key i := by
    refine h _ ?_
    rw [fileLockKey_eq]
    exact prefix_append _ _
  id_eq i l hl := by cases hl
  key_of k hk hne := absurd (h k hk) hne

section

variable (h : Tracks marshal st) {i : LockId}
include h

theorem getByBucket_eq (ino : UInt64) :
    (getByBucket st.db (fileLockInoPrefix ino)).entries = [] := by
  have hsuffix : ¬seperator <:+ fileLockInoPrefix ino := by
    intro hs
    have hlast := hs.getLast (by decide)
    simp [fileLockInoPrefix, seperator, ofText] at hlast
    exact absurd hlast (by decide)
  have hne : fileLockInoPrefix ino ≠ seperator :=
    fun he => hsuffix (he ▸ suffix_refl _)
  rw [BadgerStore.getByBucket_eq, BadgerStore.readKey, trimSuffix_of_not hsuffix, ite_self,
    SortedMap.filter, filter_eq_nil_iff]
  intro e he hin
  rw [inBucket_of_ne hne, hasPrefix_iff] at hin
  have hhead : ofText "lk-" <+: e.1 := by
    refine List.IsPrefix.trans ?_ hin
    rw [fileLockInoPrefix, append_assoc, append_assoc]
    exact prefix_append _ _
  obtain ⟨i, hi⟩ := h.key_of e.1 hhead (by
    rw [SortedMap.get_eq_some_iff.mpr he]
    exact Option.some_ne_none _)
  have hslash : (47 : UInt8) ∈ e.1 :=
    hin.subset (mem_append_right _ (by decide))
  rw [hi] at hslash
  exact slash_notMem_fileLockKey i hslash

theorem getFileLocks_eq (ino : UInt64) :
    getFileLocks now st.db ino = (.locks [], st.db) := by
  rw [getFileLocks, h.getByBucket_eq, getFileLocksLoop]

theorem getFileLock_of_none (hi : st.saved i = none) :
    getFileLock now st.db i = (.storeError .notFound, st.db) := by
  have hget : get st.db (fileLockKey i) = .error .notFound := by
    rw [BadgerStore.get, readKey_fileLockKey, h.get_key, hi]
    rfl
  rw [getFileLock, hget]

theorem getFileLock_of_some {l : FileLock} (hi : st.saved i = some l) :
    getFileLock now st.db i = (.panic, st.db) := by
  have hget : get st.db (fileLockKey i) = .ok (marshal l) := by
    rw [BadgerStore.get, readKey_fileLockKey, h.get_key, hi]
    rfl
  rw [getFileLock, hget]
  rfl

theorem getFileLock_db (now : UInt64) (i : LockId) : (getFileLock now st.db i).2 = st.db := by
  rcases hi : st.saved i with _ | l
  · rw [h.getFileLock_of_none hi]
  · rw [h.getFileLock_of_some hi]

theorem put (l : FileLock) :
    Tracks marshal ⟨st.db.put (fileLockKey l.id) (marshal l),
      update st.saved l.id (some l)⟩ where
  get_key i := by
    by_cases hi : i = l.id
    · simp [hi]
    · simp [hi, fileLockKey_injective.eq_iff, h.get_key]
  id_eq i x hx := by
    obtain ⟨hi, hx⟩ | ⟨-, hx⟩ := update_eq_some hx
    · rw [hi, Option.some.inj hx]
    · exact h.id_eq i x hx
  key_of k hk hne := by
    by_cases hkl : k = fileLockKey l.id
    · exact ⟨l.id, hkl⟩
    · rw [SortedMap.get_put, if_neg hkl] at hne
      exact h.key_of k hk hne

theorem del (i : LockId) :
    Tracks marshal ⟨st.db.del (fileLockKey i), update st.saved i none⟩ where
  get_key j := by
    by_cases hj : j = i
    · simp [hj]
    · simp [hj, fileLockKey_injective.eq_iff, h.get_key]
  id_eq j x hx := by
    obtain ⟨-, hx⟩ | ⟨-, hx⟩ := update_eq_some hx
    · cases hx
    · exact h.id_eq j x hx
  key_of k hk hne := by
    by_cases hki : k = fileLockKey i
    · exact ⟨i, hki⟩
    · rw [SortedMap.get_del, if_neg hki] at hne
      exact h.key_of k hk hne

open LockCall

theorem of_db_eq {db : Db} (hdb : db = st.db) :
    Tracks marshal ⟨db, st.saved⟩ := by
  subst hdb
  exact h

theorem next (now : UInt64) (call : LockCall) : Tracks marshal (st.next marshal (now, call)) := by
  cases call with
  | acquire l =>
    cases l with
    | none => exact h
    | some l => exact h.put l
  | del i => exact h.del i
  | get i => exact h.of_db_eq (h.getFileLock_db now i)
  | getAll ino => exact h.of_db_eq (congrArg Prod.snd (h.getFileLocks_eq ino))

theorem runAll (calls : List (UInt64 × LockCall)) :
    Tracks marshal (calls.foldl (.next marshal) st) := by
  induction calls generalizing st with
  | nil => exact h
  | cons x calls ih => exact ih (h.next x.1 x.2)

theorem get_correct_iff (i : LockId) :
    (get i).Correct marshal now st ↔ (get i).Spared now st.saved := by
  constructor
  · rintro ⟨hreply, -⟩ l hl
    by_contra hlive
    have hr := hreply l hl (UInt64.not_lt.mp hlive)
    rw [serve, h.getFileLock_of_some hl] at hr
    cases hr
  · intro hs
    refine ⟨fun l hl hlive => ?_, fun j l _ _ => ?_⟩
    · exact absurd hlive (UInt64.not_le.mpr (hs l hl))
    · rw [serve, h.getFileLock_db]

theorem getAll_correct_iff (ino : UInt64) :
    (getAll ino).Correct marshal now st ↔ (getAll ino).Spared now st.saved := by
  rw [Correct, serve, h.getFileLocks_eq]
  constructor
  · rintro ⟨⟨ls, hls, -, hmem⟩, -⟩ i l hi hl
    obtain rfl : ls = [] := by
      rw [LockReply.locks.injEq] at hls
      exact hls.symm
    by_contra hlive
    exact not_mem_nil ((hmem l).mpr ⟨i, hi, hl, UInt64.not_lt.mp hlive⟩)
  · intro hs
    refine ⟨⟨[], rfl, nodup_nil, fun l => ?_⟩, fun _ _ _ _ => rfl⟩
    refine iff_of_false not_mem_nil ?_
    rintro ⟨i, hi, hl, hlive⟩
    exact UInt64.not_lt.mpr hlive (hs i l hi hl)

end

end LockState.Tracks

/-- After any calls, the next lookup is right exactly when the locks it is about have expired. -/
theorem file_lock_lookups_iff (marshal : FileLock → Value) (m : Db) (hm : NoLocks m)
    (calls : List (UInt64 × LockCall)) (now : UInt64) (call : LockCall) :
    let st := calls.foldl (LockState.next marshal) ⟨m, fun _ => none⟩
    call.Correct marshal now st ↔ call.Spared now st.saved := by
  intro st
  have htracks : LockState.Tracks marshal st := (LockState.Tracks.start hm).runAll calls
  cases call with
  | acquire l => exact Iff.rfl
  | del i => exact Iff.rfl
  | get i => exact htracks.get_correct_iff i
  | getAll ino => exact htracks.getAll_correct_iff ino

/-! ### Sample runs -/

def sampleLock : FileLock := ⟨1, 7, 9, 0, 10, .wrlck, .ex, 100⟩

def sampleMarshal (l : FileLock) : Value := if l = sampleLock then [1] else []

/-- Two locks of one inode are acquired, one of them is looked up, and one deleted. -/
def sampleLockHistory : List (UInt64 × LockCall) :=
  [(10, .acquire (some sampleLock)), (10, .acquire (some { sampleLock with owner := 8 })),
    (10, .get sampleLock.id), (10, .del ⟨1, 8, 9⟩)]

def sampleLockState : LockState :=
  sampleLockHistory.foldl (LockState.next sampleMarshal) ⟨.empty, fun _ => none⟩

theorem saved_sampleLockState {i : LockId} {l : FileLock}
    (hl : sampleLockState.saved i = some l) : l = sampleLock := by
  change update (update (update (fun _ => none) sampleLock.id (some sampleLock))
    ⟨1, 8, 9⟩ (some { sampleLock with owner := 8 })) ⟨1, 8, 9⟩ none i = some l at hl
  obtain ⟨-, hl⟩ | ⟨hi, hl⟩ := update_eq_some hl
  · cases hl
  obtain ⟨hi', -⟩ | ⟨-, hl⟩ := update_eq_some hl
  · exact absurd hi' hi
  obtain ⟨-, hl⟩ | ⟨-, hl⟩ := update_eq_some hl
  · exact (Option.some.inj hl).symm
  · cases hl

theorem file_lock_lookups_iff_sample : NoLocks .empty ∧
    (LockCall.getAll 1).Correct sampleMarshal 200 sampleLockState ∧
      (LockCall.get sampleLock.id).Correct sampleMarshal 200 sampleLockState := by
  have hm : NoLocks .empty := fun _ _ => rfl
  refine ⟨hm, ?_, ?_⟩
  · refine (file_lock_lookups_iff sampleMarshal .empty hm sampleLockHistory 200 (.getAll 1)).mpr ?_
    intro i l _ hl
    rw [saved_sampleLockState hl]
    decide
  · refine (file_lock_lookups_iff sampleMarshal .empty hm sampleLockHistory 200 (.get _)).mpr ?_
    intro l hl
    rw [saved_sampleLockState hl]
    decide

/-- A lock that has not expired is missing among the locks of its inode, and a look at it alone
panics. -/
theorem file_lock_lookups_fail :
    sampleLockState.saved sampleLock.id = some sampleLock ∧ (10 : UInt64) ≤ sampleLock.expireTime ∧
      ((LockCall.getAll 1).serve sampleMarshal 10 sampleLockState.db).1 = .locks [] ∧
      ¬(LockCall.getAll 1).Correct sampleMarshal 10 sampleLockState ∧
      ((LockCall.get sampleLock.id).serve sampleMarshal 10 sampleLockState.db).1 = .panic ∧
      ¬(LockCall.get sampleLock.id).Correct sampleMarshal 10 sampleLockState := by
  have hsaved : sampleLockState.saved sampleLock.id = some sampleLock := by decide +kernel
  have hlive : (10 : UInt64) ≤ sampleLock.expireTime := by decide
  have hall : ((LockCall.getAll 1).serve sampleMarshal 10 sampleLockState.db).1 = .locks [] := by
    decide +kernel
  have hget : ((LockCall.get sampleLock.id).serve sampleMarshal 10 sampleLockState.db).1 =
      .panic := by decide +kernel
  refine ⟨hsaved, hlive, hall, ?_, hget, ?_⟩
  · rintro ⟨⟨ls, hls, -, hmem⟩, -⟩
    rw [hall, LockReply.locks.injEq] at hls
    have hin := (hmem sampleLock).mpr ⟨sampleLock.id, rfl, hsaved, hlive⟩
    rw [← hls] at hin
    exact not_mem_nil hin
  · rintro ⟨hreply, -⟩
    have hr := hreply sampleLock hsaved hlive
    rw [hget] at hr
    cases hr

end HugoFS.Meta
