import HugoFS.Lib.Program
import HugoFS.Meta.Types

/-!
# The typed store of the metadata service

The elementary updates and reads of the store, and the operations of the store package as
programs. Reading a key drops one trailing slash of its text and saving does not, and a key
without a name is refused by the single-record operations.
-/

namespace HugoFS.Meta

open KV Finmap Except

/-! ### Views and updates -/

def attrAt (s : Store) (i : Ino) : Option Attr :=
  (s.lookup (.attr i)).map fun r => r.1

def entryAt (s : Store) (p : Ino) (n : String) : Option Entry :=
  (s.lookup (.entry p n)).map fun r => r.1

def putAttr (s : Store) (a : Attr) : Store :=
  s.insert (.attr a.inode) (.ofAttr a)

def putEntry (s : Store) (e : Entry) : Store :=
  s.insert (.entry e.parentIno e.name) (.ofEntry e)

def dropAttr (s : Store) (i : Ino) : Store := s.erase (.attr i)

def dropEntry (s : Store) (p : Ino) (n : String) : Store := s.erase (.entry p n)

variable {s : Store}

theorem attrAt_inode {i : Ino} {a : Attr} (h : attrAt s i = some a) :
    a.inode = i := by
  obtain ⟨r, -, rfl⟩ := Option.map_eq_some_iff.mp h
  exact r.2

theorem entryAt_key {p : Ino} {n : String} {e : Entry}
    (h : entryAt s p n = some e) : e.parentIno = p ∧ e.name = n := by
  obtain ⟨r, -, rfl⟩ := Option.map_eq_some_iff.mp h
  exact r.2

@[simp] theorem entryAt_empty (p : Ino) (n : String) : entryAt ∅ p n = none := rfl

@[simp] theorem attrAt_putAttr (s : Store) (a : Attr) (i : Ino) :
    attrAt (putAttr s a) i = if i = a.inode then some a else attrAt s i := by
  by_cases h : i = a.inode
  · subst h
    rw [attrAt, putAttr, lookup_insert, if_pos rfl]
    rfl
  · simp [attrAt, putAttr, h, lookup_insert_of_ne]

@[simp] theorem entryAt_putAttr (s : Store) (a : Attr) (p : Ino) (n : String) :
    entryAt (putAttr s a) p n = entryAt s p n := by
  simp [entryAt, putAttr, lookup_insert_of_ne]

@[simp] theorem attrAt_putEntry (s : Store) (e : Entry) (i : Ino) :
    attrAt (putEntry s e) i = attrAt s i := by
  simp [attrAt, putEntry, lookup_insert_of_ne]

@[simp] theorem entryAt_putEntry (s : Store) (e : Entry) (p : Ino) (n : String) :
    entryAt (putEntry s e) p n =
      if p = e.parentIno ∧ n = e.name then some e else entryAt s p n := by
  by_cases h : p = e.parentIno ∧ n = e.name
  · obtain ⟨rfl, rfl⟩ := h
    rw [entryAt, putEntry, lookup_insert, if_pos ⟨rfl, rfl⟩]
    rfl
  · simp [entryAt, putEntry, h, lookup_insert_of_ne]

@[simp] theorem attrAt_dropAttr (s : Store) (j i : Ino) :
    attrAt (dropAttr s j) i = if i = j then none else attrAt s i := by
  by_cases h : i = j
  · subst h
    simp [attrAt, dropAttr]
  · simp [attrAt, dropAttr, h, lookup_erase_ne]

@[simp] theorem entryAt_dropAttr (s : Store) (j p : Ino) (n : String) :
    entryAt (dropAttr s j) p n = entryAt s p n := by
  simp [entryAt, dropAttr, lookup_erase_ne]

@[simp] theorem attrAt_dropEntry (s : Store) (p : Ino) (n : String) (i : Ino) :
    attrAt (dropEntry s p n) i = attrAt s i := by
  simp [attrAt, dropEntry, lookup_erase_ne]

@[simp] theorem entryAt_dropEntry (s : Store) (p q : Ino) (n m : String) :
    entryAt (dropEntry s p n) q m = if q = p ∧ m = n then none else entryAt s q m := by
  by_cases h : q = p ∧ m = n
  · obtain ⟨rfl, rfl⟩ := h
    simp [entryAt, dropEntry]
  · simp [entryAt, dropEntry, h, lookup_erase_ne]

/-! ### Operations of the store package -/

abbrev Txn := Body Rec Err

abbrev Request := Call Rec Err

def getAttr (i : Ino) (onErr : StoreErr → Err) : Txn Attr :=
  .get (.attr i) fun
    | some r => .pure r.1
    | none => .throw (onErr .notFound)

def getEntry (p : Ino) (n : String) (onErr : StoreErr → Err) : Txn Entry :=
  if n = "" then .throw (onErr .keyEqPrefix)
  else .get (.entry p (trimSuffix n)) fun
    | some r => .pure r.1
    | none => .throw (onErr .notFound)

/-- No name and no entry are the same here. -/
def findEntry (p : Ino) (n : String) : Txn (Option Entry) :=
  if n = "" then .pure none
  else .get (.entry p (trimSuffix n)) fun r => .pure (r.map fun r => r.1)

def countEntries (p : Ino) : Txn Nat :=
  .scan (inBucket p) fun m => .pure m.keys.card

def saveAttr (a : Attr) : Txn Unit :=
  .put (.attr a.inode) (.ofAttr a) (.pure ())

def saveEntry (e : Entry) (onErr : StoreErr → Err) : Txn Unit :=
  if e.name = "" then .throw (onErr .keyEqPrefix)
  else .put (.entry e.parentIno e.name) (.ofEntry e) (.pure ())

/-- As in a batch, where the name is not checked. -/
def saveEntryAny (e : Entry) : Txn Unit :=
  .put (.entry e.parentIno e.name) (.ofEntry e) (.pure ())

def saveAttrIf (b : Bool) (a : Attr) : Txn Unit :=
  if b then saveAttr a else .pure ()

def deleteAttr (i : Ino) : Txn Unit := .del (.attr i) (.pure ())

def deleteEntry (p : Ino) (n : String) (onErr : StoreErr → Err) : Txn Unit :=
  if n = "" then .throw (onErr .keyEqPrefix) else .del (.entry p n) (.pure ())

def readAttr {ρ : Type} (i : Ino) (next : Option Attr → Request ρ) : Request ρ :=
  .get (.attr i) fun r => next (r.map fun r => r.1)

def readEntry {ρ : Type} (p : Ino) (n : String) (next : Except StoreErr Entry → Request ρ) :
    Request ρ :=
  if n = "" then next (.error .keyEqPrefix)
  else .get (.entry p (trimSuffix n)) fun
    | some r => next (.ok r.1)
    | none => next (.error .notFound)

@[simp] theorem run_readAttr {ρ : Type} (i : Ino) (next : Option Attr → Request ρ)
    (s : Store) : (readAttr i next).run s = (next (attrAt s i)).run s := rfl

theorem run_readEntry {ρ : Type} (p : Ino) (n : String)
    (next : Except StoreErr Entry → Request ρ) (s : Store) :
    (readEntry p n next).run s =
      if n = "" then (next (.error .keyEqPrefix)).run s
      else match entryAt s p (trimSuffix n) with
        | some e => (next (.ok e)).run s
        | none => (next (.error .notFound)).run s := by
  by_cases hn : n = ""
  · simp [readEntry, hn]
  · rcases h : s.lookup (.entry p (trimSuffix n)) with _ | r <;>
      simp [readEntry, Call.run, entryAt, h, hn]

section Exec

variable {s s' : Store} {p i : Ino} {n : String} {a : Attr} {e : Entry} {u : Unit}
  {onErr : StoreErr → Err}

@[simp] theorem exec_getAttr_ok :
    (getAttr i onErr).exec s = .ok (a, s') ↔ attrAt s i = some a ∧ s = s' := by
  rcases h : s.lookup (.attr i) with _ | r <;>
    simp [getAttr, Body.exec, attrAt, h]

@[simp] theorem exec_getEntry_ok :
    (getEntry p n onErr).exec s = .ok (e, s') ↔
      n ≠ "" ∧ entryAt s p (trimSuffix n) = some e ∧ s = s' := by
  by_cases hn : n = ""
  · simp [getEntry, hn]
  · rcases h : s.lookup (.entry p (trimSuffix n)) with _ | r <;>
      simp [getEntry, Body.exec, entryAt, h, hn]

@[simp] theorem exec_findEntry_ok {r : Option Entry} :
    (findEntry p n).exec s = .ok (r, s') ↔
      r = (if n = "" then none else entryAt s p (trimSuffix n)) ∧ s = s' := by
  by_cases hn : n = "" <;> simp [findEntry, Body.exec, entryAt, hn, eq_comm]

@[simp] theorem exec_saveAttr_ok :
    (saveAttr a).exec s = .ok (u, s') ↔ s' = putAttr s a := by
  change ok (_, putAttr s a) = _ ↔ _
  simp [eq_comm]

@[simp] theorem exec_saveAttrIf_ok {b : Bool} :
    (saveAttrIf b a).exec s = .ok (u, s') ↔ s' = if b then putAttr s a else s := by
  cases b
  · change ok (_, s) = _ ↔ _
    simp [eq_comm]
  · exact exec_saveAttr_ok

@[simp] theorem exec_saveEntry_ok :
    (saveEntry e onErr).exec s = .ok (u, s') ↔ e.name ≠ "" ∧ s' = putEntry s e := by
  by_cases hn : e.name = ""
  · simp [saveEntry, hn]
  rw [saveEntry, if_neg hn]
  change ok (_, putEntry s e) = _ ↔ _
  simp [hn, eq_comm]

@[simp] theorem exec_saveEntryAny_ok :
    (saveEntryAny e).exec s = .ok (u, s') ↔ s' = putEntry s e := by
  change ok (_, putEntry s e) = _ ↔ _
  simp [eq_comm]

@[simp] theorem exec_deleteAttr_ok :
    (deleteAttr i).exec s = .ok (u, s') ↔ s' = dropAttr s i := by
  change ok (_, dropAttr s i) = _ ↔ _
  simp [eq_comm]

@[simp] theorem exec_deleteEntry_ok :
    (deleteEntry p n onErr).exec s = .ok (u, s') ↔ n ≠ "" ∧ s' = dropEntry s p n := by
  by_cases hn : n = ""
  · simp [deleteEntry, hn]
  rw [deleteEntry, if_neg hn]
  change ok (_, dropEntry s p n) = _ ↔ _
  simp [hn, eq_comm]

@[simp] theorem exec_countEntries_ok {m : Nat} :
    (countEntries p).exec s = .ok (m, s') ↔
      m = (s.restrict (inBucket p)).keys.card ∧ s = s' := by
  change ok (_, s) = _ ↔ _
  simp [eq_comm]

end Exec

def EmptyDir (s : Store) (p : Ino) : Prop := ∀ n, entryAt s p n = none

theorem keys_bucket_card_eq_zero {p : Ino} :
    (s.restrict (inBucket p)).keys.card = 0 ↔ EmptyDir s p := by
  rw [Finset.card_eq_zero, Finset.eq_empty_iff_forall_notMem]
  constructor
  · intro h n
    have hk := h (.entry p n)
    rw [mem_keys, ← lookup_eq_none, lookup_restrict] at hk
    simpa [inBucket, entryAt] using hk
  · rintro h (i | ⟨q, n⟩) hk <;>
      rw [mem_keys, ← lookup_isSome, lookup_restrict] at hk
    · simp [inBucket] at hk
    · by_cases hq : q = p
      · subst hq
        have hn := h n
        simp [inBucket, entryAt] at hk hn
        simp [hn] at hk
      · simp [inBucket, hq] at hk

end HugoFS.Meta
