import HugoFS.Store.Badger

/-!
# The TiKV store

The calls of `TikvStore` outside any transaction, over the same engine. Keys and
prefixes are taken as they are given, a scan ends before its last key, and a
counter is kept as decimal text.
-/

namespace HugoFS.Store.TikvStore

open ByteString SortedMap

def iter (m : Db) (start stop : Key) : List (Key × Value) :=
  (m.iterFrom start).filter fun e => stop = [] || e.1 < stop

def get (m : Db) (key : Key) : Except StoreError Value :=
  match m.get key with
  | some v => .ok v
  | none => .error .notFound

def save (m : Db) (key : Key) (value : Value) : Db := m.put key value

def delete (m : Db) (key : Key) : Db := m.del key

def scan (m : Db) (pre start stop : Key) : List (Key × Value) :=
  (iter m start stop).filter fun e => hasPrefix e.1 pre && e.1 ≤ stop

def getByBucket (m : Db) (pre : Key) : Db :=
  .collect ((iter m pre []).filter fun e => hasPrefix e.1 pre)

def deleteByBucket (m : Db) (bucket : Key) : Db :=
  ((iter m bucket []).filter fun e => hasPrefix e.1 bucket).foldl (fun m e => m.del e.1) m

def parseUint (s : Value) : Except StoreError UInt64 :=
  if s = [] || !s.all ByteString.isDigit then .error .parseSyntax
  else if 2 ^ 64 ≤ ByteString.value s then .error .parseRange
  else .ok (.ofNat (ByteString.value s))

def incr (m : Db) (key : Key) (step : UInt64) : Except StoreError UInt64 × Db :=
  match m.get key with
  | none => (.ok (step + 1), m.put key (ByteString.decimal (step + 1).toNat))
  | some v =>
    match parseUint v with
    | .error e => (.error e, m)
    | .ok old => (.ok (old + step), m.put key (ByteString.decimal (old + step).toNat))

theorem iter_filter_eq (m : Db) (pre : Key) :
    (iter m pre []).filter (fun e => hasPrefix e.1 pre) =
      (m.filter fun k => hasPrefix k pre).entries := by
  rw [iter, iterFrom, List.filter_filter, List.filter_filter]
  refine List.filter_congr fun e _ => ?_
  by_cases h : hasPrefix e.1 pre = true
  · simp [h, le_of_isPrefix (hasPrefix_iff.mp h)]
  · simp [h]

theorem getByBucket_eq (m : Db) (pre : Key) :
    getByBucket m pre = m.filter fun k => hasPrefix k pre := by
  rw [getByBucket, iter_filter_eq, collect_entries]

theorem deleteByBucket_eq (m : Db) (bucket : Key) :
    deleteByBucket m bucket = m.filter fun k => !hasPrefix k bucket := by
  rw [deleteByBucket, iter_filter_eq, foldl_del_filter]

end HugoFS.Store.TikvStore
