import HugoFS.Lib.Bytes
import HugoFS.Lib.SortedMap

/-!
# The Badger store

The calls of `BadgerStore` over an ordered map of byte strings. `Get` and `GetByBucket` drop a
trailing separator from the key they are given, `Save` and `Delete` do not. A counter is a
Badger sequence, kept in the same map.
-/

namespace HugoFS.Store

open List ByteString SortedMap List.Pairwise

abbrev Key := ByteString

abbrev Value := ByteString

abbrev Db := SortedMap Key Value

inductive StoreError
  | notFound
  | zeroBandwidth
  | parseSyntax
  | parseRange
  | panic
deriving DecidableEq

def seperator : ByteString := ByteString.ofText "/"

def hasPrefix (k pre : Key) : Bool := pre.isPrefixOf k

def hasSuffix (k suf : Key) : Bool := suf.isSuffixOf k

def trimSuffix (key : Key) : Key := if hasSuffix key seperator then key.dropLast else key

theorem hasPrefix_iff {k pre : Key} : hasPrefix k pre = true ↔ pre <+: k :=
  isPrefixOf_iff_prefix

theorem hasSuffix_iff {k suf : Key} : hasSuffix k suf = true ↔ suf <:+ k :=
  isSuffixOf_iff_suffix

theorem trimSuffix_of_not {key : Key} (h : ¬seperator <:+ key) : trimSuffix key = key := by
  rw [trimSuffix, if_neg (by rwa [hasSuffix_iff])]

theorem trimSuffix_append (key : Key) : trimSuffix (key ++ seperator) = key := by
  rw [trimSuffix, if_pos (hasSuffix_iff.mpr (suffix_append key seperator))]
  exact dropLast_concat

/-- The pairs that the iterator meets from the prefix on, until a key has another one. -/
def iterPrefix (m : Db) (pre : Key) : List (Key × Value) :=
  (m.iterFrom pre).takeWhile fun e => hasPrefix e.1 pre

theorem iterPrefix_eq (m : Db) (pre : Key) :
    iterPrefix m pre = (m.filter fun k => hasPrefix k pre).entries := by
  have hmono : (m.iterFrom pre).Pairwise fun a b => hasPrefix b.1 pre → hasPrefix a.1 pre := by
    refine imp_of_mem (fun {a b} ha _ hab hb => ?_) (m.sorted.filter _)
    rw [hasPrefix_iff] at hb ⊢
    have hpa : pre ≤ a.1 := by simpa using (mem_filter.mp ha).2
    exact isPrefix_of_between (prefix_refl pre) hb hpa (le_of_lt hab)
  rw [iterPrefix, takeWhile_eq_filter hmono, iterFrom, filter_filter]
  refine filter_congr fun e _ => ?_
  by_cases h : hasPrefix e.1 pre = true
  · simp [h, le_of_isPrefix (hasPrefix_iff.mp h)]
  · simp [h]

namespace BadgerStore

/-- `Get` and `GetByBucket` drop a trailing separator. -/
def readKey (key : Key) : Key := if key ≠ seperator then trimSuffix key else key

def get (m : Db) (key : Key) : Except StoreError Value :=
  match m.get (readKey key) with
  | some v => .ok v
  | none => .error .notFound

def save (m : Db) (key : Key) (value : Value) : Db := m.put key value

def delete (m : Db) (key : Key) : Db := m.del key

/-- The last key is included; without one the scan ends with the prefix. -/
def scan (m : Db) (pre start stop : Key) : List (Key × Value) :=
  (m.iterFrom start).takeWhile fun e =>
    hasPrefix e.1 pre && !(stop ≠ [] && stop < e.1)

theorem scan_eq_filter {m : Db} {pre start stop : Key} (hstart : pre <+: start) :
    scan m pre start stop =
      (m.iterFrom start).filter fun e => hasPrefix e.1 pre && !(stop ≠ [] && stop < e.1) := by
  refine takeWhile_eq_filter ?_
  refine imp_of_mem (fun {a b} ha _ hab hb => ?_) (m.sorted.filter _)
  simp only [Bool.and_eq_true, hasPrefix_iff, Bool.not_eq_true', Bool.and_eq_false_iff,
    decide_eq_false_iff_not, not_lt] at hb ⊢
  have hsa : start ≤ a.1 := by simpa using (mem_filter.mp ha).2
  exact ⟨isPrefix_of_between hstart hb.1 hsa hab.le, hb.2.imp id hab.le.trans⟩

def bucketPrefix (key : Key) : Key := if key ≠ seperator then key ++ seperator else key

/-- Of the bucket `/` only the keys directly below it are returned. -/
def getByBucket (m : Db) (key : Key) : Db :=
  let key := readKey key
  .collect ((iterPrefix m (bucketPrefix key)).filter fun e =>
    !(e.1 = key) && !(key = seperator && 1 < e.1.count 47))

/-- What is left in the buffer of a key at the end. The iterator reads the tenth key after it into
the same buffer, if that one fits, and goes on like this. -/
def reused (keys : List Key) (fits : ℕ → Bool) : ℕ → ℕ → Key → Key
  | 0, _, buf => buf
  | fuel + 1, i, buf =>
    match keys[i + 10]? with
    | some k => if fits (i + 10) then reused keys fits fuel (i + 10) (k ++ buf.drop k.length) else buf
    | none => buf

def deletePrefix (pre : Key) : Key := if hasSuffix pre seperator then pre else pre ++ seperator

/-- Deletes the keys of the bucket, but does not copy them: what is deleted at the end of the
transaction is what their buffers hold then. The iterator reads ten keys ahead, also behind the
bucket. -/
def deleteByBucket (m : Db) (pre : Key) (fits : ℕ → Bool) : Db :=
  let bucket := iterPrefix m (deletePrefix pre)
  let keys := ((m.iterFrom (deletePrefix pre)).map Prod.fst).take (bucket.length + 10)
  (bucket.mapIdx fun i e => (reused keys fits keys.length i e.1).take e.1.length).foldl del m

def bigEndian (v : Value) : Option UInt64 :=
  if v.length < 8 then none
  else some (.ofNat ((v.take 8).foldl (fun n b => 256 * n + b.toNat) 0))

def putBigEndian (n : UInt64) : Value :=
  (List.range 8).map fun i => (n.toNat / 256 ^ (7 - i)).toUInt8

/-- A sequence that is released at once, so each number is used. The bandwidth is only checked. -/
def incr (m : Db) (key : Key) (count : UInt64) : Except StoreError UInt64 × Db :=
  if count = 0 then (.error .zeroBandwidth, m)
  else
    match (m.get key).map bigEndian with
    | none => (.ok 1, m.put key (putBigEndian 1))
    | some none => (.error .panic, m)
    | some (some n) => (.ok (n + 1), m.put key (putBigEndian (n + 1)))

/-- Whether `GetByBucket` returns the key `k`. -/
def inBucket (key k : Key) : Bool :=
  hasPrefix k (bucketPrefix key) && !(k = key) && !(key = seperator && 1 < k.count 47)

theorem getByBucket_eq (m : Db) (key : Key) :
    getByBucket m key = m.filter (inBucket (readKey key)) := by
  rw [getByBucket, iterPrefix_eq, SortedMap.filter, filter_filter,
    ← collect_entries (m.filter (inBucket (readKey key)))]
  refine congrArg collect (filter_congr fun e _ => ?_)
  rw [inBucket, Bool.and_comm, Bool.and_assoc]

theorem inBucket_of_ne {key : Key} (hkey : key ≠ seperator) (x : Key) :
    inBucket key x = hasPrefix x (key ++ seperator) := by
  rw [inBucket, bucketPrefix, if_pos hkey]
  by_cases hx : hasPrefix x (key ++ seperator) = true
  · have hne : x ≠ key := by
      rintro rfl
      have hlen := (hasPrefix_iff.mp hx).length_le
      simp [seperator, ofText] at hlen
    simp [hx, hne, hkey]
  · simp [hx]

theorem getByBucket_append {name : Key} (hne : name ≠ []) (hsep : name ≠ seperator) (m : Db) :
    getByBucket m (name ++ seperator) = m.filter fun k => hasPrefix k (name ++ seperator) := by
  have hread : readKey (name ++ seperator) = name := by
    have hkey : name ++ seperator ≠ seperator := fun h => hne (append_left_eq_self.mp h)
    rw [readKey, if_pos hkey, trimSuffix_append]
  rw [getByBucket_eq, hread]
  exact congrArg m.filter (funext (inBucket_of_ne hsep))

theorem reused_eq {keys : List Key} (hlen : keys.length ≤ 10) (fits : ℕ → Bool) (fuel i : ℕ)
    (k : Key) : reused keys fits fuel i k = k := by
  cases fuel with
  | zero => rfl
  | succ fuel => rw [reused, getElem?_eq_none (by omega)]

theorem deleteByBucket_eq {m : Db} {pre : Key} (hlen : (m.iterFrom (deletePrefix pre)).length ≤ 10)
    (fits : ℕ → Bool) :
    deleteByBucket m pre fits = m.filter fun k => !hasPrefix k (deletePrefix pre) := by
  have hkeys : ∀ n, (((m.iterFrom (deletePrefix pre)).map Prod.fst).take n).length ≤ 10 := by
    intro n
    rw [length_take, length_map]
    omega
  have hmap (l : List (Key × Value)) : (l.mapIdx fun _ e => e.1) = l.map Prod.fst := by
    apply ext_getElem?
    simp
  simp only [deleteByBucket, reused_eq (hkeys _), take_length, hmap, foldl_map]
  rw [iterPrefix_eq, foldl_del_filter]

end BadgerStore

end HugoFS.Store
