import Mathlib.Algebra.Order.Group.Multiset
import Mathlib.Algebra.BigOperators.Group.Multiset.Basic
import Mathlib.Algebra.Order.Ring.Nat
import Mathlib.Tactic.Abel
import Mathlib.Tactic.GCongr
import HugoFS.Lib.FiniteMap
import HugoFS.Lib.Runs
import HugoFS.Meta.Types

/-!
# The throttler of the read buffers

The read buffers of all files share a number of tokens, one for each block in memory. A buffer that
wants a block while there is no token has the oldest block evicted, and the token comes back
with the confirmation of a buffer of that inode. `TryAcquire` and `UnRegister` hold the lock
meanwhile; the event loop needs none.
-/

namespace HugoFS.Vfs.Buffer

open Multiset Finmap Function Runs Option
open HugoFS.Meta (Ino)

abbrev BlockKey : Type := Ino × ℕ

/-! ### The blocks in memory -/

structure BlockLRU where
  cap : ℕ
  lru : List BlockKey
  inoKeyMap : Finmap fun _ : Ino => List BlockKey

variable {ino : Ino} {ks : List BlockKey}

namespace BlockLRU

def add (c : BlockLRU) (k : BlockKey) : List BlockKey :=
  let keys := c.lru.erase k ++ [k]
  if c.cap < keys.length then keys.tail else keys

def put (c : BlockLRU) (k : BlockKey) : BlockLRU :=
  { c with
    lru := c.add k
    inoKeyMap := c.inoKeyMap.insert k.1 (((c.inoKeyMap.lookup k.1).getD []) ++ [k]) }

def inoOf (k : Option BlockKey) : Ino := k.elim 0 Prod.fst

def removeOldest (c : BlockLRU) : (Option BlockKey × Bool) × BlockLRU :=
  let k := c.lru.head?
  let c := { c with lru := c.lru.tail }
  match c.inoKeyMap.lookup (inoOf k) with
  | none => ((k, false), c)
  | some l =>
    match k with
    | none => ((k, true), c)
    | some key => ((k, true), { c with inoKeyMap := c.inoKeyMap.insert key.1 (l.erase key) })

def removeByIno (c : BlockLRU) (ino : Ino) : ℕ × BlockLRU :=
  match c.inoKeyMap.lookup ino with
  | none => (0, c)
  | some l =>
    (l.length, { c with
      lru := c.lru.diff l
      inoKeyMap := c.inoKeyMap.erase ino })

def total (m : Finmap fun _ : Ino => List BlockKey) : ℕ := (m.values.map List.length).sum

def held (c : BlockLRU) : ℕ := total c.inoKeyMap

structure Listed (c : BlockLRU) : Prop where
  nodup : c.lru.Nodup
  mem : ∀ k ∈ c.lru, ∃ l, c.inoKeyMap.lookup k.1 = some l ∧ k ∈ l

variable {c : BlockLRU} {k : BlockKey} {l : List BlockKey}

theorem total_of_lookup {m : Finmap fun _ : Ino => List BlockKey}
    (h : m.lookup ino = some l) : total m = l.length + total (m.erase ino) := by
  rw [total, values_of_lookup h, map_cons, sum_cons]
  rfl

theorem total_insert (m : Finmap fun _ : Ino => List BlockKey) (ino : Ino) (l : List BlockKey) :
    total (m.insert ino l) = l.length + total (m.erase ino) := by
  rw [total, ← insert_erase_self, values_insert (lookup_erase _ _),
    map_cons, sum_cons]
  rfl

open List

theorem held_put (c : BlockLRU) (k : BlockKey) : (c.put k).held = c.held + 1 := by
  show total (c.inoKeyMap.insert k.1 _) = total c.inoKeyMap + 1
  rw [total_insert, length_append, length_singleton]
  cases h : c.inoKeyMap.lookup k.1 with
  | none =>
    rw [erase_of_lookup_none h]
    simp only [getD_none, length_nil]
    omega
  | some l =>
    rw [total_of_lookup h]
    simp only [getD_some]
    omega

theorem mem_add {x : BlockKey} (h : x ∈ c.add k) : x = k ∨ x ∈ c.lru := by
  have hmem : x ∈ c.lru.erase k ++ [k] := by
    rw [add] at h
    split at h
    · exact mem_of_mem_tail h
    · exact h
  obtain h | h := mem_append.mp hmem
  · exact .inr (mem_of_mem_erase h)
  · exact .inl (List.mem_singleton.mp h)

theorem add_ne_nil (hcap : 0 < c.cap) (k : BlockKey) : c.add k ≠ [] := by
  rw [add]
  split
  · next hlt =>
    intro hnil
    have hlen := congrArg length hnil
    rw [length_tail, length_nil] at hlen
    omega
  · simp

theorem Listed.put (h : c.Listed) (k : BlockKey) : (c.put k).Listed where
  nodup := by
    have hnodup : (c.lru.erase k ++ [k]).Nodup := by
      rw [nodup_append]
      refine ⟨h.nodup.erase k, List.nodup_singleton k, ?_⟩
      intro x hx y hy heq
      rw [List.mem_singleton.mp hy] at heq
      exact h.nodup.not_mem_erase (heq ▸ hx)
    show (c.add k).Nodup
    rw [add]
    split
    · exact hnodup.tail
    · exact hnodup
  mem := by
    intro x hx
    show ∃ l, (c.inoKeyMap.insert k.1 (((c.inoKeyMap.lookup k.1).getD []) ++ [k])).lookup x.1 =
      some l ∧ x ∈ l
    obtain rfl | hx := mem_add hx
    · exact ⟨_, lookup_insert _, by simp⟩
    obtain ⟨l, hl, hxl⟩ := h.mem x hx
    by_cases hino : x.1 = k.1
    · rw [hino] at hl ⊢
      exact ⟨_, lookup_insert _, by simp [hl, hxl]⟩
    · exact ⟨l, by rw [lookup_insert_of_ne _ hino]; exact hl, hxl⟩

theorem Listed.removeOldest (h : c.Listed) (hlru : c.lru = k :: ks) :
    c.removeOldest.1 = (some k, true) ∧ c.removeOldest.2.lru = ks ∧
      c.held = c.removeOldest.2.held + 1 ∧ c.removeOldest.2.Listed ∧
      ∀ ino l, c.removeOldest.2.inoKeyMap.lookup ino = some l → l ≠ [] →
        ∃ l', c.inoKeyMap.lookup ino = some l' ∧ l' ≠ [] := by
  obtain ⟨l, hl, hkl⟩ := h.mem k (hlru ▸ List.mem_cons_self)
  have hremove : c.removeOldest = ((some k, true),
      { c with lru := ks, inoKeyMap := c.inoKeyMap.insert k.1 (l.erase k) }) := by
    rw [BlockLRU.removeOldest, hlru]
    simp only [List.head?_cons, List.tail_cons, inoOf, elim_some, hl]
  have hnodup := h.nodup
  rw [hlru, List.nodup_cons] at hnodup
  rw [hremove]
  refine ⟨rfl, rfl, ?_, ⟨hnodup.2, ?_⟩, ?_⟩
  · have hlen := List.length_erase_of_mem hkl
    have hpos := List.length_pos_of_mem hkl
    show total c.inoKeyMap = total (c.inoKeyMap.insert k.1 (l.erase k)) + 1
    rw [total_of_lookup hl, total_insert]
    omega
  · intro x hx
    have hne : x ≠ k := fun heq => hnodup.1 (heq ▸ hx)
    obtain ⟨l', hl', hxl⟩ := h.mem x (hlru ▸ List.mem_cons_of_mem k hx)
    show ∃ l'', (c.inoKeyMap.insert k.1 (l.erase k)).lookup x.1 = some l'' ∧ x ∈ l''
    by_cases hino : x.1 = k.1
    · rw [hino] at hl' ⊢
      cases hl.symm.trans hl'
      exact ⟨_, lookup_insert _, (List.mem_erase_of_ne hne).mpr hxl⟩
    · exact ⟨l', by rw [lookup_insert_of_ne _ hino]; exact hl', hxl⟩
  · intro ino l' hl' hne
    by_cases hino : ino = k.1
    · exact ⟨l, hino ▸ hl, List.ne_nil_of_mem hkl⟩
    change (c.inoKeyMap.insert k.1 (l.erase k)).lookup ino = some l' at hl'
    rw [lookup_insert_of_ne _ hino] at hl'
    exact ⟨l', hl', hne⟩

theorem held_removeByIno (c : BlockLRU) (ino : Ino) :
    c.held = (c.removeByIno ino).2.held + (c.removeByIno ino).1 := by
  rw [removeByIno]
  cases h : c.inoKeyMap.lookup ino with
  | none => rfl
  | some l =>
    rw [held, total_of_lookup h, add_comm]
    rfl

theorem Listed.removeByIno (h : c.Listed) (ino : Ino) : (c.removeByIno ino).2.Listed := by
  rw [BlockLRU.removeByIno]
  cases hl : c.inoKeyMap.lookup ino with
  | none => exact h
  | some l =>
    refine ⟨h.nodup.diff, ?_⟩
    intro x hx
    obtain ⟨hx, hxl⟩ := h.nodup.mem_sdiff_iff.mp hx
    obtain ⟨l', hl', hxl'⟩ := h.mem x hx
    show ∃ l'', (c.inoKeyMap.erase ino).lookup x.1 = some l'' ∧ x ∈ l''
    by_cases hino : x.1 = ino
    · rw [hino] at hl'
      cases hl.symm.trans hl'
      exact absurd hxl' hxl
    · exact ⟨l', by rw [lookup_erase_ne hino]; exact hl', hxl'⟩

theorem lru_removeByIno (h : (c.removeByIno ino).1 = 0) :
    (c.removeByIno ino).2.lru = c.lru := by
  rw [BlockLRU.removeByIno] at h ⊢
  cases hl : c.inoKeyMap.lookup ino with
  | none => rfl
  | some l =>
    simp only [hl, length_eq_zero_iff] at h
    subst h
    rfl

theorem lookup_removeByIno {i : Ino} (h : (c.removeByIno ino).2.inoKeyMap.lookup i = some l) :
    i ≠ ino ∧ c.inoKeyMap.lookup i = some l := by
  rw [BlockLRU.removeByIno] at h
  cases hl : c.inoKeyMap.lookup ino with
  | none =>
    simp only [hl] at h
    refine ⟨?_, h⟩
    rintro rfl
    cases hl.symm.trans h
  | some l' =>
    simp only [hl] at h
    exact lookup_erase_eq_some h

end BlockLRU

/-! ### The throttler and its buffers -/

inductive ThrottlerLock (β : Type)
  | free
  /-- `TryAcquire`, which publishes the eviction of `oldest` to the buffers `targets`. -/
  | publishing (key : BlockKey) (oldest : Option BlockKey) (targets : List β)
  /-- `TryAcquire`, which waits for a token. -/
  | waiting (key : BlockKey)
  /-- `UnRegister` of a buffer, with the number of tokens it has still to put back. -/
  | unregistering (b : β) (left : ℕ)
deriving DecidableEq

namespace ThrottlerLock

variable {β : Type}

def left : ThrottlerLock β → ℕ
  | .unregistering _ left => left
  | .free | .publishing _ _ _ | .waiting _ => 0

def wanted : ThrottlerLock β → Option BlockKey
  | .publishing key _ _ | .waiting key => some key
  | .free | .unregistering _ _ => none

def targets : ThrottlerLock β → List β
  | .publishing _ _ targets => targets
  | .free | .waiting _ | .unregistering _ _ => []

def unsent : ThrottlerLock β → Multiset (Option BlockKey)
  | .publishing _ oldest targets => .replicate targets.length oldest
  | .free | .waiting _ | .unregistering _ _ => 0

end ThrottlerLock

structure Throttler (β : Type) where
  limit : ℕ
  tokens : ℕ
  lru : BlockLRU
  lock : ThrottlerLock β
  /-- The channels of `pubsub`, each with the buffer that reads from it. -/
  subs : Ino → List β
  /-- The requests in the channels. -/
  queued : Multiset (β × Option BlockKey)
  /-- The goroutines that have evicted a block and send the confirmation. -/
  confirming : Multiset (β × Option BlockKey)
  /-- The confirmation that the event loop has received. -/
  releasing : Option (Option BlockKey)
  /-- The inode of a buffer that was registered. -/
  ino : β → Option Ino
  /-- The buffers whose `Destroy` has called `UnRegister`. -/
  destroyed : β → Bool
  /-- The buffers whose `closeCh` is closed. -/
  closed : β → Bool
  /-- The goroutines that have ended. -/
  exited : β → Bool
  /-- The evictions that were taken from the lists and are not confirmed. -/
  evicting : Multiset (Option BlockKey)

namespace Throttler

variable {β : Type}

def limitOf (limit : ℤ) : ℕ := if limit ≤ 0 then 256 else limit.toNat

def new (β : Type) (limit : ℤ) : Throttler β where
  limit := limitOf limit
  tokens := limitOf limit
  lru := ⟨limitOf limit, [], ∅⟩
  lock := .free
  subs _ := []
  queued := 0
  confirming := 0
  releasing := none
  ino _ := none
  destroyed _ := false
  closed _ := false
  exited _ := false
  evicting := 0

def tryAcquire (key : BlockKey) (s : Throttler β) : Throttler β :=
  if 0 < s.tokens then { s with tokens := s.tokens - 1, lru := s.lru.put key }
  else
    let r := s.lru.removeOldest
    let s := { s with
      lru := r.2
      evicting := if r.1.1.isSome then r.1.1 ::ₘ s.evicting else s.evicting }
    if r.1.2 then
      { s with lock := .publishing key r.1.1 (s.subs (BlockLRU.inoOf r.1.1)) }
    else s

section Steps

variable [DecidableEq β]

def unRegister (b : β) (ino : Ino) (s : Throttler β) : Throttler β :=
  let r := s.lru.removeByIno ino
  { s with
    subs := Function.update s.subs ino []
    lru := r.2
    lock := .unregistering b r.1
    destroyed := Function.update s.destroyed b true }

inductive Event (β : Type)
  /-- A new buffer calls `Register`. -/
  | register (b : β) (ino : Ino)
  /-- A read calls `TryAcquire`. -/
  | acquire (key : BlockKey)
  /-- `Publish` sends to the next channel. -/
  | publish (key : BlockKey) (oldest : Option BlockKey) (b : β) (bs : List β)
  | published (key : BlockKey) (oldest : Option BlockKey)
  /-- `TryAcquire` gets its token. -/
  | take (key : BlockKey)
  /-- The goroutine of a buffer receives a request and evicts the block. -/
  | receive (b : β) (k : Option BlockKey)
  /-- `Send` of the confirmation. -/
  | confirm (b : β) (k : Option BlockKey)
  /-- The event loop puts back a token. -/
  | release (k : Option BlockKey)
  /-- `Destroy` of a buffer calls `UnRegister`. -/
  | unRegister (b : β) (ino : Ino)
  | putBack (b : β) (left : ℕ)
  | unlock (b : β)
  /-- The end of `Destroy`. -/
  | close (b : β)
  /-- The goroutine of a buffer ends. -/
  | exit (b : β)

namespace Event

def next : Event β → Throttler β → Throttler β
  | .register b ino, s =>
    { s with
      subs := Function.update s.subs ino (s.subs ino ++ [b])
      ino := Function.update s.ino b (some ino) }
  | .acquire key, s => s.tryAcquire key
  | .publish key oldest b bs, s =>
    { s with lock := .publishing key oldest bs, queued := (b, oldest) ::ₘ s.queued }
  | .published key _, s => { s with lock := .waiting key }
  | .take key, s =>
    { s with tokens := s.tokens - 1, lru := s.lru.put key, lock := .free }
  | .receive b k, s =>
    { s with queued := s.queued.erase (b, k), confirming := (b, k) ::ₘ s.confirming }
  | .confirm b k, s =>
    { s with confirming := s.confirming.erase (b, k), releasing := some k }
  | .release k, s =>
    { s with tokens := s.tokens + 1, releasing := none, evicting := s.evicting.erase k }
  | .unRegister b ino, s => s.unRegister b ino
  | .putBack b left, s => { s with tokens := s.tokens + 1, lock := .unregistering b left }
  | .unlock _, s => { s with lock := .free }
  | .close b, s => { s with closed := Function.update s.closed b true }
  | .exit b, s =>
    { s with
      exited := Function.update s.exited b true
      queued := s.queued.filter fun q => q.1 ≠ b }

def Enabled : Event β → Throttler β → Prop
  | .register b _, s => s.lock = .free ∧ s.ino b = none
  | .acquire _, s => s.lock = .free
  | .publish key oldest b bs, s =>
    s.lock = .publishing key oldest (b :: bs) ∧ b ∉ s.queued.map Prod.fst
  | .published key oldest, s => s.lock = .publishing key oldest []
  | .take key, s => s.lock = .waiting key ∧ 0 < s.tokens
  | .receive b k, s =>
    (b, k) ∈ s.queued ∧ s.exited b = false ∧ b ∉ s.confirming.map Prod.fst
  | .confirm b k, s => (b, k) ∈ s.confirming ∧ s.releasing = none
  | .release k, s => s.releasing = some k ∧ s.tokens < s.limit
  | .unRegister b ino, s => s.lock = .free ∧ s.ino b = some ino ∧ s.destroyed b = false
  | .putBack b left, s => s.lock = .unregistering b (left + 1) ∧ s.tokens < s.limit
  | .unlock b, s => s.lock = .unregistering b 0
  | .close b, s => s.destroyed b = true ∧ s.lock ≠ .unregistering b s.lock.left
  | .exit b, s =>
    b ∉ s.confirming.map Prod.fst ∧
      (s.closed b = true ∨
        (∃ ino ∈ s.ino b, b ∉ s.subs ino) ∧ b ∉ s.queued.map Prod.fst)

instance (e : Event β) (s : Throttler β) : Decidable (e.Enabled s) := by
  cases e <;> dsimp only [Enabled] <;> infer_instance

end Event

end Steps

/-! ### Tokens -/

def inFlight (s : Throttler β) : Multiset (Option BlockKey) :=
  s.lock.unsent + s.queued.map Prod.snd + s.confirming.map Prod.snd + s.releasing.elim 0 ({·})

def Event.Alone : Event β → Throttler β → Prop
  | .register _ ino, s => s.subs ino = []
  | _, _ => True

instance Event.instDecidableAlone (e : Event β) (s : Throttler β) : Decidable (e.Alone s) := by
  cases e <;> dsimp only [Alone] <;> infer_instance

/-- Every token is in the channel, with a block, with an eviction, or about to be put back
by `UnRegister`, and no more confirmations are on their way than there are evictions. -/
structure Balanced (s : Throttler β) : Prop where
  pos : 0 < s.limit
  cap : s.lru.cap = s.limit
  listed : s.lru.Listed
  alone : ∀ ino, (s.subs ino).length ≤ 1
  oldest : s.lock.wanted = none → s.tokens + s.lock.left = 0 → s.lru.lru ≠ []
  owed : s.inFlight ≤ s.evicting
  sum : s.tokens + s.lru.held + s.evicting.card + s.lock.left = s.limit

open ThrottlerLock

theorem Balanced.new (limit : ℤ) : (new β limit).Balanced where
  pos := by
    show 0 < limitOf limit
    rw [limitOf]
    split <;> omega
  cap := rfl
  listed := ⟨List.nodup_nil, by simp [Throttler.new]⟩
  alone := by simp [Throttler.new]
  oldest := by
    intro _ hzero
    have hpos : limitOf limit ≠ 0 := by
      rw [limitOf]
      split <;> omega
    exact absurd hzero hpos
  owed := by simp [Throttler.new, inFlight, unsent]
  sum := by simp [Throttler.new, BlockLRU.held, BlockLRU.total, left]

variable {s : Throttler β} {k : Option BlockKey} {b : β}

theorem tryAcquire_evict (htokens : s.tokens = 0) (hlisted : s.lru.Listed) {k : BlockKey}
    (hlru : s.lru.lru = k :: ks) (key : BlockKey) : s.tryAcquire key =
      { s with
        lru := s.lru.removeOldest.2
        evicting := some k ::ₘ s.evicting
        lock := .publishing key (some k) (s.subs k.1) } := by
  obtain ⟨hkey, -⟩ := hlisted.removeOldest hlru
  rw [tryAcquire, if_neg (by omega)]
  simp only [hkey, isSome_some, if_true]
  rfl

namespace Balanced

theorem exists_oldest (h : s.Balanced) (hlock : s.lock = .free) (htokens : s.tokens = 0) :
    ∃ k ks, s.lru.lru = k :: ks :=
  List.exists_cons_of_ne_nil (h.oldest (by rw [hlock]; rfl) (by rw [hlock, htokens]; rfl))

theorem acquire (h : s.Balanced) (hlock : s.lock = .free) (key : BlockKey) :
    (s.tryAcquire key).Balanced := by
  by_cases htokens : s.tokens = 0
  · obtain ⟨k, ks, hlru⟩ := h.exists_oldest hlock htokens
    obtain ⟨-, -, hheld, hlisted, -⟩ := h.listed.removeOldest hlru
    have hcap : s.lru.removeOldest.2.cap = s.lru.cap := by
      rw [BlockLRU.removeOldest]
      split
      · rfl
      · split <;> rfl
    rw [tryAcquire_evict htokens h.listed hlru]
    exact
      { pos := h.pos
        cap := hcap.trans h.cap
        listed := hlisted
        alone := h.alone
        oldest := by simp [wanted]
        owed := by
          -- one request at most for the one eviction
          have hone : replicate (s.subs k.1).length (some k) ≤ {some k} := by
            rw [← replicate_one]
            exact replicate_le_replicate _ |>.mpr (h.alone k.1)
          have howed := h.owed
          rw [inFlight, hlock] at howed
          simp only [unsent, zero_add] at howed
          rw [inFlight, ← singleton_add, add_assoc, add_assoc]
          exact add_le_add hone (by rw [← add_assoc]; exact howed)
        sum := by
          have hsum := h.sum
          rw [hlock] at hsum
          simp only [left, card_cons] at hsum ⊢
          omega }
  · rw [tryAcquire, if_pos (Nat.pos_of_ne_zero htokens)]
    exact
      { h with
        listed := h.listed.put key
        oldest := fun _ _ => BlockLRU.add_ne_nil (h.cap ▸ h.pos) key
        sum := by
          have hsum := h.sum
          show s.tokens - 1 + (s.lru.put key).held + s.evicting.card + s.lock.left = s.limit
          rw [BlockLRU.held_put]
          omega }

theorem withFlight (h : s.Balanced) {t : Throttler β} (hlimit : t.limit = s.limit)
    (htokens : t.tokens = s.tokens) (hlru : t.lru = s.lru) (hsubs : t.subs = s.subs)
    (hevicting : t.evicting = s.evicting) (hwanted : t.lock.wanted = s.lock.wanted)
    (hleft : t.lock.left = s.lock.left) (hflight : t.inFlight ≤ s.inFlight) : t.Balanced where
  pos := by rw [hlimit]; exact h.pos
  cap := by rw [hlimit, hlru]; exact h.cap
  listed := by rw [hlru]; exact h.listed
  alone := by rw [hsubs]; exact h.alone
  oldest := by rw [hwanted, htokens, hleft, hlru]; exact h.oldest
  owed := by rw [hevicting]; exact hflight.trans h.owed
  sum := by rw [htokens, hlru, hevicting, hleft, hlimit]; exact h.sum

end Balanced

/-! ### Requests and confirmations on their way -/

section Flight

variable [DecidableEq β]

open Event

theorem inFlight_publish {key : BlockKey} {oldest : Option BlockKey} {bs : List β}
    (hlock : s.lock = .publishing key oldest (b :: bs)) :
    ((publish key oldest b bs).next s).inFlight = s.inFlight := by
  rw [inFlight, inFlight, hlock]
  simp only [next, unsent, List.length_cons, replicate_succ,
    map_cons]
  simp only [← singleton_add]
  abel

theorem inFlight_receive (hq : (b, k) ∈ s.queued) :
    ((receive b k).next s).inFlight = s.inFlight := by
  obtain ⟨q, hq⟩ := exists_cons_of_mem hq
  rw [inFlight, inFlight]
  simp only [next, hq, erase_cons_head, map_cons]
  simp only [← singleton_add]
  abel

theorem inFlight_confirm (hc : (b, k) ∈ s.confirming)
    (hr : s.releasing = none) : ((confirm b k).next s).inFlight = s.inFlight := by
  obtain ⟨c, hc⟩ := exists_cons_of_mem hc
  rw [inFlight, inFlight]
  simp only [next, hc, hr, erase_cons_head, map_cons, Option.elim]
  simp only [← singleton_add]
  abel

theorem inFlight_release (hr : s.releasing = some k) :
    s.inFlight = k ::ₘ ((release k).next s).inFlight := by
  rw [inFlight, inFlight, hr]
  simp only [next, Option.elim, ← singleton_add]
  abel

theorem inFlight_exit_le (b : β) : ((exit b).next s).inFlight ≤ s.inFlight := by
  rw [inFlight, inFlight]
  simp only [next]
  gcongr
  exact filter_le _ _

end Flight

namespace Balanced

variable [DecidableEq β]

section

variable (h : s.Balanced)
include h

theorem register (hsubs : s.subs ino = []) (b : β) :
    ((Event.register b ino).next s).Balanced where
  __ := h
  alone := by
    rw [Event.next, forall_update_iff s.subs fun _ l => l.length ≤ 1]
    exact ⟨by simp [hsubs], fun i _ => h.alone i⟩

theorem take {key : BlockKey} (hlock : s.lock = .waiting key)
    (hpos : 0 < s.tokens) : ((Event.take key).next s).Balanced where
  __ := h
  listed := h.listed.put key
  oldest := fun _ _ => BlockLRU.add_ne_nil (h.cap ▸ h.pos) key
  owed := by
    have howed := h.owed
    rw [inFlight, hlock] at howed
    exact howed
  sum := by
    have hsum := h.sum
    rw [hlock] at hsum
    show s.tokens - 1 + (s.lru.put key).held + s.evicting.card + 0 = s.limit
    rw [BlockLRU.held_put]
    simp only [left] at hsum
    omega

theorem release (hr : s.releasing = some k) :
    ((Event.release k).next s).Balanced := by
  have hflight := inFlight_release hr
  have howed := h.owed
  rw [hflight] at howed
  have hmem : k ∈ s.evicting := mem_of_le howed (mem_cons_self k _)
  exact
    { h with
      oldest := by
        intro _ hzero
        change s.tokens + 1 + _ = 0 at hzero
        omega
      owed := by
        rw [← erase_cons_head k ((Event.release k).next s).inFlight]
        exact erase_le_erase k howed
      sum := by
        have hsum := h.sum
        have hcard := card_erase_add_one hmem
        show s.tokens + 1 + s.lru.held + (s.evicting.erase k).card + s.lock.left = s.limit
        omega }

theorem unRegister (hlock : s.lock = .free) (b : β) (ino : Ino) :
    (s.unRegister b ino).Balanced where
  pos := h.pos
  cap := by
    show (s.lru.removeByIno ino).2.cap = s.limit
    rw [← h.cap, BlockLRU.removeByIno]
    split <;> rfl
  listed := h.listed.removeByIno ino
  alone := by
    rw [Throttler.unRegister, forall_update_iff s.subs fun _ l => l.length ≤ 1]
    exact ⟨by simp, fun i _ => h.alone i⟩
  oldest := by
    intro _ hzero
    change s.tokens + (s.lru.removeByIno ino).1 = 0 at hzero
    show (s.lru.removeByIno ino).2.lru ≠ []
    rw [BlockLRU.lru_removeByIno (by omega)]
    exact h.oldest (by rw [hlock]; rfl) (by rw [hlock]; exact Nat.eq_zero_of_add_eq_zero_right hzero)
  owed := by
    have howed := h.owed
    rw [inFlight, hlock] at howed
    exact howed
  sum := by
    have hsum := h.sum
    have hheld := BlockLRU.held_removeByIno s.lru ino
    rw [hlock] at hsum
    simp only [left] at hsum
    show s.tokens + (s.lru.removeByIno ino).2.held + s.evicting.card + (s.lru.removeByIno ino).1 =
      s.limit
    omega

theorem putBack {left : ℕ} (hlock : s.lock = .unregistering b (left + 1)) :
    ((Event.putBack b left).next s).Balanced where
  __ := h
  oldest := by
    intro _ hzero
    change s.tokens + 1 + left = 0 at hzero
    omega
  owed := by
    have howed := h.owed
    rw [inFlight, hlock] at howed
    exact howed
  sum := by
    have hsum := h.sum
    rw [hlock] at hsum
    simp only [ThrottlerLock.left] at hsum
    show s.tokens + 1 + s.lru.held + s.evicting.card + left = s.limit
    omega

theorem next {e : Event β} (he : e.Enabled s) (ha : e.Alone s) :
    (e.next s).Balanced := by
  cases e with
  | register b ino => exact h.register ha b
  | acquire key => exact h.acquire he key
  | publish key oldest b bs =>
    exact h.withFlight rfl rfl rfl rfl rfl (by rw [he.1]; rfl) (by rw [he.1]; rfl)
      (inFlight_publish he.1).le
  | published key oldest =>
    have hlock : s.lock = .publishing key oldest [] := he
    refine h.withFlight rfl rfl rfl rfl rfl (by rw [hlock]; rfl) (by rw [hlock]; rfl) ?_
    rw [inFlight, inFlight, hlock]
    exact le_rfl
  | take key => exact h.take he.1 he.2
  | receive b k => exact h.withFlight rfl rfl rfl rfl rfl rfl rfl (inFlight_receive he.1).le
  | confirm b k => exact h.withFlight rfl rfl rfl rfl rfl rfl rfl (inFlight_confirm he.1 he.2).le
  | release k => exact h.release he.1
  | unRegister b ino => exact h.unRegister he.1 b ino
  | putBack b left => exact h.putBack he.1
  | unlock b =>
    have hlock : s.lock = .unregistering b 0 := he
    refine h.withFlight rfl rfl rfl rfl rfl (by rw [hlock]; rfl) (by rw [hlock]; rfl) ?_
    rw [inFlight, inFlight, hlock]
    exact le_rfl
  | close b => exact { h with }
  | exit b => exact h.withFlight rfl rfl rfl rfl rfl rfl rfl (inFlight_exit_le b)

end

end Balanced

section Conserved

variable [DecidableEq β]

theorem limit_next (e : Event β) (s : Throttler β) : (e.next s).limit = s.limit := by
  cases e with
  | acquire key =>
    simp only [Event.next, tryAcquire]
    split
    · rfl
    · split <;> rfl
  | register | publish | published | take | receive | confirm | release | unRegister | putBack
  | unlock | close | exit => rfl

/-- In every run in which no inode has two buffers: the tokens in the channel, the keys in
the lists, the evictions without a confirmation and the tokens that a running `UnRegister`
has still to put back make up the limit. -/
theorem tokens_conserved {limit : ℤ} {s : Throttler β}
    (hs : Reach Event.next (fun s e => e.Enabled s ∧ e.Alone s) (new β limit) s) :
    s.tokens + s.lru.held + s.evicting.card + s.lock.left = limitOf limit := by
  have h : s.Balanced ∧ s.limit = limitOf limit :=
    Reach.invariant (I := fun s : Throttler β => s.Balanced ∧ s.limit = limitOf limit)
      (fun s e hI hok => ⟨hI.1.next hok.1 hok.2, (limit_next e s).trans hI.2⟩) hs ⟨.new limit, rfl⟩
  rw [h.1.sum, h.2]

def evictSteps (b : Bool) : List (Event Bool) :=
  [.receive b (some (1, 0)), .confirm b (some (1, 0)), .release (some (1, 0))]

def aloneSteps : List (Event Bool) :=
  [.register false 1, .register true 2, .acquire (1, 0), .acquire (2, 0),
    .publish (2, 0) (some (1, 0)) false [], .published (2, 0) (some (1, 0))] ++
    evictSteps false ++ [.take (2, 0)]

theorem tokens_conserved_sample :
    let s := exec Event.next aloneSteps (new Bool 1)
    s.tokens + s.lru.held + s.evicting.card + s.lock.left = 1 := by
  have hs : Reach Event.next (fun s e => e.Enabled s ∧ e.Alone s) (new Bool 1)
      (exec Event.next aloneSteps (new Bool 1)) := reach_exec (by decide +kernel)
  exact tokens_conserved hs

def sharedSteps : List (Event Bool) :=
  [.register false 1, .register true 1, .acquire (1, 0), .acquire (1, 1),
    .publish (1, 1) (some (1, 0)) false [true], .publish (1, 1) (some (1, 0)) true [],
    .published (1, 1) (some (1, 0))] ++
    evictSteps false ++ [.take (1, 1)] ++ evictSteps true

theorem token_created :
    Reach Event.next (fun s e => e.Enabled s) (new Bool 1)
        (exec Event.next sharedSteps (new Bool 1)) ∧
      (exec Event.next sharedSteps (new Bool 1)).lock = .free ∧
      (exec Event.next sharedSteps (new Bool 1)).tokens +
        (exec Event.next sharedSteps (new Bool 1)).lru.held +
        (exec Event.next sharedSteps (new Bool 1)).evicting.card = 2 :=
  ⟨reach_exec (by decide +kernel), by decide +kernel, by decide +kernel⟩

end Conserved

end Throttler

end HugoFS.Vfs.Buffer
