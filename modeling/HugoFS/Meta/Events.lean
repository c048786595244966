import HugoFS.Store.Keys
import HugoFS.Store.Tikv
import HugoFS.Store.Txn
import Mathlib.Logic.Equiv.List

/-!
# The events of the meta service

Every modification is saved as an event under the decimal text of its id. A client scans from
the text of the last id it has seen, without an end, which the Badger store takes for no bound
and the TiKV store for the smallest key.
-/

namespace HugoFS.Meta

open HugoFS.Store ByteString List Record BadgerStore SortedMap Function

inductive EventType
  | invalid
  | newFileInode
  | newDirInode
  | removeFileInode
  | removeDirInode
  | removeDirChildren
  | updateAttr
deriving DecidableEq

structure Event where
  id : Int64
  type : EventType
  parentIno : UInt64
  curIno : UInt64
  name : String
deriving DecidableEq

structure EventCodec where
  serialize : Event → Value
  deserialize : Value → Except StoreError Event
  deserialize_serialize : ∀ e, deserialize (serialize e) = .ok e

def Event.formatKey (e : Event) : Store.Key := (Record.event e.id).formatKey

def Event.formatPrefix (e : Event) : Store.Key := (Record.event e.id).formatPrefix

section Service

variable (codec : EventCodec)

def saveEvent (b : Backend) (m : Db) (event : Event) : Db :=
  match b with
  | .badger => BadgerStore.save m event.formatKey (codec.serialize event)
  | .tikv => TikvStore.save m event.formatKey (codec.serialize event)

def scanStore (b : Backend) (m : Db) (pre start stop : Store.Key) : List (Store.Key × Value) :=
  match b with
  | .badger => BadgerStore.scan m pre start stop
  | .tikv => TikvStore.scan m pre start stop

def pullLatest (b : Backend) (m : Db) (currentEventId : Int64) : Except StoreError (List Event) :=
  let qe : Event := ⟨currentEventId, .invalid, 0, 0, ""⟩
  let entries := scanStore b m qe.formatPrefix qe.formatKey []
  -- a single pair is taken for the event that the client has
  if entries.length = 1 then .ok []
  else entries.mapM fun e => codec.deserialize e.2

def saveEvents (b : Backend) (m : Db) (events : List Event) : Db :=
  events.foldl (saveEvent codec b) m

structure EventClient where
  received : List Event
  currentEventId : Int64

def EventClient.pull (b : Backend) (m : Db) (cl : EventClient) : EventClient :=
  match pullLatest codec b m cl.currentEventId with
  | .error _ => cl
  | .ok events =>
    ⟨cl.received ++ events, (events.getLast?.map Event.id).getD cl.currentEventId⟩

def EventClient.after (b : Backend) (m : Db) : ℕ → EventClient
  | 0 => ⟨[], 0⟩
  | n + 1 => (EventClient.after b m n).pull codec b m

end Service

/-! ### What should be pulled -/

def NoEvents (m : Db) : Prop := ∀ k, ofText "evt/" <+: k → m.get k = none

structure Numbered (events : List Event) : Prop where
  distinct : (events.map Event.id).Nodup
  positive : ∀ e ∈ events, 0 < e.id

def Latest (events : List Event) (c : Int64) (l : List Event) : Prop :=
  (l.Pairwise fun e e' => e.id < e'.id) ∧ ∀ e, e ∈ l ↔ e ∈ events ∧ c < e.id

def fromText (events : List Event) (c : Int64) : List Event :=
  events.filter fun e => fmtInt c ≤ fmtInt e.id

def NoneAfter (events : List Event) (c : Int64) : Prop := ∀ e ∈ events, e.id ≤ c

structure TextOrdered (events : List Event) (c : Int64) : Prop where
  after_iff : ∀ e ∈ events, c < e.id ↔ fmtInt c ≤ fmtInt e.id
  ordered : ∀ e ∈ events, ∀ e' ∈ events, c < e.id → e.id < e'.id → fmtInt e.id < fmtInt e'.id

def Pullable (events : List Event) (c : Int64) : Backend → Prop
  | .badger => if (fromText events c).length = 1 then NoneAfter events c else TextOrdered events c
  | .tikv => NoneAfter events c

def Receivable (events : List Event) : Backend → Prop
  | .badger => events.length ≠ 1
  | .tikv => events = []

/-! ### The scan -/

theorem Event.id_eq_of_formatKey {e e' : Event} (h : e.formatKey = e'.formatKey) : e.id = e'.id :=
  fmtInt_injective (append_cancel_left h)

section Scan

variable {codec : EventCodec} {b : Backend} {m : Db} {events : List Event} {c : Int64}

theorem saveEvent_eq (e : Event) :
    saveEvent codec b m e = m.put e.formatKey (codec.serialize e) := by
  cases b <;> rfl

theorem get_saveEvents (hd : (events.map Event.id).Nodup)
    (hm : ∀ e ∈ events, m.get e.formatKey = none) (k : Store.Key) (v : Value) :
    (saveEvents codec b m events).get k = some v ↔
      m.get k = some v ∨ ∃ e ∈ events, e.formatKey = k ∧ codec.serialize e = v := by
  induction events generalizing m with
  | nil => simp [saveEvents]
  | cons e events ih =>
    obtain ⟨hnot, hd⟩ := nodup_cons.mp hd
    -- the key of `e` is not the one of a later event
    have hne : ∀ e' ∈ events, e'.formatKey ≠ e.formatKey := by
      intro e' he' heq
      exact hnot (mem_map.mpr ⟨e', he', Event.id_eq_of_formatKey heq⟩)
    have hm' : ∀ e' ∈ events, (saveEvent codec b m e).get e'.formatKey = none := by
      intro e' he'
      rw [saveEvent_eq, get_put, if_neg (hne e' he')]
      exact hm e' (mem_cons_of_mem e he')
    rw [saveEvents, foldl_cons]
    refine (ih hd hm').trans ?_
    rw [saveEvent_eq, get_put]
    by_cases hk : k = e.formatKey
    · subst hk
      rw [if_pos rfl, hm e mem_cons_self]
      simp
    · rw [if_neg hk]
      simp [Ne.symm hk]

def Event.entry (codec : EventCodec) (e : Event) : Store.Key × Value :=
  (e.formatKey, codec.serialize e)

theorem mem_badger_scan (codec : EventCodec) (b : Backend) (c : Int64) (hm : NoEvents m)
    (hd : (events.map Event.id).Nodup) (x : Store.Key × Value) :
    x ∈ scan (saveEvents codec b m events) (event c).formatPrefix
        (event c).formatKey [] ↔
      ∃ e ∈ fromText events c, e.entry codec = x := by
  obtain ⟨k, v⟩ := x
  have hstart : (event c).formatPrefix <+: (event c).formatKey :=
    prefix_append _ _
  have hnone : ∀ e ∈ events, m.get e.formatKey = none :=
    fun e _ => hm _ (prefix_append _ _)
  rw [scan_eq_filter hstart, mem_filter, iterFrom, mem_filter,
    ← get_eq_some_iff, get_saveEvents hd hnone]
  simp only [ne_eq, not_true_eq_false, decide_false, Bool.false_and, Bool.not_false, Bool.and_true,
    hasPrefix_iff, decide_eq_true_eq]
  constructor
  · rintro ⟨⟨hget | ⟨e, he, rfl, rfl⟩, hle⟩, hpre⟩
    · cases (hm k hpre).symm.trans hget
    · refine ⟨e, mem_filter.mpr ⟨he, decide_eq_true ?_⟩, rfl⟩
      exact append_le_append_iff.mp hle
  · rintro ⟨e, he, heq⟩
    cases heq
    obtain ⟨hmem, hle⟩ := mem_filter.mp he
    refine ⟨⟨.inr ⟨e, hmem, rfl, rfl⟩, ?_⟩, prefix_append _ _⟩
    exact append_le_append_iff.mpr (of_decide_eq_true hle)

theorem badger_scan_events (codec : EventCodec) (b : Backend) (c : Int64) (hm : NoEvents m)
    (hd : (events.map Event.id).Nodup) :
    ∃ l : List Event,
      scan (saveEvents codec b m events) (event c).formatPrefix
        (event c).formatKey [] = l.map (Event.entry codec) ∧
      (l.Pairwise fun e e' => fmtInt e.id < fmtInt e'.id) ∧ ∀ e, e ∈ l ↔ e ∈ fromText events c := by
  have hmem := mem_badger_scan codec b c hm hd
  set scanned := scan (saveEvents codec b m events) (event c).formatPrefix
    (event c).formatKey [] with hscan
  have hrange : scanned ∈ Set.range (List.map (Event.entry codec)) := by
    rw [Set.range_list_map]
    intro x hx
    obtain ⟨e, -, he⟩ := (hmem x).mp hx
    exact ⟨e, he⟩
  obtain ⟨l, hl⟩ := hrange
  refine ⟨l, hl.symm, ?_, fun e => ?_⟩
  · -- the scan is part of the sorted entries
    have hsorted : scanned.Pairwise fun x y => x.1 < y.1 :=
      ((saveEvents codec b m events).sorted.filter _).sublist (takeWhile_sublist _)
    rw [← hl, pairwise_map] at hsorted
    exact hsorted.imp append_lt_append_iff.mp
  · have hinj : Injective (Event.entry codec) := by
      intro e e' h
      have hdec := codec.deserialize_serialize e
      rw [(Prod.mk.inj h).2, codec.deserialize_serialize] at hdec
      exact (Except.ok.inj hdec).symm
    rw [← mem_map_of_injective hinj, hl, hmem]
    constructor
    · rintro ⟨e', he', heq⟩
      rwa [← hinj heq]
    · intro he
      exact ⟨e, he, rfl⟩

theorem tikv_scan_eq_nil (m : Db) {pre : Store.Key} (hpre : pre ≠ []) (start : Store.Key) :
    TikvStore.scan m pre start [] = [] := by
  rw [TikvStore.scan, filter_eq_nil_iff]
  intro x _ htest
  rw [Bool.and_eq_true, hasPrefix_iff, decide_eq_true_eq] at htest
  have hnil : x.1 = [] := le_antisymm htest.2 (le_of_isPrefix nil_prefix)
  rw [hnil, prefix_nil] at htest
  exact hpre htest.1

theorem pullLatest_tikv (codec : EventCodec) (m : Db) (c : Int64) :
    pullLatest codec .tikv m c = .ok [] := by
  have hscan : scanStore .tikv m (event c).formatPrefix (event c).formatKey [] = [] :=
    tikv_scan_eq_nil m (by simp [formatPrefix, ofText]) _
  simp only [pullLatest, Event.formatPrefix, Event.formatKey, hscan]
  rfl

theorem mapM_deserialize (codec : EventCodec) (l : List Event) :
    (l.map (Event.entry codec)).mapM (fun x => codec.deserialize x.2) = .ok l := by
  induction l with
  | nil => rfl
  | cons e l ih =>
    rw [map_cons, mapM_cons, ih]
    simp only [Event.entry, codec.deserialize_serialize]
    rfl

theorem pullLatest_badger (codec : EventCodec) (c : Int64) (hm : NoEvents m)
    (hd : (events.map Event.id).Nodup) :
    ∃ l : List Event, l.Perm (fromText events c) ∧
      (l.Pairwise fun e e' => fmtInt e.id < fmtInt e'.id) ∧
      pullLatest codec .badger (saveEvents codec .badger m events) c =
        .ok (if (fromText events c).length = 1 then [] else l) := by
  obtain ⟨l, hscan, hsorted, hmem⟩ := badger_scan_events codec .badger c hm hd
  have hperm : l.Perm (fromText events c) := by
    have hirrefl : Std.Irrefl fun e e' : Event => fmtInt e.id < fmtInt e'.id :=
      ⟨fun _ => lt_irrefl _⟩
    exact (perm_ext_iff_of_nodup hsorted.nodup (hd.of_map.filter _)).mpr hmem
  refine ⟨l, hperm, hsorted, ?_⟩
  have hscan' : scanStore .badger (saveEvents codec .badger m events)
      (event c).formatPrefix (event c).formatKey [] = l.map (Event.entry codec) := hscan
  simp only [pullLatest, Event.formatPrefix, Event.formatKey, hscan', length_map,
    hperm.length_eq, mapM_deserialize]
  split_ifs <;> rfl

end Scan

/-! ### Pulling all events -/

section Pull

variable {events l : List Event} {c : Int64}

theorem latest_nil_iff : Latest events c [] ↔ NoneAfter events c := by
  simp [Latest, NoneAfter]

theorem latest_iff_textOrdered (hperm : l.Perm (fromText events c))
    (hsorted : l.Pairwise fun e e' => fmtInt e.id < fmtInt e'.id) :
    Latest events c l ↔ TextOrdered events c := by
  have hmem : ∀ e, e ∈ l ↔ e ∈ events ∧ fmtInt c ≤ fmtInt e.id := by
    intro e
    rw [hperm.mem_iff, fromText, mem_filter, decide_eq_true_eq]
  constructor
  · rintro ⟨hids, hlatest⟩
    have hafter : ∀ e ∈ events, c < e.id ↔ fmtInt c ≤ fmtInt e.id := by
      intro e he
      have hiff := (hlatest e).symm.trans (hmem e)
      simpa [he] using hiff
    refine ⟨hafter, fun e he e' he' hc hlt => ?_⟩
    -- two members of the list are in one order by id and by text
    have hboth : l.Pairwise fun e e' => (e.id < e'.id ∧ fmtInt e.id < fmtInt e'.id) ∨
        (e'.id < e.id ∧ fmtInt e'.id < fmtInt e.id) :=
      (hids.and hsorted).imp .inl
    have hsymm : Std.Symm fun e e' : Event => (e.id < e'.id ∧ fmtInt e.id < fmtInt e'.id) ∨
        (e'.id < e.id ∧ fmtInt e'.id < fmtInt e.id) := ⟨fun _ _ => Or.symm⟩
    have hne : e ≠ e' := by
      rintro rfl
      exact Int64.lt_irrefl hlt
    have hpair := hboth.forall ((hlatest e).mpr ⟨he, hc⟩)
      ((hlatest e').mpr ⟨he', Int64.lt_trans hc hlt⟩) hne
    exact (hpair.resolve_right fun h => Int64.lt_asymm h.1 hlt).2
  · intro h
    have hlatest : ∀ e, e ∈ l ↔ e ∈ events ∧ c < e.id := by
      intro e
      rw [hmem]
      exact and_congr_right fun he => (h.after_iff e he).symm
    refine ⟨hsorted.imp_of_mem fun {e e'} he he' hlt => ?_, hlatest⟩
    by_contra hnot
    by_cases heq : e'.id = e.id
    · rw [heq] at hlt
      exact lt_irrefl _ hlt
    have hgt : e'.id < e.id := Int64.lt_of_le_of_ne (Int64.not_lt.mp hnot) heq
    have hgt' := h.ordered e' ((hlatest e').mp he').1 e ((hlatest e).mp he).1
      ((hlatest e').mp he').2 hgt
    exact lt_asymm hlt hgt'

theorem fromText_zero (hpos : ∀ e ∈ events, 0 < e.id) : fromText events 0 = events := by
  rw [fromText, filter_eq_self]
  intro e he
  have hlt : (0 : ℤ) < e.id.toInt := Int64.lt_iff_toInt_lt.mp (hpos e he)
  obtain ⟨n, hn⟩ := Int.eq_ofNat_of_zero_le hlt.le
  rw [decide_eq_true_eq]
  show signed 0 ≤ signed e.id.toInt
  rw [hn]
  exact zero_le_decimal n

end Pull

section Client

variable {codec : EventCodec} {b : Backend} {m : Db} {events : List Event}

open EventClient

theorem EventClient.after_eq_start (h : pullLatest codec b m 0 = .ok []) (n : ℕ) :
    after codec b m n = ⟨[], 0⟩ := by
  induction n with
  | zero => rfl
  | succ n ih =>
    rw [after, ih]
    simp [pull, h]

end Client

/-- Whatever was saved in a store of either kind: a pull gives all events after an id, in order,
exactly when the texts of the ids are in the order of the ids, and the client that starts at 0
receives all events exactly when there is not one alone (Badger) or none at all (TiKV). -/
theorem pullLatest_iff (codec : EventCodec) (b : Backend) (m : Db) (events : List Event)
    (hm : NoEvents m) (hn : Numbered events) :
    (∀ c, (∃ l, pullLatest codec b (saveEvents codec b m events) c = .ok l ∧ Latest events c l) ↔
      Pullable events c b) ∧
    ((∃ n, ∀ e ∈ events, e ∈ (EventClient.after codec b (saveEvents codec b m events) n).received) ↔
      Receivable events b) := by
  cases b with
  | tikv =>
    have hpull := pullLatest_tikv codec (saveEvents codec .tikv m events)
    refine ⟨fun c => ?_, ?_⟩
    · simp [hpull, latest_nil_iff, Pullable]
    · simp [EventClient.after_eq_start (hpull 0), Receivable, eq_nil_iff_forall_not_mem]
  | badger =>
    refine ⟨fun c => ?_, ?_⟩
    · obtain ⟨l, hperm, hsorted, hpull⟩ := pullLatest_badger codec c hm hn.distinct
      rw [hpull, Pullable]
      split_ifs with hone
      · simp [latest_nil_iff]
      · simp [latest_iff_textOrdered hperm hsorted]
    · obtain ⟨l, hperm, -, hpull⟩ := pullLatest_badger codec 0 hm hn.distinct
      rw [fromText_zero hn.positive] at hperm hpull
      rw [Receivable]
      by_cases hone : events.length = 1
      · rw [if_pos hone] at hpull
        obtain ⟨e, rfl⟩ := length_eq_one_iff.mp hone
        simp [EventClient.after_eq_start hpull]
      rw [if_neg hone] at hpull
      refine iff_of_true ⟨1, fun e he => ?_⟩ hone
      have hone' : EventClient.after codec .badger (saveEvents codec .badger m events) 1 =
          EventClient.pull codec .badger (saveEvents codec .badger m events) ⟨[], 0⟩ := rfl
      rw [hone', EventClient.pull]
      simp only [hpull, nil_append]
      exact hperm.mem_iff.mpr he

theorem exists_eventCodec : Nonempty EventCodec := by
  have htype : Injective EventType.ctorIdx := by
    intro t t' h
    cases t <;> cases t' <;> first | rfl | cases h
  have hchar : Injective Char.toNat := fun _ _ => Char.toNat_inj.mp
  have hinj : Injective fun e : Event =>
      (e.id.toInt, e.type.ctorIdx, e.parentIno.toNat, e.curIno.toNat,
        e.name.toList.map Char.toNat) := by
    rintro ⟨i, t, p, q, n⟩ ⟨i', t', p', q', n'⟩ h
    simp only [Prod.mk.injEq] at h
    obtain ⟨hi, ht, hp, hq, hn⟩ := h
    rw [Int64.toInt_inj.mp hi, htype ht, UInt64.toNat_inj.mp hp, UInt64.toNat_inj.mp hq,
      String.toList_injective (hchar.list_map hn)]
  have hcount : Countable Event := hinj.countable
  obtain ⟨f, hf⟩ := exists_injective_nat Event
  classical
  refine ⟨⟨fun e => decimal (f e), fun v =>
    if h : ∃ e, decimal (f e) = v then .ok h.choose else .error .panic, fun e => ?_⟩⟩
  have h : ∃ e', decimal (f e') = decimal (f e) := ⟨e, rfl⟩
  rw [dif_pos h, hf (decimal_injective h.choose_spec)]

def sampleEvent (id : Int64) : Event := ⟨id, .newFileInode, 1, 2, "f"⟩

theorem noEvents_empty : NoEvents .empty := fun _ _ => rfl

theorem numbered_samples : Numbered [sampleEvent 1] ∧ Numbered [sampleEvent 10, sampleEvent 2] ∧
    Numbered [sampleEvent 11, sampleEvent 12] :=
  ⟨⟨by decide, by decide⟩, ⟨by decide, by decide⟩, ⟨by decide, by decide⟩⟩

theorem pullLatest_sample : ∃ (codec : EventCodec) (l : List Event),
    pullLatest codec .badger (saveEvents codec .badger .empty [sampleEvent 11, sampleEvent 12]) 0 =
      .ok l ∧ Latest [sampleEvent 11, sampleEvent 12] 0 l := by
  obtain ⟨codec⟩ := exists_eventCodec
  refine ⟨codec, ((pullLatest_iff codec .badger .empty _ noEvents_empty
    numbered_samples.2.2).1 0).mpr ?_⟩
  rw [Pullable, if_neg (by decide)]
  exact ⟨by decide, by decide⟩

/-- An event alone is not pulled from either store, and the event 10 is pulled before the
event 2. -/
theorem pull_misses_events : ∃ codec : EventCodec,
    (∀ b n, (EventClient.after codec b (saveEvents codec b .empty [sampleEvent 1]) n).received = []) ∧
      ¬∃ l, pullLatest codec .badger (saveEvents codec .badger .empty
        [sampleEvent 10, sampleEvent 2]) 0 = .ok l ∧ Latest [sampleEvent 10, sampleEvent 2] 0 l := by
  obtain ⟨codec⟩ := exists_eventCodec
  refine ⟨codec, fun b n => ?_, ?_⟩
  · cases b with
    | tikv => rw [EventClient.after_eq_start (pullLatest_tikv codec _ 0)]
    | badger =>
      obtain ⟨l, -, -, hpull⟩ := pullLatest_badger codec 0 noEvents_empty numbered_samples.1.distinct
      rw [if_pos (by decide)] at hpull
      rw [EventClient.after_eq_start hpull]
  · rintro ⟨l, hl, hlatest⟩
    obtain ⟨l', hperm, hsorted, hpull⟩ :=
      pullLatest_badger codec 0 noEvents_empty numbered_samples.2.1.distinct
    rw [if_neg (by decide)] at hpull
    cases hl.symm.trans hpull
    have hordered := ((latest_iff_textOrdered hperm hsorted).mp hlatest).ordered
      (sampleEvent 2) (by decide) (sampleEvent 10) (by decide) (by decide) (by decide)
    exact absurd hordered (by decide)

end HugoFS.Meta
