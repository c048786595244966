import HugoFS.Lib.Runs
import HugoFS.Storage.Volume
import Mathlib.Data.Finset.Dedup

/-!
# A storage node

A node tracks its blocks in the selector, keeps them in its volumes and copies them to an object
store. `Task` says what a goroutine is about to do, and one step is one access to the selector,
to a volume or to the object store.
-/

namespace HugoFS.Storage

open Finmap List

/-! ### The state of a node -/

structure VolumeStatistics where
  quota : UInt64
  inuseBytes : UInt64

def VolumeStatistics.remainCap (s : VolumeStatistics) : UInt64 := s.quota - s.inuseBytes

structure Node where
  candidates : Finmap fun _ : ℕ => Volume
  volStats : Finmap fun _ : ℕ => VolumeStatistics
  blockMetas : Finmap fun _ : BlockID => BlockMetaEvent
  cloud : Finmap fun _ : BlockID => Bytes

structure Block where
  data : Bytes
  len : ℕ
  index : ℕ
  crc32 : UInt32
  id : BlockID
deriving DecidableEq

inductive ReadReply
  | notExisted
  | restore (m : BlockMetaEvent)
  | failed (e : VolumeError)
  | stuck
  | block (b : Block)
deriving DecidableEq

namespace Node

def setVolume (n : Node) (vol : ℕ) (v : Volume) : Node :=
  { n with candidates := n.candidates.insert vol v }

def selectWrite (n : Node) (vol : ℕ) : Bool :=
  match n.volStats.lookup vol with
  | none => false
  | some s => decide (n.volStats.count (fun _ s' => s.remainCap < s'.remainCap) = 0)

def addBlockMeta (n : Node) (e : BlockMetaEvent) : Node :=
  let e' := match n.blockMetas.lookup e.blockID with
    | none => e
    | some m => if m.state = .s3Only then { e with state := .localS3 } else e
  { n with blockMetas := n.blockMetas.insert e.blockID e' }

def deleteBlockMeta (n : Node) (e : BlockMetaEvent) : Node :=
  { n with blockMetas := n.blockMetas.erase e.blockID }

def handleBlockMeta (n : Node) (e : BlockMetaEvent) : Node :=
  match e.eventType with
  | .delete => n.deleteBlockMeta e
  | .add => n.addBlockMeta e

def makeBlockState (n : Node) (b : BlockID) (s : BlockState) : Node :=
  match n.blockMetas.lookup b with
  | none => n
  | some m => { n with blockMetas := n.blockMetas.insert b { m with state := s } }

def listMetas (n : Node) (p : BlockMetaEvent → Bool) : Finset BlockMetaEvent :=
  (n.blockMetas.entries.map fun x => x.2).toFinset.filter fun m => p m = true

def recycleList (n : Node) : Finset BlockMetaEvent := n.listMetas fun m => m.state == .localS3

def warmupList (n : Node) : Finset BlockMetaEvent := n.listMetas fun m => m.state == .s3Only

def staleList (n : Node) (expired now : ℤ) : Finset BlockMetaEvent :=
  n.listMetas fun m => m.state == .localOnly && decide (m.createdAt < now - expired * 1000000000)

def volumesOf (n : Node) (ids : List BlockID) : Finset ℕ :=
  (ids.filterMap fun b => (n.blockMetas.lookup b).map (·.volID)).toFinset

def blocksIn (n : Node) (ids : List BlockID) (vol : ℕ) : List BlockID :=
  ids.filter fun b => decide ((n.blockMetas.lookup b).map (·.volID) = some vol)

def read (n : Node) (b : BlockID) : ReadReply :=
  match n.blockMetas.lookup b with
  | none => .notExisted
  | some m =>
    if m.state = .s3Only then .restore m
    else match n.candidates.lookup m.volID with
      | none => .stuck
      | some v =>
        match (v.readBlock b).reply with
        | none => .stuck
        | some (.error e) => .failed e
        | some (.ok f) =>
          .block ⟨f.data, f.header.dataLen, f.header.index, f.header.crc32, f.header.checksum⟩

variable {m : BlockMetaEvent}

theorem mem_listMetas {n : Node} {p : BlockMetaEvent → Bool} :
    m ∈ n.listMetas p ↔ (∃ b, n.blockMetas.lookup b = some m) ∧ p m = true := by
  simp only [listMetas, Finset.mem_filter, Multiset.mem_toFinset, Multiset.mem_map]
  refine and_congr_left fun _ => ?_
  constructor
  · rintro ⟨⟨b, m'⟩, hm, rfl⟩
    exact ⟨b, lookup_eq_some_iff.mpr hm⟩
  · rintro ⟨b, hb⟩
    exact ⟨⟨b, m⟩, lookup_eq_some_iff.mp hb, rfl⟩

theorem lookup_makeBlockState {n : Node} {b c : BlockID} {s : BlockState}
    (h : (n.makeBlockState b s).blockMetas.lookup c = some m) :
    ∃ m', n.blockMetas.lookup c = some m' ∧ m' = { m with state := m'.state } ∧
      (c ≠ b → m' = m) ∧ (c = b → m.state = s) := by
  rw [makeBlockState] at h
  split at h
  · next hb =>
    refine ⟨m, h, rfl, fun _ => rfl, ?_⟩
    rintro rfl
    cases hb.symm.trans h
  next m₀ hb =>
  obtain ⟨rfl, rfl⟩ | ⟨hc, h⟩ := lookup_insert_eq_some h
  · exact ⟨m₀, hb, rfl, fun hne => absurd rfl hne, fun _ => rfl⟩
  · exact ⟨m, h, rfl, fun _ => rfl, fun heq => absurd heq hc⟩

@[simp] theorem makeBlockState_candidates (n : Node) (b : BlockID) (s : BlockState) :
    (n.makeBlockState b s).candidates = n.candidates := by
  rw [makeBlockState]
  split <;> rfl

@[simp] theorem makeBlockState_cloud (n : Node) (b : BlockID) (s : BlockState) :
    (n.makeBlockState b s).cloud = n.cloud := by
  rw [makeBlockState]
  split <;> rfl

end Node

/-! ### Goroutines -/

/-- What a goroutine does next. A write goes through `write`, `announce`, `wrote` and
`stored`; the cleaning of a volume through `clean`, `retract` and `free` for each
block; an upload through `upload`, `get`, `fetch`, `put` and `markDestaged`; the
recycling through `recycle` and `markFreeLocal` for each block; a restore through
`restore`, `restoreWrite` and `announce`. -/
inductive Task
  | idle
  | write (c : DataContainer)
  | announce (e : BlockMetaEvent) (w : Option DataContainer)
  | wrote (c : DataContainer)
  | stored (c : DataContainer)
  | clean (vol : ℕ) (hashes : List BlockID)
  | retract (vol slot : ℕ) (hash : BlockID) (rest : List BlockID)
  | free (vol slot : ℕ) (hash : BlockID) (rest : List BlockID)
  | upload (b : BlockID)
  | get (b : BlockID) (vol : ℕ)
  | fetch (b : BlockID) (vol : ℕ)
  | put (b : BlockID) (data : Bytes)
  | markDestaged (b : BlockID)
  | recycle (todo : List BlockMetaEvent)
  | markFreeLocal (b : BlockID) (todo : List BlockMetaEvent)
  | restore (m : BlockMetaEvent)
  | restoreWrite (m : BlockMetaEvent) (data : Bytes)

def Task.isIdle : Task → Bool
  | .idle => true
  | _ => false

def Task.done : Task → Task
  | .wrote c => .stored c
  | k => k

def afterWrite (o : Outcome BlockID) (w : Option DataContainer) (stay : Task) : Task :=
  match o.reply with
  | none => stay
  | some (.ok _) => match o.sent with
    | [] => .idle
    | e :: _ => .announce e w
  | some (.error _) => match o.sent with
    | [] => .idle
    | e :: _ => .announce e none

/-- `WriteBlock` as one step, at the point where a slot is occupied. The source holds its lock there
only. -/
def writeStep (c : DataContainer) (w : Option DataContainer) (stay : Task) (now : ℤ)
    (v : Volume) : Volume × Task :=
  ((v.writeBlock c now).vol, afterWrite (v.writeBlock c now) w stay)

def cleanStep (vol : ℕ) (h : BlockID) (hs : List BlockID) (v : Volume) : Volume × Task :=
  if v.hung then (v, .clean vol (h :: hs))
  else (v.deleteFile (v.slot.slotOrZero h), .retract vol (v.slot.slotOrZero h) h hs)

def freeStep (vol slot : ℕ) (h : BlockID) (hs : List BlockID) (v : Volume) : Volume × Task :=
  if v.hung then (v, .free vol slot h hs) else (v.freeSlot slot, .clean vol hs)

def fetchStep (b : BlockID) (vol : ℕ) (v : Volume) : Volume × Task :=
  ((v.readBlock b).vol, match (v.readBlock b).reply with
    | none => .fetch b vol
    | some (.error _) => .idle
    | some (.ok f) => .put b f.data)

def removeStep (m : BlockMetaEvent) (ms : List BlockMetaEvent) (v : Volume) : Volume × Task :=
  ((v.removeLocal m.blockID).vol, match (v.removeLocal m.blockID).reply with
    | none => .recycle (m :: ms)
    | some _ => .markFreeLocal m.blockID ms)

def restoreContainer (m : BlockMetaEvent) (data : Bytes) : DataContainer :=
  ⟨m.logicIndex, data, m.blockID, crc32 data⟩

/-! ### The system -/

section System

variable {τ : Type} [DecidableEq τ]

/-- The event that the selector has not handled yet, and what each goroutine is about to do. -/
structure NodeState (τ : Type) where
  node : Node
  inbox : Option (BlockMetaEvent × τ)
  tasks : τ → Task

structure Choice where
  vol : ℕ := 0
  now : ℤ := 0
  fails : Bool := false

namespace NodeState

def setTask (st : NodeState τ) (t : τ) (k : Task) : NodeState τ :=
  { st with tasks := Function.update st.tasks t k }

def setNode (st : NodeState τ) (n : Node) : NodeState τ := { st with node := n }

def atVolume (st : NodeState τ) (t : τ) (vol : ℕ) (f : Volume → Volume × Task) : NodeState τ :=
  match st.node.candidates.lookup vol with
  | none => st
  | some v => (st.setNode (st.node.setVolume vol (f v).1)).setTask t (f v).2

def send (st : NodeState τ) (t : τ) (e : BlockMetaEvent) (k : Task) : NodeState τ :=
  match st.inbox with
  | none => { st with inbox := some (e, t) }.setTask t k
  | some _ => st

/-- A goroutine makes one access to the selector, a volume or the object store. -/
def advance (st : NodeState τ) (t : τ) (ch : Choice) : NodeState τ :=
  match st.tasks t with
  | .idle => st
  | .write c =>
    if st.node.selectWrite ch.vol then
      st.atVolume t ch.vol (writeStep c (some c) (.write c) ch.now)
    else st
  | .announce e none => st.send t e .idle
  | .announce e (some c) => st.send t e (.wrote c)
  | .wrote _ => st
  | .stored _ => st.setTask t .idle
  | .clean _ [] => st.setTask t .idle
  | .clean vol (h :: hs) => st.atVolume t vol (cleanStep vol h hs)
  | .retract vol slot h hs =>
    st.send t { volID := vol, blockID := h, eventType := .delete } (.free vol slot h hs)
  | .free vol slot h hs => st.atVolume t vol (freeStep vol slot h hs)
  | .upload b =>
    match st.node.blockMetas.lookup b with
    | none => st.setTask t .idle
    | some m => st.setTask t (.get b m.volID)
  | .get b vol =>
    st.setTask t (if ch.fails = false ∧ b ∈ st.node.cloud then .markDestaged b else .fetch b vol)
  | .fetch b vol => st.atVolume t vol (fetchStep b vol)
  | .put b data =>
    if ch.fails then st.setTask t .idle
    else (st.setNode { st.node with cloud := st.node.cloud.insert b data }).setTask t
      (.markDestaged b)
  | .markDestaged b => (st.setNode (st.node.makeBlockState b .localS3)).setTask t .idle
  | .recycle [] => st.setTask t .idle
  | .recycle (m :: ms) => st.atVolume t m.volID (removeStep m ms)
  | .markFreeLocal b ms => (st.setNode (st.node.makeBlockState b .s3Only)).setTask t (.recycle ms)
  | .restore m =>
    match st.node.cloud.lookup m.blockID with
    | none => st.setTask t .idle
    | some data => st.setTask t (if ch.fails then .idle else .restoreWrite m data)
  | .restoreWrite m data =>
    st.atVolume t m.volID (writeStep (restoreContainer m data) none (.restoreWrite m data) ch.now)

def handle (st : NodeState τ) : NodeState τ :=
  match st.inbox with
  | none => st
  | some (e, t) =>
    let st' : NodeState τ := { st with node := st.node.handleBlockMeta e, inbox := none }
    match e.eventType with
    | .delete => st'
    | .add => st'.setTask t (st.tasks t).done

def spawn (st : NodeState τ) (jobs : List (τ × Task)) : NodeState τ :=
  { st with tasks := fun t => (jobs.lookup t).getD (st.tasks t) }

theorem spawn_tasks (st : NodeState τ) (jobs : List (τ × Task)) (t : τ) :
    (st.spawn jobs).tasks t = st.tasks t ∨ (t, (st.spawn jobs).tasks t) ∈ jobs := by
  rw [spawn]
  cases hl : jobs.lookup t with
  | none => exact .inl (by simp [hl])
  | some k =>
    obtain ⟨l, r, rfl, -⟩ := lookup_eq_some_iff.mp hl
    exact .inr (by simp [hl])

def allIdle (st : NodeState τ) (ts : List τ) : Bool := ts.all fun t => (st.tasks t).isIdle

omit [DecidableEq τ] in
def write (sha256 : Bytes → BlockID) (st : NodeState τ) (t : τ) (data : Bytes) (index : ℕ)
    (crc : UInt32) : NodeState τ :=
  if st.allIdle [t] ∧ crc = crc32 data then
    match st.node.blockMetas.lookup (sha256 data) with
    | some _ => st
    | none => st.setTask t (.write ⟨index, data, sha256 data, crc⟩)
  else st

def deleteBlock (st : NodeState τ) (ids : List BlockID) (jobs : List (τ × ℕ)) : NodeState τ :=
  if st.allIdle (jobs.map Prod.fst) ∧ (jobs.map Prod.snd).toFinset = st.node.volumesOf ids ∧
      (jobs.map Prod.snd).Nodup then
    st.spawn (jobs.map fun j => (j.1, .clean j.2 (st.node.blocksIn ids j.2)))
  else st

def startAll (st : NodeState τ) (list : Finset BlockMetaEvent) (jobs : List (τ × BlockMetaEvent))
    (k : BlockMetaEvent → Task) : NodeState τ :=
  if st.allIdle (jobs.map Prod.fst) ∧ (jobs.map Prod.snd).toFinset = list then
    st.spawn (jobs.map fun j => (j.1, k j.2))
  else st

def recycleSpace (st : NodeState τ) (t : τ) (order : List BlockMetaEvent) : NodeState τ :=
  if st.allIdle [t] ∧ order.toFinset = st.node.recycleList then st.setTask t (.recycle order)
  else st

def readBlock (st : NodeState τ) (b : BlockID) (t : τ) : NodeState τ :=
  match st.node.blockMetas.lookup b with
  | none => st
  | some m =>
    if m.state = .s3Only then if st.allIdle [t] then st.setTask t (.restore m) else st
    else match st.node.candidates.lookup m.volID with
      | none => st
      | some v => st.setNode (st.node.setVolume m.volID (v.readBlock b).vol)

def timer (st : NodeState τ) (vol : ℕ) : NodeState τ :=
  match st.node.candidates.lookup vol with
  | none => st
  | some v => st.setNode (st.node.setVolume vol v.fireTimer)

end NodeState

inductive NodeCall (τ : Type)
  | write (t : τ) (data : Bytes) (index : ℕ) (crc : UInt32)
  | deleteBlock (ids : List BlockID) (jobs : List (τ × ℕ))
  | evictBlock (expired now : ℤ) (jobs : List (τ × BlockMetaEvent))
  | recycleSpace (t : τ) (order : List BlockMetaEvent)
  | warmup (jobs : List (τ × BlockMetaEvent))
  | read (b : BlockID) (t : τ)
  | advance (t : τ) (ch : Choice)
  | handle
  | setVolStat (vol : ℕ) (s : VolumeStatistics)
  | timer (vol : ℕ)

def NodeCall.next (sha256 : Bytes → BlockID) : NodeCall τ → NodeState τ → NodeState τ
  | .write t data index crc, st => st.write sha256 t data index crc
  | .deleteBlock ids jobs, st => st.deleteBlock ids jobs
  | .evictBlock expired now jobs, st =>
    st.startAll (st.node.staleList expired now) jobs fun m => .upload m.blockID
  | .recycleSpace t order, st => st.recycleSpace t order
  | .warmup jobs, st => st.startAll st.node.warmupList jobs .restore
  | .read b t, st => st.readBlock b t
  | .advance t ch, st => st.advance t ch
  | .handle, st => st.handle
  | .setVolStat vol s, st =>
    st.setNode { st.node with volStats := st.node.volStats.insert vol s }
  | .timer vol, st => st.timer vol

def newNode (vols : List (ℕ × ℕ × VolumeStatistics)) : Node where
  candidates := (vols.map fun x => (⟨x.1, Volume.new x.1 x.2.1⟩ : Σ _ : ℕ, Volume)).toFinmap
  volStats := (vols.map fun x => (⟨x.1, x.2.2⟩ : Σ _ : ℕ, VolumeStatistics)).toFinmap
  blockMetas := ∅
  cloud := ∅

omit [DecidableEq τ] in
theorem newNode_candidates {vols : List (ℕ × ℕ × VolumeStatistics)} {vol : ℕ} {v : Volume}
    (h : (newNode vols).candidates.lookup vol = some v) : ∃ cap, v = .new vol cap := by
  rw [newNode, dlookup_list_toFinmap] at h
  obtain ⟨x, -, hx⟩ := mem_map.mp (of_mem_dlookup h)
  cases hx
  exact ⟨x.2.1, rfl⟩

def newNodeState (τ : Type) (n : Node) : NodeState τ := ⟨n, none, fun _ => .idle⟩

end System

end HugoFS.Storage
