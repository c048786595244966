import HugoFS.Lib.Runs
import HugoFS.Meta.Types
import HugoFS.Store.Txn
import Mathlib.Data.Multiset.Basic

/-!
# The storage nodes of a cluster

The cluster service keeps one record for each storage node, with the list of all nodes as its
peers, and for each address the id of the node that has it. Calls follow one another on a
store without failures.
-/

namespace HugoFS.Cluster

open List Runs Cluster Nat
open HugoFS.Store (Backend)
open HugoFS.Meta (trimSuffix)

/-! ### Records -/

structure StorageNode where
  id : UInt64
  ip : String
  port : UInt64
  createdAt : UInt64
  updatedAt : UInt64
  peers : List UInt64
  cap : UInt64
  usage : UInt64
  physicalVolumeIds : List UInt64
  tcpPort : UInt64

def StorageNode.addr (n : StorageNode) : String := n.ip ++ ":" ++ toString n.port.toNat

structure PhysicalVolume where
  id : UInt64
  capByte : UInt64
  usageByte : UInt64
  createdAt : UInt64
  virtualVolumeId : UInt64
  storageNodeId : UInt64
  engine : UInt32
  location : String
  threhold : UInt64

structure VirtualVolume where
  id : UInt64
  capByte : UInt64
  createdAt : UInt64
  physicalVolumeIds : List UInt64

structure ClusterStore where
  nodes : Finmap fun id => { n : StorageNode // n.id = id }
  addrs : Finmap fun _ : String => UInt64
  physical : Finmap fun id => { v : PhysicalVolume // v.id = id }
  virtuals : Finmap fun id => { v : VirtualVolume // v.id = id }

namespace ClusterStore

def empty : ClusterStore := ⟨∅, ∅, ∅, ∅⟩

def nodeAt (s : ClusterStore) (id : UInt64) : Option StorageNode :=
  (s.nodes.lookup id).map fun n => n.1

def physicalAt (s : ClusterStore) (id : UInt64) : Option PhysicalVolume :=
  (s.physical.lookup id).map fun v => v.1

def virtualAt (s : ClusterStore) (id : UInt64) : Option VirtualVolume :=
  (s.virtuals.lookup id).map fun v => v.1

def putNode (s : ClusterStore) (n : StorageNode) : ClusterStore :=
  { s with nodes := s.nodes.insert n.id ⟨n, rfl⟩ }

def putAddr (s : ClusterStore) (addr : String) (id : UInt64) : ClusterStore :=
  { s with addrs := s.addrs.insert addr id }

def putPhysical (s : ClusterStore) (v : PhysicalVolume) : ClusterStore :=
  { s with physical := s.physical.insert v.id ⟨v, rfl⟩ }

def putVirtual (s : ClusterStore) (v : VirtualVolume) : ClusterStore :=
  { s with virtuals := s.virtuals.insert v.id ⟨v, rfl⟩ }

section Lemmas

variable {s : ClusterStore} {n : StorageNode} {v : PhysicalVolume} {id i : UInt64}

theorem nodeAt_id (h : s.nodeAt id = some n) : n.id = id := by
  obtain ⟨r, -, rfl⟩ := Option.map_eq_some_iff.mp h
  exact r.2

theorem nodeAt_putNode (s : ClusterStore) (n : StorageNode) (i : UInt64) :
    (s.putNode n).nodeAt i = if i = n.id then some n else s.nodeAt i := by
  by_cases h : i = n.id
  · subst h
    simp [nodeAt, putNode]
  · simp [nodeAt, putNode, h, Finmap.lookup_insert_of_ne]

@[simp] theorem nodeAt_putAddr (s : ClusterStore) (addr : String) (id i : UInt64) :
    (s.putAddr addr id).nodeAt i = s.nodeAt i := rfl

@[simp] theorem nodeAt_putPhysical (s : ClusterStore) (v : PhysicalVolume) (i : UInt64) :
    (s.putPhysical v).nodeAt i = s.nodeAt i := rfl

@[simp] theorem addrs_putNode (s : ClusterStore) (n : StorageNode) :
    (s.putNode n).addrs = s.addrs := rfl

@[simp] theorem physicalAt_putNode (s : ClusterStore) (n : StorageNode) (i : UInt64) :
    (s.putNode n).physicalAt i = s.physicalAt i := rfl

theorem physicalAt_putPhysical (s : ClusterStore) (v : PhysicalVolume) (i : UInt64) :
    (s.putPhysical v).physicalAt i = if i = v.id then some v else s.physicalAt i := by
  by_cases h : i = v.id
  · subst h
    simp [physicalAt, putPhysical]
  · simp [physicalAt, putPhysical, h, Finmap.lookup_insert_of_ne]

theorem virtualAt_putVirtual (s : ClusterStore) (v : VirtualVolume) (i : UInt64) :
    (s.putVirtual v).virtualAt i = if i = v.id then some v else s.virtualAt i := by
  by_cases h : i = v.id
  · subst h
    simp [virtualAt, putVirtual]
  · simp [virtualAt, putVirtual, h, Finmap.lookup_insert_of_ne]

end Lemmas

end ClusterStore

/-! ### The service -/

inductive ClusterErr
  | notFound
  | message (text : String)
  | join (base : String) (err : ClusterErr)
  | panic

inductive GetStorageNodeReq
  | id (id : UInt64)
  | address (addr : String)

def readName : Backend → String → String
  | .badger, name => trimSuffix name
  | .tikv, name => name

def getNode (s : ClusterStore) (id : UInt64) : Except ClusterErr StorageNode :=
  match s.nodeAt id with
  | some n => .ok n
  | none => .error .notFound

def getStorageNode (b : Backend) (s : ClusterStore) : GetStorageNodeReq →
    Except ClusterErr StorageNode
  | .id id => getNode s id
  | .address addr =>
    -- without an address the id that was not given is looked up
    if addr = "" then getNode s 0
    else match s.addrs.lookup (readName b addr) with
      | some id => getNode s id
      | none => .error .notFound

structure AddStorageNodeReq where
  ip : String
  port : UInt64
  tcpPort : UInt64
  cap : UInt64

def newStorageNode (req : AddStorageNodeReq) (id now now' : UInt64) (nodes : List StorageNode) :
    StorageNode where
  id := id
  ip := req.ip
  port := req.port
  createdAt := now
  updatedAt := now'
  -- the first of the nodes in the order of a Go map
  peers := match nodes with
    | [] => [id]
    | n :: _ => n.peers ++ [id]
  cap := req.cap
  usage := 0
  physicalVolumeIds := []
  tcpPort := req.tcpPort

def StorageNode.addPeer (n : StorageNode) (id : UInt64) : StorageNode :=
  { n with peers := n.peers ++ [id] }

def addStorageNode (s : ClusterStore) (req : AddStorageNodeReq) (id now now' : UInt64)
    (nodes : List StorageNode) : StorageNode × ClusterStore :=
  let node := newStorageNode req id now now' nodes
  (node, (nodes.map fun n => n.addPeer id).foldl ClusterStore.putNode
    ((s.putNode node).putAddr node.addr node.id))

def patchStorageNode (s : ClusterStore) (id : UInt64) (usage : List UInt64) :
    Except ClusterErr StorageNode × ClusterStore :=
  match getNode s id with
  | .error e => (.error e, s)
  | .ok n =>
    let n := { n with usage := usage.foldl (· + ·) 0 }
    (.ok n, s.putNode n)

structure CreatePhysicalVolumeReq where
  storageNodeId : UInt64
  engine : UInt32
  location : String
  quota : Option UInt64
  threhold : Option UInt64

def StorageNode.addVolume (n : StorageNode) (vol : PhysicalVolume) : StorageNode :=
  { n with physicalVolumeIds := n.physicalVolumeIds ++ [vol.id], cap := n.cap + vol.capByte }

def createPhysicalVolume (s : ClusterStore) (req : CreatePhysicalVolumeReq) (id now : UInt64) :
    Except ClusterErr PhysicalVolume × ClusterStore :=
  match getNode s req.storageNodeId with
  | .error e =>
    (.error (.join s!"failed to create physical volume on node {req.storageNodeId}" e), s)
  | .ok node =>
    let vol : PhysicalVolume :=
      { id := id
        capByte := req.quota.getD (40 * 1024 * 1024 * 1024)
        usageByte := 0
        createdAt := now
        virtualVolumeId := 0
        storageNodeId := req.storageNodeId
        engine := req.engine
        location := req.location
        threhold := req.threhold.getD 0x3FE8000000000000 }
    (.ok vol, (s.putPhysical vol).putNode (node.addVolume vol))

/-! ### Runs -/

inductive ClusterCall
  | addStorageNode (req : AddStorageNodeReq) (id now now' : UInt64) (nodes : List StorageNode)
  | patchStorageNode (id : UInt64) (usage : List UInt64)
  | createPhysicalVolume (req : CreatePhysicalVolumeReq) (id now : UInt64)

structure ClusterRun where
  store : ClusterStore
  added : List (String × UInt64)

def newClusterRun : ClusterRun := ⟨.empty, []⟩

def ClusterCall.next : ClusterCall → ClusterRun → ClusterRun
  | .addStorageNode req id now now' nodes, st =>
    let r := Cluster.addStorageNode st.store req id now now' nodes
    ⟨r.2, (r.1.addr, r.1.id) :: st.added⟩
  | .patchStorageNode id usage, st =>
    { st with store := (Cluster.patchStorageNode st.store id usage).2 }
  | .createPhysicalVolume req id now, st =>
    { st with store := (Cluster.createPhysicalVolume st.store req id now).2 }

def Lists (s : ClusterStore) (nodes : List StorageNode) : Prop :=
  (nodes.map StorageNode.id).Nodup ∧ ∀ n, n ∈ nodes ↔ s.nodeAt n.id = some n

def ClusterRun.Allowed (st : ClusterRun) : ClusterCall → Prop
  | .addStorageNode _ id _ _ nodes => st.store.nodeAt id = none ∧ Lists st.store nodes
  | .patchStorageNode _ _ => True
  | .createPhysicalVolume _ _ _ => True

def PeersExact (s : ClusterStore) : Prop :=
  ∀ id n, s.nodeAt id = some n → n.peers.Nodup ∧ ∀ j, j ∈ n.peers ↔ (s.nodeAt j).isSome = true

variable {nodes : List StorageNode} {req : AddStorageNodeReq}

section Peers

variable {s s' : ClusterStore} {n : StorageNode} {id : UInt64}

open ClusterStore

theorem PeersExact.putNode (h : PeersExact s) {n' : StorageNode} (hn : s.nodeAt id = some n)
    (hid : n'.id = n.id) (hpeers : n'.peers = n.peers) : PeersExact (s.putNode n') := by
  have hid' : n'.id = id := hid.trans (nodeAt_id hn)
  have hsome : ∀ j, ((s.putNode n').nodeAt j).isSome = (s.nodeAt j).isSome := by
    intro j
    rw [nodeAt_putNode]
    split
    · next hj => rw [hj, hid', hn]; rfl
    · rfl
  intro j m hm
  rw [nodeAt_putNode] at hm
  split at hm
  · cases hm
    rw [hpeers]
    simpa only [hsome] using h id n hn
  · simpa only [hsome] using h j m hm

theorem nodeAt_foldl_putNode {l : List StorageNode} (hl : (l.map StorageNode.id).Nodup)
    (s : ClusterStore) (i : UInt64) :
    (l.foldl .putNode s).nodeAt i =
      match l.find? (fun n => n.id = i) with
      | some n => some n
      | none => s.nodeAt i := by
  induction l generalizing s with
  | nil => rfl
  | cons n l ih =>
    rw [map_cons, nodup_cons] at hl
    rw [foldl_cons, ih hl.2, find?_cons]
    by_cases hi : n.id = i
    · have hnone : l.find? (fun n => n.id = i) = none := by
        rw [find?_eq_none]
        intro m hm heq
        have heq' : m.id = i := of_decide_eq_true heq
        exact hl.1 (mem_map.mpr ⟨m, hm, heq'.trans hi.symm⟩)
      simp [hnone, hi, nodeAt_putNode]
    · simp [hi, nodeAt_putNode, Ne.symm hi]

theorem nodeAt_addStorageNode {now now' : UInt64}
    (hfresh : s.nodeAt id = none) (hl : Lists s nodes) (i : UInt64) :
    (addStorageNode s req id now now' nodes).2.nodeAt i =
      if i = id then some (newStorageNode req id now now' nodes)
      else (s.nodeAt i).map fun n => n.addPeer id := by
  have hids : ((nodes.map fun n => n.addPeer id).map StorageNode.id).Nodup := by
    rw [map_map]
    exact hl.1
  have hmem : ∀ m, m ∈ (nodes.map fun n => n.addPeer id) → m.id = i →
      ∃ n, s.nodeAt i = some n ∧ m = n.addPeer id := by
    intro m hm hi
    obtain ⟨n, hn, rfl⟩ := mem_map.mp hm
    exact ⟨n, hi ▸ (hl.2 n).mp hn, rfl⟩
  rw [addStorageNode, nodeAt_foldl_putNode hids]
  cases hfind : (nodes.map fun n => n.addPeer id).find? fun n => n.id = i with
  | some m =>
    obtain ⟨n, hn, rfl⟩ := hmem m (mem_of_find?_eq_some hfind)
      (by simpa using find?_some hfind)
    have hne : i ≠ id := by
      rintro rfl
      cases hfresh.symm.trans hn
    rw [if_neg hne, hn]
    rfl
  | none =>
    show ((s.putNode _).putAddr _ _).nodeAt i = _
    rw [nodeAt_putAddr, nodeAt_putNode]
    show (if i = id then _ else _) = _
    split
    · rfl
    -- a node that is not listed is not stored
    cases hn : s.nodeAt i with
    | none => rfl
    | some n =>
      have hi := nodeAt_id hn
      have hlisted : n ∈ nodes := (hl.2 n).mpr (hi ▸ hn)
      have := find?_eq_none.mp hfind (n.addPeer id) (mem_map_of_mem hlisted)
      exact absurd (decide_eq_true hi) this

theorem PeersExact.addStorageNode {now now' : UInt64} (h : PeersExact s)
    (hfresh : s.nodeAt id = none) (hl : Lists s nodes) :
    PeersExact (Cluster.addStorageNode s req id now now' nodes).2 := by
  have hsome : ∀ j, ((Cluster.addStorageNode s req id now now' nodes).2.nodeAt j).isSome = true ↔
      j = id ∨ (s.nodeAt j).isSome = true := by
    intro j
    rw [nodeAt_addStorageNode hfresh hl]
    by_cases hj : j = id <;> simp [hj]
  -- a list of peers that was exact is exact with the new id at its end
  have hpeer : ∀ {j n}, s.nodeAt j = some n → (n.peers ++ [id]).Nodup ∧
      ∀ k, k ∈ n.peers ++ [id] ↔ k = id ∨ (s.nodeAt k).isSome = true := by
    intro j n hn
    obtain ⟨hnodup, hexact⟩ := h j n hn
    have hid : id ∉ n.peers := by
      rw [hexact, hfresh]
      simp
    refine ⟨hnodup.append (nodup_singleton id) (by simpa using hid), fun k => ?_⟩
    rw [mem_append, mem_singleton, hexact, or_comm]
  intro j n hn
  simp only [hsome]
  rw [nodeAt_addStorageNode hfresh hl] at hn
  split at hn
  · cases hn
    cases nodes with
    | nil =>
      have hnone : ∀ k, s.nodeAt k = none := by
        intro k
        rw [Option.eq_none_iff_forall_ne_some]
        intro m hm
        have := (hl.2 m).mpr (nodeAt_id hm ▸ hm)
        simp at this
      refine ⟨nodup_singleton id, fun k => ?_⟩
      rw [hnone]
      simp [newStorageNode]
    | cons m rest => exact hpeer ((hl.2 m).mp mem_cons_self)
  · obtain ⟨m, hm, rfl⟩ := Option.map_eq_some_iff.mp hn
    exact hpeer hm

end Peers

/-! ### Addresses -/

theorem addr_ne (n : StorageNode) : n.addr ≠ "" ∧ ∀ b, readName b n.addr = n.addr := by
  have hdigits : (toString n.port.toNat).toList = toDigits 10 n.port.toNat := toList_repr
  have hlist : n.addr.toList = (n.ip ++ ":").toList ++ toDigits 10 n.port.toNat := by
    rw [StorageNode.addr, String.toList_append, hdigits]
  have hlast : n.addr.toList.getLast? ≠ some '/' := by
    rw [hlist, getLast?_append_of_ne_nil _ toDigits_ne_nil]
    intro h
    have := isDigit_of_mem_toDigits (by decide) (by decide) (mem_of_getLast? h)
    exact absurd this (by decide)
  constructor
  · intro h
    rw [h] at hlist
    have := congrArg length hlist
    simp at this
  · intro b
    cases b with
    | badger => rw [readName, trimSuffix, if_neg hlast]
    | tikv => rfl

structure ClusterRun.Sound (st : ClusterRun) : Prop where
  peers : PeersExact st.store
  addrs : ∀ a, st.store.addrs.lookup a = st.added.lookup a
  named : ∀ a id, (a, id) ∈ st.added → ∃ n, st.store.nodeAt id = some n ∧ n.addr = a

theorem addrs_foldl_putNode (l : List StorageNode) (s : ClusterStore) :
    (l.foldl .putNode s).addrs = s.addrs := by
  induction l generalizing s with
  | nil => rfl
  | cons n l ih => exact ih (s.putNode n)

namespace ClusterRun

theorem Sound.new : newClusterRun.Sound where
  peers id n hn := by simp [newClusterRun, ClusterStore.empty, ClusterStore.nodeAt] at hn
  addrs a := by simp [newClusterRun, ClusterStore.empty]
  named a id h := by simp [newClusterRun] at h

variable {st : ClusterRun}

theorem Sound.addStorageNode (h : st.Sound) {id now now' : UInt64}
    (hfresh : st.store.nodeAt id = none) (hl : Lists st.store nodes) :
    ((ClusterCall.addStorageNode req id now now' nodes).next st).Sound where
  peers := h.peers.addStorageNode hfresh hl
  addrs a := by
    show (Cluster.addStorageNode st.store req id now now' nodes).2.addrs.lookup a =
      lookup a (((newStorageNode req id now now' nodes).addr, id) :: st.added)
    rw [Cluster.addStorageNode, addrs_foldl_putNode, lookup_cons]
    by_cases ha : a = (newStorageNode req id now now' nodes).addr
    · subst ha
      rw [beq_self_eq_true]
      exact Finmap.lookup_insert _
    · rw [beq_false_of_ne ha]
      exact (Finmap.lookup_insert_of_ne _ ha).trans (h.addrs a)
  named a i hmem := by
    show ∃ n, (Cluster.addStorageNode st.store req id now now' nodes).2.nodeAt i = some n ∧ _
    rw [nodeAt_addStorageNode hfresh hl]
    rcases mem_cons.mp hmem with heq | hold
    · cases heq
      exact ⟨_, if_pos rfl, rfl⟩
    obtain ⟨n, hn, rfl⟩ := h.named a i hold
    have hne : i ≠ id := by
      rintro rfl
      cases hfresh.symm.trans hn
    rw [if_neg hne, hn]
    exact ⟨_, rfl, rfl⟩

theorem Sound.putNode (h : st.Sound) {s : ClusterStore} {i : UInt64} {n n' : StorageNode}
    (hat : ∀ j, s.nodeAt j = st.store.nodeAt j) (haddrs : s.addrs = st.store.addrs)
    (hn : st.store.nodeAt i = some n) (hid : n'.id = n.id) (haddr : n'.addr = n.addr)
    (hpeers : n'.peers = n.peers) : ({ st with store := s.putNode n' } : ClusterRun).Sound where
  peers := by
    have hs : PeersExact s := by
      intro j m hm
      simpa only [hat] using h.peers j m ((hat j).symm.trans hm)
    exact hs.putNode ((hat i).trans hn) hid hpeers
  addrs a := by
    rw [ClusterStore.addrs_putNode, haddrs]
    exact h.addrs a
  named a id hmem := by
    obtain ⟨m, hm, rfl⟩ := h.named a id hmem
    show ∃ k, (s.putNode n').nodeAt id = some k ∧ k.addr = m.addr
    rw [ClusterStore.nodeAt_putNode]
    split
    · next heq =>
      have hi : id = i := heq.trans (hid.trans (ClusterStore.nodeAt_id hn))
      cases (hi ▸ hm).symm.trans hn
      exact ⟨n', rfl, haddr⟩
    · exact ⟨m, (hat id).trans hm, rfl⟩

theorem Sound.next (h : st.Sound) (c : ClusterCall) (hc : st.Allowed c) : (c.next st).Sound := by
  cases c with
  | addStorageNode req id now now' nodes => exact h.addStorageNode hc.1 hc.2
  | patchStorageNode id usage =>
    simp only [ClusterCall.next, patchStorageNode, getNode]
    cases hn : st.store.nodeAt id with
    | none => exact h
    | some n => exact h.putNode (fun _ => rfl) rfl hn rfl rfl rfl
  | createPhysicalVolume req id now =>
    simp only [ClusterCall.next, createPhysicalVolume, getNode]
    cases hn : st.store.nodeAt req.storageNodeId with
    | none => exact h
    | some n => exact h.putNode (fun _ => rfl) rfl hn rfl rfl rfl

/-- In every state of a run all nodes have the same peers, each node exactly once, and an
address leads to the node that was added last with it. -/
theorem peers_and_addresses (h : Reach ClusterCall.next Allowed newClusterRun st) :
    (∀ i j m n, st.store.nodeAt i = some m → st.store.nodeAt j = some n →
      m.peers.toFinset = n.peers.toFinset) ∧ PeersExact st.store ∧
      ∀ b a id, st.added.lookup a = some id →
        ∃ n, getStorageNode b st.store (.address a) = .ok n ∧ n.id = id := by
  have hs : st.Sound := h.invariant (I := Sound) (fun _ c hst hc => hst.next c hc) .new
  refine ⟨fun i j m n hm hn => ?_, hs.peers, fun b a id ha => ?_⟩
  · ext k
    rw [mem_toFinset, mem_toFinset, (hs.peers i m hm).2, (hs.peers j n hn).2]
  · obtain ⟨l₁, l₂, hadded, -⟩ := lookup_eq_some_iff.mp ha
    obtain ⟨n, hn, rfl⟩ := hs.named a id (by simp [hadded])
    obtain ⟨hne, hread⟩ := addr_ne n
    refine ⟨n, ?_, ClusterStore.nodeAt_id hn⟩
    simp only [getStorageNode, if_neg hne, hread, hs.addrs, ha, getNode, hn]

end ClusterRun

theorem Lists.addStorageNode {s : ClusterStore} {id now now' : UInt64}
    (hfresh : s.nodeAt id = none) (hl : Lists s nodes) :
    Lists (addStorageNode s req id now now' nodes).2
      (newStorageNode req id now now' nodes :: nodes.map fun n => n.addPeer id) := by
  have hnew : id ∉ nodes.map StorageNode.id := by
    intro hmem
    obtain ⟨n, hn, rfl⟩ := mem_map.mp hmem
    cases hfresh.symm.trans ((hl.2 n).mp hn)
  constructor
  · rw [map_cons, map_map]
    exact nodup_cons.mpr ⟨hnew, hl.1⟩
  · intro n
    rw [nodeAt_addStorageNode hfresh hl, mem_cons, mem_map]
    constructor
    · rintro (rfl | ⟨m, hm, rfl⟩)
      · exact if_pos rfl
      · have hstored := (hl.2 m).mp hm
        have hne : m.id ≠ id := by
          intro heq
          cases hfresh.symm.trans (heq ▸ hstored)
        exact (if_neg hne).trans (by rw [show (m.addPeer id).id = m.id from rfl, hstored]; rfl)
    · intro hn
      split at hn
      · cases hn
        exact .inl rfl
      · obtain ⟨m, hm, rfl⟩ := Option.map_eq_some_iff.mp hn
        exact .inr ⟨m, (hl.2 m).mpr hm, rfl⟩

def sampleCalls : List ClusterCall :=
  let req : AddStorageNodeReq := ⟨"10.0.0.1", 8001, 9001, 0⟩
  [.addStorageNode req 7 1 1 [],
    .addStorageNode req 9 2 2 [newStorageNode req 7 1 1 []],
    .patchStorageNode 7 [4096],
    .createPhysicalVolume ⟨7, 0, "/data", none, none⟩ 11 3]

theorem peers_and_addresses_sample :
    ∃ n, getStorageNode .badger (exec ClusterCall.next sampleCalls newClusterRun).store
      (.address "10.0.0.1:8001") = .ok n ∧ n.id = 9 := by
  have hempty : Lists newClusterRun.store [] :=
    ⟨nodup_nil, fun n => by simp [newClusterRun, ClusterStore.empty, ClusterStore.nodeAt]⟩
  have hreach : Reach ClusterCall.next ClusterRun.Allowed newClusterRun
      (exec ClusterCall.next sampleCalls newClusterRun) :=
    reach_exec ⟨⟨rfl, hempty⟩, ⟨rfl, hempty.addStorageNode rfl⟩, trivial, trivial, trivial⟩
  exact (ClusterRun.peers_and_addresses hreach).2.2 .badger _ 9 rfl

end HugoFS.Cluster
