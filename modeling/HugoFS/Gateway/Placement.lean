import HugoFS.Lib.SliceSort
import HugoFS.Lib.Wrapping
import HugoFS.Meta.Cluster

/-!
# The nodes with the most space left

`MetaProxy.GetTopNPlus` gives the gateway the nodes that a block and its replicas go to, and
`GetCandidateStorage` of the cluster service a primary and a secondary node. Both sort the
nodes by `Cap - Usage` with a comparator that subtracts unsigned integers; its order is that
of the exact differences as long as no subtraction leaves the range.
-/

namespace HugoFS.Cluster

open List StorageNode

open SliceSort (Sorter Ranks stable)

/-! ### The comparator -/

def StorageNode.remain (n : StorageNode) : Int64 := (n.cap - n.usage).toInt64

def StorageNode.before (a b : StorageNode) : Bool := decide (b.remain - a.remain < 0)

def StorageNode.space (n : StorageNode) : ℤ := n.cap.toNat - n.usage.toNat

def StorageNode.Bounded (n : StorageNode) : Prop := n.cap.toNat < 2 ^ 62 ∧ n.usage.toNat < 2 ^ 62
deriving Decidable

/-! ### The two functions -/

def getTopNPlus (nodes : List StorageNode) (replica : ℤ) : Except ClusterErr (List StorageNode) :=
  let n := replica + 1
  if (nodes.length : ℤ) < n then .error (.message "no such node")
  else if n < 0 then .error .panic
  else .ok (((stable StorageNode).sort StorageNode.before nodes).take n.toNat)

def getCandidateStorage (S : Sorter StorageNode) (nodes : List StorageNode) :
    Except ClusterErr (StorageNode × StorageNode) :=
  if nodes.length < 2 then .error (.message "not enough volumes")
  else
    match S.sort StorageNode.before nodes with
    | primary :: secondary :: _ => .ok (primary, secondary)
    | _ => .error .panic

structure MostSpace (nodes chosen : List StorageNode) : Prop where
  distinct : (chosen.map StorageNode.id).Nodup
  known : ∀ n ∈ chosen, n ∈ nodes
  sorted : chosen.Pairwise fun a b => b.space ≤ a.space
  most : ∀ n ∈ nodes, n ∉ chosen → ∀ c ∈ chosen, n.space ≤ c.space

section Placement

variable {nodes : List StorageNode} {n : StorageNode}

theorem StorageNode.Bounded.remain_eq (h : n.Bounded) : n.remain.toInt = n.space :=
  Wrapping.toInt_sub_toInt64 h.1 h.2

theorem StorageNode.Bounded.space_range (h : n.Bounded) : -2 ^ 62 < n.space ∧ n.space < 2 ^ 62 := by
  obtain ⟨hcap, husage⟩ := h
  rw [space]
  omega

theorem ranks_before (hb : ∀ n ∈ nodes, n.Bounded) :
    Ranks before space nodes := by
  intro a ha b hb'
  have hab := Wrapping.sub_neg_iff (x := b.remain) (y := a.remain)
    (by rw [(hb b hb').remain_eq]; exact (hb b hb').space_range)
    (by rw [(hb a ha).remain_eq]; exact (hb a ha).space_range)
  rw [(hb a ha).remain_eq, (hb b hb').remain_eq] at hab
  rw [before, decide_eq_true_iff]
  exact hab

theorem mostSpace_take (S : Sorter StorageNode) (hids : (nodes.map StorageNode.id).Nodup)
    (hb : ∀ n ∈ nodes, n.Bounded) (k : ℕ) :
    MostSpace nodes ((S.sort before nodes).take k) where
  distinct := by
    have hsorted : ((S.sort StorageNode.before nodes).map StorageNode.id).Nodup :=
      ((S.perm _ nodes).map _).nodup_iff.mpr hids
    rw [map_take]
    exact hsorted.sublist (take_sublist ..)
  known n hn := (S.perm _ nodes).mem_iff.mp (mem_of_mem_take hn)
  sorted := (S.pairwise_key (ranks_before hb)).sublist (take_sublist ..)
  most n hn hout c hc := S.key_le_of_notMem_take (ranks_before hb) hn hout hc

theorem getCandidateStorage_ok (S : Sorter StorageNode) (hlen : 2 ≤ nodes.length) :
    ∃ primary secondary, getCandidateStorage S nodes = .ok (primary, secondary) ∧
      (S.sort before nodes).take 2 = [primary, secondary] := by
  have hlen' := (S.perm before nodes).length_eq
  rw [getCandidateStorage, if_neg (by omega)]
  cases hs : S.sort before nodes with
  | nil =>
    rw [hs, length_nil] at hlen'
    omega
  | cons primary rest =>
    cases rest with
    | nil =>
      rw [hs, length_singleton] at hlen'
      omega
    | cons secondary rest => exact ⟨primary, secondary, rfl, rfl⟩

/-- Whatever order the nodes come in, `GetTopNPlus` returns as many as are asked for and
`GetCandidateStorage` two of them, and they are the nodes with the most space. -/
theorem placement_most_space (hids : (nodes.map StorageNode.id).Nodup)
    (hb : ∀ n ∈ nodes, n.Bounded) :
    (∀ replica : ℤ, 0 ≤ replica → replica + 1 ≤ nodes.length →
      ∃ chosen, getTopNPlus nodes replica = .ok chosen ∧
        (chosen.length : ℤ) = replica + 1 ∧ MostSpace nodes chosen) ∧
    ∀ S : Sorter StorageNode, 2 ≤ nodes.length →
      ∃ primary secondary, getCandidateStorage S nodes = .ok (primary, secondary) ∧
        MostSpace nodes [primary, secondary] := by
  constructor
  · intro replica h0 hlen
    refine ⟨_, (if_neg (by omega)).trans (if_neg (by omega)), ?_, mostSpace_take _ hids hb _⟩
    rw [length_take, ((stable StorageNode).perm StorageNode.before nodes).length_eq]
    omega
  · intro S hlen
    obtain ⟨primary, secondary, hok, htake⟩ := getCandidateStorage_ok S hlen
    refine ⟨primary, secondary, hok, ?_⟩
    rw [← htake]
    exact mostSpace_take S hids hb 2

end Placement

def spaceNode (id cap usage : UInt64) : StorageNode :=
  { id, ip := "127.0.0.1", port := 8001, createdAt := 0, updatedAt := 0, peers := [], cap, usage,
    physicalVolumeIds := [], tcpPort := 9001 }

def threeNodes : List StorageNode := [spaceNode 1 100 40, spaceNode 2 100 300, spaceNode 3 100 10]

theorem placement_most_space_sample :
    (∃ chosen, getTopNPlus threeNodes 1 = .ok chosen ∧ (chosen.length : ℤ) = 1 + 1 ∧
      MostSpace threeNodes chosen) ∧
    (∃ primary secondary, getCandidateStorage (stable _) threeNodes = .ok (primary, secondary) ∧
      MostSpace threeNodes [primary, secondary]) ∧
    getTopNPlus threeNodes 1 = .ok [spaceNode 3 100 10, spaceNode 1 100 40] := by
  have hids : (threeNodes.map StorageNode.id).Nodup := by decide
  have hb : ∀ n ∈ threeNodes, n.Bounded := by decide
  have hmost := placement_most_space hids hb
  exact ⟨hmost.1 1 (by decide) (by decide), hmost.2 (stable _) (by decide), rfl⟩

end HugoFS.Cluster
