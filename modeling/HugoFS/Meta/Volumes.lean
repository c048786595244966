import HugoFS.Meta.Cluster
import Mathlib.Algebra.BigOperators.Group.Finset.Basic

/-!
# The volumes of a cluster

The records of physical and virtual volumes. `GetPhysicalVolume` always reads the key of volume
0, and a stored virtual volume cannot be read at all, since `Deserialize` uses a message that
was never allocated.
-/

namespace HugoFS.Cluster

open ClusterStore List Runs

/-! ### The service -/

def getPhysicalVolume (s : ClusterStore) (_id : UInt64) : Except ClusterErr PhysicalVolume :=
  match s.physicalAt 0 with
  | some v => .ok v
  | none => .error .notFound

structure PatchPhysicalVolumeReq where
  id : UInt64
  storageNodeId : UInt64
  engine : UInt32
  location : String
  quota : Option UInt64
  threhold : Option UInt64

def patchPhysicalVolume (s : ClusterStore) (req : PatchPhysicalVolumeReq) (now : UInt64) :
    Except ClusterErr (Option PhysicalVolume) × ClusterStore :=
  match getNode s req.storageNodeId with
  | .error e => (.error e, s)
  | .ok node =>
    match getPhysicalVolume s req.id, req.quota, req.threhold with
    | .ok _, _, _ => (.ok none, s)
    | .error _, some quota, some threhold =>
      let vol : PhysicalVolume :=
        { id := req.id
          capByte := quota
          usageByte := 0
          createdAt := now
          virtualVolumeId := 0
          storageNodeId := req.storageNodeId
          engine := req.engine
          location := req.location
          threhold := threhold }
      (.ok (some vol), (s.putPhysical vol).putNode (node.addVolume vol))
    -- the quota and the threshold are dereferenced
    | .error _, _, _ => (.error .panic, s)

/-! ### The capacity of a node -/

inductive VolumeCall
  | create (req : CreatePhysicalVolumeReq) (id now : UInt64)
  | patch (req : PatchPhysicalVolumeReq) (now : UInt64)

def VolumeCall.next : VolumeCall → ClusterStore → ClusterStore
  | .create req id now, s => (createPhysicalVolume s req id now).2
  | .patch req now, s => (patchPhysicalVolume s req now).2

namespace ClusterStore

def volumesOf (s : ClusterStore) (i : UInt64) : Finset UInt64 :=
  s.physical.keys.filter fun v => (s.physicalAt v).any fun vol => vol.storageNodeId = i

def capByteAt (s : ClusterStore) (v : UInt64) : ℕ :=
  ((s.physicalAt v).map fun vol => vol.capByte.toNat).getD 0

variable {s : ClusterStore} {v i : UInt64} {vol : PhysicalVolume} {n : StorageNode}

theorem mem_volumesOf :
    v ∈ s.volumesOf i ↔ ∃ vol, s.physicalAt v = some vol ∧ vol.storageNodeId = i := by
  rw [volumesOf, Finset.mem_filter, Finmap.mem_keys, ← Finmap.lookup_isSome, Option.any_eq_true]
  constructor
  · rintro ⟨-, vol, hvol, hi⟩
    exact ⟨vol, hvol, of_decide_eq_true hi⟩
  · rintro ⟨vol, hvol, hi⟩
    refine ⟨?_, vol, hvol, decide_eq_true hi⟩
    obtain ⟨r, hr, -⟩ := Option.map_eq_some_iff.mp hvol
    rw [hr]
    rfl

end ClusterStore

def VolumeCall.stores (s : ClusterStore) : VolumeCall → Option (StorageNode × PhysicalVolume)
  | .create req id now =>
    match s.nodeAt req.storageNodeId, (createPhysicalVolume s req id now).1 with
    | some node, .ok vol => some (node, vol)
    | _, _ => none
  | .patch req now =>
    match s.nodeAt req.storageNodeId, (patchPhysicalVolume s req now).1 with
    | some node, .ok (some vol) => some (node, vol)
    | _, _ => none

open VolumeCall

theorem VolumeCall.next_eq (c : VolumeCall) (s : ClusterStore) :
    (c.stores s = none ∧ c.next s = s) ∨
      ∃ node vol, c.stores s = some (node, vol) ∧ s.nodeAt vol.storageNodeId = some node ∧
        c.next s = (s.putPhysical vol).putNode (node.addVolume vol) := by
  cases c with
  | create req id now =>
    simp only [stores, next, createPhysicalVolume, getNode]
    cases hn : s.nodeAt req.storageNodeId with
    | none => exact .inl ⟨rfl, rfl⟩
    | some node => exact .inr ⟨_, _, rfl, hn, rfl⟩
  | patch req now =>
    simp only [stores, next, patchPhysicalVolume, getNode]
    cases hn : s.nodeAt req.storageNodeId with
    | none => exact .inl ⟨rfl, rfl⟩
    | some node =>
      cases getPhysicalVolume s req.id with
      | ok found => exact .inl ⟨rfl, rfl⟩
      | error e =>
        cases req.quota with
        | none => exact .inl ⟨rfl, rfl⟩
        | some quota =>
          cases req.threhold with
          | none => exact .inl ⟨rfl, rfl⟩
          | some threhold => exact .inr ⟨_, _, rfl, hn, rfl⟩

def VolumeCall.Fresh (s : ClusterStore) : VolumeCall → Prop
  | .create _ id _ => s.physicalAt id = none
  | .patch _ _ => True

def VolumeCall.Allowed (s : ClusterStore) : VolumeCall → Prop
  | .create req _ _ => ∀ node, s.nodeAt req.storageNodeId = some node →
    node.cap.toNat + (req.quota.getD (40 * 1024 * 1024 * 1024)).toNat < 2 ^ 64
  | .patch req _ => ∀ node quota threhold, s.nodeAt req.storageNodeId = some node →
    s.physicalAt 0 = none → req.quota = some quota → req.threhold = some threhold →
    s.physicalAt req.id = none ∧ node.cap.toNat + quota.toNat < 2 ^ 64

def VolumeCall.Fits (s : ClusterStore) (c : VolumeCall) : Prop :=
  ∀ node vol, c.stores s = some (node, vol) →
    s.physicalAt vol.id = none ∧ node.cap.toNat + vol.capByte.toNat < 2 ^ 64

theorem VolumeCall.fits_iff {s : ClusterStore} {c : VolumeCall} (hfresh : c.Fresh s) :
    c.Fits s ↔ c.Allowed s := by
  cases c with
  | create req id now =>
    cases hn : s.nodeAt req.storageNodeId with
    | none =>
      refine iff_of_true (fun node vol h => ?_) fun node h => ?_
      · simp [stores, hn] at h
      · cases hn.symm.trans h
    | some node =>
      constructor
      · intro h node' hnode'
        cases hn.symm.trans hnode'
        exact (h node _ (by simp only [stores, createPhysicalVolume, getNode, hn]; rfl)).2
      · intro h node' vol hstores
        simp only [stores, createPhysicalVolume, getNode, hn] at hstores
        cases hstores
        exact ⟨hfresh, h node hn⟩
  | patch req now =>
    constructor
    · intro h node quota threhold hn hzero hq ht
      exact h node _ (by
        simp only [stores, patchPhysicalVolume, getPhysicalVolume, getNode, hn, hzero, hq,
          ht]
        rfl)
    · intro h node vol hstores
      simp only [stores, patchPhysicalVolume, getPhysicalVolume, getNode] at hstores
      cases hn : s.nodeAt req.storageNodeId with
      | none => simp [hn] at hstores
      | some node' =>
        cases hzero : s.physicalAt 0 with
        | some found => simp [hn, hzero] at hstores
        | none =>
          cases hq : req.quota with
          | none => simp [hn, hzero, hq] at hstores
          | some quota =>
            cases ht : req.threhold with
            | none => simp [hn, hzero, hq, ht] at hstores
            | some threhold =>
              simp only [hn, hzero, hq, ht] at hstores
              cases hstores
              exact h node quota threhold hn hzero hq ht

def CapExact (init : UInt64 → ℕ) (s : ClusterStore) : Prop :=
  ∀ i n, s.nodeAt i = some n → n.physicalVolumeIds.Nodup ∧
    n.physicalVolumeIds.toFinset = s.volumesOf i ∧
    n.cap.toNat = init i + ∑ v ∈ s.volumesOf i, s.capByteAt v

structure Bare (s : ClusterStore) : Prop where
  volumes : ∀ v, s.physicalAt v = none
  nodes : ∀ i n, s.nodeAt i = some n → n.physicalVolumeIds = []

def initialCap (s : ClusterStore) (i : UInt64) : ℕ := ((s.nodeAt i).map fun n => n.cap.toNat).getD 0

structure VolumesSound (init : UInt64 → ℕ) (s : ClusterStore) : Prop where
  cap : CapExact init s
  homes : ∀ v vol, s.physicalAt v = some vol → (s.nodeAt vol.storageNodeId).isSome = true

section Cap

variable {init : UInt64 → ℕ} {s : ClusterStore} {node : StorageNode} {vol : PhysicalVolume}

theorem VolumesSound.of_bare (h : Bare s) : VolumesSound (initialCap s) s where
  cap i n hn := by
    have hnone : s.volumesOf i = ∅ := by
      rw [Finset.eq_empty_iff_forall_notMem]
      intro v hv
      obtain ⟨vol, hvol, -⟩ := mem_volumesOf.mp hv
      cases (h.volumes v).symm.trans hvol
    rw [h.nodes i n hn, hnone]
    refine ⟨nodup_nil, rfl, ?_⟩
    rw [initialCap, hn]
    rfl
  homes v vol hvol := by cases (h.volumes v).symm.trans hvol

section

variable (hnew : s.physicalAt vol.id = none)
include hnew

theorem notMem_volumesOf (i : UInt64) :
    vol.id ∉ s.volumesOf i := by
  intro hmem
  obtain ⟨vol', hvol', -⟩ := mem_volumesOf.mp hmem
  cases hnew.symm.trans hvol'

theorem volumesOf_put (n : StorageNode) (i : UInt64) :
    ((s.putPhysical vol).putNode n).volumesOf i =
      if vol.storageNodeId = i then insert vol.id (s.volumesOf i) else s.volumesOf i := by
  ext v
  rw [mem_volumesOf, physicalAt_putNode,
    physicalAt_putPhysical]
  by_cases hv : v = vol.id
  · have hnot := notMem_volumesOf hnew i
    subst hv
    by_cases hi : vol.storageNodeId = i <;> simp [hi, hnot]
  · by_cases hi : vol.storageNodeId = i <;> simp [hv, hi, mem_volumesOf]

theorem sum_capByteAt_put (n : StorageNode) (i : UInt64) :
    ∑ v ∈ s.volumesOf i, ((s.putPhysical vol).putNode n).capByteAt v =
      ∑ v ∈ s.volumesOf i, s.capByteAt v := by
  apply Finset.sum_congr rfl
  intro v hv
  have hne : v ≠ vol.id := by
    rintro rfl
    exact notMem_volumesOf hnew i hv
  rw [capByteAt, physicalAt_putNode, physicalAt_putPhysical,
    if_neg hne, capByteAt]

theorem sum_put (n : StorageNode) :
    ∑ v ∈ ((s.putPhysical vol).putNode n).volumesOf vol.storageNodeId,
        ((s.putPhysical vol).putNode n).capByteAt v =
      vol.capByte.toNat + ∑ v ∈ s.volumesOf vol.storageNodeId, s.capByteAt v := by
  rw [volumesOf_put hnew, if_pos rfl, Finset.sum_insert (notMem_volumesOf hnew _),
    sum_capByteAt_put hnew]
  simp [capByteAt, physicalAt_putPhysical]

end

theorem VolumesSound.put (h : VolumesSound init s) (hnode : s.nodeAt vol.storageNodeId = some node)
    (hnew : s.physicalAt vol.id = none) (hcap : node.cap.toNat + vol.capByte.toNat < 2 ^ 64) :
    VolumesSound init ((s.putPhysical vol).putNode (node.addVolume vol)) := by
  have hid : node.id = vol.storageNodeId := nodeAt_id hnode
  have hat : ∀ i, ((s.putPhysical vol).putNode (node.addVolume vol)).nodeAt i =
      if i = vol.storageNodeId then some (node.addVolume vol) else s.nodeAt i := by
    intro i
    rw [nodeAt_putNode, nodeAt_putPhysical,
      show (node.addVolume vol).id = node.id from rfl, hid]
  constructor
  · intro i n hn
    rw [hat] at hn
    split at hn
    · next hi =>
      cases hn
      subst hi
      obtain ⟨hnodup, hlist, hsum⟩ := h.cap _ node hnode
      have hnot : vol.id ∉ node.physicalVolumeIds := by
        rw [← mem_toFinset, hlist]
        exact notMem_volumesOf hnew _
      refine ⟨hnodup.append (nodup_singleton _) (by simpa using hnot), ?_, ?_⟩
      · rw [volumesOf_put hnew, if_pos rfl, ← hlist]
        ext v
        simp [StorageNode.addVolume]
      · rw [sum_put hnew]
        show (node.cap + vol.capByte).toNat = _
        rw [UInt64.toNat_add, Nat.mod_eq_of_lt hcap, hsum]
        omega
    · next hi =>
      rw [volumesOf_put hnew, if_neg (Ne.symm hi), sum_capByteAt_put hnew]
      exact h.cap i n hn
  · intro v vol' hvol'
    rw [physicalAt_putNode, physicalAt_putPhysical] at hvol'
    rw [hat]
    split
    · rfl
    next hi =>
    split at hvol'
    · cases hvol'
      exact absurd rfl hi
    · exact h.homes v vol' hvol'

theorem VolumesSound.next (h : VolumesSound init s) (c : VolumeCall) (hc : c.Fits s) :
    VolumesSound init (c.next s) := by
  obtain ⟨-, hnext⟩ | ⟨node, vol, hstores, hnode, hnext⟩ := c.next_eq s
  · rwa [hnext]
  rw [hnext]
  obtain ⟨hnew, hcap⟩ := hc node vol hstores
  exact h.put hnode hnew hcap

theorem VolumesSound.fits (h : VolumesSound init s) (c : VolumeCall)
    (he : CapExact init (c.next s)) : c.Fits s := by
  intro node vol hstores
  obtain ⟨hnone, -⟩ | ⟨node', vol', hstores', hnode, hnext⟩ := c.next_eq s
  · cases hnone.symm.trans hstores
  cases hstores'.symm.trans hstores
  rw [hnext] at he
  have hid : node.id = vol.storageNodeId := nodeAt_id hnode
  have hself : ((s.putPhysical vol).putNode (node.addVolume vol)).nodeAt vol.storageNodeId =
      some (node.addVolume vol) := by
    rw [nodeAt_putNode]
    exact if_pos hid.symm
  obtain ⟨hnodup, -, hsum⟩ := he _ _ hself
  obtain ⟨-, hlist, hsum₀⟩ := h.cap _ node hnode
  have hnew : s.physicalAt vol.id = none := by
    by_contra hsome
    obtain ⟨old, hold⟩ := Option.ne_none_iff_exists'.mp hsome
    have hnot : vol.id ∉ node.physicalVolumeIds := by
      intro hmem
      exact disjoint_of_nodup_append hnodup hmem (mem_singleton_self _)
    -- the volume was stored for another node, which still lists it
    have hne : old.storageNodeId ≠ vol.storageNodeId := by
      intro heq
      apply hnot
      rw [← mem_toFinset, hlist]
      exact mem_volumesOf.mpr ⟨old, hold, heq⟩
    obtain ⟨home, hhome⟩ := Option.isSome_iff_exists.mp (h.homes _ old hold)
    have hother : ((s.putPhysical vol).putNode (node.addVolume vol)).nodeAt old.storageNodeId =
        some home := by
      rw [nodeAt_putNode]
      exact (if_neg (by rw [show (node.addVolume vol).id = node.id from rfl, hid]; exact hne)).trans
        hhome
    have hmem : vol.id ∈ home.physicalVolumeIds := by
      rw [← mem_toFinset, (h.cap _ home hhome).2.1]
      exact mem_volumesOf.mpr ⟨old, hold, rfl⟩
    rw [← mem_toFinset, (he _ home hother).2.1] at hmem
    obtain ⟨vol', hvol', hv⟩ := mem_volumesOf.mp hmem
    rw [physicalAt_putNode, physicalAt_putPhysical, if_pos rfl] at hvol'
    cases hvol'
    exact hne hv.symm
  refine ⟨hnew, ?_⟩
  rw [sum_put hnew] at hsum
  have hcap : (node.addVolume vol).cap.toNat = (node.cap.toNat + vol.capByte.toNat) % 2 ^ 64 :=
    UInt64.toNat_add _ _
  have hlt : (node.addVolume vol).cap.toNat < 2 ^ 64 := (node.addVolume vol).cap.toNat_lt
  omega

end Cap

/-- In a run of `CreatePhysicalVolume` and `PatchPhysicalVolume` the capacities and the lists of
volumes stay exact if and only if no stored volume is stored again and no capacity overflows. -/
theorem always_capExact_iff (s : ClusterStore) (calls : List VolumeCall) (hs : Bare s)
    (hfresh : Legal VolumeCall.next VolumeCall.Fresh calls s) :
    Always VolumeCall.next (CapExact (initialCap s)) calls s ↔
      Legal VolumeCall.next VolumeCall.Allowed calls s :=
  always_iff_legal (I := VolumesSound (initialCap s)) (fun _ h => h.cap)
    (fun _ c h hf hc => h.next c ((VolumeCall.fits_iff hf).mpr hc))
    (fun _ c h hf he => (VolumeCall.fits_iff hf).mp (h.fits c he)) hfresh (.of_bare hs)

def oneNode : ClusterStore :=
  ClusterStore.empty.putNode (newStorageNode ⟨"10.0.0.1", 8001, 9001, 100⟩ 1 0 0 [])

theorem oneNode_bare : Bare oneNode where
  volumes v := by
    rw [oneNode, physicalAt_putNode]
    simp [empty, physicalAt]
  nodes i n hn := by
    rw [oneNode, nodeAt_putNode] at hn
    split at hn
    · cases hn
      rfl
    · simp [empty, nodeAt] at hn

def patchVolume (id : UInt64) : VolumeCall := .patch ⟨id, 1, 0, "/data", some 10, some 0⟩ 0

def volumeCalls : List VolumeCall :=
  [patchVolume 5, .create ⟨1, 0, "/data", none, none⟩ 6 0, patchVolume 7]

theorem always_capExact_sample :
    Always VolumeCall.next (CapExact (initialCap oneNode)) volumeCalls oneNode := by
  refine (always_capExact_iff oneNode volumeCalls oneNode_bare ⟨trivial, rfl, trivial, trivial⟩).mpr
    ⟨?_, ?_, ?_, trivial⟩
  · rintro node quota threhold hn - hq -
    cases hn
    cases hq
    exact ⟨rfl, by decide⟩
  · intro node hn
    cases hn
    decide
  · rintro node quota threhold hn - hq -
    cases hn
    cases hq
    exact ⟨rfl, by decide⟩

/-- A volume is patched twice: the node lists it twice and counts it twice. -/
theorem capExact_broken :
    Legal VolumeCall.next VolumeCall.Fresh [patchVolume 5, patchVolume 5] oneNode ∧
      ¬CapExact (initialCap oneNode)
        (exec VolumeCall.next [patchVolume 5, patchVolume 5] oneNode) := by
  refine ⟨⟨trivial, trivial, trivial⟩, fun h => ?_⟩
  have hnodup : [(5 : UInt64), 5].Nodup := (h 1 _ rfl).1
  exact absurd hnodup (by decide)

/-! ### Bindings -/

def VirtualVolume.deserialize (_stored : VirtualVolume) : Except ClusterErr VirtualVolume :=
  .error .panic

def getVirtualVolume (s : ClusterStore) (id : UInt64) : Except ClusterErr VirtualVolume :=
  match s.virtualAt id with
  | some v => v.deserialize
  | none => .error .notFound

def joinErr {α : Type} (base : String) : Except ClusterErr α → Except ClusterErr α
  | .ok a => .ok a
  | .error .panic => .error .panic
  | .error e => .error (.join base e)

def alreadyBound (p v : UInt64) : ClusterErr :=
  .message s!"physical volume {p} is already bound to virtual volume {v}"

def notBound (p v : UInt64) : ClusterErr :=
  .message s!"physical volume {p} is not bound to virtual volume {v}"

def bindPhysicalVolume (s : ClusterStore) (v p : UInt64) : Except ClusterErr ClusterStore := do
  let base := s!"failed to bind physical volume {p} to virtual volume {v}"
  let vVol ← joinErr base (getVirtualVolume s v)
  if p ∈ vVol.physicalVolumeIds then .error (.join base (alreadyBound p v))
  else
    let pVol ← joinErr base (getPhysicalVolume s p)
    if pVol.virtualVolumeId ≠ 0 then .error (.join base (alreadyBound p pVol.virtualVolumeId))
    else
      pure ((s.putVirtual { vVol with physicalVolumeIds := vVol.physicalVolumeIds ++ [p] }).putPhysical
        { pVol with virtualVolumeId := v })

def unbindPhysicalVolume (s : ClusterStore) (v p : UInt64) : Except ClusterErr ClusterStore := do
  let base := s!"failed to unbind physical volume {p} from virtual volume {v}"
  let vVol ← joinErr base (getVirtualVolume s v)
  if p ∉ vVol.physicalVolumeIds then .error (.join base (notBound p v))
  else
    let pVol ← joinErr base (getPhysicalVolume s p)
    if pVol.virtualVolumeId ≠ v then .error (.join base (notBound p v))
    else pure ((s.putVirtual vVol).putPhysical { pVol with virtualVolumeId := 0 })

inductive BindCall
  | bind (v p : UInt64)
  | unbind (v p : UInt64)

def BindCall.reply (s : ClusterStore) : BindCall → Except ClusterErr ClusterStore
  | .bind v p => bindPhysicalVolume s v p
  | .unbind v p => unbindPhysicalVolume s v p

def BindCall.next (c : BindCall) (s : ClusterStore) : ClusterStore :=
  match c.reply s with
  | .ok s' => s'
  | .error _ => s

def BindCall.Existing (s : ClusterStore) : BindCall → Prop
  | .bind v p | .unbind v p => (s.virtualAt v).isSome = true ∧ (s.physicalAt p).isSome = true

def Unbound (s : ClusterStore) (p : UInt64) : Prop :=
  ∃ vol, s.physicalAt p = some vol ∧ vol.virtualVolumeId = 0

def BindCall.Binds (s : ClusterStore) : BindCall → Prop
  | .bind v p => Unbound s p → ∃ s', bindPhysicalVolume s v p = .ok s'
  | .unbind _ _ => True

def BindingsAgree (s : ClusterStore) : Prop :=
  ∀ v p vVol pVol, s.virtualAt v = some vVol → s.physicalAt p = some pVol →
    (p ∈ vVol.physicalVolumeIds ↔ pVol.virtualVolumeId = v)

def Restores (s : ClusterStore) : Prop :=
  ∀ v p, BindCall.Existing s (.bind v p) →
    let s' := (BindCall.unbind v p).next ((BindCall.bind v p).next s)
    s'.virtualAt v = s.virtualAt v ∧ s'.physicalAt p = s.physicalAt p

def BindCall.Idle (s : ClusterStore) : BindCall → Prop
  | .bind _ p => ¬Unbound s p
  | .unbind _ _ => True

section Bind

variable {s : ClusterStore} {v p : UInt64} {c : BindCall}

theorem getVirtualVolume_of_isSome (h : (s.virtualAt v).isSome = true) :
    getVirtualVolume s v = .error .panic := by
  obtain ⟨vVol, hv⟩ := Option.isSome_iff_exists.mp h
  rw [getVirtualVolume, hv]
  rfl

open BindCall

theorem BindCall.reply_panic (h : c.Existing s) : c.reply s = .error .panic := by
  cases c with
  | bind v p =>
    rw [reply, bindPhysicalVolume, getVirtualVolume_of_isSome h.1]
    rfl
  | unbind v p =>
    rw [reply, unbindPhysicalVolume, getVirtualVolume_of_isSome h.1]
    rfl

theorem BindCall.next_eq_self (h : c.Existing s) : c.next s = s := by
  rw [next, reply_panic h]

theorem restores (s : ClusterStore) : Restores s := by
  intro v p h
  have hbind : (bind v p).next s = s := next_eq_self h
  have hunbind : (unbind v p).next s = s := next_eq_self h
  simp only [hbind, hunbind, and_self]

theorem BindCall.binds_iff (h : c.Existing s) : c.Binds s ↔ c.Idle s := by
  cases c with
  | unbind v p => exact Iff.rfl
  | bind v p =>
    have hpanic : bindPhysicalVolume s v p = .error .panic := reply_panic h
    constructor
    · intro hb hu
      obtain ⟨s', hs'⟩ := hb hu
      cases hpanic.symm.trans hs'
    · intro hidle hu
      exact absurd hu hidle

end Bind

/-- Along a sequence of calls on volumes that exist, the records agree, a binding can be undone
and every volume that is not bound can be bound, if and only if no call tries to bind one. -/
theorem bindings_iff (s : ClusterStore) (calls : List BindCall) (hs : BindingsAgree s)
    (hexist : Legal BindCall.next BindCall.Existing calls s) :
    Always BindCall.next (fun s => BindingsAgree s ∧ Restores s) calls s ∧
      Legal BindCall.next BindCall.Binds calls s ↔
    Legal BindCall.next BindCall.Idle calls s := by
  induction calls with
  | nil => exact iff_of_true ⟨⟨hs, restores s⟩, trivial⟩ trivial
  | cons c calls ih =>
    obtain ⟨hc, hrest⟩ := hexist
    have hself : c.next s = s := BindCall.next_eq_self hc
    rw [hself] at hrest
    simp only [Always, Legal, hself, BindCall.binds_iff hc]
    rw [← ih hrest]
    constructor
    · rintro ⟨⟨-, halways⟩, hidle, hlegal⟩
      exact ⟨hidle, halways, hlegal⟩
    · rintro ⟨hidle, halways, hlegal⟩
      exact ⟨⟨⟨hs, restores s⟩, halways⟩, hidle, hlegal⟩

def twoVolumes (ids : List UInt64) (virtualId : UInt64) : ClusterStore :=
  (ClusterStore.empty.putVirtual ⟨3, 100, 0, ids⟩).putPhysical
    ⟨5, 10, 0, 0, virtualId, 1, 0, "/data", 0⟩

theorem twoVolumes_agree {ids : List UInt64} {virtualId : UInt64}
    (h : 5 ∈ ids ↔ virtualId = 3) : BindingsAgree (twoVolumes ids virtualId) := by
  intro v p vVol pVol hv hp
  have hv' := (virtualAt_putVirtual _ _ v).symm.trans hv
  have hp' := (physicalAt_putPhysical _ _ p).symm.trans hp
  split at hv'
  · split at hp'
    · next hv3 hp5 =>
      cases hv'
      cases hp'
      subst hv3 hp5
      exact h
    · simp [putVirtual, empty, physicalAt] at hp'
  · simp [empty, virtualAt] at hv'

theorem bindings_sample :
    Always BindCall.next (fun s => BindingsAgree s ∧ Restores s) [.unbind 3 5, .bind 3 5]
        (twoVolumes [5] 3) ∧
      Legal BindCall.next BindCall.Binds [.unbind 3 5, .bind 3 5] (twoVolumes [5] 3) := by
  refine (bindings_iff (twoVolumes [5] 3) [.unbind 3 5, .bind 3 5] (twoVolumes_agree (by decide))
    ⟨⟨rfl, rfl⟩, ⟨rfl, rfl⟩, trivial⟩).mpr ⟨trivial, ?_, trivial⟩
  rintro ⟨vol, hvol, hzero⟩
  cases hvol
  exact absurd hzero (by decide)

/-- A volume that is not bound cannot be bound. -/
theorem bind_panics :
    BindingsAgree (twoVolumes [] 0) ∧ BindCall.Existing (twoVolumes [] 0) (.bind 3 5) ∧
      Unbound (twoVolumes [] 0) 5 ∧
      bindPhysicalVolume (twoVolumes [] 0) 3 5 = .error .panic :=
  ⟨twoVolumes_agree (by decide), ⟨rfl, rfl⟩, ⟨_, rfl, rfl⟩, rfl⟩

end HugoFS.Cluster
