import HugoFS.Storage.Node
import HugoFS.Storage.Readback

/-!
# Copies in the object store

`Backed` is an invariant of the interleavings of a node: a tracked block that is not local only has
an object in the object store. But `RemoveLocal` deletes the file of the slot that the hash table
assigns to the block, and that slot may have been given to another block. An upload reads it, too,
and then the object has the bytes of the other block.
-/

namespace HugoFS.Storage

open Finmap List Runs NodeState Node Volume

/-- What a goroutine carries from step to step has the contents that `P` allows for the block. -/
def Task.Backed (P : BlockID → Bytes → Prop) (cloud : Finmap fun _ : BlockID => Bytes) :
    Task → Prop
  | .write c => P c.hash c.data
  | .announce e _ => e.state = .localOnly
  | .put b data => P b data
  | .restoreWrite m data => P m.blockID data
  | .markDestaged b => b ∈ cloud
  | .recycle ms => ∀ m ∈ ms, m.blockID ∈ cloud
  | .markFreeLocal b ms => b ∈ cloud ∧ ∀ m ∈ ms, m.blockID ∈ cloud
  | _ => True

variable {P : BlockID → Bytes → Prop} {cloud : Finmap fun _ : BlockID => Bytes} {v : Volume}

theorem Task.Backed.mono {cloud' : Finmap fun _ : BlockID => Bytes} {k : Task}
    (h : k.Backed P cloud) (hle : ∀ b, b ∈ cloud → b ∈ cloud') : k.Backed P cloud' := by
  cases k with
  | write | announce | put | restoreWrite => exact h
  | markDestaged b => exact hle b h
  | recycle ms => exact fun m hm => hle _ (h m hm)
  | markFreeLocal b ms => exact ⟨hle b h.1, fun m hm => hle _ (h.2 m hm)⟩
  | _ => trivial

theorem Task.Backed.done {k : Task} (h : k.Backed P cloud) : k.done.Backed P cloud := by
  cases k with
  | wrote c => trivial
  | _ => exact h

section Node

variable {τ : Type} [DecidableEq τ] {st : NodeState τ} {t : τ} {k : Task}
variable {sha256 : Bytes → BlockID} {vols : List (ℕ × ℕ × VolumeStatistics)}

structure NodeState.Backed (P : BlockID → Bytes → Prop) (st : NodeState τ) : Prop where
  keyed : ∀ {b m}, st.node.blockMetas.lookup b = some m → m.blockID = b
  metas : ∀ {b m}, st.node.blockMetas.lookup b = some m → m.state ≠ .localOnly →
    b ∈ st.node.cloud
  inbox : ∀ {e t}, st.inbox = some (e, t) → e.state = .localOnly
  tasks : ∀ t, (st.tasks t).Backed P st.node.cloud
  cloud : ∀ {b d}, st.node.cloud.lookup b = some d → P b d
  vols : ∀ {vol v}, st.node.candidates.lookup vol = some v → v.Sound P

/-- What an upload reads from a volume has the contents that `P` allows. -/
def NodeCall.Fetches (P : BlockID → Bytes → Prop) (st : NodeState τ) : NodeCall τ → Prop
  | .advance t _ => ∀ b vol v f, st.tasks t = .fetch b vol →
      st.node.candidates.lookup vol = some v → (v.readBlock b).reply = some (.ok f) → P b f.data
  | _ => True

/-- An upload reads a block only while the record of its slot names it. -/
def NodeCall.UploadsOwn (st : NodeState τ) : NodeCall τ → Prop
  | .advance t _ =>
    match st.tasks t with
    | .fetch b vol => ∀ v ∈ st.node.candidates.lookup vol, v.slotRecord b = some b
    | _ => True
  | _ => True

instance (st : NodeState τ) (c : NodeCall τ) : Decidable (c.UploadsOwn st) := by
  unfold NodeCall.UploadsOwn
  split
  · split <;> infer_instance
  · infer_instance

omit [DecidableEq τ] in
theorem NodeCall.UploadsOwn.fetches {c : NodeCall τ} (h : c.UploadsOwn st)
    (hvols : ∀ {vol v}, st.node.candidates.lookup vol = some v → v.Sound P) : c.Fetches P st := by
  cases c with
  | advance t ch =>
    intro b vol v f ht hv hread
    rw [UploadsOwn, ht] at h
    obtain ⟨hrec, hP⟩ := (hvols hv).readReply (readReply_of_readBlock hread)
    cases (h v hv).symm.trans hrec
    exact hP
  | _ => trivial

namespace NodeState.Backed

section

variable (h : st.Backed P) {e : BlockMetaEvent}
include h

theorem setTask (hk : k.Backed P st.node.cloud) : (st.setTask t k).Backed P where
  __ := h
  tasks t' := by
    by_cases ht : t' = t
    · subst ht
      simpa [setTask] using hk
    · simpa [NodeState.setTask, ht] using h.tasks t'

omit [DecidableEq τ] in
theorem setVolume {vol : ℕ} (hv : v.Sound P) :
    (st.setNode (st.node.setVolume vol v)).Backed P where
  __ := h
  vols {vol' v'} hv' := by
    obtain ⟨rfl, rfl⟩ | ⟨-, hv'⟩ := lookup_insert_eq_some hv'
    · exact hv
    · exact h.vols hv'

theorem atVolume {vol : ℕ} {f : Volume → Volume × Task}
    (hf : ∀ v, st.node.candidates.lookup vol = some v → v.Sound P →
      (f v).1.Sound P ∧ (f v).2.Backed P st.node.cloud) :
    (st.atVolume t vol f).Backed P := by
  rw [NodeState.atVolume]
  split
  · exact h
  next v hv =>
  obtain ⟨hv', hk⟩ := hf v hv (h.vols hv)
  exact (h.setVolume hv').setTask hk

theorem send (he : e.state = .localOnly)
    (hk : k.Backed P st.node.cloud) : (st.send t e k).Backed P := by
  rw [NodeState.send]
  split
  · refine setTask ⟨h.keyed, h.metas, ?_, h.tasks, h.cloud, h.vols⟩ hk
    rintro e' t' heq
    cases heq
    exact he
  · exact h

omit [DecidableEq τ] in
theorem mark {b : BlockID} (s : BlockState) (hb : b ∈ st.node.cloud) :
    (st.setNode (st.node.makeBlockState b s)).Backed P where
  keyed hm := by
    obtain ⟨m', hm', heq, -, -⟩ := lookup_makeBlockState hm
    rw [← h.keyed hm', heq]
  metas {c m} hm hst := by
    obtain ⟨m', hm', -, hne, -⟩ := lookup_makeBlockState hm
    rw [setNode, makeBlockState_cloud]
    by_cases hc : c = b
    · exact hc ▸ hb
    · exact h.metas hm' (hne hc ▸ hst)
  inbox := h.inbox
  tasks t := by
    rw [setNode, makeBlockState_cloud]
    exact h.tasks t
  cloud hd := by
    rw [setNode, makeBlockState_cloud] at hd
    exact h.cloud hd
  vols hv := by
    rw [setNode, makeBlockState_candidates] at hv
    exact h.vols hv

omit [DecidableEq τ] in
theorem put {b : BlockID} {data : Bytes} (hdata : P b data) :
    (st.setNode { st.node with cloud := st.node.cloud.insert b data }).Backed P := by
  have hle : ∀ c, c ∈ st.node.cloud → c ∈ st.node.cloud.insert b data :=
    fun c hc => mem_insert.mpr (.inr hc)
  refine ⟨h.keyed, fun hm hst => hle _ (h.metas hm hst), h.inbox, fun t => (h.tasks t).mono hle,
    fun hd => ?_, h.vols⟩
  obtain ⟨rfl, rfl⟩ | ⟨-, hd⟩ := lookup_insert_eq_some hd
  · exact hdata
  · exact h.cloud hd

theorem spawn {jobs : List (τ × Task)}
    (hj : ∀ j ∈ jobs, j.2.Backed P st.node.cloud) : (st.spawn jobs).Backed P where
  __ := h
  tasks t := by
    rcases st.spawn_tasks jobs t with ht | ht
    · rw [ht]
      exact h.tasks t
    · exact hj _ ht

omit h in
theorem writeStep (hv : v.Sound P) (c : DataContainer) (w : Option DataContainer)
    {stay : Task} (now : ℤ) (hc : P c.hash c.data) (hs : stay.Backed P cloud) :
    (writeStep c w stay now v).1.Sound P ∧ (writeStep c w stay now v).2.Backed P cloud := by
  constructor
  · rcases Volume.Sound.writeBlock hv c now with ⟨-, hstore⟩ | ⟨-, hkeep⟩
    · exact hstore (fun _ hP => hP) hc
    · exact hkeep
  · rw [Storage.writeStep, afterWrite]
    split
    · exact hs
    all_goals
      split
      · trivial
      next e es he =>
      have hmem : e ∈ (v.writeBlock c now).sent := he ▸ mem_cons_self
      show e.state = .localOnly
      rw [eq_of_mem_sent hmem, writtenEvent]

theorem advance (t : τ) (ch : Choice) (hfetch : (NodeCall.advance t ch).Fetches P st) :
    (st.advance t ch).Backed P := by
  have ht := h.tasks t
  rw [NodeState.advance]
  split <;> rename_i heq <;> rw [heq] at ht
  · exact h
  · split_ifs
    · exact h.atVolume fun v _ hv => writeStep hv _ _ _ ht ht
    · exact h
  · exact h.send ht trivial
  · exact h.send ht trivial
  · exact h
  · exact setTask ⟨h.keyed, h.metas, h.inbox, h.tasks, h.cloud, h.vols⟩ trivial
  · exact h.setTask trivial
  · refine h.atVolume fun v _ hv => ?_
    rw [cleanStep]
    split_ifs
    · exact ⟨hv, trivial⟩
    · exact ⟨hv.deleteFile _, trivial⟩
  · exact h.send rfl trivial
  · refine h.atVolume fun v _ hv => ?_
    rw [freeStep]
    split_ifs
    · exact ⟨hv, trivial⟩
    · exact ⟨hv.freeSlot _, trivial⟩
  · split
    · exact h.setTask trivial
    · exact h.setTask trivial
  · apply h.setTask
    split_ifs with hc
    · exact hc.2
    · trivial
  · refine h.atVolume fun v hlook hv => ⟨hv.readBlock _, ?_⟩
    rw [fetchStep]
    split
    · trivial
    · trivial
    next f hf => exact hfetch _ _ v f heq hlook hf
  · split_ifs
    · exact h.setTask trivial
    · exact (h.put ht).setTask (mem_insert.mpr (.inl rfl))
  · exact (h.mark _ ht).setTask trivial
  · exact h.setTask trivial
  · refine h.atVolume fun v _ hv => ⟨hv.removeLocal _, ?_⟩
    rw [removeStep]
    split
    · exact ht
    · exact ⟨ht _ mem_cons_self, fun m hm => ht m (mem_cons_of_mem _ hm)⟩
  · refine (h.mark _ ht.1).setTask ?_
    rw [setNode, makeBlockState_cloud]
    exact ht.2
  · split
    · exact h.setTask trivial
    next data hd =>
    apply h.setTask
    split_ifs
    · trivial
    · exact h.cloud hd
  · exact h.atVolume fun v _ hv => writeStep hv _ _ _ ht ht

omit [DecidableEq τ] in
theorem handleBlockMeta (he : e.state = .localOnly) :
    Backed P { st with node := st.node.handleBlockMeta e, inbox := none } := by
  rw [Node.handleBlockMeta]
  split
  · -- a deleted block is no longer tracked
    exact ⟨fun hm => h.keyed (lookup_erase_eq_some hm).2,
      fun hm => h.metas (lookup_erase_eq_some hm).2, (fun hx => by cases hx), h.tasks, h.cloud,
      h.vols⟩
  · rw [addBlockMeta]
    refine ⟨fun {b m} hm => ?_, fun {b m} hm hst => ?_, (fun hx => by cases hx), h.tasks, h.cloud,
      h.vols⟩
    · obtain ⟨rfl, rfl⟩ | ⟨-, hm⟩ := lookup_insert_eq_some hm
      · split
        · rfl
        · split_ifs <;> rfl
      · exact h.keyed hm
    · obtain ⟨rfl, rfl⟩ | ⟨-, hm⟩ := lookup_insert_eq_some hm
      · split at hst
        · exact absurd he hst
        next m' hm' =>
        split_ifs at hst with hs3
        · exact h.metas hm' (by rw [hs3]; decide)
        · exact absurd he hst
      · exact h.metas hm hst

theorem handle : st.handle.Backed P := by
  rw [NodeState.handle]
  split
  · exact h
  next e t heq =>
  have hst := h.handleBlockMeta (h.inbox heq)
  split
  · exact hst
  · exact hst.setTask (hst.tasks t).done

theorem startAll {list : Finset BlockMetaEvent} {jobs : List (τ × BlockMetaEvent)}
    {k : BlockMetaEvent → Task} (hk : ∀ m, (k m).Backed P st.node.cloud) :
    (st.startAll list jobs k).Backed P := by
  rw [NodeState.startAll]
  split_ifs
  · refine h.spawn fun j hj => ?_
    obtain ⟨x, -, rfl⟩ := mem_map.mp hj
    exact hk x.2
  · exact h

end

theorem next (hP : ∀ data, P (sha256 data) data) (h : st.Backed P)
    {c : NodeCall τ} (hfetch : c.Fetches P st) :
    (c.next sha256 st).Backed P := by
  cases c with
  | write t data index crc =>
    rw [NodeCall.next, write]
    split_ifs
    · split
      · exact ⟨h.keyed, h.metas, h.inbox, h.tasks, h.cloud, h.vols⟩
      · exact h.setTask (hP data)
    · exact h
  | deleteBlock ids jobs =>
    rw [NodeCall.next, deleteBlock]
    split_ifs
    · apply spawn
      · exact ⟨h.keyed, h.metas, h.inbox, h.tasks, h.cloud, h.vols⟩
      · intro j hj
        obtain ⟨x, -, rfl⟩ := mem_map.mp hj
        trivial
    · exact h
  | evictBlock expired now jobs =>
    exact h.startAll (k := fun m => .upload m.blockID) fun _ => trivial
  | recycleSpace t order =>
    rw [NodeCall.next, recycleSpace]
    split_ifs with hg
    · refine h.setTask fun m hm => ?_
      have hlist : m ∈ st.node.recycleList := hg.2 ▸ mem_toFinset.mpr hm
      obtain ⟨⟨b, hb⟩, hs⟩ := mem_listMetas.mp hlist
      rw [h.keyed hb]
      refine h.metas hb ?_
      rw [eq_of_beq hs]
      decide
    · exact h
  | warmup jobs => exact h.startAll fun _ => trivial
  | read b t =>
    rw [NodeCall.next, readBlock]
    split
    · exact h
    split_ifs
    · exact h.setTask trivial
    · exact h
    · split
      · exact h
      · next v hv => exact h.setVolume ((h.vols hv).readBlock b)
  | advance t ch => exact h.advance t ch hfetch
  | handle => exact h.handle
  | setVolStat vol s => exact ⟨h.keyed, h.metas, h.inbox, h.tasks, h.cloud, h.vols⟩
  | timer vol =>
    rw [NodeCall.next, timer]
    split
    · exact h
    · next v hv => exact h.setVolume (h.vols hv).fireTimer

omit [DecidableEq τ] in
theorem new (vols : List (ℕ × ℕ × VolumeStatistics)) : (newNodeState τ (newNode vols)).Backed P where
  keyed hm := by simp [newNodeState, newNode] at hm
  metas hm := by simp [newNodeState, newNode] at hm
  inbox hx := by cases hx
  tasks _ := trivial
  cloud hd := by simp [newNodeState, newNode] at hd
  vols hv := by
    obtain ⟨cap, rfl⟩ := newNode_candidates hv
    exact .new _ _ cap

end NodeState.Backed

def NodeReach (sha256 : Bytes → BlockID) (vols : List (ℕ × ℕ × VolumeStatistics)) :
    NodeState τ → Prop :=
  Reach (NodeCall.next sha256) (fun _ _ => True) (newNodeState τ (newNode vols))

theorem NodeReach.backed (h : NodeReach sha256 vols st) : st.Backed fun _ _ => True := by
  refine Reach.invariant (I := Backed fun _ _ => True) (fun st c hI _ => ?_) h (.new vols)
  refine hI.next (fun _ => trivial) ?_
  cases c with
  | advance t ch => exact fun _ _ _ _ _ _ _ => trivial
  | _ => trivial

/-- The runs whose uploads read their own blocks. -/
def OwnReach (sha256 : Bytes → BlockID) (vols : List (ℕ × ℕ × VolumeStatistics)) :
    NodeState τ → Prop :=
  Reach (NodeCall.next sha256) (fun st c => c.UploadsOwn st) (newNodeState τ (newNode vols))

theorem OwnReach.backed (h : OwnReach sha256 vols st) : st.Backed fun b d => sha256 d = b :=
  Reach.invariant (I := Backed fun b d => sha256 d = b)
    (fun _ _ hI hok => hI.next (fun _ => rfl) (hok.fetches hI.vols)) h (.new vols)

end Node

def sampleSha (data : Bytes) : BlockID := String.ofList (data.map fun b => Char.ofNat (97 + b.toNat))

def sampleVols : List (ℕ × ℕ × VolumeStatistics) := [(7, 4, ⟨100, 0⟩)]

def sampleMeta (byte : UInt8) (s : BlockState) : BlockMetaEvent :=
  { volID := 7, blockID := sampleSha [byte], size := 1, crc32 := crc32 [byte], state := s }

end HugoFS.Storage
