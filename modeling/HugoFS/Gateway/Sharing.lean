import HugoFS.Gateway.Coordinator

/-!
# Keys that share blocks

Blocks are named by their content, so the keys of different inodes may refer to one block of a
node, and nobody counts the references. `Cluster.Sound` is the invariant of calls that delete
nothing that is needed: the entry of every live key names volumes whose nodes track the block.
-/

namespace HugoFS.Gateway

open Finmap List Option Runs Cluster
open HugoFS.Meta (Ino)
open HugoFS.Storage

section Condition

variable {ν : Type} [DecidableEq ν]

def Cluster.Needs (getNode : ℕ → Option ν) (cl : Cluster ν) (key : BlockKey) (x : ν)
    (b : BlockID) : Prop :=
  key ∈ cl.live ∧ ∃ m ∈ (cl.blockMap key.1).lookup key.2,
    m.blockId = b ∧ some x ∈ m.volumes.map getNode

instance (getNode : ℕ → Option ν) (cl : Cluster ν) (key : BlockKey) (x : ν) (b : BlockID) :
    Decidable (cl.Needs getNode key x b) :=
  inferInstanceAs (Decidable (_ ∧ _))

def Delivery.Fits (sha256 : Bytes → BlockID) (n : Node) (data : Bytes) : Delivery → Prop
  | .lost => True
  | .answered vol _ => n.Fits sha256 data vol
  | .unanswered vol _ => n.Fits sha256 data vol

instance (sha256 : Bytes → BlockID) (n : Node) (data : Bytes) (d : Delivery) :
    Decidable (d.Fits sha256 n data) := by
  cases d <;> dsimp only [Delivery.Fits] <;> infer_instance

def Call.Sparing (sha256 : Bytes → BlockID) (C : Set Bytes) (getNode : ℕ → Option ν)
    (cl : Cluster ν) : Call ν → Prop
  | .write key data storages upd _ =>
    data ∈ C ∧ (∀ s ∈ storages, s.2.Fits sha256 (cl.nodes s.1) data) ∧
      (upd ≠ .stored → ∀ s ∈ storages, ∀ k ∈ cl.live.keys, k ≠ key ∨ upd = .refused →
        ¬cl.Needs getNode k s.1 (sha256 data))
  | .delete ino blocks jobs => ∀ j ∈ jobs, ∀ x ∈ getNode j.1,
      ∀ b ∈ Cluster.blocksAt blocks j.1, ∀ k ∈ cl.live.keys, k.1 ≠ ino → ¬cl.Needs getNode k x b
  | .lateWrite x req vol _ => req.blockData ∈ C ∧ (cl.nodes x).Fits sha256 req.blockData vol
  | .lateDelete x ids _ => ∀ b ∈ ids, ∀ k ∈ cl.live.keys, ¬cl.Needs getNode k x b
  | _ => True

instance (sha256 : Bytes → BlockID) (C : Set Bytes) [DecidablePred (· ∈ C)]
    (getNode : ℕ → Option ν) (cl : Cluster ν) (c : Call ν) :
    Decidable (c.Sparing sha256 C getNode cl) := by
  cases c <;> dsimp only [Call.Sparing] <;> infer_instance

end Condition

/-! ### The invariant -/

section Invariant

variable {ν : Type} (sha256 : Bytes → BlockID) (C : Set Bytes) (getNode : ℕ → Option ν)

structure BlockMeta.Serves (nodes : ν → Node) (index : ℕ) (d : Bytes) (m : BlockMeta) :
    Prop where
  index : m.blockIndexInFile = index
  blockId : m.blockId = sha256 d
  copies : m.secondaryVolumeIds ≠ []
  held : ∀ vol ∈ m.volumes, ∃ x, getNode vol = some x ∧ sha256 d ∈ (nodes x).blockMetas

structure BlockMeta.Reorders (m m' : BlockMeta) : Prop where
  index : m'.blockIndexInFile = m.blockIndexInFile
  blockId : m'.blockId = m.blockId
  copies : m.secondaryVolumeIds ≠ [] → m'.secondaryVolumeIds ≠ []
  volumes : ∀ vol ∈ m'.volumes, vol ∈ m.volumes

structure Cluster.Sound (cl : Cluster ν) : Prop where
  nodes : ∀ x, (cl.nodes x).Sound sha256 C
  homes : ∀ x, ∀ vol ∈ (cl.nodes x).candidates, getNode vol = some x
  live : ∀ {key d}, cl.live.lookup key = some d → d ∈ C ∧
    ∃ m, (cl.blockMap key.1).lookup key.2 = some m ∧ m.Serves sha256 getNode cl.nodes key.2 d
  cached : ∀ {key : BlockKey} {bm m}, cl.blockMetaCache.lookup key.1 = some bm → key ∈ cl.live →
    (cl.blockMap key.1).lookup key.2 = some m → ∃ m', bm.lookup key.2 = some m' ∧ m.Reorders m'

def Cluster.Held (cl : Cluster ν) (req : WriteRequest) (resp : WriteResponse) : Prop :=
  ∃ vol x, resp = req.response (sha256 req.blockData) vol ∧ getNode vol = some x ∧
    sha256 req.blockData ∈ (cl.nodes x).blockMetas

end Invariant

structure Cluster.Extends {ν : Type} (cl cl' : Cluster ν) : Prop where
  blockMap : cl'.blockMap = cl.blockMap
  cache : cl'.blockMetaCache = cl.blockMetaCache
  live : cl'.live = cl.live
  tracked : ∀ x, ∀ b ∈ (cl.nodes x).blockMetas, b ∈ (cl'.nodes x).blockMetas

namespace BlockMeta

variable {ν : Type} {sha256 : Bytes → BlockID} {getNode : ℕ → Option ν} {nodes : ν → Node}
  {index : ℕ} {d : Bytes} {m m' m'' : BlockMeta}

theorem Reorders.refl (m : BlockMeta) : m.Reorders m := ⟨rfl, rfl, fun h => h, fun _ h => h⟩

theorem Reorders.trans (h : m.Reorders m') (h' : m'.Reorders m'') : m.Reorders m'' :=
  ⟨h'.index.trans h.index, h'.blockId.trans h.blockId, fun hc => h'.copies (h.copies hc),
    fun vol hv => h.volumes vol (h'.volumes vol hv)⟩

theorem Reorders.shuffle (m : BlockMeta) (s : Shuffle) :
    m.Reorders { m with
      secondaryVolumeIds := (s.apply m.volumes).take m.secondaryVolumeIds.length } where
  index := rfl
  blockId := rfl
  copies hc := by
    have hlen : (s.apply m.volumes).length = m.secondaryVolumeIds.length + 1 := by
      rw [(s.perm _).length_eq, BlockMeta.volumes, length_append, length_singleton]
    have hpos := length_pos_iff.mpr hc
    rw [← length_pos_iff, length_take]
    omega
  volumes vol hv := by
    rcases mem_append.mp hv with hv | hv
    · exact (s.perm _).mem_iff.mp (mem_of_mem_take hv)
    · exact mem_append_right _ hv

theorem Serves.reorders (h : m.Serves sha256 getNode nodes index d) (hr : m.Reorders m') :
    m'.Serves sha256 getNode nodes index d :=
  ⟨hr.index.trans h.index, hr.blockId.trans h.blockId, hr.copies h.copies,
    fun vol hv => h.held vol (hr.volumes vol hv)⟩

theorem apply_volumes (m : BlockMeta) (h : m.secondaryVolumeIds ≠ []) (s : Shuffle) :
    ∃ vol₀ vol₁ rest, s.apply m.volumes = vol₀ :: vol₁ :: rest := by
  have hlen : 2 ≤ (s.apply m.volumes).length := by
    have hpos := length_pos_iff.mpr h
    rw [(s.perm _).length_eq, BlockMeta.volumes, length_append, length_singleton]
    omega
  obtain ⟨vol₀, vols, heq⟩ :=
    exists_cons_of_length_pos (by omega : 0 < (s.apply m.volumes).length)
  rw [heq, length_cons] at hlen
  obtain ⟨vol₁, rest, rfl⟩ := exists_cons_of_length_pos (by omega : 0 < vols.length)
  exact ⟨vol₀, vol₁, rest, heq⟩

end BlockMeta

variable {replica : ℕ}

namespace Cluster.Sound

variable {ν : Type} {sha256 : Bytes → BlockID} {C : Set Bytes} {getNode : ℕ → Option ν}
  {cl cl' : Cluster ν} {x : ν}
variable {key : BlockKey} {m : BlockMeta} {d : Bytes} {data : Bytes}

theorem congr (h : cl.Sound sha256 C getNode) (hnodes : cl'.nodes = cl.nodes)
    (hlive : ∀ {key d}, cl'.live.lookup key = some d → cl.live.lookup key = some d ∧
      (cl'.blockMap key.1).lookup key.2 = (cl.blockMap key.1).lookup key.2)
    (hcache : ∀ {ino bm}, cl'.blockMetaCache.lookup ino = some bm →
      cl.blockMetaCache.lookup ino = some bm) : cl'.Sound sha256 C getNode where
  nodes := hnodes ▸ h.nodes
  homes := hnodes ▸ h.homes
  live {key d} hl := by
    obtain ⟨hl, hmap⟩ := hlive hl
    rw [hmap, hnodes]
    exact h.live hl
  cached {key bm m} hb hk hm := by
    obtain ⟨d, hd⟩ := mem_iff.mp hk
    obtain ⟨hl, hmap⟩ := hlive hd
    exact h.cached (hcache hb) (mem_of_lookup_eq_some hl) (hmap ▸ hm)

variable [DecidableEq ν]

section

variable (h : cl.Sound sha256 C getNode) {req : WriteRequest}
include h

theorem setNode {n : Node} {ids : List BlockID} (hn : n.Sound sha256 C)
    (hspare : (cl.nodes x).Spares n ids) (hneed : ∀ key, ∀ b ∈ ids, ¬cl.Needs getNode key x b) :
    (cl.setNode x n).Sound sha256 C getNode where
  nodes y := by
    by_cases hy : y = x
    · subst hy
      rw [setNode_nodes_self]
      exact hn
    · rw [setNode_nodes_of_ne _ _ hy]
      exact h.nodes y
  homes y vol hv := by
    by_cases hy : y = x
    · subst hy
      rw [setNode_nodes_self] at hv
      exact h.homes y vol ((hspare.vols vol).mp hv)
    · rw [setNode_nodes_of_ne _ _ hy] at hv
      exact h.homes y vol hv
  live {key d} hl := by
    obtain ⟨hC, m, hm, hs⟩ := h.live hl
    refine ⟨hC, m, hm, hs.index, hs.blockId, hs.copies, fun vol hv => ?_⟩
    obtain ⟨y, hy, hb⟩ := hs.held vol hv
    refine ⟨y, hy, ?_⟩
    by_cases hyx : y = x
    · subst hyx
      rw [setNode_nodes_self]
      refine hspare.tracked _ hb fun hid => hneed key _ hid ?_
      exact ⟨mem_of_lookup_eq_some hl, m, hm, hs.blockId, hy ▸ mem_map_of_mem hv⟩
    · rw [setNode_nodes_of_ne _ _ hyx]
      exact hb
  cached := h.cached

theorem serve {n : Node} (hn : n.Sound sha256 C)
    (hspare : (cl.nodes x).Spares n []) : (cl.setNode x n).Sound sha256 C getNode :=
  h.setNode hn hspare fun _ _ hb => by cases hb

theorem rollback {storages : List ν} {b : BlockID}
    (order : ν → List ℕ) (hneed : ∀ x ∈ storages, ∀ key, ¬cl.Needs getNode key x b) :
    (cl.rollback storages b order).Sound sha256 C getNode := by
  induction storages generalizing cl with
  | nil => exact h
  | cons x storages ih =>
    obtain ⟨hn, hspare⟩ := (h.nodes x).deleteBlock [b] (order x)
    refine ih (h.setNode hn hspare fun key b' hb' => ?_) fun y hy =>
      hneed y (mem_cons_of_mem _ hy)
    rw [mem_singleton.mp hb']
    exact hneed x mem_cons_self key

theorem sendWrite {d : Delivery}
    (hC : req.blockData ∈ C) (hfit : d.Fits sha256 (cl.nodes x) req.blockData) :
    ∃ n, (cl.sendWrite sha256 req x d).2 = cl.setNode x n ∧ n.Sound sha256 C ∧
      (cl.nodes x).Spares n [] ∧ ∀ resp, (cl.sendWrite sha256 req x d).1 = some resp →
        (cl.setNode x n).Held sha256 getNode req resp := by
  cases d with
  | lost =>
    refine ⟨cl.nodes x, ?_, h.nodes x, .refl _ [], fun resp hr => by cases hr⟩
    rw [Cluster.setNode, Function.update_eq_self, Cluster.sendWrite]
  | unanswered vol now =>
    obtain ⟨hn, hspare, -⟩ := (h.nodes x).write now hC hfit
    exact ⟨_, rfl, hn, hspare, fun resp hr => by cases hr⟩
  | answered vol now =>
    obtain ⟨hn, hspare, hresp⟩ := (h.nodes x).write now hC hfit
    refine ⟨_, rfl, hn, hspare, fun resp hr => ?_⟩
    have hok : ((cl.nodes x).write sha256 req vol now).1 = some (.ok resp) := by
      rw [Cluster.sendWrite] at hr
      split at hr
      · next resp' heq =>
        cases hr
        exact heq
      · cases hr
    obtain ⟨hb, vol', hvol', rfl⟩ := hresp resp hok
    exact ⟨vol', x, rfl, h.homes x vol' hvol', by rwa [setNode_nodes_self]⟩

theorem sendWrites {storages : List (ν × Delivery)} (hC : req.blockData ∈ C)
    (hnodup : (storages.map Prod.fst).Nodup)
    (hfit : ∀ s ∈ storages, s.2.Fits sha256 (cl.nodes s.1) req.blockData) :
    (cl.sendWrites sha256 req storages).2.Sound sha256 C getNode ∧
      cl.Extends (cl.sendWrites sha256 req storages).2 ∧
      ∀ rs, (cl.sendWrites sha256 req storages).1 = some rs → rs.length = storages.length ∧
        ∀ resp ∈ rs, (cl.sendWrites sha256 req storages).2.Held sha256 getNode req resp := by
  induction storages generalizing cl with
  | nil =>
    refine ⟨h, ⟨rfl, rfl, rfl, fun _ _ hb => hb⟩, fun rs hrs => ?_⟩
    cases hrs
    exact ⟨rfl, fun resp hr => by cases hr⟩
  | cons s storages ih =>
    obtain ⟨x, d⟩ := s
    obtain ⟨hx, hnodup⟩ := nodup_cons.mp hnodup
    obtain ⟨n, heq, hn, hspare, hheld⟩ := h.sendWrite hC (hfit (x, d) mem_cons_self)
    have hfit' : ∀ s ∈ storages, s.2.Fits sha256 ((cl.setNode x n).nodes s.1) req.blockData := by
      intro s hs
      have hne : s.1 ≠ x := fun heq => hx (mem_map.mpr ⟨s, hs, heq⟩)
      rw [setNode_nodes_of_ne _ _ hne]
      exact hfit s (mem_cons_of_mem _ hs)
    obtain ⟨hs, hext, hresp⟩ := ih (h.serve hn hspare) hnodup hfit'
    simp only [sendWrites, heq]
    refine ⟨hs, ⟨hext.blockMap, hext.cache, hext.live, fun y b hb => hext.tracked y b ?_⟩,
      fun rs hrs => ?_⟩
    · by_cases hy : y = x
      · subst hy
        rw [setNode_nodes_self]
        exact hspare.tracked b hb not_mem_nil
      · rwa [setNode_nodes_of_ne _ _ hy]
    · obtain ⟨resp, hr, hrs⟩ := bind_eq_some_iff.mp hrs
      obtain ⟨rs', hrs', rfl⟩ := map_eq_some_iff.mp hrs
      obtain ⟨hlen, hall⟩ := hresp rs' hrs'
      refine ⟨congrArg (· + 1) hlen, fun resp' hr' => ?_⟩
      rcases mem_cons.mp hr' with rfl | hr'
      · obtain ⟨vol, y, hreq, hy, hb⟩ := hheld resp' hr
        exact ⟨vol, y, hreq, hy, hext.tracked y _ hb⟩
      · exact hall resp' hr'

end

omit [DecidableEq ν] in
theorem serves_blockMetaOf {crc : UInt32}
    {primary : WriteResponse} {others : List WriteResponse}
    (hheld : ∀ resp ∈ primary :: others,
      cl.Held sha256 getNode ⟨key.1, key.2, data, crc⟩ resp) (hothers : others ≠ []) :
    (blockMetaOf primary others).Serves sha256 getNode cl.nodes key.2 data := by
  obtain ⟨vol, x, rfl, hx, hb⟩ := hheld primary mem_cons_self
  refine ⟨rfl, rfl, by simpa [blockMetaOf] using hothers, fun vol' hv => ?_⟩
  rcases mem_append.mp hv with hv | hv
  · obtain ⟨resp, hr, rfl⟩ := mem_map.mp hv
    obtain ⟨vol', y, rfl, hy⟩ := hheld resp (mem_cons_of_mem _ hr)
    exact ⟨y, hy⟩
  · rw [mem_singleton.mp hv]
    exact ⟨x, hx, hb⟩

section

variable (h : cl.Sound sha256 C getNode) {jobs : List (ℕ × List ℕ)} {blocks : List BlockMeta}
include h

omit [DecidableEq ν] in
theorem commit (hC : data ∈ C) (hkey : (m.ino, m.blockIndexInFile) = key)
    (hserves : m.Serves sha256 getNode cl.nodes key.2 data) :
    Sound sha256 C getNode
      { cl.updateBlockLocation m with
        blockMetaCache := cl.blockMetaCache.erase key.1
        live := cl.live.insert key data } where
  __ := h
  live {key' d} hl := by
    show d ∈ C ∧ ∃ m', ((cl.updateBlockLocation m).blockMap key'.1).lookup key'.2 = some m' ∧ _
    rw [lookup_updateBlockLocation, hkey]
    rcases lookup_insert_eq_some hl with ⟨rfl, rfl⟩ | ⟨hk, hl⟩
    · exact ⟨hC, m, if_pos rfl, hserves⟩
    · rw [if_neg hk]
      exact h.live hl
  cached {key' bm m'} hbm hk hm := by
    obtain ⟨hino, hbm⟩ := lookup_erase_eq_some hbm
    have hne : key' ≠ key := fun heq => hino (heq ▸ rfl)
    replace hm := (lookup_updateBlockLocation cl m key').symm.trans hm
    rw [hkey, if_neg hne] at hm
    exact h.cached hbm ((mem_insert.mp hk).resolve_left hne) hm

omit [DecidableEq ν] in
theorem overwrite (hkey : (m.ino, m.blockIndexInFile) = key) :
    Sound sha256 C getNode
      { cl.updateBlockLocation m with live := cl.live.erase key } := by
  refine h.congr rfl (fun {key' d} hl => ?_) fun hb => hb
  obtain ⟨hne, hl⟩ := lookup_erase_eq_some hl
  refine ⟨hl, (lookup_updateBlockLocation cl m key').trans (if_neg ?_)⟩
  rwa [hkey]

theorem write (hrep : 1 ≤ replica) {storages : List (ν × Delivery)} {upd : UpdateReply}
    {order : ν → List ℕ}
    (hok : (Call.write key data storages upd order).Sparing sha256 C getNode cl) :
    (cl.write sha256 replica key data storages upd order).2.Sound sha256 C getNode := by
  obtain ⟨hC, hfit, hneed⟩ := hok
  rw [Cluster.write]
  split_ifs with hg
  · obtain ⟨hlen, hnodup⟩ := hg
    obtain ⟨hs, hext, hresp⟩ :=
      @sendWrites _ _ _ _ _ _ h ⟨key.1, key.2, data, crc32 data⟩ _ hC hnodup hfit
    rw [doWrite]
    split
    · next primary others cl' heq =>
      rw [heq] at hs hext hresp
      obtain ⟨hlen', hheld⟩ := hresp _ rfl
      obtain ⟨vol, x, hprimary, -⟩ := hheld primary mem_cons_self
      have hid : primary.blockId = sha256 data := by rw [hprimary]; rfl
      have hkey : ((blockMetaOf primary others).ino, (blockMetaOf primary others).blockIndexInFile) =
          key := by rw [hprimary]; rfl
      cases upd with
      | stored =>
        refine hs.commit hC hkey (serves_blockMetaOf hheld ?_)
        rintro rfl
        simp only [length_singleton] at hlen'
        omega
      | refused =>
        refine hs.rollback order fun y hy k hn => ?_
        obtain ⟨s, hs', rfl⟩ := mem_map.mp hy
        rw [Needs, hext.live, hext.blockMap, hid] at hn
        exact hneed (by decide) s hs' k (mem_keys.mpr hn.1) (.inr rfl) hn
      | unanswered =>
        refine (hs.overwrite hkey).rollback order fun y hy k hn => ?_
        obtain ⟨s, hs', rfl⟩ := mem_map.mp hy
        obtain ⟨hk, m, hm, hmid, hx⟩ := hn
        obtain ⟨hne, hk⟩ := mem_erase.mp hk
        replace hm := (lookup_updateBlockLocation cl' _ k).symm.trans hm
        rw [hkey, if_neg hne, hext.blockMap] at hm
        rw [hext.live] at hk
        exact hneed (by decide) s hs' k (mem_keys.mpr hk) (.inl hne)
          ⟨hk, m, hm, hmid.trans hid, hx⟩
    · next cl' _ heq =>
      rw [heq] at hs
      exact hs
  · exact h

theorem deleteAll (hneed : ∀ j ∈ jobs, ∀ x ∈ getNode j.1, ∀ key, ∀ b ∈ blocksAt blocks j.1,
      ¬cl.Needs getNode key x b) :
    (jobs.foldl (fun cl j => cl.deleteAt getNode j.1 (blocksAt blocks j.1) j.2) cl).Sound sha256 C
      getNode := by
  induction jobs generalizing cl with
  | nil => exact h
  | cons j jobs ih =>
    have hrest := fun j' hj' => hneed j' (mem_cons_of_mem j hj')
    rw [foldl_cons, deleteAt]
    split
    · exact ih h hrest
    next x hx =>
    obtain ⟨hn, hspare⟩ := (h.nodes x).deleteBlock (blocksAt blocks j.1) j.2
    exact ih (h.setNode hn hspare (hneed j mem_cons_self x hx)) hrest

theorem delete {ino : Ino} (hok : (Call.delete ino blocks jobs).Sparing sha256 C getNode cl) :
    (cl.delete getNode ino blocks jobs).Sound sha256 C getNode := by
  have hlive : ∀ {key d}, (cl.live.restrict fun key => key.1 != ino).lookup key = some d →
      cl.live.lookup key = some d ∧ key.1 ≠ ino := by
    intro key d hl
    rw [lookup_restrict] at hl
    split_ifs at hl with hino
    exact ⟨hl, by simpa using hino⟩
  rw [Cluster.delete]
  split_ifs
  · have hrest : Sound sha256 C getNode
        { cl with live := cl.live.restrict fun key => key.1 != ino } :=
      h.congr rfl (fun hl => ⟨(hlive hl).1, rfl⟩) fun hb => hb
    refine hrest.deleteAll ?_
    rintro j hj x hx key b hb ⟨hk, hn⟩
    obtain ⟨d, hd⟩ := mem_iff.mp hk
    obtain ⟨hl, hino⟩ := hlive hd
    have hk := mem_of_lookup_eq_some hl
    exact hok j hj x hx b hb key (mem_keys.mpr hk) hino ⟨hk, hn⟩
  · exact h

end

/-! ### Reading -/

section

variable (h : cl.Sound sha256 C getNode)
include h

omit [DecidableEq ν] in
theorem ensureBlockMetaCached
    (hk : key ∈ cl.live) (hm : (cl.blockMap key.1).lookup key.2 = some m) :
    ∃ m', (cl.ensureBlockMetaCached key.1).lookup key.2 = some m' ∧ m.Reorders m' := by
  rw [Cluster.ensureBlockMetaCached]
  cases hb : cl.blockMetaCache.lookup key.1 with
  | none => exact ⟨m, hm, .refl m⟩
  | some bm => exact h.cached hb hk hm

omit [DecidableEq ν] in
theorem setCache {ino : Ino} {bm : InoBlockMap}
    (hbm : ∀ index m, (cl.ensureBlockMetaCached ino).lookup index = some m →
      ∃ m', bm.lookup index = some m' ∧ m.Reorders m') :
    Sound sha256 C getNode
      { cl with blockMetaCache := cl.blockMetaCache.insert ino bm } where
  __ := h
  cached {key bm' m} hb hk hm := by
    rcases lookup_insert_eq_some hb with ⟨rfl, rfl⟩ | ⟨-, hb⟩
    · obtain ⟨m₁, hm₁, hr₁⟩ := h.ensureBlockMetaCached hk hm
      obtain ⟨m₂, hm₂, hr₂⟩ := hbm key.2 m₁ hm₁
      exact ⟨m₂, hm₂, hr₁.trans hr₂⟩
    · exact h.cached hb hk hm

theorem doRead (vol index : ℕ) (b : BlockID) (ch : ReadChoice) :
    (cl.doRead getNode vol index b ch).2.Sound sha256 C getNode := by
  rw [Cluster.doRead]
  split
  · exact h
  next x hx =>
  obtain ⟨hn, hspare, -⟩ := (h.nodes x).readBlocks b ch
  exact h.serve hn hspare

theorem readEither (vol₀ vol₁ index : ℕ) (m : BlockMeta) (ch : ReadChoice) :
    (cl.readEither getNode vol₀ vol₁ index m ch).2.Sound sha256 C getNode := by
  simp only [Cluster.readEither]
  split
  · exact (h.doRead ..).doRead ..
  · exact h.doRead ..

theorem read (key : BlockKey) (s : Shuffle) (inPlace : Bool) (ch : ReadChoice) :
    (cl.read getNode key s inPlace ch).2.Sound sha256 C getNode := by
  rw [Cluster.read]
  split
  · exact h.setCache fun index m hm => ⟨m, hm, .refl m⟩
  next m hm =>
  have hcache : Sound sha256 C getNode { cl with
      blockMetaCache := cl.blockMetaCache.insert key.1
        ((cl.ensureBlockMetaCached key.1).insert key.2 (if inPlace then { m with
          secondaryVolumeIds := (s.apply m.volumes).take m.secondaryVolumeIds.length } else m)) } := by
    refine h.setCache fun index m' hm' => ?_
    by_cases hi : index = key.2
    · subst hi
      cases hm.symm.trans hm'
      refine ⟨_, lookup_insert _, ?_⟩
      split
      · exact .shuffle m s
      · exact .refl m
    · exact ⟨m', (lookup_insert_of_ne _ hi).trans hm', .refl m'⟩
  dsimp only
  split
  · exact hcache.readEither ..
  · exact hcache

end

omit [DecidableEq ν] in
theorem volumes_of_serves {nodes : ν → Node} {index : ℕ}
    (h : m.Serves sha256 getNode nodes index d) (s : Shuffle) :
    ∃ vol₀ vol₁ rest x, s.apply m.volumes = vol₀ :: vol₁ :: rest ∧ getNode vol₀ = some x ∧
      sha256 d ∈ (nodes x).blockMetas := by
  obtain ⟨vol₀, vol₁, rest, heq⟩ := m.apply_volumes h.copies s
  have hmem : vol₀ ∈ m.volumes := (s.perm _).mem_iff.mp (heq ▸ mem_cons_self)
  obtain ⟨x, hx, hb⟩ := h.held vol₀ hmem
  exact ⟨vol₀, vol₁, rest, x, heq, hx, hb⟩

theorem doRead_reply (hinj : Set.InjOn sha256 C) {vol : ℕ} (index : ℕ) (hC : d ∈ C)
    (hx : getNode vol = some x) (hn : (cl.nodes x).Sound sha256 C)
    (hb : sha256 d ∈ (cl.nodes x).blockMetas) (ch : ReadChoice) :
    ∃ r, (cl.doRead getNode vol index (sha256 d) ch).1 = some (.ok r) ∧
      valueAt r index = d := by
  obtain ⟨-, -, hread⟩ := hn.readBlocks (sha256 d) ch
  obtain ⟨blk, hr, hid, hsha, hC'⟩ := hread hb
  rw [Cluster.doRead, hx]
  simp only [hr, map_some, foldl_cons, foldl_nil, hid]
  refine ⟨_, rfl, ?_⟩
  rw [valueAt, pairIndex, if_pos rfl, lookup_insert, getD_some]
  exact hinj hC' hC hsha

theorem readEither_reply (hinj : Set.InjOn sha256 C) {vol₀ index : ℕ} (vol₁ : ℕ) (hC : d ∈ C)
    (hm : m.Serves sha256 getNode cl.nodes index d) (hx : getNode vol₀ = some x)
    (hn : (cl.nodes x).Sound sha256 C) (hb : sha256 d ∈ (cl.nodes x).blockMetas) (ch : ReadChoice) :
    (cl.readEither getNode vol₀ vol₁ index m ch).1 = some (.ok d) := by
  obtain ⟨r, hreply, hval⟩ := doRead_reply hinj index hC hx hn hb ch
  simp only [Cluster.readEither, hm.blockId, hreply, hm.index]
  rw [map_some, Except.map, hval]

theorem read_of_serves (hnodes : ∀ x, (cl.nodes x).Sound sha256 C) (hinj : Set.InjOn sha256 C)
    (hC : d ∈ C) (hm : (cl.ensureBlockMetaCached key.1).lookup key.2 = some m)
    (hserves : m.Serves sha256 getNode cl.nodes key.2 d) (s : Shuffle) (inPlace : Bool)
    (ch : ReadChoice) : (cl.read getNode key s inPlace ch).1 = some (.ok d) := by
  obtain ⟨vol₀, vol₁, rest, x, hvols, hx, hb⟩ := volumes_of_serves hserves s
  rw [Cluster.read]
  simp only [hm, hvols]
  apply readEither_reply hinj vol₁ hC _ hx
  · exact hnodes x
  · exact hb
  · exact hserves

theorem read_reply (h : cl.Sound sha256 C getNode) (hinj : Set.InjOn sha256 C)
    (hl : cl.live.lookup key = some d) (s : Shuffle) (inPlace : Bool) (ch : ReadChoice) :
    (cl.read getNode key s inPlace ch).1 = some (.ok d) := by
  obtain ⟨hC, m₀, hm₀, hs₀⟩ := h.live hl
  obtain ⟨m, hm, hr⟩ := h.ensureBlockMetaCached (mem_of_lookup_eq_some hl) hm₀
  exact read_of_serves h.nodes hinj hC hm (hs₀.reorders hr) s inPlace ch

omit [DecidableEq ν] in
theorem expire (h : cl.Sound sha256 C getNode) (ino : Ino) :
    Sound sha256 C getNode
      { cl with blockMetaCache := cl.blockMetaCache.erase ino } :=
  h.congr rfl (fun hl => ⟨hl, rfl⟩) fun hb => (lookup_erase_eq_some hb).2

theorem next (h : cl.Sound sha256 C getNode) (hrep : 1 ≤ replica) {c : Call ν}
    (hok : c.Sparing sha256 C getNode cl) :
    (c.next sha256 replica getNode cl).Sound sha256 C getNode := by
  cases c with
  | write key data storages upd order => exact h.write hrep hok
  | delete ino blocks jobs => exact h.delete hok
  | read key s inPlace ch => exact h.read key s inPlace ch
  | expire ino => exact h.expire ino
  | lateWrite x req vol now =>
    obtain ⟨hn, hspare, -⟩ := (h.nodes x).write now hok.1 hok.2
    exact h.serve hn hspare
  | lateDelete x ids order =>
    obtain ⟨hn, hspare⟩ := (h.nodes x).deleteBlock ids order
    exact h.setNode hn hspare fun key b hb hneed =>
      hok b hb key (mem_keys.mpr hneed.1) hneed
  | setVolStat x vol s =>
    exact h.serve ⟨(h.nodes x).vols, (h.nodes x).metas⟩ ⟨fun _ => Iff.rfl, fun _ hb _ => hb⟩

omit [DecidableEq ν] in
theorem new {vols : ν → List (ℕ × ℕ × VolumeStatistics)}
    (hhome : ∀ x, ∀ e ∈ vols x, getNode e.1 = some x) :
    (newCluster vols).Sound sha256 C getNode where
  nodes x := .new (vols x)
  homes x vol hv := by
    obtain ⟨v, hv⟩ := mem_iff.mp hv
    change (newNode (vols x)).candidates.lookup vol = some v at hv
    rw [newNode, dlookup_list_toFinmap] at hv
    obtain ⟨e, he, heq⟩ := mem_map.mp (of_mem_dlookup hv)
    cases heq
    exact hhome x e he
  live hl := by simp [newCluster] at hl
  cached hb := by simp [newCluster] at hb

end Cluster.Sound

def SparingReach {ν : Type} [DecidableEq ν] (sha256 : Bytes → BlockID) (C : Set Bytes)
    (replica : ℕ) (getNode : ℕ → Option ν) (vols : ν → List (ℕ × ℕ × VolumeStatistics)) :
    Cluster ν → Prop :=
  Reach (Call.next sha256 replica getNode) (fun cl c => c.Sparing sha256 C getNode cl)
    (newCluster vols)

theorem SparingReach.sound {ν : Type} [DecidableEq ν] {sha256 : Bytes → BlockID} {C : Set Bytes}
    (hrep : 1 ≤ replica) {getNode : ℕ → Option ν}
    {vols : ν → List (ℕ × ℕ × VolumeStatistics)} (hhome : ∀ x, ∀ e ∈ vols x, getNode e.1 = some x)
    {cl : Cluster ν} (hcl : SparingReach sha256 C replica getNode vols cl) :
    cl.Sound sha256 C getNode :=
  Reach.invariant (I := Sound sha256 C getNode)
    (fun _ _ hI hok => hI.next hrep hok) hcl (.new hhome)

/-- In every history whose calls spare the live keys, over contents without digest
collisions and with at least one replica: `Read` of a live key returns what its last
successful `Write` has written. -/
theorem live_keys_are_readable {ν : Type} [DecidableEq ν] {sha256 : Bytes → BlockID}
    {C : Set Bytes} (hinj : Set.InjOn sha256 C) {replica : ℕ} (hrep : 1 ≤ replica)
    {getNode : ℕ → Option ν} {vols : ν → List (ℕ × ℕ × VolumeStatistics)}
    (hhome : ∀ x, ∀ e ∈ vols x, getNode e.1 = some x) {cl : Cluster ν}
    (hcl : SparingReach sha256 C replica getNode vols cl) {key : BlockKey} {d : Bytes}
    (hl : cl.live.lookup key = some d) (s : Shuffle) (inPlace : Bool) (ch : ReadChoice) :
    (cl.read getNode key s inPlace ch).1 = some (.ok d) := by
  exact (hcl.sound hrep hhome).read_reply hinj hl s inPlace ch

/-! ### Two nodes -/

def pairVols : Bool → List (ℕ × ℕ × VolumeStatistics)
  | false => [(7, 4, ⟨100, 0⟩)]
  | true => [(8, 4, ⟨100, 0⟩)]

def pairNode (vol : ℕ) : Option Bool :=
  if vol = 7 then some false else if vol = 8 then some true else none

def pairWrite (ino : Ino) (byte : UInt8) (upd : UpdateReply) : Call Bool :=
  .write (ino, 0) [byte] [(false, .answered 7 0), (true, .answered 8 0)] upd
    fun x => if x then [8] else [7]

def pairDelete (ino : Ino) (byte : UInt8) : Call Bool :=
  .delete ino [⟨ino, 0, sampleSha [byte], 7, [8], crc32 [byte], 1⟩] [(7, [7]), (8, [8])]

def pairAfter (cs : List (Call Bool)) : Cluster Bool :=
  exec (Call.next sampleSha 1 pairNode) cs (newCluster pairVols)

def Shuffle.reverse : Shuffle := ⟨List.reverse, reverse_perm⟩

def sparingCalls : List (Call Bool) :=
  [pairWrite 1 1 .stored, pairWrite 2 1 .stored, .read (1, 0) .reverse true {},
    pairWrite 2 2 .stored, pairDelete 2 2,
    .write (3, 0) [1] [(false, .lost), (true, .unanswered 8 0)] .stored fun _ => []]

theorem live_keys_are_readable_sample :
    ((pairAfter sparingCalls).read pairNode (1, 0) .reverse false {}).1 = some (.ok [1]) := by
  have hlegal : Legal (Call.next sampleSha 1 pairNode)
      (fun cl c => c.Sparing sampleSha sampleContents pairNode cl) sparingCalls
      (newCluster pairVols) := by decide +kernel
  have hreach : SparingReach sampleSha sampleContents 1 pairNode pairVols (pairAfter sparingCalls) :=
    reach_exec hlegal
  have hlive : (pairAfter sparingCalls).live.lookup (1, 0) = some [1] := by decide +kernel
  exact live_keys_are_readable injOn_sampleSha (by decide) (by decide) hreach hlive _ _ _

/-- Two keys share a block. When the inode of the second is deleted, or the write of the
second fails at the meta service, the first becomes unreadable. -/
theorem shared_block_is_deleted :
    ((pairAfter [pairWrite 1 1 .stored, pairWrite 2 1 .stored, pairDelete 2 1]).live.lookup (1, 0) =
        some [1] ∧
      ((pairAfter [pairWrite 1 1 .stored, pairWrite 2 1 .stored, pairDelete 2 1]).read pairNode
        (1, 0) .reverse false {}).1 = some (.error (.node .blockNotExisted))) ∧
    (pairAfter [pairWrite 1 1 .stored, pairWrite 2 1 .refused]).live.lookup (1, 0) = some [1] ∧
      ((pairAfter [pairWrite 1 1 .stored, pairWrite 2 1 .refused]).read pairNode
        (1, 0) .reverse false {}).1 = some (.error (.node .blockNotExisted)) := by
  decide +kernel

end HugoFS.Gateway
