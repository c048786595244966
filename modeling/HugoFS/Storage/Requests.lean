import HugoFS.Meta.Types
import HugoFS.Storage.Lifecycle
import HugoFS.Storage.Restore

/-!
# The requests of a node, one at a time

`Write`, `DeleteBlock` and `Read` of a node as whole calls, for a node that serves one
request after the other and whose background work rests: the events that a volume sends
are handled before the call is over. Between two requests every tracked block is stored
(`Node.Sound`).
-/

namespace HugoFS.Storage

open Finmap Volume
open HugoFS.Meta (Ino)

/-! ### The calls -/

inductive NodeError
  | crcMismatch
  | noVolume
  | blockNotExisted
  | volume (e : VolumeError)
deriving DecidableEq

structure WriteRequest where
  ino : Ino
  blockIdx : ℕ
  blockData : Bytes
  crc32 : UInt32

structure WriteResponse where
  ino : Ino
  blockIdx : ℕ
  blockId : BlockID
  volId : ℕ
  crc32 : UInt32
  len : ℕ

def WriteRequest.response (req : WriteRequest) (b : BlockID) (vol : ℕ) : WriteResponse :=
  ⟨req.ino, req.blockIdx, b, vol, Storage.crc32 req.blockData, req.blockData.length⟩

def restoreInOrder : List RestoreStep := [.caller, .job, .job, .job, .job, .caller, .caller]

/-- What is left to the surroundings when one block is read: the answer of the object store,
whether the id is hexadecimal, the clock, and the tokens and the order of the steps of a
`Restore`. -/
structure ReadChoice where
  fetched : Bool := true
  decoded : Bool := true
  now : ℤ := 0
  tokens : ℕ := 32
  steps : List RestoreStep := restoreInOrder

namespace Node

def handleAll (n : Node) (es : List BlockMetaEvent) : Node := es.foldl handleBlockMeta n

def onVolume {α : Type} (n : Node) (vol : ℕ) (o : Outcome α) : Node :=
  (n.setVolume vol o.vol).handleAll o.sent

def write (sha256 : Bytes → BlockID) (n : Node) (req : WriteRequest) (vol : ℕ) (now : ℤ) :
    Option (Except NodeError WriteResponse) × Node :=
  if crc32 req.blockData ≠ req.crc32 then (some (.error .crcMismatch), n)
  else match n.blockMetas.lookup (sha256 req.blockData) with
    | some m => (some (.ok (req.response m.blockID m.volID)), n)
    | none =>
      if n.selectWrite vol then
        match n.candidates.lookup vol with
        | none => (some (.error .noVolume), n)
        | some v =>
          let o := v.writeBlock ⟨req.blockIdx, req.blockData, sha256 req.blockData, req.crc32⟩ now
          (o.reply.map fun
            | .error e => .error (.volume e)
            | .ok b => .ok (req.response b v.id), n.onVolume vol o)
      else (some (.error .noVolume), n)

def clean (n : Node) (vol : ℕ) (hashes : List BlockID) : Node :=
  match n.candidates.lookup vol with
  | none => n
  | some v => n.onVolume vol (v.cleanInvalidBlock hashes)

/-- `Node.DeleteBlock`. The volumes `order` are cleaned one after the other: those of
`volumesOf` in any order, or some of them when the call fails half-way. -/
def deleteBlock (n : Node) (ids : List BlockID) (order : List ℕ) : Node :=
  order.foldl (fun n' vol => n'.clean vol (n.blocksIn ids vol)) n

def restoredObject (n : Node) (m : BlockMetaEvent) (ch : ReadChoice) : Option Bytes :=
  if ch.fetched then n.cloud.lookup m.blockID else none

def restoreAnswers (n : Node) (m : BlockMetaEvent) (ch : ReadChoice) : RestoreAnswers where
  object := n.restoredObject m ch
  selected := (n.candidates.lookup m.volID).isSome
  decoded := ch.decoded
  written :=
    match n.restoredObject m ch, n.candidates.lookup m.volID with
    | some data, some v =>
      (v.writeBlock (restoreContainer m data) ch.now).reply.map (Except.map fun _ => ())
    | _, _ => none

def restored (n : Node) (m : BlockMetaEvent) (ch : ReadChoice) : Node :=
  match n.restoredObject m ch, n.candidates.lookup m.volID with
  | some data, some v =>
    if ch.decoded then n.onVolume m.volID (v.writeBlock (restoreContainer m data) ch.now) else n
  | _, _ => n

def restore (n : Node) (m : BlockMetaEvent) (ch : ReadChoice) :
    Option (Bytes × Option RestoreError) × Node :=
  let run := Runs.exec (RestoreStep.next (n.restoreAnswers m ch)) ch.steps (newRestoreRun ch.tokens)
  (match run.caller with
    | .returned theData theErr => some (theData, theErr)
    | .execute | .started | .gotData _ _ => none,
    if run.job = .unstarted then n else n.restored m ch)

def restoredBlocks (m : BlockMetaEvent) (b : BlockID) : Bytes × Option RestoreError → List Block
  | (_, some _) => []
  | (data, none) => [⟨data, data.length, m.logicIndex, m.crc32, b⟩]

def readBlocks (n : Node) (b : BlockID) (ch : ReadChoice) :
    Option (Except NodeError (List Block)) × Node :=
  match n.blockMetas.lookup b with
  | none => (some (.error .blockNotExisted), n)
  | some m =>
    if m.state = .s3Only then
      let r := n.restore m ch
      (r.1.map fun results => .ok (restoredBlocks m b results), r.2)
    else match n.candidates.lookup m.volID with
      | none => (some (.error .noVolume), n)
      | some v =>
        let o := v.readBlock b
        (o.reply.map fun
          | .error e => .error (.volume e)
          | .ok f => .ok
              [⟨f.data, f.header.dataLen, f.header.index, f.header.crc32, f.header.checksum⟩],
          n.onVolume m.volID o)

def Fits (sha256 : Bytes → BlockID) (n : Node) (data : Bytes) (vol : ℕ) : Prop :=
  sha256 data ∉ n.blockMetas → ∀ v ∈ n.candidates.lookup vol, v.Accepts (sha256 data)
deriving Decidable

end Node

/-! ### Cleaning a volume -/

structure Volume.Shrinks (v v' : Volume) : Prop where
  id : v'.id = v.id
  hung : v'.hung = v.hung
  getSlot : ∀ h, v'.slot.getSlot h = v.slot.getSlot h
  records : ∀ {i b}, v'.slot.records.lookup i = some b → v.slot.records.lookup i = some b

variable {hashes : List BlockID}

namespace Volume

variable {v v' v'' : Volume} {b : BlockID}

theorem Shrinks.refl (v : Volume) : v.Shrinks v := ⟨rfl, rfl, fun _ => rfl, fun h => h⟩

theorem Shrinks.trans (h : v.Shrinks v') (h' : v'.Shrinks v'') : v.Shrinks v'' :=
  ⟨h'.id.trans h.id, h'.hung.trans h.hung, fun x => (h'.getSlot x).trans (h.getSlot x),
    fun hr => h.records (h'.records hr)⟩

theorem Shrinks.slotOrZero (h : v.Shrinks v') (x : BlockID) :
    v'.slot.slotOrZero x = v.slot.slotOrZero x := by
  rw [Slot.slotOrZero, h.getSlot, Slot.slotOrZero]

theorem Shrinks.cleanBlock (v : Volume) (x : BlockID) : v.Shrinks (v.cleanBlock x) :=
  ⟨rfl, rfl, fun _ => Slot.free_getSlot, fun hr => Slot.lookup_free_records_some hr⟩

theorem Shrinks.cleanBlocks (v : Volume) (hashes : List BlockID) :
    v.Shrinks (hashes.foldl .cleanBlock v) := by
  induction hashes generalizing v with
  | nil => exact .refl v
  | cons x xs ih => exact (Shrinks.cleanBlock v x).trans (ih _)

theorem Keeps.trans (h : v.Keeps v' b) (h' : v'.Keeps v'' b) : v.Keeps v'' b := by
  intro i hi
  obtain ⟨hr, hf⟩ := h i hi
  obtain ⟨hr', hf'⟩ := h' i hr
  exact ⟨hr', hf'.trans hf⟩

theorem Keeps.cleanBlock {x : BlockID}
    (hx : v.slot.records.lookup (v.slot.slotOrZero x) ≠ some b) : v.Keeps (v.cleanBlock x) b :=
  (Keeps.deleteFile hx).trans (.freeSlot hx)

/-- A block is kept when the deleted ones have other slots. A freed slot loses its
record, so this stays true while the list is worked through, also for a hash that it
has twice. -/
theorem Keeps.cleanBlocks
    (hx : ∀ x ∈ hashes, v.slot.records.lookup (v.slot.slotOrZero x) ≠ some b) :
    v.Keeps (hashes.foldl Volume.cleanBlock v) b := by
  induction hashes generalizing v with
  | nil => exact .of_eq rfl rfl
  | cons x xs ih =>
    have hstep := Shrinks.cleanBlock v x
    refine (Keeps.cleanBlock (hx x List.mem_cons_self)).trans (ih fun y hy hr => ?_)
    rw [hstep.slotOrZero] at hr
    exact hx y (List.mem_cons_of_mem _ hy) (hstep.records hr)

end Volume

/-! ### The node between two requests -/

structure Node.Sound (sha256 : Bytes → BlockID) (C : Set Bytes) (n : Node) : Prop where
  vols : ∀ {vol v}, n.candidates.lookup vol = some v →
    v.Sound (Content sha256 C) ∧ v.hung = false ∧ v.id = vol
  metas : ∀ {b m}, n.blockMetas.lookup b = some m →
    m.blockID = b ∧ m.state ≠ .s3Only ∧ n.Stored m.volID b

structure Node.Spares (n n' : Node) (ids : List BlockID) : Prop where
  vols : ∀ vol, vol ∈ n'.candidates ↔ vol ∈ n.candidates
  tracked : ∀ b ∈ n.blockMetas, b ∉ ids → b ∈ n'.blockMetas

def Node.Owned (n : Node) (vol : ℕ) (h : BlockID) : Prop :=
  ∀ v, n.candidates.lookup vol = some v →
    ∀ b, v.slot.records.lookup (v.slot.slotOrZero h) = some b → b = h

namespace Node

variable {sha256 : Bytes → BlockID} {C : Set Bytes} {n n' n'' : Node} {ids : List BlockID}
  {vol : ℕ} {v v' : Volume} {b : BlockID}

theorem Spares.refl (n : Node) (ids : List BlockID) : n.Spares n ids :=
  ⟨fun _ => Iff.rfl, fun _ hb _ => hb⟩

theorem Spares.trans (h : n.Spares n' ids) (h' : n'.Spares n'' ids) : n.Spares n'' ids :=
  ⟨fun vol => (h'.vols vol).trans (h.vols vol),
    fun b hb hid => h'.tracked b (h.tracked b hb hid) hid⟩

theorem mem_setVolume (hv : n.candidates.lookup vol = some v) (x : ℕ) :
    x ∈ (n.setVolume vol v').candidates ↔ x ∈ n.candidates := by
  rw [setVolume, mem_insert, or_iff_right_iff_imp]
  rintro rfl
  exact mem_of_lookup_eq_some hv

section

variable (h : n.Sound sha256 C) {e m : BlockMetaEvent}
include h

theorem Sound.setVolume (hv : n.candidates.lookup vol = some v)
    (hkeep : ∀ b ∈ n.blockMetas, v.Keeps v' b)
    (hvol : v'.Sound (Content sha256 C) ∧ v'.hung = false ∧ v'.id = vol) :
    (n.setVolume vol v').Sound sha256 C where
  vols {vol' w} hw := by
    rcases lookup_insert_eq_some hw with ⟨rfl, rfl⟩ | ⟨-, hw⟩
    · exact hvol
    · exact h.vols hw
  metas {b m} hm := by
    obtain ⟨hid, hs, hst⟩ := h.metas hm
    exact ⟨hid, hs, hst.keeps (.setVolume hv (hkeep b (mem_of_lookup_eq_some hm)))⟩

theorem Sound.addBlockMeta (hs : e.state ≠ .s3Only)
    (hst : n.Stored e.volID e.blockID) : (n.addBlockMeta e).Sound sha256 C := by
  have hsame : n.addBlockMeta e = { n with blockMetas := n.blockMetas.insert e.blockID e } := by
    rw [Node.addBlockMeta]
    split
    · rfl
    · next m hm => rw [if_neg (h.metas hm).2.1]
  rw [hsame]
  refine ⟨h.vols, fun {b m} hm => ?_⟩
  rcases lookup_insert_eq_some hm with ⟨rfl, rfl⟩ | ⟨-, hm⟩
  · exact ⟨rfl, hs, hst⟩
  · exact h.metas hm

omit h in
theorem mem_addBlockMeta :
    b ∈ (n.addBlockMeta e).blockMetas ↔ b = e.blockID ∨ b ∈ n.blockMetas := mem_insert

theorem Sound.write {req : WriteRequest} (now : ℤ)
    (hC : req.blockData ∈ C) (hfit : n.Fits sha256 req.blockData vol) :
    (n.write sha256 req vol now).2.Sound sha256 C ∧ n.Spares (n.write sha256 req vol now).2 [] ∧
      ∀ r, (n.write sha256 req vol now).1 = some (.ok r) →
        sha256 req.blockData ∈ (n.write sha256 req vol now).2.blockMetas ∧
          ∃ vol' ∈ n.candidates, r = req.response (sha256 req.blockData) vol' := by
  rw [Node.write]
  split
  · exact ⟨h, .refl n [], fun r hr => by cases hr⟩
  split
  · next m hm =>
    refine ⟨h, .refl n [], fun r hr => ?_⟩
    obtain ⟨hid, -, v, i, f, hv, -⟩ := h.metas hm
    cases hr
    exact ⟨mem_of_lookup_eq_some hm, m.volID, mem_of_lookup_eq_some hv, by rw [hid]⟩
  · next hnone =>
    split
    · split
      · exact ⟨h, .refl n [], fun r hr => by cases hr⟩
      next v hv =>
      obtain ⟨hsound, hhung, rfl⟩ := h.vols hv
      have hnew : sha256 req.blockData ∉ n.blockMetas := lookup_eq_none.mp hnone
      obtain ⟨hreply, hsent, hvol, hkeep, i, f, hrec, hf⟩ :=
        @Volume.writeBlock_of_accepts _ v
          ⟨req.blockIdx, req.blockData, sha256 req.blockData, req.crc32⟩ now hsound hhung
          (hfit hnew v hv) ⟨rfl, hC⟩
      simp only [onVolume, hsent]
      refine ⟨(h.setVolume hv (fun b _ => hkeep b) hvol).addBlockMeta (by simp [writtenEvent])
        ⟨_, i, f, lookup_insert _, hrec, hf⟩, ⟨mem_setVolume hv, fun b hb _ => ?_⟩,
        fun r hr => ⟨mem_addBlockMeta.mpr (.inl rfl), v.id, mem_of_lookup_eq_some hv, ?_⟩⟩
      · exact mem_addBlockMeta.mpr (.inr hb)
      · rcases hreply with hreply | hreply
        · rw [hreply] at hr
          cases hr
          rfl
        · rw [hreply] at hr
          cases hr
    · exact ⟨h, .refl n [], fun r hr => by cases hr⟩

omit h in
theorem lookup_handleAll_deleted (v : Volume) (hashes : List BlockID) (n : Node) (b : BlockID) :
    (n.handleAll (hashes.map v.deletedEvent)).blockMetas.lookup b =
      if b ∈ hashes then none else n.blockMetas.lookup b := by
  induction hashes generalizing n with
  | nil => simp [handleAll]
  | cons x xs ih =>
    show ((n.deleteBlockMeta (v.deletedEvent x)).handleAll (xs.map v.deletedEvent)).blockMetas.lookup
      b = _
    rw [ih]
    by_cases hb : b = x
    · subst hb
      simp [deleteBlockMeta, deletedEvent]
    · simp [deleteBlockMeta, deletedEvent, hb, lookup_erase_ne hb]

omit h in
theorem handleAll_deleted_candidates (v : Volume) (hashes : List BlockID) (n : Node) :
    (n.handleAll (hashes.map v.deletedEvent)).candidates = n.candidates := by
  induction hashes generalizing n with
  | nil => rfl
  | cons x xs ih => exact ih (n.deleteBlockMeta (v.deletedEvent x))

theorem Sound.clean (hown : ∀ x ∈ hashes, n.Owned vol x) :
    (n.clean vol hashes).Sound sha256 C ∧ n.Spares (n.clean vol hashes) hashes ∧
      ∀ vol' x, n.Owned vol' x → (n.clean vol hashes).Owned vol' x := by
  rw [Node.clean]
  split
  · exact ⟨h, .refl n hashes, fun _ _ ho => ho⟩
  next v hv =>
  obtain ⟨hsound, hhung, hid⟩ := h.vols hv
  have hshrink := Volume.Shrinks.cleanBlocks v hashes
  have hclean : v.cleanInvalidBlock hashes =
      ⟨some (.ok ()), hashes.map v.deletedEvent, hashes.foldl .cleanBlock v⟩ := by
    rw [cleanInvalidBlock, if_neg (by simp [hhung])]
  rw [hclean, onVolume]
  have hkeep : ∀ b ∉ hashes, v.Keeps (hashes.foldl .cleanBlock v) b := by
    refine fun b hb => .cleanBlocks fun x hx hr => hb ?_
    rwa [hown x hx v hv b hr]
  refine ⟨⟨fun {vol' w} hw => ?_, fun {b m} hm => ?_⟩, ⟨fun vol' => ?_, fun b hb hbs => ?_⟩,
    fun vol' x ho w hw b hr => ?_⟩
  · rw [handleAll_deleted_candidates] at hw
    rcases lookup_insert_eq_some hw with ⟨rfl, rfl⟩ | ⟨-, hw⟩
    · exact ⟨hsound.cleanBlocks hashes, hshrink.hung.trans hhung, hshrink.id.trans hid⟩
    · exact h.vols hw
  · rw [lookup_handleAll_deleted] at hm
    split_ifs at hm with hb
    obtain ⟨hid', hs, hst⟩ := h.metas hm
    obtain ⟨w, i, f, hw, hr, hf⟩ := hst.keeps (.setVolume hv (hkeep b hb))
    exact ⟨hid', hs, w, i, f, by rwa [handleAll_deleted_candidates], hr, hf⟩
  · rw [handleAll_deleted_candidates]
    exact mem_setVolume hv vol'
  · obtain ⟨m, hm⟩ := mem_iff.mp hb
    exact mem_of_lookup_eq_some
      ((lookup_handleAll_deleted v hashes _ b).trans ((if_neg hbs).trans hm))
  · rw [handleAll_deleted_candidates] at hw
    rcases lookup_insert_eq_some hw with ⟨rfl, rfl⟩ | ⟨-, hw⟩
    · rw [hshrink.slotOrZero] at hr
      exact ho v hv b (hshrink.records hr)
    · exact ho w hw b hr

theorem Sound.owned (hm : n.blockMetas.lookup b = some m) : n.Owned m.volID b := by
  intro v hv x hx
  obtain ⟨-, -, w, i, f, hw, hr, -⟩ := h.metas hm
  cases hv.symm.trans hw
  rw [Slot.slotOrZero, ((h.vols hv).1.known hr).1, Option.getD_some, hr] at hx
  exact (Option.some.inj hx).symm

omit h in
theorem mem_blocksIn : b ∈ n.blocksIn ids vol ↔
    b ∈ ids ∧ ∃ m, n.blockMetas.lookup b = some m ∧ m.volID = vol := by
  simp [blocksIn]

theorem Sound.deleteBlock (ids : List BlockID) (order : List ℕ) :
    (n.deleteBlock ids order).Sound sha256 C ∧ n.Spares (n.deleteBlock ids order) ids := by
  -- The volumes still to be cleaned are those of the state before the call.
  have hrun : ∀ (order : List ℕ) (n' : Node), n'.Sound sha256 C → n.Spares n' ids →
      (∀ vol, ∀ x ∈ n.blocksIn ids vol, n'.Owned vol x) →
      (order.foldl (fun n' vol => n'.clean vol (n.blocksIn ids vol)) n').Sound sha256 C ∧
        n.Spares (order.foldl (fun n' vol => n'.clean vol (n.blocksIn ids vol)) n') ids := by
    intro order
    induction order with
    | nil => exact fun n' hn' hsp _ => ⟨hn', hsp⟩
    | cons vol order ih =>
      intro n' hn' hsp hown
      obtain ⟨hs, hsp', hown'⟩ := hn'.clean (hown vol)
      refine ih _ hs (hsp.trans ⟨hsp'.vols, fun b hb hid => ?_⟩) fun vol' x hx =>
        hown' vol' x (hown vol' x hx)
      exact hsp'.tracked b hb fun hb' => hid (mem_blocksIn.mp hb').1
  refine hrun order n h (.refl n ids) fun vol x hx => ?_
  obtain ⟨-, m, hm, rfl⟩ := mem_blocksIn.mp hx
  exact h.owned hm

theorem Sound.readBlock_tracked (hm : n.blockMetas.lookup b = some m) :
    m.state ≠ .s3Only ∧ ∃ v f, n.candidates.lookup m.volID = some v ∧
      (v.readBlock b).reply = some (.ok f) ∧ f.header.checksum = b ∧ Content sha256 C b f.data ∧
      n.onVolume m.volID (v.readBlock b) = n.setVolume m.volID (v.readBlock b).vol ∧
      (n.setVolume m.volID (v.readBlock b).vol).Sound sha256 C := by
  obtain ⟨-, hs, v, i, f, hv, hrec, hf⟩ := h.metas hm
  obtain ⟨hsound, hhung, hid⟩ := h.vols hv
  obtain ⟨hreply, hsum, hP⟩ := hsound.readReply_of_record hrec hf
  have hread : (v.readBlock b).reply = some (.ok f) ∧ (v.readBlock b).sent = [] := by
    rw [readBlock, if_neg (by simp [hhung]), hreply]
    exact ⟨rfl, rfl⟩
  refine ⟨hs, v, f, hv, hread.1, hsum, hP, ?_, ?_⟩
  · rw [onVolume, hread.2]
    rfl
  · exact h.setVolume hv (fun _ _ => .readBlock b) ⟨hsound.readBlock b,
      (readBlock_same b).1.trans hhung, (readBlock_same b).2.trans hid⟩

theorem Sound.readBlocks (b : BlockID) (ch : ReadChoice) :
    (n.readBlocks b ch).2.Sound sha256 C ∧ n.Spares (n.readBlocks b ch).2 [] ∧
      (b ∈ n.blockMetas → ∃ blk, (n.readBlocks b ch).1 = some (.ok [blk]) ∧
        blk.id = b ∧ Content sha256 C b blk.data) := by
  rw [Node.readBlocks]
  split
  · next hnone => exact ⟨h, .refl n [], fun hb => absurd hb (lookup_eq_none.mp hnone)⟩
  next m hm =>
  obtain ⟨hs, v, f, hv, hreply, hsum, hP, hvol, hsound⟩ := h.readBlock_tracked hm
  simp only [if_neg hs, hv, hreply, hvol]
  exact ⟨hsound, ⟨mem_setVolume hv, fun _ hb _ => hb⟩, fun _ => ⟨_, rfl, hsum, hP⟩⟩

end

theorem Sound.new (vols : List (ℕ × ℕ × VolumeStatistics)) : (newNode vols).Sound sha256 C where
  vols hv := by
    obtain ⟨cap, rfl⟩ := newNode_candidates hv
    exact ⟨.new _ _ cap, rfl, rfl⟩
  metas hm := by simp [newNode] at hm

end Node

end HugoFS.Storage
