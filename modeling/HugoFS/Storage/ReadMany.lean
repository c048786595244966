import Mathlib.Data.List.Rotate
import HugoFS.Lib.Appends
import HugoFS.Storage.Requests

/-!
# `Read` of several blocks

`Node.Read` restores a block that is only in the object store on the way, and reads every other
block in a goroutine of its own. An id that is not tracked ends the call at once, an error of a
goroutine after all are back. The appends to the response are not synchronised.
-/

namespace HugoFS.Storage

open List Finmap Appends

inductive Fate
  /-- The call returns the error at once. -/
  | returns (e : NodeError)
  /-- Restoring the block does not come back, and neither does the call. -/
  | stuck
  /-- The goroutine does not come back. -/
  | hung
  /-- The goroutine ends with an error. -/
  | failed (e : NodeError)
  /-- The block cannot be restored. -/
  | skipped
  | block (b : Block)
deriving DecidableEq

namespace Fate

def ends : Fate → Bool
  | .returns _ | .stuck => true
  | .hung | .failed _ | .skipped | .block _ => false

def waits : Fate → Bool
  | .stuck | .hung => true
  | .returns _ | .failed _ | .skipped | .block _ => false

def returned? : Fate → Option NodeError
  | .returns e => some e
  | .stuck | .hung | .failed _ | .skipped | .block _ => none

def failure? : Fate → Option NodeError
  | .failed e => some e
  | .returns _ | .stuck | .hung | .skipped | .block _ => none

def block? : Fate → Option Block
  | .block b => some b
  | .returns _ | .stuck | .hung | .failed _ | .skipped => none

end Fate

structure ReadSchedule where
  first : ℕ
  appends : List Appends.Step

def ReadSchedule.Keeps (sched : ReadSchedule) (k : ℕ) : Prop :=
  ∀ blocks : List Block, blocks.length = k → (Appends.run blocks sched.appends).Perm blocks

theorem ReadSchedule.keeps_inOrder (first k : ℕ) :
    (ReadSchedule.mk first (inOrder k)).Keeps k := by
  intro blocks hlen
  rw [← hlen, run_inOrder]

namespace Node

def fate (n : Node) (b : BlockID) (ch : ReadChoice) : Fate × Node :=
  match n.blockMetas.lookup b with
  | none => (.returns .blockNotExisted, n)
  | some m =>
    if m.state = .s3Only then
      let r := n.restore m ch
      (match r.1 with
        | none => .stuck
        | some (_, some _) => .skipped
        | some (d, none) => .block ⟨d, d.length, m.logicIndex, m.crc32, b⟩, r.2)
    else match n.candidates.lookup m.volID with
      | none => (.returns .noVolume, n)
      | some v =>
        let o := v.readBlock b
        (match o.reply with
          | none => .hung
          | some (.error e) => .failed (.volume e)
          | some (.ok f) => .block
              ⟨f.data, f.header.dataLen, f.header.index, f.header.crc32, f.header.checksum⟩,
          n.onVolume m.volID o)

def fates (n : Node) (choice : ℕ → ReadChoice) : List BlockID → List Fate × Node
  | [] => ([], n)
  | b :: bs =>
    let r := n.fate b (choice 0)
    if r.1.ends then ([r.1], r.2)
    else
      let rs := r.2.fates (fun i => choice (i + 1)) bs
      (r.1 :: rs.1, rs.2)

open Fate

def answer (fates : List Fate) (sched : ReadSchedule) : Option (Except NodeError (List Block)) :=
  match fates.findSome? Fate.returned? with
  | some e => some (.error e)
  | none =>
    if fates.any Fate.waits then none
    else match (fates.filterMap Fate.failure?).rotate sched.first with
      | [] => some (.ok (Appends.run (fates.filterMap Fate.block?) sched.appends))
      | e :: _ => some (.error e)

def readMany (n : Node) (ids : List BlockID) (choice : ℕ → ReadChoice) (sched : ReadSchedule) :
    Option (Except NodeError (List Block)) × Node :=
  (answer (n.fates choice ids).1 sched, (n.fates choice ids).2)

variable {sched : ReadSchedule}

theorem readMany_singleton (n : Node) (b : BlockID) (choice : ℕ → ReadChoice)
    (hsched : Complete 1 sched.appends) :
    n.readMany [b] choice sched = n.readBlocks b (choice 0) := by
  have hone (f : Fate) (n' : Node) : (if f.ends then ([f], n') else ([f], n')) = ([f], n') :=
    ite_self _
  have hrun (blk : Block) : answer [.block blk] sched = some (.ok [blk]) := by
    rw [← run_singleton (x := blk) hsched]
    rfl
  have hskip : answer [.skipped] sched = some (.ok []) := by
    show some (Except.ok (run [] sched.appends)) = _
    rw [run_nil]
  rw [readMany]
  simp only [fates, hone]
  rw [fate, readBlocks]
  cases n.blockMetas.lookup b with
  | none => rfl
  | some m =>
    dsimp only
    split_ifs with hs3
    · cases (n.restore m (choice 0)).1 with
      | none => rfl
      | some results =>
        obtain ⟨d, e⟩ := results
        cases e with
        | none => exact Prod.ext (hrun _) rfl
        | some e => exact Prod.ext hskip rfl
    · cases n.candidates.lookup m.volID with
      | none => rfl
      | some v =>
        dsimp only
        cases (v.readBlock b).reply with
        | none => rfl
        | some reply =>
          cases reply with
          | error e =>
            simp [answer, returned?, waits, failure?, rotate_singleton]
          | ok f => exact Prod.ext (hrun _) rfl

theorem findSome?_returned {n : Node} {choice : ℕ → ReadChoice} {ids : List BlockID} {e : NodeError}
    (h : .returns e ∈ (n.fates choice ids).1) :
    (n.fates choice ids).1.findSome? returned? = some e := by
  induction ids generalizing n choice with
  | nil => simp [fates] at h
  | cons b bs ih =>
    simp only [fates] at h ⊢
    split at h
    · next hends =>
      rw [if_pos hends]
      rw [← mem_singleton.mp h]
      rfl
    next hends =>
    rw [if_neg hends]
    have hne : (n.fate b (choice 0)).1.returned? = none := by
      cases hf : (n.fate b (choice 0)).1 with
      | returns e' => simp [hf, ends] at hends
      | stuck | hung | failed | skipped | block => rfl
    obtain h | h := mem_cons.mp h
    · rw [← h] at hne
      cases hne
    · rw [findSome?_cons, hne]
      exact ih h

section Answer

variable {fates : List Fate} {sched : ReadSchedule} {e : NodeError}

theorem answer_returns (h : fates.findSome? returned? = some e) (sched : ReadSchedule) :
    answer fates sched = some (.error e) := by
  rw [answer, h]

def Finishes (fates : List Fate) : Prop := ∀ f ∈ fates, f.returned? = none ∧ f.waits = false

theorem answer_of_finishes (h : Finishes fates) : answer fates sched =
    match (fates.filterMap failure?).rotate sched.first with
    | [] => some (.ok (run (fates.filterMap block?) sched.appends))
    | e :: _ => some (.error e) := by
  have hreturned : fates.findSome? returned? = none :=
    findSome?_eq_none_iff.mpr fun f hf => (h f hf).1
  have hwaits : fates.any waits = false :=
    any_eq_false.mpr fun f hf => by simp [(h f hf).2]
  rw [answer, hreturned]
  simp [hwaits]

theorem failure?_eq_some {f : Fate} : f.failure? = some e ↔ f = .failed e := by
  cases f <;> simp [failure?]

theorem block?_eq_some {f : Fate} {b : Block} : f.block? = some b ↔ f = .block b := by
  cases f <;> simp [block?]

theorem mem_failures : e ∈ fates.filterMap failure? ↔ .failed e ∈ fates := by
  simp only [mem_filterMap, failure?_eq_some, exists_eq_right]

theorem mem_blocks {b : Block} : b ∈ fates.filterMap block? ↔ .block b ∈ fates := by
  simp only [mem_filterMap, block?_eq_some, exists_eq_right]

theorem exists_answer_failed (h : Finishes fates) (he : .failed e ∈ fates)
    (appends : List Step) : ∃ first, answer fates ⟨first, appends⟩ = some (.error e) := by
  obtain ⟨i, hi, hget⟩ := mem_iff_getElem.mp (mem_failures.mpr he)
  have hhead : ((fates.filterMap failure?).rotate i).head? = some e := by
    rw [head?_rotate hi, getElem?_eq_getElem hi, hget]
  obtain ⟨es, hes⟩ := head?_eq_some_iff.mp hhead
  refine ⟨i, ?_⟩
  rw [answer_of_finishes h, hes]

theorem answer_served (h : Finishes fates) (hf : ∀ e, .failed e ∉ fates)
    (sched : ReadSchedule) : answer fates sched =
    some (.ok (run (fates.filterMap block?) sched.appends)) := by
  have hnil : fates.filterMap failure? = [] :=
    eq_nil_iff_forall_not_mem.mpr fun e he => hf e (mem_failures.mp he)
  rw [answer_of_finishes h, hnil, rotate_nil]

theorem answer_cases (fates : List Fate) (sched : ReadSchedule) :
    answer fates sched = none ∨
    (∃ e, .returns e ∈ fates ∧ answer fates sched = some (.error e)) ∨
    (∃ e, Finishes fates ∧ .failed e ∈ fates ∧ answer fates sched = some (.error e)) ∨
    (Finishes fates ∧ ∀ e, .failed e ∉ fates) := by
  cases hreturned : fates.findSome? returned? with
  | some e =>
    obtain ⟨f, hf, hfe⟩ := exists_of_findSome?_eq_some hreturned
    cases f with
    | returns e' => cases hfe; exact .inr (.inl ⟨e, hf, answer_returns hreturned sched⟩)
    | failed | stuck | hung | skipped | block => cases hfe
  | none =>
    have hnone := findSome?_eq_none_iff.mp hreturned
    cases hwaits : fates.any waits with
    | true => exact .inl (by rw [answer, hreturned]; simp [hwaits])
    | false =>
      have hfin : Finishes fates := fun f hf =>
        ⟨hnone f hf, by simpa using any_eq_false.mp hwaits f hf⟩
      cases hfail : (fates.filterMap failure?).rotate sched.first with
      | nil =>
        rw [rotate_eq_nil_iff] at hfail
        refine .inr (.inr (.inr ⟨hfin, fun e he => ?_⟩))
        simpa [hfail] using mem_failures.mpr he
      | cons e es =>
        have hmem : e ∈ fates.filterMap failure? := by
          rw [← mem_rotate (n := sched.first), hfail]
          exact mem_cons_self
        refine .inr (.inr (.inl ⟨e, hfin, mem_failures.mp hmem, ?_⟩))
        rw [answer_of_finishes hfin, hfail]

end Answer

/-! ### A node whose tracked blocks are stored -/

section Stored

variable {sha256 : Bytes → BlockID} {C : Set Bytes} {n : Node}

theorem Sound.fate (h : n.Sound sha256 C) (b : BlockID) (ch : ReadChoice) :
    (n.fate b ch).2.Sound sha256 C ∧ (n.fate b ch).2.blockMetas = n.blockMetas ∧
      (b ∈ n.blockMetas → ∃ blk, (n.fate b ch).1 = .block blk ∧ blk.id = b ∧
        Content sha256 C b blk.data) ∧
      (b ∉ n.blockMetas → (n.fate b ch).1 = .returns .blockNotExisted) := by
  rw [Node.fate]
  split
  · next hnone =>
    exact ⟨h, rfl, fun hb => absurd hb (lookup_eq_none.mp hnone), fun _ => rfl⟩
  next m hm =>
  obtain ⟨hs, v, f, hv, hreply, hsum, hP, hvol, hsound⟩ := h.readBlock_tracked hm
  simp only [if_neg hs, hv, hreply, hvol]
  exact ⟨hsound, rfl, fun _ => ⟨_, rfl, hsum, hP⟩,
    fun hb => absurd (mem_of_lookup_eq_some hm) hb⟩

theorem Sound.fates (h : n.Sound sha256 C) (choice : ℕ → ReadChoice) (ids : List BlockID) :
    (n.fates choice ids).2.Sound sha256 C ∧ (n.fates choice ids).2.blockMetas = n.blockMetas ∧
      ((∀ b ∈ ids, b ∈ n.blockMetas) → ∃ blocks : List Block,
        (n.fates choice ids).1 = blocks.map .block ∧ blocks.map Block.id = ids ∧
        ∀ blk ∈ blocks, Content sha256 C blk.id blk.data) ∧
      ((∃ b ∈ ids, b ∉ n.blockMetas) → .returns .blockNotExisted ∈ (n.fates choice ids).1) := by
  induction ids generalizing n choice with
  | nil => exact ⟨h, rfl, fun _ => ⟨[], rfl, rfl, by simp⟩, by simp⟩
  | cons b bs ih =>
    obtain ⟨hsound, hmetas, htracked, hunknown⟩ := h.fate b (choice 0)
    simp only [Node.fates]
    by_cases hb : b ∈ n.blockMetas
    · obtain ⟨blk, hfate, hid, hcontent⟩ := htracked hb
      have hgoes : ¬(block blk).ends = true := by simp [ends]
      rw [hfate, if_neg hgoes]
      obtain ⟨hsound', hmetas', hall, hany⟩ := ih hsound fun i => choice (i + 1)
      rw [hmetas] at hmetas' hall hany
      refine ⟨hsound', hmetas', fun hbs => ?_, fun hex => ?_⟩
      · obtain ⟨blocks, hfates, hids, hcontents⟩ := hall fun c hc => hbs c (mem_cons_of_mem _ hc)
        refine ⟨blk :: blocks, ?_, ?_, ?_⟩
        · rw [hfates, map_cons]
        · rw [map_cons, hid, hids]
        · exact forall_mem_cons.mpr ⟨hid ▸ hcontent, hcontents⟩
      · obtain ⟨c, hc, hnot⟩ := hex
        rcases mem_cons.mp hc with rfl | hc
        · exact absurd hb hnot
        · exact mem_cons_of_mem _ (hany ⟨c, hc, hnot⟩)
    · have hends : (returns .blockNotExisted).ends = true := rfl
      rw [hunknown hb, if_pos hends]
      exact ⟨hsound, hmetas, fun hbs => absurd (hbs b mem_cons_self) hb,
        fun _ => mem_cons_self⟩

theorem Sound.readMany (h : n.Sound sha256 C) (ids : List BlockID) (choice : ℕ → ReadChoice)
    (hkeeps : sched.Keeps ids.length) :
    (n.readMany ids choice sched).2.Sound sha256 C ∧
      (n.readMany ids choice sched).2.blockMetas = n.blockMetas ∧
      ((∀ b ∈ ids, b ∈ n.blockMetas) → ∃ blocks : List Block,
        (n.readMany ids choice sched).1 = some (.ok blocks) ∧ (blocks.map Block.id).Perm ids ∧
        ∀ blk ∈ blocks, Content sha256 C blk.id blk.data) ∧
      ((∃ b ∈ ids, b ∉ n.blockMetas) →
        (n.readMany ids choice sched).1 = some (.error .blockNotExisted)) := by
  obtain ⟨hsound, hmetas, hall, hany⟩ := h.fates choice ids
  refine ⟨hsound, hmetas, fun hids => ?_, fun hex => ?_⟩
  · obtain ⟨blocks, hfates, hblocks, hcontents⟩ := hall hids
    have hlen : blocks.length = ids.length := by rw [← hblocks, length_map]
    have hperm := hkeeps blocks hlen
    refine ⟨_, ?_, (hperm.map _).trans (.of_eq hblocks),
      fun blk hblk => hcontents blk (hperm.mem_iff.mp hblk)⟩
    have hfinish : Finishes (blocks.map block) := by
      intro f hf
      obtain ⟨blk, -, rfl⟩ := mem_map.mp hf
      exact ⟨rfl, rfl⟩
    have hgood : ∀ e, .failed e ∉ blocks.map block := by simp
    have hfilter : (blocks.map block).filterMap block? = blocks := by
      rw [filterMap_map]
      exact filterMap_some
    show answer (n.fates choice ids).1 sched = _
    rw [hfates, answer_served hfinish hgood, hfilter]
  · exact answer_returns (findSome?_returned (hany hex)) sched

end Stored

/-! ### A block that is only in the object store -/

section Cold

variable {n : Node} {m : BlockMetaEvent} {b : BlockID} {ch : ReadChoice}

def Timely (n : Node) (m : BlockMetaEvent) (ch : ReadChoice) (T : RestoreJob → RestoreJob → Prop) :
    Prop :=
  Runs.Legal (RestoreStep.next (n.restoreAnswers m ch)) (RestoreRun.Reads T) ch.steps
    (newRestoreRun ch.tokens)

def RestoreTimely (n : Node) (m : BlockMetaEvent) (ch : ReadChoice) : Prop :=
  n.Timely m ch fun seen job =>
    (n.restoreAnswers m ch).Failed job ∨ (n.restoreAnswers m ch).InTime seen
deriving Decidable

def ReadTimely (n : Node) (m : BlockMetaEvent) (ch : ReadChoice) : Prop :=
  n.Timely m ch fun seen job =>
    ¬(n.restoreAnswers m ch).Failed job ∧ (n.restoreAnswers m ch).InTime seen
deriving Decidable

def HasObject (object : Option Bytes) (b : BlockID) : Except NodeError (List Block) → Prop
  | .error _ => True
  | .ok blocks => ∃ blk ∈ blocks, blk.id = b ∧ object = some blk.data

theorem restore_meets_iff {Q : Bytes → Option RestoreError → Prop}
    {T : RestoreJob → RestoreJob → Prop}
    (hQ : ∀ st : RestoreRun, st.Sound (n.restoreAnswers m ch) → ∀ seen,
      Q ((n.restoreAnswers m ch).dataAt seen) st.theErr ↔ T seen st.job) :
    (∀ r, (n.restore m ch).1 = some r → Q r.1 r.2) ↔ n.Timely m ch T := by
  rw [Timely, ← RestoreRun.meets_iff hQ (.new _ _) (.new _ _), RestoreRun.Meets, restore]
  generalize Runs.exec (RestoreStep.next (n.restoreAnswers m ch)) ch.steps
    (newRestoreRun ch.tokens) = run
  cases run.caller <;> simp

theorem hasObject_restoredBlocks {object : Option Bytes} {r : Bytes × Option RestoreError} :
    HasObject object b (.ok (restoredBlocks m b r)) ↔ r.2 = none ∧ object = some r.1 := by
  obtain ⟨d, e⟩ := r
  cases e <;> simp [HasObject, restoredBlocks]

/-- A block that is only in the object store, in every interleaving of the caller with the
goroutine of its `Restore`: the results are an error or the bytes of the object exactly when the
goroutine was in time, and the answer of `Node.Read` has the block with these bytes exactly when,
besides, it had not failed. -/
theorem cold_read_iff (hm : n.blockMetas.lookup b = some m) (hs3 : m.state = .s3Only)
    (choice : ℕ → ReadChoice) (sched : ReadSchedule) (hsched : Appends.Complete 1 sched.appends) :
    ((∀ r, (n.restore m (choice 0)).1 = some r →
        r.2.isSome ∨ n.restoredObject m (choice 0) = some r.1) ↔ n.RestoreTimely m (choice 0)) ∧
      ((∀ a, (n.readMany [b] choice sched).1 = some a →
        HasObject (n.restoredObject m (choice 0)) b a) ↔ n.ReadTimely m (choice 0)) := by
  constructor
  · refine restore_meets_iff (Q := fun d e => e.isSome ∨ n.restoredObject m (choice 0) = some d) ?_
    intro st hs seen
    exact or_congr hs.theErr ((n.restoreAnswers m (choice 0)).object_eq_dataAt_iff seen)
  · have hread : (n.readMany [b] choice sched).1 =
        (n.restore m (choice 0)).1.map fun r => .ok (restoredBlocks m b r) := by
      rw [readMany_singleton n b choice hsched, readBlocks, hm]
      simp only [if_pos hs3]
    rw [hread]
    simp only [Option.map_eq_some_iff, forall_exists_index, and_imp, forall_apply_eq_imp_iff₂,
      hasObject_restoredBlocks]
    refine restore_meets_iff
      (Q := fun d e => e = none ∧ n.restoredObject m (choice 0) = some d) ?_
    intro st hs seen
    refine and_congr ?_ ((n.restoreAnswers m (choice 0)).object_eq_dataAt_iff seen)
    rw [← hs.theErr, Option.not_isSome_iff_eq_none]

def coldNode : Node :=
  { newNode sampleVols with
    blockMetas := Finmap.singleton (sampleSha [1]) (sampleMeta 1 .s3Only)
    cloud := Finmap.singleton (sampleSha [1]) [1] }

theorem cold_read_sample :
    (∀ r, (coldNode.restore (sampleMeta 1 .s3Only) {}).1 = some r → r.2.isSome ∨ some [1] = some r.1) ∧
      ∀ a, (coldNode.readMany [sampleSha [1]] (fun _ => {}) ⟨0, Appends.inOrder 1⟩).1 = some a →
        HasObject (some [1]) (sampleSha [1]) a := by
  have hm : coldNode.blockMetas.lookup (sampleSha [1]) = some (sampleMeta 1 .s3Only) := by decide
  obtain ⟨hrestore, hread⟩ := cold_read_iff hm rfl (fun _ => {}) ⟨0, Appends.inOrder 1⟩
    (Appends.complete_inOrder 1)
  exact ⟨hrestore.mpr (by decide +kernel), hread.mpr (by decide +kernel)⟩

/-- The results are read before the goroutine does anything: the data is empty and there is no
error. When the object store fails, the block is missing from the answer. -/
theorem cold_read_loses_block :
    (coldNode.restore (sampleMeta 1 .s3Only) { steps := [.caller, .caller, .caller] }).1 =
        some ([], none) ∧
      (coldNode.readMany [sampleSha [1]] (fun _ => { steps := [.caller, .caller, .caller] })
        ⟨0, Appends.inOrder 1⟩).1 =
          some (.ok [⟨[], 0, 0, crc32 [1], sampleSha [1]⟩]) ∧
      (coldNode.readMany [sampleSha [1]] (fun _ => { fetched := false })
        ⟨0, Appends.inOrder 1⟩).1 = some (.ok []) := by
  refine ⟨by decide +kernel, by decide +kernel, by decide +kernel⟩

end Cold

end Node

end HugoFS.Storage
