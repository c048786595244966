import HugoFS.Vfs.Buffer.Direct
import HugoFS.Vfs.Buffer.Fetch
import HugoFS.Vfs.Buffer.Flushes

/-!
# What a flush leaves in the storage

The invariant of the direct buffer while no block goes to the swap file, no uploaded block is
written to again, and every upload is complete and succeeds: when a flush returns, the storage has
the last byte written at every offset.
-/

namespace HugoFS.Vfs.Buffer

open Spans Segment SwapFile List Finmap Runs Option PipeState UploadPipeline Nat

/-! ### The calls of a write -/

def afterCalls (calls : List (ℕ × List UInt8)) (last : ℕ → Option UInt8) : ℕ → Option UInt8 :=
  calls.foldl (fun l c => splice l c.1 (c.2.map some)) last

section Calls

variable {cfg : Config} {off : ℕ} {p : List UInt8} {last : ℕ → Option UInt8}

theorem splice_take_drop {n : ℕ} (hn : n ≤ p.length) :
    splice (splice last off ((p.take n).map some)) (off + n) ((p.drop n).map some) =
      splice last off (p.map some) := by
  have hlen : ((p.take n).map some).length = n := by
    rw [length_map, length_take, min_eq_left hn]
  have h : splice (splice last off ((p.take n).map some)) (off + ((p.take n).map some).length)
      ((p.drop n).map some) = splice last off ((p.take n).map some ++ (p.drop n).map some) :=
    splice_append _
  rwa [hlen, ← map_append, take_append_drop] at h

theorem afterCalls_addPage (fuel : ℕ) (h : p.length ≤ fuel) :
    afterCalls (addPage cfg fuel off p) last = splice last off (p.map some) := by
  induction fuel generalizing off p last with
  | zero =>
    obtain rfl : p = [] := eq_nil_of_length_eq_zero (le_zero.mp h)
    exact splice_nil.symm
  | succ fuel ih =>
    rw [addPage]
    split
    next hp =>
      subst hp
      exact splice_nil.symm
    next hp =>
      have hpos := length_pos_iff.mpr hp
      have hend := block_end cfg off
      have hmod := mod_lt off cfg.blockSize_pos
      dsimp only
      rw [afterCalls, foldl_cons, ← afterCalls, ih (by rw [length_drop]; omega)]
      exact splice_take_drop (min_le_left _ _)

theorem addPage_within (fuel : ℕ) :
    ∀ c ∈ addPage cfg fuel off p, c.2 ≠ [] ∧ c.1 + c.2.length ≤ off + p.length := by
  induction fuel generalizing off p with
  | zero => exact fun c hc => by cases hc
  | succ fuel ih =>
    intro c hc
    rw [addPage] at hc
    split at hc
    · cases hc
    next hp =>
      have hpos := length_pos_iff.mpr hp
      have hend := block_end cfg off
      have hmod := mod_lt off cfg.blockSize_pos
      rcases mem_cons.mp hc with rfl | hc
      · dsimp only
        rw [← length_pos_iff, length_take]
        exact ⟨by omega, by omega⟩
      obtain ⟨hne, hle⟩ := ih c hc
      rw [length_drop] at hle
      exact ⟨hne, by omega⟩

theorem afterCalls_round {taken : ℕ} (hpos : 0 < taken) (rest : List (ℕ × List UInt8)) :
    afterCalls (if 0 < taken ∧ taken < p.length then (off + taken, p.drop taken) :: rest else rest)
        (accepted last off taken p) = afterCalls ((off, p) :: rest) last := by
  rw [accepted, afterCalls, afterCalls, foldl_cons]
  split
  next hlt =>
    rw [foldl_cons]
    dsimp only
    rw [splice_take_drop (le_of_lt hlt.2)]
  next hge => rw [take_of_length_le (Nat.le_of_not_lt fun hlt => hge ⟨hpos, hlt⟩)]

end Calls

/-! ### The ends of the write blocks -/

namespace UploadPipeline

/-- No write block goes beyond the size of the file. -/
def Ends (cfg : Config) (size : ℕ) (up : UploadPipeline) : Prop :=
  ∀ i b, up.writeBlocks.lookup i = some b → i * cfg.blockSize + b.highOff ≤ size

section Ends

variable {cfg : Config} {size off : ℕ} {p : List UInt8} {up : UploadPipeline} {b : MemBlock}
  {old : Outcome}

theorem Ends.move2Sealed (h : Ends cfg size up) (b : Held) (idx : ℕ) :
    Ends cfg size (up.move2Sealed cfg b idx old) := by
  intro i c hc
  rw [writeBlocks_move2Sealed] at hc
  exact h i c (lookup_erase_eq_some hc).2

theorem highOff_writeAt (st : Storage) : (b.writeAt cfg.blockSize (off / cfg.blockSize) st
      (off % cfg.blockSize) p).2.1.highOff =
    max b.highOff (off % cfg.blockSize + (p.take (room cfg off p)).length) := by
  rw [MemBlock.writeAt]
  dsimp only
  split
  · rw [MemBlock.doFlush]
    split <;> rfl
  · rfl

theorem Ends.writeMem (h : Ends cfg size up)
    (hb : off / cfg.blockSize * cfg.blockSize + b.highOff ≤ size) (hp : off + p.length ≤ size) :
    Ends cfg size (up.writeMem cfg b off p .ok old).up := by
  have hoff := div_add_mod' off cfg.blockSize
  have hroom : room cfg off p ≤ p.length := min_le_left _ _
  have hhigh : ∀ st, off / cfg.blockSize * cfg.blockSize + (b.writeAt cfg.blockSize
      (off / cfg.blockSize) st (off % cfg.blockSize) p).2.1.highOff ≤ size := by
    intro st
    rw [highOff_writeAt, length_take_room]
    omega
  have hinsert : Ends cfg size { up with
      writeBlocks := up.writeBlocks.insert (off / cfg.blockSize)
        (b.writeAt cfg.blockSize (off / cfg.blockSize) up.storage (off % cfg.blockSize) p).2.1
      storage := (b.writeAt cfg.blockSize (off / cfg.blockSize) up.storage
        (off % cfg.blockSize) p).2.2 } := by
    intro i c hc
    obtain ⟨rfl, rfl⟩ | ⟨-, hc⟩ := lookup_insert_eq_some hc
    · exact hhigh _
    · exact h i c hc
  rw [UploadPipeline.writeMem]
  split
  · exact hinsert.move2Sealed _ _
  · exact hinsert

end Ends

end UploadPipeline

theorem PipeState.round_mem {κ : Type} [DecidableEq κ] {cfg : Config} {s : PipeState κ} {t : κ}
    {env : ℕ → PageEnv} {old : Outcome} {off : ℕ} {p : List UInt8} {rest : List (ℕ × List UInt8)}
    {b : MemBlock} (hcalls : s.calls t = (off, p) :: rest) (hp : p ≠ [])
    (hr : s.up.writeRound cfg env off p .ok old = some (s.up.writeMem cfg b off p .ok old)) :
    (s.next cfg (.round t env .ok old)).up = (s.up.writeMem cfg b off p .ok old).up ∧
    (s.next cfg (.round t env .ok old)).last =
      accepted s.last off (room cfg off p) p ∧
    (s.next cfg (.round t env .ok old)).calls t =
      if 0 < room cfg off p ∧ room cfg off p < p.length then
        (off + room cfg off p, p.drop (room cfg off p)) :: rest
      else rest := by
  rw [next, round, hcalls]
  dsimp only
  rw [if_neg hp, hr]
  dsimp only
  rw [writeMem_taken]
  exact ⟨rfl, rfl, Function.update_self t _ s.calls⟩

namespace BufferState

open UploadPipeline (Ends)

/-- The pipeline flushes what it has accepted, and with the calls that are still to be made that is
what was written. A buffer without writes is empty. -/
structure Sound (cfg : Config) (init : Storage) (s : BufferState) : Prop where
  pipe : s.pipe.up.Flushes cfg init s.flushing s.pipe.last
  data : afterCalls (s.pipe.calls ()) s.pipe.last = s.data
  calls : ∀ c ∈ s.pipe.calls (), c.2 ≠ [] ∧ c.1 + c.2.length ≤ s.size
  ends : s.pipe.up.Ends cfg s.size
  flushing : s.flushing = true → s.Idle
  clean : s.hasWrites = false → s.Idle ∧ s.data = (fun _ => none) ∧
    s.pipe.up.writeBlocks = ∅ ∧ ∀ id, s.pipe.up.uploads id = none
  reader : s.reader.swapfile.ReadOnly cfg

/-- The upload of a block that `Flush` seals is complete. -/
def SealFlushes (cfg : Config) (idx : ℕ) (up : UploadPipeline) : Prop :=
  match up.writeBlocks.lookup idx with
  | none => True
  | some b => b.flushed = true ∨ (up.storage.lookup idx).isNone ∨
      b.interval.total = cfg.blockSize ∨ b.highOff < cfg.blockSize

instance (cfg : Config) (idx : ℕ) (up : UploadPipeline) : Decidable (SealFlushes cfg idx up) := by
  unfold SealFlushes
  split <;> infer_instance

/-- The storage takes what is uploaded, each upload is complete, and no page is evicted. -/
def Safe (cfg : Config) (s : BufferState) : BufferCall → Prop
  | .round _ out _ =>
    match s.pipe.calls () with
    | [] => True
    | c :: _ => out = .ok ∧ s.pipe.up.RoundFlushes cfg c.1 c.2
  | .upload _ out => out = .ok
  | .sealBlock idx _ => SealFlushes cfg idx s.pipe.up
  | .read off len env => ∀ n < len + 3, ∀ x < off + len + cfg.blockSize, (env n).pages x = none
  | _ => True

instance (cfg : Config) (s : BufferState) : (c : BufferCall) → Decidable (s.Safe cfg c)
  | .round _ out _ =>
    match h : s.pipe.calls () with
    | [] => isTrue (by rw [Safe, h]; trivial)
    | c :: _ => decidable_of_iff (out = .ok ∧ s.pipe.up.RoundFlushes cfg c.1 c.2) (by rw [Safe, h])
  | .upload _ out => inferInstanceAs (Decidable (out = .ok))
  | .sealBlock idx _ => inferInstanceAs (Decidable (SealFlushes cfg idx s.pipe.up))
  | .read off len env => inferInstanceAs (Decidable
      (∀ n < len + 3, ∀ x < off + len + cfg.blockSize, (env n).pages x = none))
  | .write _ _ | .complete _ _ | .destroy _ _ | .flush | .flushed | .evict _ | .destroyRead _ _ =>
    isTrue trivial

section Steps

variable {cfg : Config} {init : Storage} {s : BufferState} {last : ℕ → Option UInt8}
  {up : UploadPipeline} {out old : Outcome}

theorem sound_init (st : Storage) : Sound cfg st (.init cfg st) where
  pipe := flushes_new st
  data := rfl
  calls c hc := by cases hc
  ends i b hb := by cases hb
  flushing _ := rfl
  clean _ := ⟨rfl, rfl, rfl, fun _ => rfl⟩
  reader := readOnly_empty cfg

section

variable (h : s.Sound cfg init)
include h

theorem Sound.last_eq (hidle : s.Idle) : s.pipe.last = s.data := by
  have hdata := h.data
  rw [hidle] at hdata
  exact hdata

theorem Sound.write (off : ℕ) (p : List UInt8)
    (henabled : s.Enabled (.write off p)) : (s.next cfg (.write off p)).Sound cfg init := by
  obtain ⟨hidle, hfl⟩ := henabled
  have hcalls : (s.next cfg (.write off p)).pipe.calls () = addPage cfg p.length off p :=
    Function.update_self () _ s.pipe.calls
  have hsize : s.size ≤ (s.next cfg (.write off p)).size := by
    change s.size ≤ if p = [] then s.size else max s.size (off + p.length)
    split <;> omega
  refine ⟨h.pipe, ?_, ?_, fun i b hb => le_trans (h.ends i b hb) hsize, ?_, ?_, h.reader⟩
  · rw [hcalls]
    change afterCalls _ s.pipe.last = splice s.data off (p.map some)
    rw [afterCalls_addPage _ (le_refl _), h.last_eq hidle]
  · intro c hc
    rw [hcalls] at hc
    obtain ⟨hne, hle⟩ := addPage_within p.length c hc
    refine ⟨hne, le_trans hle ?_⟩
    change off + p.length ≤ if p = [] then s.size else max s.size (off + p.length)
    split
    next hp =>
      subst hp
      cases hc
    · omega
  · intro hfl'
    cases hfl.symm.trans hfl'
  · intro hclean
    obtain ⟨hno, hempty⟩ := Bool.or_eq_false_iff.mp hclean
    obtain rfl : p = [] := by
      cases p with
      | nil => rfl
      | cons => cases hempty
    obtain ⟨-, hdata, hrest⟩ := h.clean hno
    refine ⟨hcalls, ?_, hrest⟩
    change splice s.data off [] = _
    rw [splice_nil, hdata]

theorem Sound.round (env : ℕ → PageEnv) (henabled : s.Enabled (.round env out old))
    (hsafe : s.Safe cfg (.round env out old)) :
    (s.next cfg (.round env out old)).Sound cfg init := by
  obtain ⟨hne, -⟩ := henabled
  have hfl : s.flushing = false := by
    cases hfl : s.flushing with
    | false => rfl
    | true => exact absurd (h.flushing hfl) hne
  rw [Safe] at hsafe
  cases hcalls : s.pipe.calls () with
  | nil => exact absurd hcalls hne
  | cons c rest =>
    obtain ⟨off, p⟩ := c
    rw [hcalls] at hsafe
    obtain ⟨rfl, hround⟩ := hsafe
    obtain ⟨hp, hle⟩ := h.calls (off, p) (by rw [hcalls]; exact mem_cons_self ..)
    have hpipe := h.pipe
    rw [hfl] at hpipe
    obtain ⟨b, hb, hunsent, hall, heq⟩ := hround.writeRound_eq env hpipe.noSwap
    obtain ⟨hup, hlast, hcalls'⟩ := round_mem hcalls hp heq
    refine ⟨?_, ?_, ?_, ?_, ?_, ?_, h.reader⟩
    · change (s.pipe.next cfg (.round () env .ok old)).up.Flushes cfg init s.flushing
        (s.pipe.next cfg (.round () env .ok old)).last
      rw [hup, hlast, hfl]
      exact hpipe.writeMem hunsent hp hb hall
    · change afterCalls ((s.pipe.next cfg (.round () env .ok old)).calls ())
        (s.pipe.next cfg (.round () env .ok old)).last = s.data
      rw [hcalls', hlast, afterCalls_round (room_pos hp), ← hcalls]
      exact h.data
    · intro c hc
      change c ∈ (s.pipe.next cfg (.round () env .ok old)).calls () at hc
      rw [hcalls'] at hc
      have hrest : ∀ c ∈ rest, c.2 ≠ [] ∧ c.1 + c.2.length ≤ s.size :=
        fun c hc => h.calls c (by rw [hcalls]; exact mem_cons_of_mem _ hc)
      split at hc
      next hlt =>
        rcases mem_cons.mp hc with rfl | hc
        · change p.drop (room cfg off p) ≠ [] ∧ off + room cfg off p +
            (p.drop (room cfg off p)).length ≤ s.size
          dsimp only at hle
          rw [← length_pos_iff, length_drop]
          exact ⟨by omega, by omega⟩
        · exact hrest c hc
      · exact hrest c hc
    · change (s.pipe.next cfg (.round () env .ok old)).up.Ends cfg s.size
      rw [hup]
      refine h.ends.writeMem ?_ hle
      obtain hb | ⟨-, rfl⟩ := hb
      · exact h.ends _ b hb
      have := div_mul_le_self off cfg.blockSize
      dsimp only at hle
      change off / cfg.blockSize * cfg.blockSize + 0 ≤ s.size
      omega
    · intro hfl'
      cases hfl.symm.trans hfl'
    · intro hno
      exact absurd (h.clean hno).1 hne

theorem Sound.withUp
    (hpipe : up.Flushes cfg init s.flushing s.pipe.last) (hends : up.Ends cfg s.size)
    (hclean : s.hasWrites = false → up.writeBlocks = ∅ ∧ ∀ id, up.uploads id = none) :
    Sound cfg init { s with pipe := { s.pipe with up := up } } where
  __ := h
  pipe := hpipe
  ends := hends
  clean := fun hno => ⟨(h.clean hno).1, (h.clean hno).2.1, hclean hno⟩

theorem Sound.upload (id : ℕ) : (s.next cfg (.upload id)).Sound cfg init := by
  refine h.withUp (h.pipe.upload id) ?_ ?_
  · intro i b hb
    rw [writeBlocks_upload] at hb
    exact h.ends i b hb
  · intro hno
    obtain ⟨-, -, hempty, hnone⟩ := h.clean hno
    rw [UploadPipeline.upload, hnone id]
    exact ⟨hempty, hnone⟩

theorem Sound.complete (id : ℕ) (henabled : s.Enabled (.complete id out)) :
    (s.next cfg (.complete id out)).Sound cfg init := by
  obtain ⟨hany, -⟩ := henabled
  cases hu : s.pipe.up.uploads id with
  | none =>
    rw [hu] at hany
    cases hany
  | some u =>
    rw [hu, any_some] at hany
    refine h.withUp (h.pipe.complete hu hany) ?_ ?_
    · intro i b hb
      rw [writeBlocks_complete] at hb
      exact h.ends i b hb
    · intro hno
      obtain ⟨-, -, -, hnone⟩ := h.clean hno
      cases (hnone id).symm.trans hu

theorem Sound.sealBlock (idx : ℕ) (henabled : s.Enabled (.sealBlock idx old))
    (hsafe : s.Safe cfg (.sealBlock idx old)) :
    (s.next cfg (.sealBlock idx old)).Sound cfg init := by
  obtain ⟨hfl, hwrites, -⟩ := henabled
  change (s.sealBlock cfg idx old).Sound cfg init
  rw [Safe, SealFlushes] at hsafe
  rw [BufferState.sealBlock]
  cases hb : s.pipe.up.writeBlocks.lookup idx with
  | none => exact h
  | some b =>
    rw [hb] at hsafe
    refine h.withUp (h.pipe.move2Sealed hb ?_) (h.ends.move2Sealed _ _) ?_
    · rw [hfl]
      exact hsafe.imp_right fun hup => ⟨rfl, hup.imp_left isNone_iff_eq_none.mp⟩
    · intro hno
      cases hwrites.symm.trans hno

theorem Sound.uploads_flushed (hreturns : s.FlushReturns) (id : ℕ) (u : Upload)
    (hu : s.pipe.up.uploads id = some u) : u.flushed = true := by
  obtain ⟨-, hno | ⟨-, hall⟩⟩ := hreturns
  · obtain ⟨-, -, -, hnone⟩ := h.clean hno
    cases (hnone id).symm.trans hu
  · have := hall id (h.pipe.numbered id u hu)
    rwa [hu, all_some] at this

theorem Sound.flushed (henabled : s.Enabled .flushed) :
    (s.next cfg .flushed).Sound cfg init where
  __ := h
  pipe := h.pipe.finish (h.uploads_flushed henabled)
  flushing := fun hfl => by cases hfl
  clean := h.clean

theorem Sound.flush (henabled : s.Enabled .flush) :
    (s.next cfg .flush).Sound cfg init := by
  obtain ⟨hidle, hfl⟩ := henabled
  have hpipe := h.pipe
  rw [hfl] at hpipe
  exact { h with
    pipe := hpipe.start
    flushing := fun _ => hidle
    clean := h.clean }

end

/-! ### Reads -/

theorem readDirty_up {fl : Bool}
    (h : up.Flushes cfg init fl last) {pages : ℕ → PageEnv} {hasWrites : Bool} (fuel : ℕ) {off len : ℕ}
    {d : DirtyRead} (hd : readDirty cfg pages hasWrites fuel off len up = some d) : d.up = up := by
  induction fuel generalizing off len d with
  | zero => cases hd
  | succ fuel ih =>
    rw [readDirty] at hd
    split at hd
    · cases hd
      rfl
    split at hd
    · cases hd
      rfl
    obtain ⟨r, hr, hd⟩ := bind_eq_some_iff.mp hd
    have hup := h.readAt_up hr
    split at hd
    · cases hd
      exact hup
    obtain ⟨d', hd', rfl⟩ := map_eq_some_iff.mp hd
    rw [hup] at hd'
    change d'.up = up
    exact ih hd'

theorem fetched_eq {f : Fetched} (hst : f.storage = s.pipe.up.storage) :
    s.fetched f = { s with reader := f.reader } := by
  rw [fetched, hst]

theorem readLoop_state {fl : Bool} (hpipe : s.pipe.up.Flushes cfg init fl last)
    (fuel : ℕ) {env : ℕ → ReadEnv} {off len : ℕ} {noOnRemote noOnDirty eof : Bool}
    (rd : Reader) (hro : rd.swapfile.ReadOnly cfg)
    (hpages : 0 < len → ∀ n < fuel, ∀ x < off + len + cfg.blockSize, (env n).pages x = none)
    {r : ReadOutcome} (hr : readLoop cfg fuel env off len noOnRemote noOnDirty eof
      { s with reader := rd } = some r) :
    ∃ rd', r.state = { s with reader := rd' } ∧ rd.Follows cfg s.pipe.up.storage rd' := by
  induction fuel generalizing env off len noOnRemote noOnDirty eof rd r with
  | zero => cases hr
  | succ fuel ih =>
    rw [readLoop] at hr
    split at hr
    · cases hr
      exact ⟨rd, rfl, .refl hro⟩
    next hcont =>
      have hlen : 0 < len := pos_of_ne_zero fun h => hcont (.inl h)
      obtain ⟨f, hf, hr⟩ := bind_eq_some_iff.mp hr
      obtain ⟨hst, hfollows⟩ := Reader.read_follows hlen hro (hpages hlen 0 (succ_pos _)) hf
      rw [fetched_eq hst] at hr
      dsimp only at hr
      split at hr
      · cases hr
        exact ⟨f.reader, rfl, hfollows⟩
      split at hr
      · cases hr
        exact ⟨f.reader, rfl, hfollows⟩
      next hshort =>
        obtain ⟨d, hd, hr⟩ := bind_eq_some_iff.mp hr
        rw [readDirty_up hpipe _ hd] at hr
        split at hr
        · cases hr
          exact ⟨f.reader, rfl, hfollows⟩
        obtain ⟨r', hr', rfl⟩ := map_eq_some_iff.mp hr
        obtain ⟨rd', hstate, hrest⟩ := ih f.reader hfollows.readOnly (by
          intro hmore n hn x hx
          exact hpages hlen (n + 1) (succ_lt_succ hn) x (by omega)) hr'
        exact ⟨rd', hstate, hfollows.trans hrest⟩

theorem Sound.read (h : s.Sound cfg init) (off len : ℕ) (env : ℕ → ReadEnv)
    (hsafe : s.Safe cfg (.read off len env)) : (s.next cfg (.read off len env)).Sound cfg init := by
  change (((s.read cfg env off len).map fun r => r.state).getD s).Sound cfg init
  cases hr : s.read cfg env off len with
  | none => exact h
  | some r =>
    obtain ⟨rd, hstate, hfollows⟩ := readLoop_state h.pipe _ s.reader h.reader (fun _ => hsafe) hr
    change r.state.Sound cfg init
    rw [hstate]
    exact { h with reader := hfollows.readOnly }

theorem Sound.next {c : BufferCall} (h : s.Sound cfg init) (hc : s.Enabled c ∧ s.Safe cfg c) :
    (s.next cfg c).Sound cfg init := by
  cases c with
  | write off p => exact h.write off p hc.1
  | round env out old => exact h.round env hc.1 hc.2
  | upload id out =>
    obtain rfl : out = .ok := hc.2
    exact h.upload id
  | complete id out => exact h.complete id hc.1
  | destroy id out =>
    have hdying : id ∈ s.pipe.up.swapFile.dying := hc.1
    rw [h.pipe.dying] at hdying
    cases hdying
  | flush => exact h.flush hc.1
  | sealBlock idx old => exact h.sealBlock idx hc.1 hc.2
  | flushed => exact h.flushed hc.1
  | read off len env => exact h.read off len env hc.2
  | evict idx => exact { h with reader := h.reader }
  | destroyRead id out =>
    have hdying : id ∈ s.reader.swapfile.dying := hc.1
    rw [h.reader.dying] at hdying
    cases hdying

end Steps

/-! ### Runs -/

def SafeRun (cfg : Config) (st : Storage) (s : BufferState) : Prop :=
  Reach (next cfg) (fun s c => s.Enabled c ∧ s.Safe cfg c) (init cfg st) s

theorem SafeRun.sound {cfg : Config} {st : Storage} {s : BufferState} (h : SafeRun cfg st s) :
    s.Sound cfg st :=
  h.invariant (I := Sound cfg st) (fun _ _ hs hc => .next hs hc) (sound_init st)

/-- No call is under way, and no block waits for a flush. -/
def Settled (s : BufferState) : Prop :=
  s.Idle ∧ s.flushing = false ∧ s.pipe.up.writeBlocks.keys = ∅

theorem Settled.flushed {cfg : Config} {st : Storage} {s : BufferState} (hs : s.Sound cfg st)
    (henabled : s.Enabled .flushed) : (s.next cfg .flushed).Settled := by
  refine ⟨hs.flushing henabled.1, rfl, ?_⟩
  obtain ⟨-, hno | ⟨hkeys, -⟩⟩ := henabled
  · change s.pipe.up.writeBlocks.keys = ∅
    rw [(hs.clean hno).2.2.1]
    rfl
  · exact hkeys

theorem Settled.stored {cfg : Config} {st : Storage} {s : BufferState} (h : s.Settled)
    (hs : s.Sound cfg st) {x : ℕ} {v : UInt8} (hv : s.data x = some v) :
    (s.pipe.up.storage.lookup (x / cfg.blockSize)).map (fun d => d (x % cfg.blockSize)) =
      some v := by
  obtain ⟨hidle, hfl, hkeys⟩ := h
  have ho := Nat.mod_lt x cfg.blockSize_pos
  have hx := Nat.div_add_mod' x cfg.blockSize
  have hlast : s.pipe.last x = some v := by rw [hs.last_eq hidle, hv]
  have hpipe := hs.pipe
  rw [hfl] at hpipe
  -- no block holds a byte back
  have hwritten : ∀ i o, ¬s.pipe.up.Written i o := by
    rintro i o ⟨b, hb, -⟩
    have hmem : i ∈ s.pipe.up.writeBlocks.keys := mem_keys.mpr (mem_iff.mpr ⟨b, hb⟩)
    rw [hkeys] at hmem
    cases hmem
  cases hd : s.pipe.up.storage.lookup (x / cfg.blockSize) with
  | none =>
    obtain ⟨-, hcov⟩ := hpipe.absent _ hd
    rcases hcov _ ho (by rw [hx, hlast]; exact some_ne_none v) with hw | hs'
    · exact absurd hw (hwritten _ _)
    · exact absurd hs' (hpipe.not_sealed _ _)
  | some d =>
    have hbyte := hpipe.stored _ d _ hd ho (hwritten _ _) (hpipe.not_sealed _ _)
    rw [UploadPipeline.expected, hx, hlast] at hbyte
    exact congrArg some hbyte

/-- In every run of calls to `Write`, `Read` and `Flush`, and of uploads, whose steps all meet the
condition: when a flush returns, the storage has the last byte written at every offset. -/
theorem flushed_bytes_stored (cfg : Config) (st : Storage) (s : BufferState) (h : SafeRun cfg st s)
    (hreturns : s.Enabled .flushed) (x : ℕ) (v : UInt8) (hv : s.data x = some v) :
    ((s.next cfg .flushed).pipe.up.storage.lookup (x / cfg.blockSize)).map
      (fun d => d (x % cfg.blockSize)) = some v :=
  (Settled.flushed h.sound hreturns).stored (h.sound.flushed hreturns) hv

def tinyConfig : Config := ⟨4, 2, 1, Nat.zero_lt_succ 3, Nat.zero_lt_succ 1, Nat.le_add_right 2 2⟩

def oneBlock : Storage := Finmap.singleton 0 fun _ => 5

def flushRun : List BufferCall :=
  [.write 1 [7, 8], .round fun _ => none, .flush, .sealBlock 0, .upload 0]

theorem flushed_bytes_stored_sample :
    let s := exec (next tinyConfig) flushRun (init tinyConfig oneBlock)
    s.data 2 = some 8 ∧
      ((s.next tinyConfig .flushed).pipe.up.storage.lookup (2 / tinyConfig.blockSize)).map
        (fun d => d (2 % tinyConfig.blockSize)) = some 8 :=
  have h : SafeRun tinyConfig oneBlock
      (exec (next tinyConfig) flushRun (init tinyConfig oneBlock)) :=
    reach_exec (by decide +kernel)
  ⟨by decide +kernel,
    flushed_bytes_stored tinyConfig oneBlock _ h (by decide +kernel) 2 8 (by decide +kernel)⟩

def rewriteRun : List BufferCall :=
  [.write 0 [1, 2, 3], .round fun _ => none, .write 0 [1, 2, 3], .round fun _ => none, .write 0 [9],
    .round fun _ => none, .flush, .sealBlock 0, .upload 0]

def swapRun : List BufferCall :=
  [.write 0 [1], .round fun _ => none, .write 4 [9], .round fun _ => none, .flush, .sealBlock 0, .upload 0]

def lastByteRun : List BufferCall :=
  [.write 3 [9], .round fun _ => none, .flush, .sealBlock 0, .upload 0]

/-- A flush returns, and the byte 9 that was written last is not stored: the block was uploaded
before and is not uploaded again; or the block is in the swap file, which is not looked at; or
the upload leaves out what ends with the block. -/
theorem flush_loses_bytes :
    let rewritten := exec (next tinyConfig) rewriteRun (init tinyConfig ∅)
    let swapped := exec (next tinyConfig) swapRun (init tinyConfig ∅)
    let lastByte := exec (next tinyConfig) lastByteRun (init tinyConfig oneBlock)
    (Legal (next tinyConfig) Enabled (rewriteRun ++ [.flushed]) (init tinyConfig ∅) ∧
      rewritten.data 0 = some 9 ∧
      ((rewritten.next tinyConfig .flushed).pipe.up.storage.lookup 0).map (fun d => d 0) = some 1) ∧
    (Legal (next tinyConfig) Enabled (swapRun ++ [.flushed]) (init tinyConfig ∅) ∧
      swapped.data 4 = some 9 ∧
      ((swapped.next tinyConfig .flushed).pipe.up.storage.lookup 1).map (fun d => d 0) = none) ∧
    (Legal (next tinyConfig) Enabled (lastByteRun ++ [.flushed]) (init tinyConfig oneBlock) ∧
      lastByte.data 3 = some 9 ∧
      ((lastByte.next tinyConfig .flushed).pipe.up.storage.lookup 0).map (fun d => d 3) = some 5) := by
  decide +kernel

end BufferState

end HugoFS.Vfs.Buffer
