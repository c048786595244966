import HugoFS.Vfs.Buffer.Flushed
import HugoFS.Vfs.Buffer.PageContext

/-!
# What reads and writes report

The errors of `DirectRWBuffer.Read` and of `PageWritter.AddPage`, over sources and a pipeline that
may give any answers. `Read` returns the variable that only EOF is assigned to, and `AddPage` drops
what the pipeline answers. `WriteAt` of the pipeline puts bytes into a block of the swap file that
are not of it, and retries for ever when it finds a destroyed block.
-/

namespace HugoFS.Vfs.Buffer

open List Runs BufferState

inductive SourceErr (ε : Type)
  | eof
  | other (e : ε)

/-- What `readBuffer.Read` and `dirtyPages.ReadAt` answer in a round. -/
structure RoundAnswer (ε : Type) where
  remote : ℕ × Option (SourceErr ε)
  dirty : ℕ × Option (SourceErr ε)

section Read

variable {ε : Type}

/-- The sources fail with nothing but EOF, and the read buffer does whenever it gives fewer than
the `len` bytes that are asked of it at most. -/
def RoundAnswer.Plain (len : ℕ) (a : RoundAnswer ε) : Prop :=
  (a.remote.2 = some .eof ∨ a.remote.2 = none ∧ len ≤ a.remote.1) ∧
    (a.dirty.2 = none ∨ a.dirty.2 = some .eof)

end Read

/-! ### Adding a page -/

/-- `AddPage` with the answers of the pipeline, which it does not look at: what it returns. -/
def addPageReport (cfg : Config) {ε : Type} (_answer : ℕ × List UInt8 → ℕ × Option ε) (off : ℕ)
    (p : List UInt8) : ℕ × Option ε :=
  (((addPage cfg p.length off p).map fun c => c.2.length).sum, none)

def Consecutive : ℕ → List (ℕ × List UInt8) → Prop
  | _, [] => True
  | off, c :: cs => c.1 = off ∧ Consecutive (off + c.2.length) cs

theorem addPage_pieces (cfg : Config) {fuel : ℕ} (off : ℕ) {p : List UInt8} (hfuel : p.length ≤ fuel) :
    let pieces := addPage cfg fuel off p
    (pieces.map Prod.snd).flatten = p ∧ Consecutive off pieces ∧
      ∀ c ∈ pieces, c.1 % cfg.blockSize + c.2.length ≤ cfg.blockSize := by
  induction fuel generalizing off p with
  | zero =>
    obtain rfl := length_eq_zero_iff.mp (Nat.le_zero.mp hfuel)
    exact ⟨rfl, trivial, fun c hc => by cases hc⟩
  | succ fuel ih =>
    rw [addPage]
    by_cases hp : p = []
    · subst hp
      exact ⟨rfl, trivial, fun c hc => by cases hc⟩
    have hpos := length_pos_iff.mpr hp
    have hend := SwapFile.block_end cfg off
    have hmod := Nat.mod_lt off cfg.blockSize_pos
    rw [if_neg hp]
    dsimp only
    generalize hn : min p.length ((off / cfg.blockSize + 1) * cfg.blockSize - off) = n
    have hlen : (p.take n).length = n := by rw [length_take]; omega
    obtain ⟨hflat, hcons, hwithin⟩ := ih (off + n) (p := p.drop n)
      (by rw [length_drop]; omega)
    refine ⟨?_, ⟨rfl, by rwa [hlen]⟩, forall_mem_cons.mpr ⟨?_, hwithin⟩⟩
    · rw [map_cons, flatten_cons, hflat, take_append_drop]
    · change off % cfg.blockSize + (p.take n).length ≤ cfg.blockSize
      omega

/-- The pieces of `AddPage` are right. It returns nil only if each of them is accepted in full, and
counts the accepted bytes, exactly if all of them are accepted in full. -/
theorem addPage_honest_iff (cfg : Config) {ε : Type} (answer : ℕ × List UInt8 → ℕ × Option ε)
    (off : ℕ) (p : List UInt8) :
    let pieces := addPage cfg p.length off p
    let r := addPageReport cfg answer off p
    ((pieces.map Prod.snd).flatten = p ∧ Consecutive off pieces ∧
      ∀ c ∈ pieces, c.1 % cfg.blockSize + c.2.length ≤ cfg.blockSize) ∧ r.1 = p.length ∧
    ((r.2 = none → ∀ c ∈ pieces, answer c = (c.2.length, none)) ∧
        r.1 = (pieces.map fun c => (answer c).1).sum ↔
      ∀ c ∈ pieces, answer c = (c.2.length, none)) := by
  intro pieces r
  have hpieces := addPage_pieces cfg off (Nat.le_refl p.length)
  refine ⟨hpieces, ?_, fun h => h.1 rfl, fun h => ⟨fun _ => h, ?_⟩⟩
  · calc r.1 = ((pieces.map Prod.snd).map length).sum := by rw [map_map]; rfl
      _ = p.length := by rw [← length_flatten, hpieces.1]
  · exact congrArg sum (map_congr_left fun c hc => by rw [h c hc])

/-- The pipeline rejects the only piece, and all of it is reported as written. -/
theorem addPage_reports_rejected :
    addPageReport BufferState.tinyConfig (fun _ => (0, some ())) 0 [7] = (1, none) := rfl

/-! ### The rounds of a write -/

namespace UploadPipeline

/-- The loop of `WriteAt`: the pieces that it has put into blocks, and the offset of each. It is
`none` when the loop does not end; an error ends it. -/
def writeAt (cfg : Config) (env : ℕ → PageEnv) (outs : ℕ → Outcome × Outcome) :
    ℕ → ℕ → List UInt8 → UploadPipeline → Option (List (ℕ × List UInt8) × UploadPipeline)
  | 0, _, p, up => if p = [] then some ([], up) else none
  | fuel + 1, off, p, up =>
    if p = [] then some ([], up)
    else (up.writeRound cfg env off p (outs off).1 (outs off).2).bind fun r =>
      if r.taken = 0 then some ([], r.up)
      else (writeAt cfg env outs fuel (off + r.taken) (p.drop r.taken) r.up).map fun w =>
        ((off, p.take r.taken) :: w.1, w.2)

variable {cfg : Config} {up : UploadPipeline} {off : ℕ} {p : List UInt8}

section Ends

variable {env : ℕ → PageEnv} {out old : Outcome} {outs : ℕ → Outcome × Outcome}

end Ends

end UploadPipeline

end HugoFS.Vfs.Buffer
