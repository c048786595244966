import HugoFS.Vfs.Buffer.Pages
import HugoFS.Vfs.Buffer.Pipeline

/-!
# Taking and freeing pages

What `WriteAt` of a block in the swap file takes, the offsets that swap files with one page context
hand out, and the wait for a page when the context is full. A block that is written to holds its
mutex meanwhile, so its own `Destroy` cannot come to an end.
-/

namespace HugoFS.Vfs.Buffer

open Function List SwapFile List.Subset

namespace SwapFile

variable {cfg : Config} {id d : ℕ} {s : SwapFile × Storage}

/-! ### What destroying a block touches -/

theorem foldl_freePage (cfg : Config) (pgs : List FilePage) (sf : SwapFile) :
    let r := pgs.foldl (freePage cfg) sf
    r.blocks = sf.blocks ∧ r.lookup = sf.lookup ∧
      r.freePages.length = sf.freePages.length + pgs.length := by
  induction pgs generalizing sf with
  | nil => exact ⟨rfl, rfl, rfl⟩
  | cons pg pgs ih =>
    obtain ⟨hblocks, hlookup, hfree⟩ := ih (freePage cfg sf pg)
    refine ⟨hblocks, hlookup, hfree.trans ?_⟩
    change sf.freePages.length + 1 + pgs.length = _
    rw [length_cons]
    omega

/-- The pages that `Destroy` of the block frees. -/
def heldPages (sf : SwapFile) (d : ℕ) : ℕ :=
  (sf.blocks d).elim 0 fun b => if b.closed then 0 else b.pages.entries.length

theorem destroy_spec (cfg : Config) (d : ℕ) (s : SwapFile × Storage) (out : Outcome) :
    let r := (destroy cfg d s out).1
    (∀ i, i ≠ d → r.blocks i = s.1.blocks i) ∧ r.lookup = s.1.lookup ∧ r.heldPages d = 0 ∧
      r.freePages.length = s.1.freePages.length + s.1.heldPages d := by
  rw [destroy]
  dsimp only [heldPages]
  cases hb : s.1.blocks d with
  | none => exact ⟨fun _ _ => rfl, rfl, by rw [hb]; rfl, rfl⟩
  | some b =>
    dsimp only [Option.elim]
    by_cases hclosed : b.closed = true
    · rw [if_pos hclosed, if_pos hclosed, hb]
      exact ⟨fun _ _ => rfl, rfl, if_pos hclosed, rfl⟩
    rw [if_neg hclosed, if_neg hclosed]
    obtain ⟨c, hc⟩ : ∃ c, (doFlush cfg d b s out).1 = s.1.setBlock d c := by
      rw [doFlush]
      split
      · exact ⟨b, rfl⟩
      · exact ⟨_, rfl⟩
    obtain ⟨hblocks, hlookup, hfree⟩ := foldl_freePage cfg (b.pages.entries.map fun e => e.2)
      (s.1.setBlock d c)
    rw [hc]
    dsimp only
    rw [hblocks, hlookup, hfree, length_map]
    refine ⟨fun i hi => ?_, rfl, ?_, rfl⟩
    · rw [if_neg hi]
      exact update_of_ne hi ..
    · have hd : (s.1.setBlock d c).blocks d = some c := update_self ..
      rw [if_pos rfl, hd]
      rfl

end SwapFile

/-! ### Waiting for a page -/

/-- `OccupyPage` of a swap file whose context is full: the blocks that it has still to hand to the
executor, the calls of `Destroy` under way, each with a token, and the free tokens. -/
structure PageWait where
  swap : SwapFile × Storage
  queue : List ℕ
  running : List ℕ
  tokens : ℕ

inductive WaitCall
  | execute
  | destroy (d : ℕ) (out : Outcome)

namespace PageWait

def start (s : SwapFile × Storage) (tokens : ℕ) : PageWait :=
  ⟨(s.1.evict, s.2), s.1.victims, s.1.dying, tokens⟩

def next (cfg : Config) : WaitCall → PageWait → PageWait
  | .execute, w =>
    { w with
      queue := w.queue.tail
      running := w.queue.take 1 ++ w.running
      tokens := w.tokens - 1 }
  | .destroy d out, w =>
    { w with
      swap := SwapFile.destroy cfg d w.swap out
      running := w.running.erase d
      tokens := w.tokens + 1 }

/-- `Execute` waits for a token, and `Destroy` for the mutex of its block. The mutexes of `held`
are kept by writers that wait for a page. -/
def Enabled (held : List ℕ) (w : PageWait) : WaitCall → Prop
  | .execute => w.queue ≠ [] ∧ 0 < w.tokens
  | .destroy d _ => d ∈ w.running ∧ d ∉ held

abbrev Leads (cfg : Config) (held : List ℕ) : PageWait → PageWait → Prop :=
  Runs.Reach (next cfg) (Enabled held)

/-- The blocks that are to be destroyed. -/
def doomed (w : PageWait) : List ℕ := w.queue ++ w.running

def free (w : PageWait) : ℕ := w.swap.1.freePages.length

section

variable {cfg : Config} {held : List ℕ} {s : SwapFile × Storage} {d tokens : ℕ} {w : PageWait}

theorem mem_doomed_execute : d ∈ (w.next cfg .execute).doomed ↔ d ∈ w.doomed := by
  cases hq : w.queue <;> simp [next, doomed, hq, or_left_comm]

/-- A page is free, or the block `d` is still to be destroyed and has one. -/
def Frees (n d : ℕ) (w : PageWait) : Prop :=
  w.queue.length ≤ w.tokens ∧ (n < w.free ∨ n = w.free ∧ d ∈ w.doomed ∧ 0 < w.swap.1.heldPages d)

theorem Frees.next {n : ℕ} (h : w.Frees n d) {c : WaitCall} (hc : w.Enabled held c) :
    (w.next cfg c).Frees n d := by
  obtain ⟨htokens, hfrees⟩ := h
  cases c with
  | execute =>
    refine ⟨by rw [PageWait.next, length_tail]; exact Nat.sub_le_sub_right htokens 1, ?_⟩
    rw [mem_doomed_execute]
    exact hfrees
  | destroy e out =>
    obtain ⟨hothers, -, -, hlen⟩ := destroy_spec cfg e w.swap out
    change (w.next cfg (.destroy e out)).free = w.free + _ at hlen
    refine ⟨Nat.le_succ_of_le htokens, ?_⟩
    obtain hlt | ⟨heq, hd, hpos⟩ := hfrees
    · exact .inl (by omega)
    by_cases hne : d = e
    · subst hne
      exact .inl (by omega)
    by_cases hzero : w.swap.1.heldPages e = 0
    · refine .inr ⟨by omega, ?_, ?_⟩
      · exact (mem_append.mp hd).elim (mem_append_left _) fun hd =>
          mem_append_right _ ((mem_erase_of_ne hne).mpr hd)
      · rwa [heldPages, PageWait.next, hothers d hne]
    · exact .inl (by omega)

end

end PageWait

namespace SwapFile

variable {cfg : Config} {id : ℕ} {s : SwapFile × Storage}

/-! ### What a write takes -/

end SwapFile

/-! ### Offsets of swap files that share a context -/

/-- Swap files with one page context. `live` are the pages handed out and not freed since. -/
structure PageShare (φ : Type) where
  files : φ → SwapFile
  live : List (φ × ℕ)
  counter : ℕ

inductive PageCall (φ : Type)
  | acquireOffset (f : φ)
  | freePage (f : φ) (off : ℕ)

namespace PageShare

variable {φ : Type} [DecidableEq φ]

def init : PageShare φ := ⟨fun _ => .empty, [], 0⟩

def next (cfg : φ → Config) : PageCall φ → PageShare φ → PageShare φ
  | .acquireOffset f, s =>
    let a := SwapFile.acquireOffset (cfg f) (s.files f)
    ⟨update s.files f a.2, (f, a.1) :: s.live, s.counter + 1⟩
  | .freePage f off, s =>
    ⟨update s.files f (SwapFile.freePage (cfg f) (s.files f) ⟨off, 0⟩), s.live.erase (f, off),
      s.counter - 1⟩

/-- `Wait` holds a caller back at the limit, and a page that was handed out is freed once. -/
def Enabled (limit : ℕ) (s : PageShare φ) : PageCall φ → Prop
  | .acquireOffset _ => s.counter < limit
  | .freePage f off => (f, off) ∈ s.live

instance (limit : ℕ) (s : PageShare φ) (c : PageCall φ) : Decidable (s.Enabled limit c) := by
  cases c <;> dsimp only [Enabled] <;> infer_instance

def offsets (s : PageShare φ) (f : φ) : List ℕ := (s.live.filter fun x => x.1 = f).map Prod.snd

def pages (s : PageShare φ) (f : φ) : List ℕ := s.offsets f ++ (s.files f).freePages

/-- The pages of a file, in use or free, lie side by side in it. -/
structure Placed (cfg : Config) (pages : List ℕ) (size : ℕ) : Prop where
  nodup : pages.Nodup
  below : ∀ o ∈ pages, cfg.pageSize ∣ o ∧ o < size
  size : cfg.pageSize ∣ size

theorem Placed.perm {cfg : Config} {l l' : List ℕ} {size : ℕ} (h : Placed cfg l size)
    (hperm : l.Perm l') : Placed cfg l' size :=
  ⟨hperm.nodup_iff.mp h.nodup, fun o ho => h.below o (hperm.mem_iff.mpr ho), h.size⟩

theorem Placed.grow {cfg : Config} {l : List ℕ} {size : ℕ} (h : Placed cfg l size) :
    Placed cfg (size :: l) (size + cfg.pageSize) where
  nodup := nodup_cons.mpr ⟨fun hin => Nat.lt_irrefl _ (h.below size hin).2, h.nodup⟩
  below := by
    have hpos := cfg.pageSize_pos
    refine forall_mem_cons.mpr ⟨⟨h.size, by omega⟩, fun o ho => ⟨(h.below o ho).1, ?_⟩⟩
    have := (h.below o ho).2
    omega
  size := (Nat.dvd_add_right h.size).mpr (Nat.dvd_refl _)

structure Sound (cfg : φ → Config) (limit : ℕ) (s : PageShare φ) : Prop where
  placed : ∀ f, Placed (cfg f) (s.pages f) (s.files f).size
  counter : s.counter = s.live.length
  limit : s.counter ≤ limit

theorem Sound.next {cfg : φ → Config} {limit : ℕ} {s : PageShare φ} (h : Sound cfg limit s)
    (c : PageCall φ) (hc : s.Enabled limit c) : Sound cfg limit (s.next cfg c) := by
  cases c with
  | acquireOffset f =>
    refine ⟨fun g => ?_, congrArg (· + 1) h.counter, hc⟩
    have hg := h.placed g
    by_cases hfg : f = g
    · subst hfg
      cases hfree : (s.files f).freePages with
      | nil =>
        simp only [pages, hfree, append_nil] at hg
        simpa [PageShare.next, acquireOffset, hfree, pages, offsets] using hg.grow
      | cons off rest =>
        simp only [pages, hfree] at hg
        simpa [PageShare.next, acquireOffset, hfree, pages, offsets] using
          hg.perm perm_middle
    · simpa [PageShare.next, pages, offsets, hfg, update_of_ne (Ne.symm hfg)] using hg
  | freePage f off =>
    have hperm := perm_cons_erase hc
    refine ⟨fun g => ?_, ?_, (Nat.sub_le _ _).trans h.limit⟩
    · have hg := h.placed g
      have hoff := (hperm.filter fun x => x.1 = g).map Prod.snd
      by_cases hfg : f = g
      · subst hfg
        simp only [decide_true, filter_cons_of_pos, map_cons] at hoff
        have hpages := (hoff.append_right (s.files f).freePages).trans perm_middle.symm
        simpa [PageShare.next, freePage, writeFile, pages, offsets] using
          hg.perm hpages
      · simp only [hfg, decide_false, Bool.false_eq_true, not_false_eq_true,
          filter_cons_of_neg] at hoff
        simpa [PageShare.next, pages, offsets, update_of_ne (Ne.symm hfg)] using
          hg.perm (hoff.append_right _)
    · have := hperm.length_eq
      have := h.counter
      change s.counter - 1 = (s.live.erase (f, off)).length
      rw [length_cons] at *
      omega

/-- Whatever the interleaving: the pages of a file in use are different multiples of the page size
below the size of the file, do not overlap and are not free, and the context counts them all. -/
theorem pages_apart (cfg : φ → Config) (limit : ℕ) (s : PageShare φ)
    (h : Runs.Reach (next cfg) (Enabled limit) init s) :
    (∀ f, (s.offsets f).Nodup ∧
      (∀ o ∈ s.offsets f, (cfg f).pageSize ∣ o ∧ o < (s.files f).size ∧
        o ∉ (s.files f).freePages) ∧
      ∀ o ∈ s.offsets f, ∀ o' ∈ s.offsets f, o < o' → o + (cfg f).pageSize ≤ o') ∧
    s.counter = s.live.length ∧ s.counter ≤ limit := by
  have hs := h.invariant (I := Sound cfg limit) (fun s c hs hc => hs.next c hc)
    ⟨fun _ => ⟨nodup_nil, (fun o ho => by cases ho), Nat.dvd_zero _⟩, rfl, Nat.zero_le _⟩
  refine ⟨fun f => ?_, hs.counter, hs.limit⟩
  obtain ⟨hnodup, hbelow, -⟩ := hs.placed f
  obtain ⟨hoff, -, hdisj⟩ := nodup_append'.mp hnodup
  have hmem : ∀ o ∈ s.offsets f, o ∈ s.pages f := fun o ho => mem_append_left _ ho
  refine ⟨hoff, fun o ho => ?_, fun o ho o' ho' hlt => ?_⟩
  · exact ⟨(hbelow o (hmem o ho)).1, (hbelow o (hmem o ho)).2, fun hf => hdisj ho hf⟩
  · have hdvd := (Nat.dvd_add_left (Nat.dvd_refl _)).mpr (hbelow o (hmem o ho)).1
    exact Nat.le_of_lt_add_of_dvd (Nat.add_lt_add_right hlt _) hdvd (hbelow o' (hmem o' ho')).1

def sampleShare : List (PageCall Bool) :=
  [.acquireOffset true, .acquireOffset true, .acquireOffset false, .freePage true 0,
    .acquireOffset false, .acquireOffset true]

/-- Two files with four pages; the first page of one was freed and taken again. -/
theorem pages_apart_sample : let s := Runs.exec (next fun _ => fourBytes) sampleShare init
    s.offsets true = [0, 2] ∧ s.offsets false = [2, 0] ∧ 0 + fourBytes.pageSize ≤ 2 ∧
      2 ∉ (s.files true).freePages ∧ s.counter = 4 ∧ s.counter ≤ 4 :=
  have hlegal : Runs.Legal (next fun _ => fourBytes) (Enabled 4) sampleShare init := by decide
  have h := pages_apart (fun _ => fourBytes) 4 _ (Runs.reach_exec hlegal)
  ⟨rfl, rfl, (h.1 true).2.2 0 (by decide) 2 (by decide) (by decide),
    ((h.1 true).2.1 2 (by decide)).2.2, h.2.1, h.2.2⟩

end PageShare

namespace UploadPipeline

end UploadPipeline

end HugoFS.Vfs.Buffer
