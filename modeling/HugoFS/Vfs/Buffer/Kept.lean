import HugoFS.Lib.FiniteMap
import HugoFS.Vfs.Buffer.Pipeline

/-!
# Accepted bytes are kept

The last byte accepted at an offset can be found in the storage, in a write block, in a sealed
block, or in the swap file, as long as no write goes to a block that was uploaded already, the
storage takes what a write uploads, and the blocks in the swap file stay small.
-/

namespace HugoFS.Vfs.Buffer

open Spans Segment Function Finmap List Runs Option MemBlock SwapFile

namespace MemBlock

def has (b : MemBlock) (o : ℕ) (v : UInt8) : Bool := Covers b.interval.items o ∧ b.data o = v

end MemBlock

variable {env : ℕ → PageEnv} {out old : Outcome}

namespace UploadPipeline

/-- The block has the byte `v` of the file at `x`. -/
def heldHas (cfg : Config) (up : UploadPipeline) (x : ℕ) (v : UInt8) : Held → Bool
  | .mem b => b.has (x % cfg.blockSize) v
  | .file f => up.swapFile.byte cfg f x = some v

/-- The byte is in the storage or in one of the places where a read of dirty pages looks. -/
def Found (cfg : Config) (up : UploadPipeline) (x : ℕ) (v : UInt8) : Prop :=
  (up.storage.lookup (x / cfg.blockSize)).any (fun d => d (x % cfg.blockSize) = v) = true ∨
    (up.writeBlocks.lookup (x / cfg.blockSize)).any (fun b => b.has (x % cfg.blockSize) v) = true ∨
    ((up.sealedBlocks (x / cfg.blockSize)).bind up.uploads).any
      (fun u => up.heldHas cfg x v u.block) = true ∨
    up.swapFile.order.any (fun f =>
      (up.swapFile.blocks f).any (fun b => b.idx = x / cfg.blockSize) &&
        up.swapFile.byte cfg f x = some v) = true
deriving Decidable

/-- The blocks record what was accepted, and what they do not cover is in the storage. Only blocks
in memory that were uploaded are sealed. -/
structure Keeps (cfg : Config) (last : ℕ → Option UInt8) (up : UploadPipeline) : Prop where
  records : ∀ i b, up.writeBlocks.lookup i = some b →
    b.Records cfg.blockSize fun o => last (i * cfg.blockSize + o)
  apart : ∀ i b, up.writeBlocks.lookup i = some b → up.swapFile.lookup i = none
  disjoint : up.swapFile.Disjoint cfg
  fresh : ∀ f b, up.swapFile.blocks f = some b → f < up.swapFile.nextId
  swapped : ∀ i f, up.swapFile.lookup i = some f → f ∈ up.swapFile.order ∧
    ∃ b, up.swapFile.blocks f = some b ∧
      SwapFile.Holds cfg up.swapFile i f (fun o => last (i * cfg.blockSize + o)) b
  dying : up.swapFile.dying = []
  uploads : ∀ id u, up.uploads id = some u → ∃ b, u.block = .mem b ∧ b.flushed = true
  found : ∀ i o v, o < cfg.blockSize → last (i * cfg.blockSize + o) = some v →
    (∃ b, up.writeBlocks.lookup i = some b ∧ Covers b.interval.items o) ∨
    (∃ f b, up.swapFile.lookup i = some f ∧ up.swapFile.blocks f = some b ∧
      Covers b.interval.items o) ∨
    ∃ d, up.storage.lookup i = some d ∧ d o = v

section Keeps

variable {cfg : Config} {up : UploadPipeline} {last last' : ℕ → Option UInt8} {i : ℕ} {b : MemBlock}

theorem keeps_new (st : Storage) : Keeps cfg (fun _ => none) (new st) where
  records i b hb := by cases hb
  apart _ _ _ := rfl
  disjoint := disjoint_empty cfg
  fresh f b hb := by cases hb
  swapped i f hf := by cases hf
  dying := rfl
  uploads id u hu := by cases hu
  found i o v _ hv := by cases hv

theorem Keeps.inMemory (h : Keeps cfg last up) : up.InMemory := by
  intro id u hu
  obtain ⟨b, hb, -⟩ := h.uploads id u hu
  exact ⟨b, hb⟩

theorem Keeps.insert (h : Keeps cfg last up) {st : Storage} (hswap : up.swapFile.lookup i = none)
    (hrec : b.Records cfg.blockSize fun o => last' (i * cfg.blockSize + o))
    (hothers : ∀ j ≠ i, ∀ o < cfg.blockSize,
      last' (j * cfg.blockSize + o) = last (j * cfg.blockSize + o))
    (hst : ∀ j ≠ i, st.lookup j = up.storage.lookup j)
    (hfound : ∀ o v, o < cfg.blockSize → last' (i * cfg.blockSize + o) = some v →
      Covers b.interval.items o ∨ ∃ d, st.lookup i = some d ∧ d o = v) :
    Keeps cfg last' { up with writeBlocks := up.writeBlocks.insert i b, storage := st } := by
  refine ⟨?_, ?_, h.disjoint, h.fresh, ?_, h.dying, h.uploads, ?_⟩
  · intro j c hc
    obtain ⟨rfl, rfl⟩ | ⟨hj, hc⟩ := lookup_insert_eq_some hc
    · exact hrec
    · exact (h.records j c hc).congr fun o ho => hothers j hj o ho
  · intro j c hc
    obtain ⟨rfl, rfl⟩ | ⟨hj, hc⟩ := lookup_insert_eq_some hc
    · exact hswap
    · exact h.apart j c hc
  · intro j f hf
    have hj : j ≠ i := fun hj => by
      rw [hj] at hf
      cases hswap.symm.trans hf
    obtain ⟨hmem, c, hc, hh⟩ := h.swapped j f hf
    exact ⟨hmem, c, hc, hh.congr fun o ho => hothers j hj o ho⟩
  · intro j o v ho hv
    by_cases hj : j = i
    · subst hj
      obtain hcov | hd := hfound o v ho hv
      · exact .inl ⟨b, lookup_insert _, hcov⟩
      · exact .inr (.inr hd)
    rw [hothers j hj o ho] at hv
    obtain ⟨c, hc, hcov⟩ | hs | ⟨d, hd, hdv⟩ := h.found j o v ho hv
    · exact .inl ⟨c, by rwa [lookup_insert_of_ne _ hj], hcov⟩
    · exact .inr (.inl hs)
    · exact .inr (.inr ⟨d, by rw [hst j hj]; exact hd, hdv⟩)

theorem Keeps.seal (h : Keeps cfg last up) (hb : up.writeBlocks.lookup i = some b)
    (hflushed : b.flushed = true)
    (hstored : ∀ o, Covers b.interval.items o → ∃ d, up.storage.lookup i = some d ∧ d o = b.data o) :
    Keeps cfg last (up.move2Sealed cfg (.mem b) i old) := by
  rw [move2Sealed_eq h.inMemory]
  refine ⟨?_, ?_, h.disjoint, h.fresh, h.swapped, h.dying, ?_, ?_⟩
  · intro j c hc
    exact h.records j c (lookup_erase_eq_some hc).2
  · intro j c hc
    exact h.apart j c (lookup_erase_eq_some hc).2
  · intro id u hu
    obtain ⟨-, rfl⟩ | ⟨u', hu', -, hblock, -⟩ := sealedUploads_cases hu
    · exact ⟨b, rfl, hflushed⟩
    · rw [← hblock]
      exact h.uploads id u' hu'
  · intro j o v ho hv
    by_cases hj : j = i
    · subst hj
      obtain ⟨c, hc, hcov⟩ | hs | hd := h.found j o v ho hv
      · obtain rfl := some.inj (hb.symm.trans hc)
        obtain ⟨d, hd, hdo⟩ := hstored o hcov
        have hlast : last (j * cfg.blockSize + o) = some (b.data o) := (h.records j b hb).bytes o hcov
        exact .inr (.inr ⟨d, hd, hdo.trans (some.inj (hlast.symm.trans hv))⟩)
      · exact .inr (.inl hs)
      · exact .inr (.inr hd)
    · obtain ⟨c, hc, hcov⟩ | hrest := h.found j o v ho hv
      · exact .inl ⟨c, by rwa [lookup_erase_ne hj], hcov⟩
      · exact .inr hrest

end Keeps

section Round

variable {cfg : Config} {up : UploadPipeline} {last : ℕ → Option UInt8} {b : MemBlock} {off : ℕ}
  {p : List UInt8}

section

variable (h : Keeps cfg last up)
include h

theorem Keeps.writeMem (hb : b.flushed = false) (hp : p ≠ [])
    (hswap : up.swapFile.lookup (off / cfg.blockSize) = none)
    (hblock : up.writeBlocks.lookup (off / cfg.blockSize) = some b ∨
      up.writeBlocks.lookup (off / cfg.blockSize) = none ∧ b = .new) :
    Keeps cfg (accepted last off (room cfg off p) p) (up.writeMem cfg b off p .ok old).up := by
  generalize hi : off / cfg.blockSize = i at hswap hblock
  have hrec : b.Records cfg.blockSize fun o => last (i * cfg.blockSize + o) := by
    obtain hb | ⟨-, rfl⟩ := hblock
    · exact h.records i b hb
    · exact records_new _
  have hrec' := filled_records (by rwa [hi]) hb hp
  rw [hi] at hrec'
  have hothers := accepted_others hi last p
  -- what the block does not cover was in the storage before
  have hstored : ∀ o v, o < cfg.blockSize →
      accepted last off (room cfg off p) p (i * cfg.blockSize + o) = some v →
      ¬Covers (filled cfg b off p).interval.items o →
      ∃ d, up.storage.lookup i = some d ∧ d o = v := by
    intro o v ho hv hcov
    obtain ⟨hcov, hsame⟩ := not_covers_filled hrec hb hp hcov last
    rw [hi] at hsame
    rw [hsame] at hv
    obtain ⟨c, hc, hcov'⟩ | ⟨f, c, hf, -⟩ | hd := h.found i o v ho hv
    · obtain hb' | ⟨hnone, -⟩ := hblock
      · obtain rfl := some.inj (hb'.symm.trans hc)
        exact absurd hcov' hcov
      · cases hnone.symm.trans hc
    · cases hswap.symm.trans hf
    · exact hd
  have hsent : Keeps cfg (accepted last off (room cfg off p) p) (up.sent cfg i (filled cfg b off p)) := by
    refine h.insert hswap hrec'.sent hothers (fun j hj => lookup_insert_of_ne _ hj) ?_
    intro o v ho hv
    rw [covers_sent hrec']
    by_cases hcov : Covers (filled cfg b off p).interval.items o
    · exact .inl hcov
    obtain ⟨d, hd, hdo⟩ := hstored o v ho hv hcov
    refine .inr ⟨_, lookup_insert _, ?_⟩
    rw [uploaded_of_not_covers hrec' ho hcov, hd]
    exact hdo
  obtain he | ⟨-, he⟩ | ⟨hfull, he⟩ := writeMem_cases hrec hb hp
  · rw [he, hi]
    refine h.insert hswap hrec' hothers (fun _ _ => rfl) fun o v ho hv => ?_
    by_cases hcov : Covers (filled cfg b off p).interval.items o
    · exact .inl hcov
    · exact .inr (hstored o v ho hv hcov)
  · rw [he, hi]
    exact hsent
  · rw [he, hi]
    refine hsent.seal (lookup_insert _) rfl fun o ho => ⟨_, lookup_insert _, ?_⟩
    exact uploaded_of_covers hrec' (.inr (.inl hfull)) ((covers_sent hrec' o).mp ho)

theorem Keeps.newFileBlock {i : ℕ} (hnone : up.writeBlocks.lookup i = none)
    (hswap : up.swapFile.lookup i = none) :
    Keeps cfg last { up with swapFile := (up.swapFile.newFileBlock i).2 } := by
  have hnew : up.swapFile.blocks up.swapFile.nextId = none := by
    cases hb : up.swapFile.blocks up.swapFile.nextId with
    | none => rfl
    | some b => exact absurd (h.fresh _ b hb) (Nat.lt_irrefl _)
  have hlook : ∀ j, j ≠ i → (up.swapFile.newFileBlock i).2.lookup j = up.swapFile.lookup j :=
    fun j hj => update_of_ne hj _ _
  have hold : ∀ f b, up.swapFile.blocks f = some b →
      (up.swapFile.newFileBlock i).2.blocks f = some b := by
    intro f b hb
    have hf : f ≠ up.swapFile.nextId := Nat.ne_of_lt (h.fresh f b hb)
    exact (update_of_ne hf _ _).trans hb
  refine ⟨h.records, ?_, h.disjoint.newFileBlock hnew i, ?_, ?_, h.dying, h.uploads, ?_⟩
  · intro j b hb
    have hj : j ≠ i := fun hj => by
      rw [hj] at hb
      cases hnone.symm.trans hb
    exact (hlook j hj).trans (h.apart j b hb)
  · intro f b hb
    change f < up.swapFile.nextId + 1
    by_cases hf : f = up.swapFile.nextId
    · omega
    · have := h.fresh f b ((update_of_ne hf _ _).symm.trans hb)
      omega
  · intro j f hf
    by_cases hj : j = i
    · subst hj
      have hself : (up.swapFile.newFileBlock j).2.lookup j = some up.swapFile.nextId :=
        update_self _ _ _
      obtain rfl := some.inj (hself.symm.trans hf)
      refine ⟨mem_append_right _ (mem_singleton.mpr rfl), .new j, ?_,
        holds_new cfg.blockSize_pos _⟩
      exact update_self _ _ _
    · obtain ⟨hmem, b, hb, hh⟩ := h.swapped j f ((hlook j hj).symm.trans hf)
      refine ⟨mem_append_left _ hmem, b, hold f b hb, { hh with bytes := fun o ho => ?_ }⟩
      obtain ⟨v, hv, hvb⟩ := hh.bytes o ho
      exact ⟨v, hv, (byte_newFileBlock hnew i f _).trans hvb⟩
  · intro j o v ho hv
    obtain hb | ⟨f, b, hf, hb, hcov⟩ | hd := h.found j o v ho hv
    · exact .inl hb
    · have hj : j ≠ i := fun hj => by
        rw [hj] at hf
        cases hswap.symm.trans hf
      exact .inr (.inl ⟨f, b, (hlook j hj).trans hf, hold f b hb, hcov⟩)
    · exact .inr (.inr hd)

theorem Keeps.id_ne {j f g : ℕ} (hj : j ≠ i)
    (hf : up.swapFile.lookup i = some f) (hg : up.swapFile.lookup j = some g) : g ≠ f := by
  rintro rfl
  obtain ⟨-, c, hc, hhc⟩ := h.swapped i g hf
  obtain ⟨-, d, hd, hhd⟩ := h.swapped j g hg
  obtain rfl := some.inj (hc.symm.trans hd)
  exact hj (hhd.idx.symm.trans hhc.idx)

section

variable {f : ℕ} {c : FileBlock} (hp : p ≠ [])
  (hf : up.swapFile.lookup (off / cfg.blockSize) = some f) (hc : up.swapFile.blocks f = some c)
  (hlen : off % cfg.blockSize + p.length ≤ cfg.blockSize)
  (hsmall : c.written + p.length < cfg.blockSize)
include hp hf hc hlen hsmall

theorem Keeps.taken {sf : SwapFile} {pages : SortedMap ℕ FilePage}
    (hst : SwapFile.Stores cfg f off p up.swapFile sf)
    (hown : sf.blocks f = some { c with pages := pages }) :
    Keeps cfg (accepted last off p.length p) { up with
      swapFile := sf.setBlock f (SwapFile.taken c (off % cfg.blockSize) p.length pages) } := by
  generalize hi : off / cfg.blockSize = i at hf
  obtain ⟨-, c', hc', hh⟩ := h.swapped i f hf
  obtain rfl := some.inj (hc.symm.trans hc')
  have hpos := length_pos_iff.mpr hp
  have hown' : (sf.setBlock f (SwapFile.taken c (off % cfg.blockSize) p.length pages)).blocks f =
      some (SwapFile.taken c (off % cfg.blockSize) p.length pages) := update_self _ _ _
  have hother : ∀ j, j ≠ f →
      (sf.setBlock f (SwapFile.taken c (off % cfg.blockSize) p.length pages)).blocks j =
        up.swapFile.blocks j :=
    fun j hj => (update_of_ne hj _ _).trans (hst.others j hj)
  have htake : p.take p.length = p := take_length
  have haccepted : ∀ j ≠ i, ∀ o < cfg.blockSize,
      accepted last off p.length p (j * cfg.blockSize + o) = last (j * cfg.blockSize + o) := by
    intro j hj o ho
    exact accepted_other (by rwa [htake]) (by rwa [hi]) ho
  refine ⟨?_, ?_, hst.disjoint.setBlock hown rfl, ?_, ?_, hst.dying.trans h.dying, h.uploads, ?_⟩
  · intro j b hb
    have hj : j ≠ i := fun hj => by
      rw [hj] at hb
      cases (h.apart i b hb).symm.trans hf
    exact (h.records j b hb).congr fun o ho => haccepted j hj o ho
  · intro j b hb
    exact (congrFun hst.lookup j).trans (h.apart j b hb)
  · intro j b hb
    change j < sf.nextId
    rw [hst.nextId]
    by_cases hj : j = f
    · rw [hj]
      exact h.fresh f c hc
    · exact h.fresh j b ((hother j hj).symm.trans hb)
  · intro j g hg
    have hg : up.swapFile.lookup j = some g := (congrFun hst.lookup j).symm.trans hg
    have hmem : g ∈ sf.order := by
      rw [hst.order]
      exact (h.swapped j g hg).1
    refine ⟨hmem, ?_⟩
    by_cases hj : j = i
    · subst hj
      obtain rfl := some.inj (hf.symm.trans hg)
      refine ⟨_, hown', ?_⟩
      rw [← hi, accepted_own, htake, hi]
      exact hh.taken hst hown hi hp hlen hsmall
    · obtain ⟨-, d, hd, hhd⟩ := h.swapped j g hg
      refine ⟨d, (hother g (h.id_ne hj hf hg)).trans hd, ?_⟩
      exact (hhd.kept hst hown rfl (h.id_ne hj hf hg)).congr fun o ho => haccepted j hj o ho
  · intro j o v ho hv
    by_cases hj : j = i
    · subst hj
      refine .inr ?_
      have hlt : off % cfg.blockSize < off % cfg.blockSize + p.length := by omega
      have hcov := IntervalList.covers_addInterval hh.proper hlt o
      have hoff : j * cfg.blockSize + off % cfg.blockSize = off := by
        rw [← hi, Nat.mul_comm]
        exact Nat.div_add_mod _ _
      by_cases hin : off % cfg.blockSize ≤ o ∧ o < off % cfg.blockSize + p.length
      · exact .inl ⟨f, _, (congrFun hst.lookup j).trans hf, hown', hcov.mpr (.inl hin)⟩
      rw [accepted_of_not_mem fun hx => hin (by rw [htake] at hx; exact ⟨by omega, by omega⟩)] at hv
      obtain ⟨b, hb, -⟩ | ⟨g, d, hg, hd, hcovd⟩ | hd := h.found j o v ho hv
      · cases (h.apart j b hb).symm.trans hf
      · obtain rfl := some.inj (hf.symm.trans hg)
        obtain rfl := some.inj (hc.symm.trans hd)
        exact .inl ⟨f, _, (congrFun hst.lookup j).trans hf, hown', hcov.mpr (.inr hcovd)⟩
      · exact .inr hd
    · rw [haccepted j hj o ho] at hv
      obtain hb | ⟨g, d, hg, hd, hcovd⟩ | hd := h.found j o v ho hv
      · exact .inl hb
      · exact .inr (.inl ⟨g, d, (congrFun hst.lookup j).trans hg,
          (hother g (h.id_ne hj hf hg)).trans hd, hcovd⟩)
      · exact .inr (.inr hd)

theorem Keeps.writeFile (henv : ∀ x < off + p.length, env x = none) :
    ∃ up', up.writeFile cfg env f off p .ok old = some ⟨p.length, false, up'⟩ ∧
      Keeps cfg (accepted last off p.length p) up' := by
  obtain ⟨-, c', hc', hh⟩ := h.swapped _ f hf
  obtain rfl := some.inj (hc.symm.trans hc')
  obtain ⟨sf, pages, hst, hown, hw⟩ :=
    SwapFile.writeAt_eq up.storage env henv h.disjoint hc hh.idx.symm hlen hsmall
  have hh' := hh.taken hst hown rfl hp hlen hsmall
  have hpart : ¬(SwapFile.taken c (off % cfg.blockSize) p.length pages).isFull cfg.blockSize = true := by
    intro hfull
    have hle := hh'.written
    have hlt := hh'.small
    rw [of_decide_eq_true hfull] at hle
    omega
  refine ⟨_, ?_, h.taken hp hf hc hlen hsmall hst hown⟩
  rw [UploadPipeline.writeFile, hc]
  dsimp only
  rw [if_neg (by rw [hh.closed]; decide), if_neg (not_not_intro hh.idx.symm), hw]
  dsimp only
  rw [show (sf.setBlock f (SwapFile.taken c (off % cfg.blockSize) p.length pages)).blocks f = _ from
    update_self _ _ _, any_some, if_neg hpart]
  rfl

end

end

end Round

/-! ### Runs -/

def swapWritten (up : UploadPipeline) (i : ℕ) : ℕ :=
  (((up.swapFile.lookup i).bind up.swapFile.blocks).map FileBlock.written).getD 0

/-- The condition on a round of `WriteAt`. A block in memory that it writes to was not
uploaded before. If it writes to the swap file, the page context is not full, the bytes stay
in the block, and the block has taken fewer bytes than it has room for. -/
def RoundSafe (cfg : Config) (env : ℕ → PageEnv) (off : ℕ) (p : List UInt8) (up : UploadPipeline) :
    Prop :=
  match up.writeBlocks.lookup (off / cfg.blockSize) with
  | some b => b.flushed = false
  | none =>
    (up.swapFile.lookup (off / cfg.blockSize) = none ∧ up.writeBlocks.keys.card < cfg.limit) ∨
      ((∀ x < off + p.length, env x = none) ∧ off % cfg.blockSize + p.length ≤ cfg.blockSize ∧
        up.swapWritten (off / cfg.blockSize) + p.length < cfg.blockSize)

instance (cfg : Config) (env : ℕ → PageEnv) (off : ℕ) (p : List UInt8) (up : UploadPipeline) :
    Decidable (up.RoundSafe cfg env off p) :=
  match h : up.writeBlocks.lookup (off / cfg.blockSize) with
  | some b => decidable_of_iff (b.flushed = false) (by rw [RoundSafe, h])
  | none =>
    decidable_of_iff
      ((up.swapFile.lookup (off / cfg.blockSize) = none ∧ up.writeBlocks.keys.card < cfg.limit) ∨
        ((∀ x < off + p.length, env x = none) ∧ off % cfg.blockSize + p.length ≤ cfg.blockSize ∧
          up.swapWritten (off / cfg.blockSize) + p.length < cfg.blockSize))
      (by rw [RoundSafe, h])

theorem Keeps.writeRound {cfg : Config} {up : UploadPipeline} {last : ℕ → Option UInt8} {off : ℕ}
    {p : List UInt8} (h : Keeps cfg last up) (hlim : up.writeBlocks.keys.card ≤ cfg.limit)
    (hp : p ≠ []) (hsafe : up.RoundSafe cfg env off p) :
    ∃ r, up.writeRound cfg env off p .ok old = some r ∧
      Keeps cfg (accepted last off r.taken p) r.up := by
  rw [RoundSafe] at hsafe
  rw [UploadPipeline.writeRound, target]
  cases hb : up.writeBlocks.lookup (off / cfg.blockSize) with
  | some b =>
    rw [hb] at hsafe
    refine ⟨_, rfl, ?_⟩
    rw [writeMem_taken]
    exact h.writeMem hsafe hp (h.apart _ b hb) (.inl hb)
  | none =>
    rw [hb] at hsafe
    dsimp only at hsafe ⊢
    cases hf : up.swapFile.lookup (off / cfg.blockSize) with
    | some f =>
      -- a block in the swap file, which is never left for one in memory
      obtain ⟨hnone, -⟩ | ⟨henv, hlen, hsmall⟩ := hsafe
      · cases hnone.symm.trans hf
      obtain ⟨-, c, hc, -⟩ := h.swapped _ f hf
      have hwritten : up.swapWritten (off / cfg.blockSize) = c.written := by
        rw [swapWritten, hf, bind_some, hc]
        rfl
      obtain ⟨up', hup, hk⟩ := h.writeFile hp hf hc hlen (by rwa [hwritten] at hsmall) henv
      exact ⟨_, hup, hk⟩
    | none =>
      dsimp only
      rw [if_neg (not_lt.mpr hlim)]
      by_cases hcard : up.writeBlocks.keys.card < cfg.limit
      · rw [if_pos hcard]
        refine ⟨_, rfl, ?_⟩
        rw [writeMem_taken]
        exact h.writeMem rfl hp hf (.inr ⟨hb, rfl⟩)
      rw [if_neg hcard]
      obtain ⟨-, hlt⟩ | ⟨henv, hlen, hsmall⟩ := hsafe
      · exact absurd hlt hcard
      have hzero : up.swapWritten (off / cfg.blockSize) = 0 := by
        rw [swapWritten, hf]
        rfl
      have hk := h.newFileBlock hb hf
      obtain ⟨up', hup, hk'⟩ := hk.writeFile (f := up.swapFile.nextId)
        (c := .new (off / cfg.blockSize)) hp (update_self _ _ _)
        (update_self _ _ _) hlen (by rw [hzero] at hsmall; exact hsmall) henv
      exact ⟨_, hup, hk'⟩

end UploadPipeline

namespace PipeState

open UploadPipeline

variable {κ : Type} [DecidableEq κ] {cfg : Config}
variable {last : ℕ → Option UInt8} {up : UploadPipeline}

/-- The storage takes the block if a round flushes it. Later uploads of it find the mark. -/
def Safe (cfg : Config) (s : PipeState κ) : PipeCall κ → Prop
  | .round t env out _ =>
    match s.calls t with
    | (off, p) :: _ => p = [] ∨ out = .ok ∧ s.up.RoundSafe cfg env off p
    | [] => True
  | _ => True

instance (s : PipeState κ) : (c : PipeCall κ) → Decidable (s.Safe cfg c)
  | .round t env out _ =>
    match h : s.calls t with
    | (off, p) :: _ =>
      decidable_of_iff (p = [] ∨ out = .ok ∧ s.up.RoundSafe cfg env off p) (by rw [Safe, h])
    | [] => isTrue (by rw [Safe, h]; trivial)
  | .write _ _ | .upload _ _ | .complete _ _ | .destroy _ _ => isTrue trivial

theorem Keeps.round {s : PipeState κ} {t : κ} (h : s.up.Keeps cfg s.last)
    (hlim : s.up.writeBlocks.keys.card ≤ cfg.limit) (hsafe : s.Safe cfg (.round t env out old)) :
    (s.round cfg env t out old).up.Keeps cfg (s.round cfg env t out old).last := by
  rw [PipeState.round]
  rw [Safe] at hsafe
  cases hcalls : s.calls t with
  | nil => exact h
  | cons c rest =>
    obtain ⟨off, p⟩ := c
    rw [hcalls] at hsafe
    dsimp only
    by_cases hp : p = []
    · rw [if_pos hp]
      exact h
    obtain ⟨rfl, hround⟩ := hsafe.resolve_left hp
    obtain ⟨r, hr, hk⟩ := h.writeRound hlim hp hround
    rw [if_neg hp, hr]
    exact hk

theorem Keeps.upload (h : up.Keeps cfg last) (id : ℕ) :
    (up.upload cfg id out).Keeps cfg last := by
  rw [UploadPipeline.upload]
  cases hu : up.uploads id with
  | none => exact h
  | some u =>
    obtain ⟨b, hb, hflushed⟩ := h.uploads id u hu
    dsimp only
    rw [hb]
    dsimp only
    rw [doFlush_of_flushed hflushed, ite_self]
    refine { h with uploads := fun j w hw => ?_ }
    obtain ⟨-, hw⟩ | ⟨-, hw⟩ := update_eq_some hw
    · cases hw
      exact ⟨b, rfl, hflushed⟩
    · exact h.uploads j w hw

theorem Keeps.complete (h : up.Keeps cfg last) (id : ℕ) :
    (up.complete cfg id out).Keeps cfg last := by
  cases hu : up.uploads id with
  | none =>
    rw [UploadPipeline.complete, hu]
    exact h
  | some u =>
    rw [complete_eq h.inMemory hu]
    refine { h with uploads := fun j w hw => ?_ }
    obtain ⟨-, hw⟩ | ⟨-, hw⟩ := update_eq_some hw
    · cases hw
    · exact h.uploads j w hw

theorem Keeps.next {s : PipeState κ} {c : PipeCall κ} (h : s.up.Keeps cfg s.last)
    (hlim : s.up.writeBlocks.keys.card ≤ cfg.limit)
    (hc : s.Enabled c ∧ s.Safe cfg c) : (next cfg c s).up.Keeps cfg (next cfg c s).last := by
  cases c with
  | write t calls => exact h
  | round t env out old => exact Keeps.round h hlim hc.2
  | upload id out => exact Keeps.upload h id
  | complete id out => exact Keeps.complete h id
  | destroy id out =>
    have hdying : id ∈ s.up.swapFile.dying := hc.1
    rw [h.dying] at hdying
    cases hdying

theorem Keeps.found_byte (h : up.Keeps cfg last)
    {x : ℕ} {v : UInt8} (hv : last x = some v) : up.Found cfg x v := by
  have ho := Nat.mod_lt x cfg.blockSize_pos
  have hx := Nat.div_add_mod' x cfg.blockSize
  obtain ⟨b, hb, hcov⟩ | ⟨f, b, hf, hb, hcov⟩ | ⟨d, hd, hdo⟩ :=
    h.found (x / cfg.blockSize) (x % cfg.blockSize) v ho (by rwa [hx])
  · have hbyte := (h.records _ b hb).bytes _ hcov
    rw [hx, hv] at hbyte
    refine .inr (.inl ?_)
    rw [hb, any_some]
    exact decide_eq_true ⟨hcov, (some.inj hbyte).symm⟩
  · obtain ⟨hmem, c, hc, hh⟩ := h.swapped _ f hf
    obtain rfl := some.inj (hb.symm.trans hc)
    obtain ⟨w, hw, hbyte⟩ := hh.bytes _ hcov
    rw [hx] at hw hbyte
    obtain rfl := some.inj (hv.symm.trans hw)
    refine .inr (.inr (.inr (any_eq_true.mpr ⟨f, hmem, ?_⟩)))
    simp [hb, hh.idx, hbyte]
  · refine .inl ?_
    rw [hd, any_some]
    exact decide_eq_true hdo

/-- In every run of writes, uploads and completions whose steps meet the condition, the
last byte accepted at every offset is found, at every moment. -/
theorem accepted_bytes_kept (cfg : Config) (st : Storage) (s : PipeState κ)
    (h : Reach (next cfg) (fun s c => s.Enabled c ∧ s.Safe cfg c) (init st) s) (x : ℕ) (v : UInt8)
    (hv : s.last x = some v) : s.up.Found cfg x v := by
  have hk : s.up.Keeps cfg s.last ∧ s.up.writeBlocks.keys.card ≤ cfg.limit :=
    h.invariant (I := fun s => s.up.Keeps cfg s.last ∧ s.up.writeBlocks.keys.card ≤ cfg.limit)
      (fun s c hs hc => ⟨Keeps.next hs.1 hs.2 hc, card_next_le cfg hs.2 c⟩)
      ⟨keeps_new st, Nat.zero_le _⟩
  exact Keeps.found_byte hk.1 hv

def smallConfig : Config := ⟨4, 2, 1, by decide, by decide, by decide⟩

def sampleRun : List (PipeCall Bool) :=
  [.write true [(0, [1, 2]), (2, [3, 4])], .write false [(5, [9])], .round true fun _ => none,
    .round false fun _ => none, .round true fun _ => none, .upload 0, .complete 0]

theorem accepted_bytes_kept_sample :
    let s := exec (next smallConfig) sampleRun (init ∅)
    (s.last 5 = some 9 ∧ s.last 3 = some 4) ∧ s.up.Found smallConfig 5 9 ∧ s.up.Found smallConfig 3 4 :=
  have h : Reach (next smallConfig) (fun s c => s.Enabled c ∧ s.Safe smallConfig c)
      (init ∅) (exec (next smallConfig) sampleRun (init ∅)) :=
    reach_exec (by decide +kernel)
  ⟨⟨by decide +kernel, by decide +kernel⟩,
    accepted_bytes_kept _ _ _ h 5 9 (by decide +kernel),
    accepted_bytes_kept _ _ _ h 3 4 (by decide +kernel)⟩

def losingRun : List (PipeCall Unit) :=
  [.write () [(0, [1, 2, 3]), (0, [1, 2, 3]), (3, [4])], .round () fun _ => none,
    .round () fun _ => none, .round () fun _ => none, .upload 0, .complete 0]

/-- The last byte of the block was accepted, and is nowhere after the upload has ended. -/
theorem accepted_byte_lost :
    let s := exec (next smallConfig) losingRun (init ∅)
    Legal (next smallConfig) Enabled losingRun (init ∅) ∧ s.calls () = [] ∧
      s.last 3 = some 4 ∧ ¬s.up.Found smallConfig 3 4 := by
  decide +kernel

end PipeState

end HugoFS.Vfs.Buffer
