import HugoFS.Vfs.Buffer.OneBlock

/-!
# The pages of a block

What `FileBlock.ReadAt` makes of the pages. Every write to a page adds its length and its offset to
the recorded size, which can so be smaller or larger than what the page holds.
-/

namespace HugoFS.Vfs.Buffer

open Segment Function List Option

namespace SwapFile

/-- The recorded size of the page reaches the offset, but the swap file does not. -/
def Ends (cfg : Config) (sf : SwapFile) (b : FileBlock) (x : ℕ) : Prop :=
  ∃ pg, b.pages.get (x / cfg.pageSize) = some pg ∧ x % cfg.pageSize < pg.size ∧
    sf.length ≤ pg.offsetInFile + x % cfg.pageSize

section Read

variable {cfg : Config} {sf : SwapFile} {b : FileBlock} {limit : ℕ}

end Read

variable {s : SwapFile × Storage}

/-- The pages of the block `id` hold `last`, which is zero where there is no page, and the swap
file is zero behind the pages. -/
structure Backs (cfg : Config) (id : ℕ) (last : ℕ → UInt8) (sf : SwapFile) : Prop where
  disjoint : sf.Disjoint cfg
  fresh : ∀ x, sf.size ≤ x → sf.file x = 0
  held : ∀ k pg r, sf.page id k = some pg → r < cfg.pageSize →
    sf.file (pg.offsetInFile + r) = last (k * cfg.pageSize + r)
  absent : ∀ k r, sf.page id k = none → r < cfg.pageSize → last (k * cfg.pageSize + r) = 0

section Back

variable {cfg : Config} {id off : ℕ} {last : ℕ → UInt8} {b : FileBlock} {pg : FilePage}
  {q : List UInt8} {sf : SwapFile}

theorem Disjoint.end_le (h : sf.Disjoint cfg) {o : ℕ} (haligned : cfg.pageSize ∣ o)
    (hbelow : o < sf.size) : o + cfg.pageSize ≤ sf.size := by
  have hdvd := (Nat.dvd_add_left (Nat.dvd_refl _)).mpr haligned
  exact Nat.le_of_lt_add_of_dvd (Nat.add_lt_add_right hbelow _) hdvd h.size

theorem Backs.writePage (h : Backs cfg id last sf) (hb : sf.blocks id = some b)
    (hlen : off % cfg.pageSize + q.length ≤ cfg.pageSize)
    (hpg : sf.Fits cfg id (off / cfg.pageSize) pg)
    (hheld : ∀ r < cfg.pageSize,
      sf.file (pg.offsetInFile + r) = last (off / cfg.pageSize * cfg.pageSize + r)) :
    Backs cfg id (splice last off q)
      (sf.writePage id (off / cfg.pageSize) pg (off % cfg.pageSize) q) := by
  have hoff : off / cfg.pageSize * cfg.pageSize + off % cfg.pageSize = off := Nat.div_add_mod' _ _
  have hsplit : splice last off q = splice last
      (off / cfg.pageSize * cfg.pageSize + off % cfg.pageSize) q := by rw [hoff]
  refine ⟨h.disjoint.writePage hb _ hpg, ?_, ?_, ?_⟩
  · intro x hx
    have hend := h.disjoint.end_le hpg.aligned hpg.below
    have hx' : sf.size ≤ x := hx
    exact (splice_of_le (by omega)).trans (h.fresh x hx')
  · intro k pg' r hp hr
    rw [hsplit]
    rw [page_writePage hb] at hp
    split at hp
    next hk =>
      -- the page that is written to
      cases hp
      rw [hk.2, splice_shift]
      refine (splice_shift sf.file pg.offsetInFile _ q r).trans ?_
      rw [splice, splice, hheld r hr]
    next hk =>
      rw [splice_other_block hlen hr fun hkk => hk ⟨rfl, hkk⟩, ← h.held k pg' r hp hr]
      exact hpg.splice_other hlen h.disjoint hp hk hr
  · intro k r hp hr
    rw [page_writePage hb] at hp
    split at hp
    · cases hp
    next hk =>
      rw [hsplit, splice_other_block hlen hr fun hkk => hk ⟨rfl, hkk⟩]
      exact h.absent k r hp hr

theorem Backs.storePage (h : Backs cfg id last sf) (hb : sf.blocks id = some b) (st : Storage)
    (hlen : off % cfg.pageSize + q.length ≤ cfg.pageSize) :
    Backs cfg id (splice last off q) (storePage cfg none id off q (sf, st)).1 := by
  obtain ⟨n, pg, hle, hn, hpg, hpage, heq⟩ := storePage_cases st h.disjoint id off q
  have hgrow : Backs cfg id last { sf with size := n } :=
    ⟨hn, fun x hx => h.fresh x (hle.trans hx), h.held, h.absent⟩
  rw [heq]
  refine hgrow.writePage hb hlen hpg fun r hr => ?_
  obtain hpage | ⟨hpage, rfl⟩ := hpage
  · exact h.held _ pg r hpage hr
  · exact (h.fresh _ (Nat.le_add_right _ _)).trans (h.absent _ r hpage hr).symm

theorem Backs.writeToPage (h : Backs cfg id last s.1)
    (hb : s.1.blocks id = some b) (off : ℕ) (p : List UInt8) {env : ℕ → PageEnv}
    (henv : ∀ x < off + p.length, env x = none) :
    let r := (writeToPage cfg env id p.length off p s).1
    Backs cfg id (splice last off p) r ∧ ∃ pages, r.blocks id = some { b with pages := pages } := by
  -- the bytes of the pages, with what is left to write over them
  obtain ⟨x, f, -, hf, hs, hc⟩ := writeToPage_rule cfg env id (s := s)
    (I := fun x r s => ∃ f, x + r.length = off + p.length ∧ splice f x r = splice last off p ∧
      Backs cfg id f s.1 ∧ ∃ pages, s.1.blocks id = some { b with pages := pages })
    (Nat.le_refl _) ⟨last, rfl, rfl, h, b.pages, hb⟩ (by
    rintro x r n s hpos hn hfits - ⟨f, hx, hf, hs, pages, hc⟩
    have hlen : (r.take n).length = n := by rw [length_take]; omega
    obtain ⟨sf', heq, hst⟩ := storePage_stores s.2 hs.disjoint hc (by rwa [hlen])
    rw [henv x (by omega)]
    refine ⟨splice f x (r.take n), by rw [length_drop]; omega, ?_,
      hs.storePage hc s.2 (by rwa [hlen]), by rw [heq]; exact hst.own { b with pages := pages } hc⟩
    have happ : splice (splice f x (r.take n)) (x + (r.take n).length) (r.drop n) =
        splice f x (r.take n ++ r.drop n) := splice_append _
    rwa [hlen, take_append_drop, hf] at happ)
  rw [splice_nil] at hf
  exact ⟨hf ▸ hs, hc⟩

theorem Backs.setBlock (h : Backs cfg id last sf) (hb : sf.blocks id = some b) {b' : FileBlock}
    (hpages : b'.pages = b.pages) : Backs cfg id last (sf.setBlock id b') where
  disjoint := h.disjoint.setBlock hb hpages
  fresh := h.fresh
  held k pg r hp := h.held k pg r (by rwa [page_setBlock hb hpages] at hp)
  absent k r hp := h.absent k r (by rwa [page_setBlock hb hpages] at hp)

theorem not_any_idx (hidx : ∀ b ∈ s.1.blocks id, off / cfg.blockSize = b.idx) :
    ¬(s.1.blocks id).any (fun b => decide (off / cfg.blockSize ≠ b.idx)) = true := by
  cases hs : s.1.blocks id with
  | none => simp
  | some c => simp [hidx c hs]

theorem writeAt_eq_setBlock (env : ℕ → PageEnv) (off : ℕ) (p : List UInt8) (out : Outcome)
    (hidx : ∀ b ∈ s.1.blocks id, off / cfg.blockSize = b.idx)
    (hb : (writeToPage cfg env id p.length off p s).1.blocks id = some b) :
    ∃ c, (writeAt cfg env id off p s out).1 =
        (writeToPage cfg env id p.length off p s).1.setBlock id c ∧
      c.pages = b.pages ∧ c.idx = b.idx ∧ c.err = b.err := by
  rw [writeAt, if_neg (not_any_idx hidx)]
  dsimp only
  rw [hb]
  dsimp only [doFlush]
  split_ifs <;> exact ⟨_, rfl, rfl, rfl, rfl⟩

theorem Backs.writeAt (h : Backs cfg id last s.1) (hb : s.1.blocks id = some b) (p : List UInt8)
    (hidx : off / cfg.blockSize = b.idx) :
    let r := (writeAt cfg (fun _ => none) id off p s).1
    Backs cfg id (splice last off p) r ∧
      ∃ c, r.blocks id = some c ∧ c.idx = b.idx ∧ c.err = b.err := by
  obtain ⟨h', pages, hc⟩ := h.writeToPage hb off p fun _ _ => rfl
  obtain ⟨d, hd, hpages, hidx', herr'⟩ := writeAt_eq_setBlock (fun _ => none) off p .ok
    (fun c hc => by cases hb.symm.trans hc; exact hidx) hc
  dsimp only
  rw [hd]
  exact ⟨h'.setBlock hc hpages, d, update_self .., hidx', herr'⟩

/-! ### Reading back what was written -/

/-- Calls of `WriteAt` on the block `id`, while the page context has pages left. -/
def writes (cfg : Config) (id : ℕ) (calls : List (ℕ × List UInt8)) (s : SwapFile × Storage) :
    SwapFile × Storage :=
  calls.foldl (fun s c => SwapFile.writeAt cfg (fun _ => none) id c.1 c.2 s) s

theorem Backs.writes (h : Backs cfg id last s.1) (hb : s.1.blocks id = some b)
    (calls : List (ℕ × List UInt8)) (hidx : ∀ c ∈ calls, c.1 / cfg.blockSize = b.idx) :
    let r := (writes cfg id calls s).1
    Backs cfg id (calls.foldl (fun f c => splice f c.1 c.2) last) r ∧
      ∃ c, r.blocks id = some c ∧ c.idx = b.idx ∧ c.err = b.err := by
  induction calls generalizing s last b with
  | nil => exact ⟨h, b, hb, rfl, rfl⟩
  | cons call calls ih =>
    obtain ⟨hfirst, hrest⟩ := forall_mem_cons.mp hidx
    obtain ⟨h', c, hc, hsame, herr⟩ := h.writeAt hb call.2 hfirst
    obtain ⟨h'', d, hd, hsame', herr'⟩ := ih h' hc (by rwa [hsame])
    exact ⟨h'', d, hd, hsame'.trans hsame, herr'.trans herr⟩

theorem backs_new (hsf : sf.Disjoint cfg) (hfresh : ∀ x, sf.size ≤ x → sf.file x = 0)
    (hnew : sf.blocks sf.nextId = none) (idx : ℕ) :
    Backs cfg sf.nextId (fun _ => 0) (sf.newFileBlock idx).2 := by
  have hpage (k : ℕ) : (sf.newFileBlock idx).2.page sf.nextId k = none := by
    rw [page_newFileBlock hnew, page, hnew]
    rfl
  refine ⟨hsf.newFileBlock hnew idx, hfresh, ?_, fun _ _ _ _ => rfl⟩
  intro k pg r hp
  cases (hpage k).symm.trans hp

end Back

/-- The pages lie one after the other, from the offset `x` of the file to `y`. -/
def Packed (cfg : Config) : ℕ → List (ℕ × FilePage) → ℕ → Prop
  | x, [], y => x = y
  | x, (k, pg) :: l, y =>
    x = k * cfg.pageSize ∧ 0 < pg.size ∧ pg.size ≤ cfg.pageSize ∧ Packed cfg (x + pg.size) l y

section Gather

variable {cfg : Config} {l : List (ℕ × FilePage)} {x y : ℕ}

theorem Packed.le (h : Packed cfg x l y) : x ≤ y := by
  induction l generalizing x with
  | nil => exact Nat.le_of_eq h
  | cons e l ih => exact (Nat.le_add_right _ _).trans (ih h.2.2.2)

theorem Packed.size_le (h : Packed cfg x l y) : ∀ e ∈ l, e.2.size ≤ cfg.pageSize := by
  induction l generalizing x with
  | nil => exact fun e he => by cases he
  | cons e l ih => exact forall_mem_cons.mpr ⟨h.2.2.1, ih h.2.2.2⟩

theorem Packed.key_lt (h : Packed cfg x l y) {k : ℕ} (hk : y = k * cfg.pageSize) :
    ∀ e ∈ l, e.1 < k := by
  induction l generalizing x with
  | nil => exact fun e he => by cases he
  | cons e l ih =>
    refine forall_mem_cons.mpr ⟨?_, ih h.2.2.2⟩
    have := h.2.2.2.le
    have := h.2.1
    have := h.1
    exact Nat.lt_of_mul_lt_mul_right (a := cfg.pageSize) (by omega)

theorem Packed.snoc (h : Packed cfg x l y) {k : ℕ} (hk : y = k * cfg.pageSize) {pg : FilePage}
    (hpos : 0 < pg.size) (hle : pg.size ≤ cfg.pageSize) :
    Packed cfg x (l ++ [(k, pg)]) (y + pg.size) := by
  induction l generalizing x with
  | nil => exact ⟨Eq.trans h hk, hpos, hle, congrArg (· + pg.size) h⟩
  | cons e l ih => exact ⟨h.1, h.2.1, h.2.2.1, ih h.2.2.2⟩

/-- The buffer of `doFlush` gets the bytes of pages that lie one after the other. -/
theorem gather_of_packed (sf : SwapFile) (f : ℕ → UInt8) {size : ℕ} (h : Packed cfg x l y)
    (acc : List UInt8) (hfit : acc.length + (y - x) ≤ size)
    (hheld : ∀ e ∈ l, e.2.offsetInFile + e.2.size ≤ sf.length ∧
      ∀ r < e.2.size, sf.file (e.2.offsetInFile + r) = f (e.1 * cfg.pageSize + r)) :
    sf.gather size l acc = acc ++ read f x (y - x) := by
  induction l generalizing x acc with
  | nil =>
    obtain rfl : x = y := h
    rw [gather, Nat.sub_self, read_zero, append_nil]
  | cons e l ih =>
    obtain ⟨k, pg⟩ := e
    obtain ⟨rfl, hpos, -, hrest⟩ := h
    obtain ⟨⟨hlength, hbytes⟩, hheld⟩ := forall_mem_cons.mp hheld
    dsimp only at hlength hbytes
    have hle := hrest.le
    have hread : sf.readFile pg.offsetInFile (min pg.size (size - acc.length)) =
        (read f (k * cfg.pageSize) pg.size, false) := by
      rw [readFile, Nat.min_eq_left (by omega), Nat.min_eq_left (by omega),
        decide_eq_false (by omega), read_congr hbytes]
    have hne : read f (k * cfg.pageSize) pg.size ≠ [] :=
      ne_nil_of_length_pos (by rwa [length_read])
    have hcut : y - k * cfg.pageSize = pg.size + (y - (k * cfg.pageSize + pg.size)) := by omega
    rw [gather, hread, if_neg (by simpa using hne), ih hrest _ (by rw [length_append, length_read]; omega)
      hheld, append_assoc, hcut, read_add]

variable {id : ℕ} {b : FileBlock} {pages : SortedMap ℕ FilePage} {f : ℕ → UInt8} {sf : SwapFile}
  {q : List UInt8}

/-- A page that is written for the first time, from its beginning, comes after the others. -/
theorem Packed.storePage (h : Packed cfg x pages.entries y) (st : Storage) (hf : Backs cfg id f sf)
    (hb : sf.blocks id = some { b with pages := pages }) (haligned : cfg.pageSize ∣ y)
    (hheld : ∀ e ∈ pages.entries, e.2.offsetInFile + e.2.size ≤ sf.length) (hq : q ≠ [])
    (hlen : q.length ≤ cfg.pageSize) :
    ∃ sf' pages', SwapFile.storePage cfg none id y q (sf, st) = (sf', st) ∧
      sf'.blocks id = some { b with pages := pages' } ∧
      Packed cfg x pages'.entries (y + q.length) ∧
      ∀ e ∈ pages'.entries, e.2.offsetInFile + e.2.size ≤ sf'.length := by
  have hy : y = y / cfg.pageSize * cfg.pageSize := (Nat.div_mul_cancel haligned).symm
  have hmod : y % cfg.pageSize = 0 := Nat.mod_eq_zero_of_dvd haligned
  have hnone : sf.page id (y / cfg.pageSize) = none := by
    rw [page, hb, bind_some]
    refine eq_none_iff_forall_ne_some.mpr fun pg hpg => ?_
    exact absurd (h.key_lt hy _ (SortedMap.get_eq_some_iff.mp hpg)) (Nat.lt_irrefl _)
  obtain ⟨n, pg, -, -, -, hpage, heq⟩ := storePage_cases st hf.disjoint id y q
  obtain ⟨-, rfl⟩ := hpage.resolve_left (by simp [hnone])
  have hentries := SortedMap.entries_put_of_lt (v := ⟨sf.size, q.length⟩) (h.key_lt hy)
  refine ⟨_, pages.put (y / cfg.pageSize) ⟨sf.size, q.length⟩, heq, ?_, ?_, ?_⟩
  · rw [writePage, writeFile, setPage]
    refine (if_pos rfl).trans ?_
    dsimp only
    rw [hb, hmod, Nat.zero_add]
    rfl
  · rw [hentries]
    exact h.snoc hy (length_pos_iff.mpr hq) hlen
  · intro e he
    rw [hentries, mem_append, mem_singleton] at he
    change _ ≤ max sf.length (sf.size + y % cfg.pageSize + q.length)
    rcases he with he | rfl
    · exact (hheld e he).trans (Nat.le_max_left _ _)
    · rw [hmod]
      exact Nat.le_max_right _ _

theorem Packed.writeToPage {s : SwapFile × Storage} {env : ℕ → PageEnv}
    (h : Packed cfg x b.pages.entries y) (hf : Backs cfg id f s.1) (hb : s.1.blocks id = some b)
    (haligned : cfg.pageSize ∣ y)
    (hheld : ∀ e ∈ b.pages.entries, e.2.offsetInFile + e.2.size ≤ s.1.length) (p : List UInt8)
    (henv : ∀ x < y + p.length, env x = none) :
    ∃ sf pages, SwapFile.writeToPage cfg env id p.length y p s = (sf, s.2) ∧
      sf.blocks id = some { b with pages := pages } ∧ Backs cfg id (splice f y p) sf ∧
      Packed cfg x pages.entries (y + p.length) ∧
      ∀ e ∈ pages.entries, e.2.offsetInFile + e.2.size ≤ sf.length := by
  obtain ⟨z, sf, g, pages, heq, hz, -, hown, hg, hfg, hpacked, hheld⟩ :=
    writeToPage_rule cfg env id (s := s)
    (I := fun z r t => ∃ sf g pages, t = (sf, s.2) ∧ z + r.length = y + p.length ∧
      (r = [] ∨ cfg.pageSize ∣ z) ∧ sf.blocks id = some { b with pages := pages } ∧
      Backs cfg id g sf ∧ splice g z r = splice f y p ∧ Packed cfg x pages.entries z ∧
      ∀ e ∈ pages.entries, e.2.offsetInFile + e.2.size ≤ sf.length)
    (Nat.le_refl p.length) ⟨s.1, f, b.pages, rfl, rfl, .inr haligned, hb, hf, rfl, h, hheld⟩ (by
    rintro z r n t hpos hn hfits hend ⟨sf, g, pages, rfl, hz, hz', hown, hg, hfg, hpacked, hheld⟩
    have hz' := hz'.resolve_left (ne_nil_of_length_pos (by omega))
    have hmod : z % cfg.pageSize = 0 := Nat.mod_eq_zero_of_dvd hz'
    have hlen : (r.take n).length = n := by rw [length_take]; omega
    rw [henv z (by omega)]
    have hbacks : Backs cfg id (splice g z (r.take n))
        (SwapFile.storePage cfg none id z (r.take n) (sf, s.2)).1 :=
      hg.storePage hown s.2 (by rw [hlen]; omega)
    obtain ⟨sf', pages', heq, hown', hpacked', hheld'⟩ := hpacked.storePage s.2 hg hown hz'
      hheld (q := r.take n) (ne_nil_of_length_pos (by omega)) (by omega)
    rw [heq] at hbacks ⊢
    rw [hlen] at hpacked'
    refine ⟨sf', splice g z (r.take n), pages', rfl, by rw [length_drop]; omega, ?_, hown', hbacks,
      ?_, hpacked', hheld'⟩
    · exact hend.imp_left fun hn => drop_eq_nil_of_le (Nat.le_of_eq hn.symm)
    · rw [← hfg]
      have happ : splice (splice g z (r.take n)) (z + (r.take n).length) (r.drop n) =
          splice g z (r.take n ++ r.drop n) := splice_append _
      rwa [hlen, take_append_drop] at happ)
  rw [splice_nil] at hfg
  obtain rfl : z = y + p.length := hz
  exact ⟨sf, pages, heq, hown, hfg ▸ hg, hpacked, hheld⟩

end Gather

end SwapFile

namespace FileBlock

open SwapFile Spans IntervalList Runs

/-- A block that a write may go to: it goes on where the last one has ended, at the beginning of a
page, and stays in the block; the page context is not full; the last interval was not joined by
`Merge`; and the block is not marked as flushed if the write will flush it. -/
def Ready (cfg : Config) (id off : ℕ) (p : List UInt8) (env : ℕ → PageEnv) (sf : SwapFile) : Prop :=
  ∀ b ∈ sf.blocks id, p ≠ [] ∧ off % cfg.blockSize = b.highOff ∧ cfg.pageSize ∣ off ∧
    off % cfg.blockSize + p.length ≤ cfg.blockSize ∧ (∀ x < off + p.length, env x = none) ∧
    b.interval.stale = [] ∧ (cfg.blockSize ≤ b.written + p.length → b.flushed = false)

instance (cfg : Config) (id off : ℕ) (p : List UInt8) (env : ℕ → PageEnv) (sf : SwapFile) :
    Decidable (Ready cfg id off p env sf) := inferInstanceAs (Decidable (∀ _ ∈ _, _))

/-- The block has the bytes written up to its largest end, in pages one after the other. -/
structure Appended (cfg : Config) (id idx : ℕ) (a : Accepted) (sf : SwapFile) (b : FileBlock)
    (f : ℕ → UInt8) : Prop where
  own : sf.blocks id = some b
  index : b.idx = idx
  within : Within 0 b.interval.items cfg.blockSize
  backs : Backs cfg id f sf
  packed : Packed cfg (idx * cfg.blockSize) b.pages.entries (idx * cfg.blockSize + b.highOff)
  held : ∀ e ∈ b.pages.entries, e.2.offsetInFile + e.2.size ≤ sf.length
  high_le : b.highOff ≤ cfg.blockSize
  covers : ∀ o < b.highOff, Covers b.interval.items o
  last : ∀ o v, a.last o = some v → o < b.highOff ∧ f (idx * cfg.blockSize + o) = v

section Append

variable {cfg : Config} {id idx off : ℕ} {a : Accepted} {sf : SwapFile} {b : FileBlock}
  {f : ℕ → UInt8} {p : List UInt8} {env : ℕ → PageEnv}

theorem Appended.pending (h : Appended cfg id idx a sf b f) : ((kind cfg id).pending sf) =
    ⟨!b.flushed && b.written != 0, b.interval.merge, fun o =>
      ((read f (idx * cfg.blockSize) b.highOff)[o]?).getD 0⟩ := by
  have hfit : ([] : List UInt8).length + (idx * cfg.blockSize + b.highOff - idx * cfg.blockSize) ≤
      cfg.blockSize := by
    have := h.high_le
    rw [List.length_nil]
    omega
  have hgather := gather_of_packed sf f h.packed [] hfit fun e he => ⟨h.held e he, fun r hr => ?_⟩
  · rw [Nat.add_sub_cancel_left, nil_append] at hgather
    simp only [kind, h.own, hgather]
  have hpage : sf.page id e.1 = some e.2 := by
    rw [page, h.own, bind_some]
    exact SortedMap.get_eq_some_iff.mpr he
  exact h.backs.held e.1 e.2 r hpage (Nat.lt_of_lt_of_le hr (h.packed.size_le e he))

/-- `doFlush` changes marks and intervals of the block only. -/
theorem Appended.setBlock (h : Appended cfg id idx a sf b f) {b' : FileBlock}
    (hpages : b'.pages = b.pages) (hhigh : b'.highOff = b.highOff) (hidx : b'.idx = b.idx)
    (hitems : b'.interval = b.interval.merge) :
    Appended cfg id idx a (sf.setBlock id b') b' f where
  own := update_self ..
  index := hidx.trans h.index
  within := hitems ▸ h.within.join
  backs := h.backs.setBlock h.own hpages
  packed := by rw [hpages, hhigh]; exact h.packed
  held := by rw [hpages]; exact h.held
  high_le := by rw [hhigh]; exact h.high_le
  covers o ho := by rw [hitems]; exact (covers_merge h.within o).mpr (h.covers o (hhigh ▸ ho))
  last := by rw [hhigh]; exact h.last

theorem Appended.write (h : Appended cfg id idx a sf b f) (hoff : off / cfg.blockSize = idx)
    (hready : Ready cfg id off p env sf) (st : Storage) :
    ∃ n full sf' c, (kind cfg id).write off p env (sf, st) = some (n, full, sf', st) ∧
      c.flushed = false ∧ c.written ≠ 0 ∧
      Appended cfg id idx (a.add (off % cfg.blockSize) p) sf' c (splice f off p) := by
  obtain ⟨hp, hhigh, haligned, hlen, henv, hstale, hmark⟩ := hready b h.own
  have hbase : idx * cfg.blockSize + off % cfg.blockSize = off := by
    rw [← hoff]
    exact Nat.div_add_mod' _ _
  have hpacked := h.packed
  rw [← hhigh, hbase] at hpacked
  obtain ⟨sf', pages, hw, hown, hbacks, hpacked', hheld⟩ :=
    hpacked.writeToPage (s := (sf, st)) h.backs h.own haligned h.held p henv
  have hpos := length_pos_iff.mpr hp
  have hproper : b.interval.Proper cfg.blockSize := ⟨h.within, hstale⟩
  have hlt : off % cfg.blockSize < off % cfg.blockSize + p.length := by omega
  have hnot : ¬(cfg.blockSize ≤ b.written + p.length ∧ b.flushed = true) := fun hn => by
    cases (hmark hn.1).symm.trans hn.2
  have hend : max b.highOff (off % cfg.blockSize + p.length) = off % cfg.blockSize + p.length := by
    omega
  refine ⟨p.length, decide (cfg.blockSize ≤ b.written + p.length), sf'.setBlock id { b with
    pages := pages
    interval := b.interval.addInterval (off % cfg.blockSize) (off % cfg.blockSize + p.length)
    written := b.written + p.length
    highOff := max b.highOff (off % cfg.blockSize + p.length)
    flushed := decide (cfg.blockSize ≤ b.written + p.length) && b.flushed }, _, ?_, ?_, ?_,
    update_self .., h.index, (hproper.addInterval hlt hlen).within, hbacks.setBlock hown rfl, ?_,
    hheld, hend.trans_le hlen, ?_, ?_⟩
  · simp [kind, h.own, h.index, hoff, hw, hown, Nat.min_eq_left hlen]
  · simpa using hnot
  · dsimp only
    omega
  · dsimp only
    rwa [hend, ← Nat.add_assoc, hbase]
  · intro o ho
    rw [covers_addInterval hproper hlt]
    by_cases hin : off % cfg.blockSize ≤ o
    · exact .inl ⟨hin, hend ▸ ho⟩
    · exact .inr (h.covers o (by omega))
  · intro o v hv
    dsimp only
    rw [hend]
    have hv : splice a.last (off % cfg.blockSize) (p.map some) o = some v := hv
    have hshift := splice_shift f (idx * cfg.blockSize) (off % cfg.blockSize) p o
    rw [hbase] at hshift
    rw [hshift]
    by_cases hin : off % cfg.blockSize ≤ o ∧ o < off % cfg.blockSize + p.length
    · refine ⟨hin.2, some.inj ?_⟩
      rwa [← splice_map some hin.1 hin.2 a.last]
    · rw [splice_of_not_mem (by rwa [length_map])] at hv
      rw [splice_of_not_mem hin]
      obtain ⟨ho, hf⟩ := h.last o v hv
      exact ⟨by omega, hf⟩

theorem lawful (cfg : Config) (id idx : ℕ) :
    (kind cfg id).Lawful cfg.blockSize idx (Ready cfg id) fun a sf =>
      ∃ b f, Appended cfg id idx a sf b f where
  within := by
    rintro a sf ⟨b, f, h⟩
    rw [h.pending]
    exact h.within.join
  data := by
    rintro a sf o v ⟨b, f, h⟩ hv
    obtain ⟨ho, hf⟩ := h.last o v hv
    rw [h.pending]
    refine ⟨?_, (covers_merge h.within o).mpr (h.covers o ho)⟩
    dsimp only
    rw [← hf]
    simp [Segment.read, ho]
  mark := by
    rintro a sf ok ⟨b, f, h⟩ hdue
    rw [h.pending] at hdue
    have hset : Appended cfg id idx a ((kind cfg id).mark ok sf) { b with
        interval := b.interval.merge, flushed := ok, written := if ok then 0 else b.written } f := by
      simp only [kind, h.own]
      exact h.setBlock rfl rfl rfl rfl
    refine ⟨⟨_, f, hset⟩, ?_⟩
    rw [hset.pending]
    cases ok with
    | true => rfl
    | false => simpa using (Bool.and_eq_true_iff.mp hdue).2
  write := by
    rintro a sf off p env st ⟨b, f, h⟩ hoff hready
    obtain ⟨n, full, sf', c, hw, hflushed, hwritten, hc⟩ := h.write hoff hready st
    have hfit : p.length ≤ cfg.blockSize - off % cfg.blockSize := by
      obtain ⟨-, -, -, hlen, -⟩ := hready b h.own
      omega
    refine ⟨n, full, sf', hw, ?_, c, splice f off p, ?_⟩
    · rw [hc.pending]
      simp [hflushed, hwritten]
    · rwa [take_of_length_le hfit]
  refuse := by
    rintro a sf off p env st ⟨b, f, h⟩ hoff
    simp [kind, h.own, h.index, hoff]

theorem appended_new (hsf : sf.Disjoint cfg) (hfresh : ∀ x, sf.size ≤ x → sf.file x = 0)
    (hnew : sf.blocks sf.nextId = none) (idx : ℕ) :
    Appended cfg sf.nextId idx .empty (sf.newFileBlock idx).2 (.new idx) fun _ => 0 where
  own := update_self ..
  index := rfl
  within := Nat.zero_le _
  backs := backs_new hsf hfresh hnew idx
  packed := rfl
  held e he := by cases he
  high_le := Nat.zero_le _
  covers o ho := absurd ho (Nat.not_lt_zero o)
  last o v hv := by cases hv

end Append

end FileBlock

section Flush

open Runs FileBlock SwapFile

/-- A new block in memory, or in a swap file that is zero behind its pages. After calls that find
it ready, and whose flushes land, a flush that returns nil leaves in the storage the last byte
written at each offset. -/
theorem flush_stores_accepted (cfg : Config) (idx : ℕ) (slab : Data) (st : Storage)
    (calls : List BlockCall) (out : Outcome) (o : ℕ) (v : UInt8) (sf : SwapFile)
    (hsf : sf.Disjoint cfg) (hfresh : ∀ x, sf.size ≤ x → sf.file x = 0)
    (hnew : sf.blocks sf.nextId = none) :
    let size := cfg.blockSize
    let mem := MemBlock.kind size idx
    let file := FileBlock.kind cfg sf.nextId
    let b := (MemBlock.fresh size slab, st)
    let f := ((sf.newFileBlock idx).2, st)
    let last := (exec (Accepted.next size idx) calls .empty).last
    (Legal (mem.next size idx) (mem.Careful size idx MemBlock.Ready) (calls ++ [.flush out]) b →
      let r := mem.flush size idx out (exec (mem.next size idx) calls b)
      r.1 = true → last o = some v → r.2.2.byte idx o = some v) ∧
    (Legal (file.next size idx) (file.Careful size idx (Ready cfg sf.nextId))
        (calls ++ [.flush out]) f →
      let r := file.flush size idx out (exec (file.next size idx) calls f)
      r.1 = true → last o = some v → r.2.2.byte idx o = some v) :=
  ⟨fun hc hnil hv => (MemBlock.lawful cfg.blockSize_pos).flush_stores
      ⟨Nat.zero_le _, fun o v hv => by cases hv⟩ calls hc hnil o v hv,
    fun hc hnil hv => (FileBlock.lawful cfg sf.nextId idx).flush_stores
      ⟨_, _, appended_new hsf hfresh hnew idx⟩ calls hc hnil o v hv⟩

/-- Two writes, and a flush that fails and is repeated. -/
theorem flush_stores_accepted_sample :
    let calls := [.writeAt 0 [1, 2] (fun _ => none) .ok, .writeAt 2 [3] (fun _ => none) .ok,
      .flush .failed]
    let mem := MemBlock.kind 4 0
    let file := FileBlock.kind fourBytes 0
    (mem.flush 4 0 .ok (exec (mem.next 4 0) calls (MemBlock.fresh 4 (fun _ => 9), ∅))).2.2.byte 0 2 =
        some 3 ∧
      (file.flush 4 0 .ok (exec (file.next 4 0) calls
        ((SwapFile.empty.newFileBlock 0).2, ∅))).2.2.byte 0 1 = some 2 := by
  intro calls
  have h := fun o v => flush_stores_accepted fourBytes 0 (fun _ => 9) ∅ calls .ok o v .empty
    (disjoint_empty _) (fun _ _ => rfl) rfl
  exact ⟨(h 2 3).1 (by decide +kernel) (by decide +kernel) (by decide +kernel),
    (h 1 2).2 (by decide +kernel) (by decide +kernel) (by decide +kernel)⟩

/-- A write after a flush is not flushed, in memory or, when it fills the block, in the swap file;
and the error of `Write` is lost. -/
theorem flush_returns_nil_unstored :
    let mem := MemBlock.kind 4 0
    let file := FileBlock.kind fourBytes 0
    let b := (MemBlock.fresh 4 fun _ => 0, (∅ : Storage))
    let again := [.writeAt 0 [1] (fun _ => none) .ok, .flush .ok, .writeAt 0 [2] (fun _ => none) .ok]
    let full := [.writeAt 0 [1, 2, 3, 4] (fun _ => none) .failed]
    let twice := [.writeAt 0 [1, 2, 3, 4] (fun _ => none) .ok,
      .writeAt 0 [5, 6, 7, 8] (fun _ => none) .ok]
    let last (calls : List BlockCall) := (exec (Accepted.next 4 0) calls .empty).last 0
    let r (calls : List BlockCall) := mem.flush 4 0 .ok (exec (mem.next 4 0) calls b)
    let r' := file.flush 4 0 .ok (exec (file.next 4 0) twice ((SwapFile.empty.newFileBlock 0).2, ∅))
    (last again = some 2 ∧ (r again).1 = true ∧ (r again).2.2.byte 0 0 = some 1) ∧
      (last full = some 1 ∧ (r full).1 = true ∧ (r full).2.2.byte 0 0 = none) ∧
      last twice = some 5 ∧ r'.1 = true ∧ r'.2.2.byte 0 0 = some 1 := by
  decide +kernel

end Flush

end HugoFS.Vfs.Buffer
