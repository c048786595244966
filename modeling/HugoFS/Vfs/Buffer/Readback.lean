import HugoFS.Vfs.Buffer.Flushed

/-!
# What a read of the direct buffer returns

A read takes the stored blocks up to the first one that is not stored from the read buffer, and
goes on in the write blocks. Where it matters neither that a write block of a stored block is
not looked at, nor where the data ends, it returns the contents of the file.
-/

namespace HugoFS.Vfs.Buffer

open Spans Segment SwapFile Reader Runs Option Nat BufferState

namespace UploadPipeline

def contents (cfg : Config) (st : Storage) (last : ℕ → Option UInt8) (x : ℕ) : UInt8 :=
  expected cfg st last (x / cfg.blockSize) (x % cfg.blockSize)

def Reaches (cfg : Config) (size i : ℕ) (up : UploadPipeline) : Prop :=
  i * cfg.blockSize < size →
    ∃ b, up.writeBlocks.lookup i = some b ∧ i * cfg.blockSize + b.highOff = min size ((i + 1) * cfg.blockSize)

section Dirty

variable {cfg : Config} {init : Storage} {last : ℕ → Option UInt8} {up : UploadPipeline}
  {off len size : ℕ} {b : MemBlock}

section

variable (h : Flushes cfg init false last up)
include h

theorem Flushes.readAt_unstored (pages : ℕ → PageEnv)
    (hst : up.storage.lookup (off / cfg.blockSize) = none) :
    up.readAt cfg pages off len =
      match up.writeBlocks.lookup (off / cfg.blockSize) with
      | none => some ⟨[], none, up⟩
      | some b => up.readHeld cfg pages off len (.mem b) := by
  have hsealed : up.sealedBlocks (off / cfg.blockSize) = none := by
    cases hid : up.sealedBlocks (off / cfg.blockSize) with
    | none => rfl
    | some id =>
      obtain ⟨u, hu, hidx⟩ := h.indexed _ id hid
      obtain ⟨c, -, ⟨-, hsome⟩ | ⟨hfl, -⟩⟩ := h.uploads id u hu
      · rw [hidx] at hsome
        exact absurd hst hsome
      · cases hfl
  rw [readAt, hsealed]
  dsimp only [Option.bind]
  rw [dirty, h.noSwap]
  cases up.writeBlocks.lookup (off / cfg.blockSize) <;> rfl

theorem Flushes.unstored_byte {i o : ℕ}
    (hst : up.storage.lookup i = none) (hb : up.writeBlocks.lookup i = some b) (ho : o < cfg.blockSize) :
    b.data o = expected cfg init last i o := by
  by_cases hcov : Covers b.interval.items o
  · exact expected_of_records (h.records i b hb) hcov
  have hnw : ¬up.Written i o := by
    rintro ⟨c, hc, hcov'⟩
    obtain rfl := some.inj (hb.symm.trans hc)
    exact hcov hcov'
  rw [(h.records i b hb).zero o hcov, ← h.getD_lookup ho hnw (h.not_sealed i o), hst]
  rfl

omit h in
theorem readHeld_mem (pages : ℕ → PageEnv) (hlen : 0 < len) (hhigh : off % cfg.blockSize < b.highOff) :
    up.readHeld cfg pages off len (.mem b) =
      some ⟨read b.data (off % cfg.blockSize)
        (min b.highOff (off % cfg.blockSize + len) - off % cfg.blockSize), none, up⟩ := by
  rw [readHeld, MemBlock.readAt, if_neg (by omega)]

omit h in
theorem readHeld_end (pages : ℕ → PageEnv) (hhigh : b.highOff ≤ off % cfg.blockSize) :
    up.readHeld cfg pages off len (.mem b) = some ⟨[], some .eof, up⟩ := by
  rw [readHeld, MemBlock.readAt, if_pos (by omega)]

theorem Flushes.readAt_end (hends : up.Ends cfg size)
    (pages : ℕ → PageEnv) (hst : up.storage.lookup (off / cfg.blockSize) = none) (hend : size ≤ off) :
    ∃ err, up.readAt cfg pages off len = some ⟨[], err, up⟩ := by
  rw [h.readAt_unstored pages hst]
  cases hb : up.writeBlocks.lookup (off / cfg.blockSize) with
  | none => exact ⟨none, rfl⟩
  | some b =>
    have hle := hends _ b hb
    have hdiv := div_add_mod' off cfg.blockSize
    exact ⟨some .eof, readHeld_end pages (by omega)⟩

theorem Flushes.readAt_data (pages : ℕ → PageEnv) (hlen : 0 < len)
    (hst : up.storage.lookup (off / cfg.blockSize) = none)
    (hreaches : up.Reaches cfg size (off / cfg.blockSize)) (hoff : off < size) :
    ∃ n, 0 < n ∧ n ≤ len ∧ off + n ≤ size ∧
      up.readAt cfg pages off len = some ⟨read (contents cfg init last) off n, none, up⟩ := by
  have hdiv := div_add_mod' off cfg.blockSize
  have hmod := mod_lt off cfg.blockSize_pos
  obtain ⟨b, hb, hhigh⟩ := hreaches (by omega)
  have hblock : (off / cfg.blockSize + 1) * cfg.blockSize =
      off / cfg.blockSize * cfg.blockSize + cfg.blockSize := succ_mul _ _
  refine ⟨min b.highOff (off % cfg.blockSize + len) - off % cfg.blockSize, by omega, by omega, by omega, ?_⟩
  rw [h.readAt_unstored pages hst, hb]
  dsimp only
  rw [readHeld_mem pages hlen (by omega)]
  congr 2
  refine read_congr fun k hk => ?_
  -- the bytes lie in one block
  have hlt : off % cfg.blockSize + k < cfg.blockSize := by omega
  rw [contents, (same_block hlt).1, (same_block hlt).2]
  exact h.unstored_byte hst hb hlt

end

end Dirty

end UploadPipeline

namespace BufferState

section Dirty

variable {cfg : Config} {init : Storage} {last : ℕ → Option UInt8} {up : UploadPipeline}

open UploadPipeline

theorem readDirty_gives (h : up.Flushes cfg init false last) {size : ℕ} (hends : up.Ends cfg size)
    {hasWrites : Bool} (hclean : hasWrites = false → up.writeBlocks = ∅) (pages : ℕ → PageEnv)
    (fuel off len : ℕ) (hfuel : len < fuel)
    (hst : ∀ i, InRange cfg off len i → up.storage.lookup i = none ∧ up.Reaches cfg size i) :
    ∃ d, readDirty cfg pages hasWrites fuel off len up = some d ∧
      d.bytes = Segment.read (contents cfg init last) off (min (off + len) size - off) ∧
      (d.failed = true ∨ d.bytes.length = len) ∧ d.up = up := by
  induction fuel generalizing off len with
  | zero => omega
  | succ fuel ih =>
    rw [readDirty]
    by_cases hlen : len = 0
    · have hnone : min (off + len) size - off = 0 := by omega
      rw [if_pos hlen, hnone]
      exact ⟨_, rfl, rfl, .inr hlen.symm, rfl⟩
    have hpos := pos_of_ne_zero hlen
    obtain ⟨hst₀, hreaches⟩ := hst _ (inRange_first cfg off hpos)
    rw [if_neg hlen]
    rcases lt_or_ge off size with hoff | hoff
    · obtain ⟨n, hn, hnlen, hnsize, hread⟩ := h.readAt_data pages hpos hst₀ hreaches hoff
      have hwrites : ¬hasWrites = false := by
        intro hno
        have hle := div_mul_le_self off cfg.blockSize
        obtain ⟨b, hb, -⟩ := hreaches (by omega)
        rw [hclean hno] at hb
        cases hb
      have hlength : (Segment.read (contents cfg init last) off n).length = n := length_read _ _ n
      have hsplit : min (off + len) size - off = n + (min (off + n + (len - n)) size - (off + n)) := by
        omega
      rw [if_neg hwrites, hread, bind_some]
      dsimp only
      rw [if_neg (by
        rintro (herr | hnil)
        · cases herr
        · rw [hnil] at hlength
          exact absurd hlength (Nat.ne_of_lt hn)), hlength]
      obtain ⟨d, hd, hbytes, hend, hup⟩ := ih (off + n) (len - n) (by omega) (by
        rintro i ⟨h₁, h₂⟩
        exact hst i ⟨Nat.le_trans (Nat.div_le_div_right (Nat.le_add_right off n)) h₁, by omega⟩)
      rw [hd, map_some]
      refine ⟨_, rfl, ?_, ?_, hup⟩
      · rw [hsplit, read_add, ← hbytes]
      · refine hend.imp_right fun hall => ?_
        dsimp only
        rw [List.length_append, hlength, hall]
        omega
    · have hnone : min (off + len) size - off = 0 := by omega
      rw [hnone]
      split
      · exact ⟨_, rfl, rfl, .inl rfl, rfl⟩
      obtain ⟨err, hread⟩ := h.readAt_end hends pages hst₀ hoff
      rw [hread, bind_some]
      dsimp only
      rw [if_pos (.inr rfl)]
      exact ⟨_, rfl, rfl, .inl rfl, rfl⟩

end Dirty

/-! ### The condition on a read -/

/-- What a read depends on, before it. For each block of its range: if it is stored, what was written
to it is stored too, and the data does not end in it; if it is not stored, none is stored after
it, and what was written to it reaches its end or that of the data. The copies in the read
buffer are what is stored now, there are tokens for the stored blocks that are not there, and the
page context is not full. -/
structure Readable (cfg : Config) (env : ReadEnv) (off len : ℕ) (s : BufferState) : Prop where
  sent : ∀ i, InRange cfg off len i → s.pipe.up.storage.lookup i ≠ none →
    ∀ b, s.pipe.up.writeBlocks.lookup i = some b → b.flushed = true
  inside : ∀ i, InRange cfg off len i → s.pipe.up.storage.lookup i ≠ none →
    min (off + len) ((i + 1) * cfg.blockSize) ≤ s.size
  after : ∀ i j, InRange cfg off len i → InRange cfg off len j → i < j →
    s.pipe.up.storage.lookup i = none → s.pipe.up.storage.lookup j = none
  reaches : ∀ i, InRange cfg off len i → s.pipe.up.storage.lookup i = none → s.pipe.up.Reaches cfg s.size i
  fresh : ∀ i, InRange cfg off len i → s.reader.Fresh cfg s.pipe.up.storage i
  served : ((s.reader.monitor off len).isSequentialMode = false ∧ env.full) ∨
    ∀ i, InRange cfg off len i → s.pipe.up.storage.lookup i ≠ none → s.reader.blocks i = none →
      env.acquire i = true
  pages : ∀ x < off + len + cfg.blockSize, env.pages x = none

section Read

variable {cfg : Config} {init : Storage} {s : BufferState} {off len m : ℕ} {env : ReadEnv}

open UploadPipeline

theorem exists_storedTo (cfg : Config) (st : Storage) (off len : ℕ) :
    ∃ m, StoredTo cfg st off len m := by
  classical
  have hex : ∃ m, off / cfg.blockSize ≤ m ∧ (InRange cfg off len m → st.lookup m = none) := by
    refine ⟨off + len, ?_, fun hin => ?_⟩
    · have := Nat.div_le_self off cfg.blockSize
      omega
    · have := Nat.le_mul_of_pos_right (off + len) cfg.blockSize_pos
      have := hin.2
      omega
  refine ⟨Nat.find hex, (Nat.find_spec hex).1, fun i hi him hnone => ?_, (Nat.find_spec hex).2⟩
  exact Nat.find_min hex him ⟨hi.1, fun _ => hnone⟩

theorem stored_byte (h : s.Sound cfg init) (hidle : s.Idle) (hfl : s.flushing = false) {i : ℕ} {d : Data}
    (hd : s.pipe.up.storage.lookup i = some d)
    (hsent : ∀ b, s.pipe.up.writeBlocks.lookup i = some b → b.flushed = true) {o : ℕ}
    (ho : o < cfg.blockSize) : d o = expected cfg init s.data i o := by
  have hpipe := h.pipe
  rw [hfl, h.last_eq hidle] at hpipe
  by_cases hw : s.pipe.up.Written i o
  · obtain ⟨b, hb, hcov⟩ := hw
    obtain ⟨d', hd', hdo⟩ := hpipe.sent i b hb (hsent b hb)
    obtain rfl := some.inj (hd'.symm.trans hd)
    rw [hdo o hcov]
    exact expected_of_records (hpipe.records i b hb) hcov
  · exact hpipe.stored i d o hd ho hw (hpipe.not_sealed i o)

def storedLength (cfg : Config) (off len m : ℕ) : ℕ := min (off + len) (max off (m * cfg.blockSize)) - off

theorem inRange_stored {k : ℕ} (hk : k < storedLength cfg off len m) :
    InRange cfg off len ((off + k) / cfg.blockSize) ∧ (off + k) / cfg.blockSize < m := by
  rw [storedLength] at hk
  have := div_mul_le_self (off + k) cfg.blockSize
  refine ⟨⟨Nat.div_le_div_right (Nat.le_add_right off k), by omega⟩, ?_⟩
  rw [div_lt_iff_lt_mul cfg.blockSize_pos]
  omega

theorem storedBytes_eq (h : s.Sound cfg init) (hidle : s.Idle) (hfl : s.flushing = false)
    (hr : s.Readable cfg env off len) (hto : StoredTo cfg s.pipe.up.storage off len m) :
    storedBytes cfg s.pipe.up.storage off len m =
      Segment.read (contents cfg init s.data) off (storedLength cfg off len m) := by
  refine read_congr fun k hk => ?_
  obtain ⟨hin, hm⟩ := inRange_stored hk
  have hne := hto.stored _ hin hm
  obtain ⟨d, hd⟩ := ne_none_iff_exists'.mp hne
  rw [storedByte, hd, contents]
  exact stored_byte h hidle hfl hd (hr.sent _ hin hne) (mod_lt _ cfg.blockSize_pos)

section

variable (hr : s.Readable cfg env off len) (hto : StoredTo cfg s.pipe.up.storage off len m)
include hr hto

theorem storedLength_le :
    storedLength cfg off len m ≤ min (off + len) s.size - off := by
  have hlen : storedLength cfg off len m ≤ len := by
    rw [storedLength]
    omega
  rcases Nat.eq_zero_or_pos (storedLength cfg off len m) with hzero | hpos
  · omega
  -- the block of the last stored byte
  obtain ⟨k, hk⟩ := Nat.exists_eq_succ_of_ne_zero (Nat.ne_of_gt hpos)
  obtain ⟨hin, hm⟩ := inRange_stored (show k < storedLength cfg off len m by omega)
  have hsize := hr.inside _ hin (hto.stored _ hin hm)
  have hlast := Nat.lt_div_mul_add cfg.blockSize_pos (a := off + k)
  rw [Nat.succ_mul] at hsize
  omega

theorem unstored_rest (hlt : storedLength cfg off len m < len) {i : ℕ}
    (hi : InRange cfg (off + storedLength cfg off len m) (len - storedLength cfg off len m) i) :
    s.pipe.up.storage.lookup i = none ∧ s.pipe.up.Reaches cfg s.size i := by
  have hoff : off + storedLength cfg off len m = max off (m * cfg.blockSize) := by
    rw [storedLength] at hlt ⊢
    omega
  obtain ⟨h₁, h₂⟩ := hi
  rw [hoff] at h₁ h₂
  have hin : InRange cfg off len i :=
    ⟨Nat.le_trans (Nat.div_le_div_right (Nat.le_max_left _ _)) h₁, by omega⟩
  have hmi : m ≤ i := by
    refine le_trans ?_ h₁
    rw [le_div_iff_mul_le cfg.blockSize_pos]
    exact le_max_right _ _
  have hmin : InRange cfg off len m :=
    ⟨hto.le, lt_of_le_of_lt (mul_le_mul_right _ hmi) hin.2⟩
  have hnone : s.pipe.up.storage.lookup i = none := by
    rcases lt_or_eq_of_le hmi with hlt | rfl
    · exact hr.after m i hmin hin hlt (hto.absent hmin)
    · exact hto.absent hmin
  exact ⟨hnone, hr.reaches i hin hnone⟩

end

theorem read_first {env : ℕ → ReadEnv} {f : Fetched} (hlen : 0 < len)
    (hf : s.reader.read cfg (env 0) off len s.pipe.up.storage = some f)
    (hst : f.storage = s.pipe.up.storage) (herr : f.err = none ∨ f.err = some .eof) :
    (len ≤ f.bytes.length → ∃ r, s.read cfg env off len = some r ∧ r.bytes = f.bytes) ∧
    (¬len ≤ f.bytes.length → ∀ d, readDirty cfg (env 0).pages s.hasWrites (len + 1) (off + f.bytes.length)
        (len - f.bytes.length) s.pipe.up = some d →
      d.failed = true ∨ d.bytes.length = len - f.bytes.length →
      ∃ r, s.read cfg env off len = some r ∧ r.bytes = f.bytes ++ d.bytes) := by
  have hgo : ¬(len = 0 ∨ (false = true ∧ false = true)) := by
    rintro (h | ⟨h, -⟩)
    · omega
    · cases h
  have hok : ¬(f.err.isSome = true ∧ f.err ≠ some .eof) := by
    rintro ⟨hsome, hne⟩
    rcases herr with herr | herr
    · rw [herr] at hsome
      cases hsome
    · exact hne herr
  rw [read, readLoop, if_neg hgo, hf, bind_some, fetched_eq hst]
  dsimp only
  rw [if_neg hok]
  constructor
  · intro hfull
    rw [if_pos (.inl hfull)]
    exact ⟨_, rfl, rfl⟩
  · intro hshort d hd hend
    rw [if_neg (by rintro (h | ⟨-, h⟩); exacts [hshort h, Bool.false_ne_true h]), hd, bind_some]
    cases hfailed : d.failed with
    | true => exact ⟨_, rfl, rfl⟩
    | false =>
      have hall : d.bytes.length = len - f.bytes.length :=
        hend.resolve_left (by rw [hfailed]; exact Bool.false_ne_true)
      rw [if_neg Bool.false_ne_true, List.length_append, hall, readLoop, if_pos (.inl (by omega)),
        map_some]
      exact ⟨_, rfl, List.append_nil _⟩

theorem SafeRun.read_eq {env : ℕ → ReadEnv} (h : SafeRun cfg init s) (henabled : s.Enabled (.read off len env))
    (hr : s.Readable cfg (env 0) off len) :
    ∃ r, s.read cfg env off len = some r ∧
      r.bytes = Segment.read (contents cfg init s.data) off (min (off + len) s.size - off) := by
  have hs := h.sound
  obtain ⟨hidle, hfl⟩ := henabled
  rcases Nat.eq_zero_or_pos len with rfl | hlen
  · have hnone : min (off + 0) s.size - off = 0 := by omega
    rw [read, readLoop, if_pos (.inl rfl), hnone]
    exact ⟨_, rfl, rfl⟩
  have hpipe := hs.pipe
  rw [hfl, hs.last_eq hidle] at hpipe
  obtain ⟨m, hto⟩ := exists_storedTo cfg s.pipe.up.storage off len
  have hle := storedLength_le hr hto
  obtain ⟨f, hf, hbytes, herr⟩ := read_gives hlen hs.reader hr.pages hto
    (fun i hi _ => hr.fresh i hi)
    (hr.served.imp_right fun hall i hi him => hall i hi (hto.stored i hi him))
  rw [storedBytes_eq hs hidle hfl hr hto] at hbytes
  have hlength : f.bytes.length = storedLength cfg off len m := by rw [hbytes, length_read]
  obtain ⟨hfetched, hdirty⟩ := read_first hlen hf (read_follows hlen hs.reader hr.pages hf).1 herr
  by_cases hfull : len ≤ f.bytes.length
  · obtain ⟨r, hread, hrbytes⟩ := hfetched hfull
    have hn : min (off + len) s.size - off = storedLength cfg off len m := by omega
    exact ⟨r, hread, by rw [hrbytes, hbytes, hn]⟩
  obtain ⟨d, hd, hdbytes, hend, -⟩ := readDirty_gives hpipe hs.ends (fun hno => (hs.clean hno).2.2.1)
    (env 0).pages (len + 1) (off + f.bytes.length) (len - f.bytes.length) (by omega) (by
      intro i hi
      rw [hlength] at hi
      exact unstored_rest hr hto (by omega) hi)
  obtain ⟨r, hread, hrbytes⟩ := hdirty hfull d hd hend
  have hn : min (off + len) s.size - off = f.bytes.length +
      (min (off + f.bytes.length + (len - f.bytes.length)) s.size - (off + f.bytes.length)) := by omega
  refine ⟨r, hread, ?_⟩
  rw [hrbytes, hdbytes, hn, read_add, hlength, ← hbytes]

end Read

open UploadPipeline (contents)

def extendRun : List BufferCall :=
  [.write 1 [8], .round fun _ => none, .flush, .sealBlock 0, .upload 0, .complete 0, .flushed,
    .write 4 [7, 9], .round fun _ => none]

def extended : BufferState := exec (next tinyConfig) extendRun (init tinyConfig oneBlock)

end BufferState

end HugoFS.Vfs.Buffer
