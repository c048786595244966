import HugoFS.Vfs.Buffer.Swap

/-!
# Copies of stored blocks in a swap file

The read buffer puts whole blocks of the storage into its swap file, and reads them from there.
As long as the page context is not full, a block that was put there reads as the storage
was at that time; a block that was not found then stays so.
-/

namespace HugoFS.Vfs.Buffer

open Segment Function Option FileBlock

namespace SwapFile

section Pages

variable {cfg : Config} {sf : SwapFile} {id : ℕ} {b : FileBlock}

theorem byte_eq_some_iff (hb : sf.blocks id = some b) {x : ℕ} {v : UInt8} :
    sf.byte cfg id x = some v ↔ ∃ pg, b.pages.get (x / cfg.pageSize) = some pg ∧
      x % cfg.pageSize < pg.size ∧ pg.offsetInFile + x % cfg.pageSize < sf.length ∧
      sf.file (pg.offsetInFile + x % cfg.pageSize) = v := by
  rw [byte, page, hb, bind_some, bind_eq_some_iff]
  simp only [ite_none_right_eq_some, some.injEq, and_assoc]

theorem readPage_eq (hb : sf.blocks id = some b) {D : ℕ → UInt8} {off n : ℕ} (hn : 0 < n)
    (hroom : off % cfg.pageSize + n ≤ cfg.pageSize)
    (hbytes : ∀ k < n, sf.byte cfg id (off + k) = some (D (off + k))) :
    ∃ pg, b.pages.get (off / cfg.pageSize) = some pg ∧
      sf.readPage pg (off % cfg.pageSize) n = some (read D off n, false) := by
  have hdiv := Nat.div_add_mod off cfg.pageSize
  -- all bytes are on the page of the first one
  have hsame : ∀ k < n, (off + k) / cfg.pageSize = off / cfg.pageSize ∧
      (off + k) % cfg.pageSize = off % cfg.pageSize + k :=
    fun k hk => same_block (by omega)
  obtain ⟨pg, hpg, -⟩ := (byte_eq_some_iff hb).mp (hbytes 0 hn)
  have hat : ∀ k < n, off % cfg.pageSize + k < pg.size ∧
      pg.offsetInFile + off % cfg.pageSize + k < sf.length ∧
      sf.file (pg.offsetInFile + off % cfg.pageSize + k) = D (off + k) := by
    intro k hk
    obtain ⟨pg', hpg', h⟩ := (byte_eq_some_iff hb).mp (hbytes k hk)
    rw [(hsame k hk).1] at hpg'
    obtain rfl : pg' = pg := some.inj (hpg'.symm.trans hpg)
    rwa [(hsame k hk).2, ← Nat.add_assoc] at h
  have hlast := hat (n - 1) (by omega)
  refine ⟨pg, hpg, ?_⟩
  rw [readPage, if_neg (by omega), readFile, Nat.min_eq_right (by omega : n ≤ _),
    Nat.min_eq_left (by omega : n ≤ _), decide_eq_false (by omega)]
  congr 2
  exact read_congr fun k hk => (hat k hk).2.2

theorem readPages_eq (hb : sf.blocks id = some b) (D : ℕ → UInt8) (limit fuel off len : ℕ)
    (hfuel : len < fuel)
    (hbytes : ∀ x, off ≤ x → x < limit → x < off + len → sf.byte cfg id x = some (D x)) :
    readPages cfg sf b limit fuel off len =
      some (read D off (min (limit - off) len), decide (limit - off < len)) := by
  induction fuel generalizing off len with
  | zero => omega
  | succ fuel ih =>
    rw [readPages]
    by_cases hend : len = 0 ∨ limit ≤ off
    · have hzero : min (limit - off) len = 0 := by omega
      have hiff : (0 < len) ↔ (limit - off < len) := by omega
      rw [if_pos hend, hzero, read_zero, decide_eq_decide.mpr hiff]
    rw [if_neg hend]
    dsimp only
    have hmod := Nat.mod_lt off cfg.pageSize_pos
    generalize hn : min (min (limit - off) len) (cfg.pageSize - off % cfg.pageSize) = n
    have hroom : off % cfg.pageSize + n ≤ cfg.pageSize := by omega
    obtain ⟨pg, hpg, hread⟩ := readPage_eq hb (by omega) hroom
      fun k hk => hbytes (off + k) (by omega) (by omega) (by omega)
    have hne : read D off n ≠ [] := by
      rw [← List.length_pos_iff, length_read]
      omega
    rw [hpg]
    dsimp only
    rw [hread, bind_some, if_neg Bool.false_ne_true, if_neg hne, length_read,
      ih (off + n) (len - n) (by omega) fun x h₁ h₂ h₃ => hbytes x (by omega) h₂ (by omega),
      map_some]
    have hsplit : min (limit - off) len = n + min (limit - (off + n)) (len - n) := by omega
    have hiff : (limit - (off + n) < len - n) ↔ (limit - off < len) := by omega
    rw [hsplit, read_add, decide_eq_decide.mpr hiff]

end Pages

/-! ### Copies -/

def Copies (cfg : Config) (sf : SwapFile) (i id : ℕ) (old : Option Data) : Prop :=
  ∃ b, sf.blocks id = some b ∧ b.idx = i ∧
    match old with
    | some d => b.err = none ∧ ∀ o < cfg.blockSize, sf.byte cfg id (i * cfg.blockSize + o) = some (d o)
    | none => b.err = some .notFound

def storedByte (cfg : Config) (st : Storage) (x : ℕ) : UInt8 :=
  ((st.lookup (x / cfg.blockSize)).map fun d => d (x % cfg.blockSize)).getD 0

section Copies

variable {cfg : Config} {sf : SwapFile} {i id off len : ℕ} {st : Storage}

theorem read_stored {d : Data} (hd : st.lookup (off / cfg.blockSize) = some d) {n : ℕ}
    (hn : n ≤ cfg.blockSize - off % cfg.blockSize) :
    read d (off % cfg.blockSize) n = read (storedByte cfg st) off n := by
  have hmod := Nat.mod_lt off cfg.blockSize_pos
  refine read_congr fun k hk => ?_
  have hlt : off % cfg.blockSize + k < cfg.blockSize := by omega
  rw [storedByte, (same_block hlt).1, (same_block hlt).2, hd]
  rfl

theorem block_end (cfg : Config) (off : ℕ) :
    (off / cfg.blockSize + 1) * cfg.blockSize - off = cfg.blockSize - off % cfg.blockSize := by
  have hdiv := Nat.div_add_mod off cfg.blockSize
  rw [Nat.add_mul, Nat.one_mul, Nat.mul_comm]
  omega

theorem readAt_copy (env : ℕ → PageEnv) {d : Data} (h : Copies cfg sf i id (some d))
    (hd : st.lookup i = some d) (hi : off / cfg.blockSize = i) :
    ∃ err, (err = none ∨ err = some .eof) ∧ readAt cfg env id off len (sf, st) =
      some ⟨read (storedByte cfg st) off (min (cfg.blockSize - off % cfg.blockSize) len), err, (sf, st)⟩ := by
  obtain ⟨b, hb, hidx, herr, hbytes⟩ := h
  have hpages := readPages_eq hb (storedByte cfg st) ((i + 1) * cfg.blockSize) (len + 1) off len
    (Nat.lt_succ_self len) (by
      intro x h₁ h₂ _
      -- every offset up to the end of the block lies in it
      have hx : x / cfg.blockSize = i := Nat.div_eq_of_lt_le
        (Nat.le_trans (by rw [← hi]; exact Nat.div_mul_le_self off cfg.blockSize) h₁) h₂
      have hmod : i * cfg.blockSize + x % cfg.blockSize = x := by
        rw [← hx, Nat.mul_comm]
        exact Nat.div_add_mod _ _
      have hbyte := hbytes (x % cfg.blockSize) (Nat.mod_lt x cfg.blockSize_pos)
      rw [hmod] at hbyte
      rw [hbyte, storedByte, hx, hd]
      rfl)
  rw [← hi, block_end, hi] at hpages
  rw [readAt]
  dsimp only
  rw [hb]
  dsimp only
  rw [if_neg (by rw [hidx]; exact fun h => h hi), if_neg (by rw [herr]; decide),
    if_neg (by rw [herr]; decide), hb]
  dsimp only
  rw [hidx, hpages, map_some]
  refine ⟨_, ?_, rfl⟩
  split
  · exact .inr rfl
  · exact .inl rfl

theorem readAt_missing (env : ℕ → PageEnv) (h : Copies cfg sf i id none)
    (hi : off / cfg.blockSize = i) :
    readAt cfg env id off len (sf, st) = some ⟨[], some .notFound, (sf, st)⟩ := by
  obtain ⟨b, hb, hidx, herr⟩ := h
  rw [readAt]
  dsimp only
  rw [hb]
  dsimp only
  rw [if_neg (by rw [hidx]; exact fun h => h hi), if_pos herr]

theorem state_readAt (env : ℕ → PageEnv) {b : FileBlock} (hb : sf.blocks id = some b)
    (herr : b.err ≠ some .destroyed) {a : Answer}
    (h : readAt cfg env id off len (sf, st) = some a) : a.state = (sf, st) := by
  rw [readAt] at h
  dsimp only at h
  rw [hb] at h
  dsimp only at h
  split at h
  · cases h
    rfl
  split at h
  · cases h
    rfl
  dsimp only at h
  rw [hb] at h
  dsimp only at h
  obtain ⟨r, -, rfl⟩ := map_eq_some_iff.mp h
  rfl

end Copies

/-! ### The swap file of the read buffer -/

structure ReadOnly (cfg : Config) (sf : SwapFile) : Prop where
  disjoint : sf.Disjoint cfg
  fresh : ∀ id b, sf.blocks id = some b → id < sf.nextId
  owned : ∀ i id, sf.lookup i = some id →
    ∃ b, sf.blocks id = some b ∧ b.idx = i ∧ b.err ≠ some .destroyed
  dying : sf.dying = []

theorem readOnly_empty (cfg : Config) : empty.ReadOnly cfg where
  disjoint := disjoint_empty cfg
  fresh id b hb := by cases hb
  owned i id h := by cases h
  dying := rfl

structure CopyMade (cfg : Config) (st : Storage) (i id : ℕ) (sf sf' : SwapFile) : Prop where
  readOnly : sf'.ReadOnly cfg
  own : sf'.lookup i = some id
  copies : Copies cfg sf' i id (st.lookup i)
  others : ∀ j, j ≠ i → sf'.lookup j = sf.lookup j
  kept : ∀ j k old, sf.lookup j = some k → Copies cfg sf j k old → Copies cfg sf' j k old

section New

variable {cfg : Config} {sf : SwapFile} {i : ℕ} {st : Storage}

theorem ReadOnly.new_none (h : sf.ReadOnly cfg) : sf.blocks sf.nextId = none := by
  cases hb : sf.blocks sf.nextId with
  | none => rfl
  | some b => exact absurd (h.fresh _ b hb) (Nat.lt_irrefl _)

theorem copyMade_of_new (h : sf.ReadOnly cfg) {sf' : SwapFile} {b : FileBlock}
    (hdisjoint : sf'.Disjoint cfg) (hlookup : sf'.lookup = (sf.newFileBlock i).2.lookup)
    (hnextId : sf'.nextId = sf.nextId + 1) (hdying : sf'.dying = sf.dying)
    (hblocks : ∀ j, j ≠ sf.nextId → sf'.blocks j = sf.blocks j)
    (hbytes : ∀ j x v, j ≠ sf.nextId → sf.byte cfg j x = some v → sf'.byte cfg j x = some v)
    (hb : sf'.blocks sf.nextId = some b) (hidx : b.idx = i) (herr : b.err ≠ some .destroyed)
    (hcopies : Copies cfg sf' i sf.nextId (st.lookup i)) : CopyMade cfg st i sf.nextId sf sf' := by
  have hold : ∀ k c, sf.blocks k = some c → k ≠ sf.nextId :=
    fun k c hc => Nat.ne_of_lt (h.fresh k c hc)
  have hothers : ∀ j, j ≠ i → sf'.lookup j = sf.lookup j := by
    intro j hj
    rw [hlookup]
    exact update_of_ne hj _ _
  have hown : sf'.lookup i = some sf.nextId := by
    rw [hlookup]
    exact update_self _ _ _
  refine ⟨⟨hdisjoint, ?_, ?_, hdying.trans h.dying⟩, hown, hcopies, hothers, ?_⟩
  · intro j c hc
    rw [hnextId]
    by_cases hj : j = sf.nextId
    · omega
    · have := h.fresh j c ((hblocks j hj).symm.trans hc)
      omega
  · intro j k hk
    by_cases hj : j = i
    · subst hj
      obtain rfl := some.inj (hown.symm.trans hk)
      exact ⟨b, hb, hidx, herr⟩
    · obtain ⟨c, hc, hrest⟩ := h.owned j k ((hothers j hj).symm.trans hk)
      exact ⟨c, (hblocks k (hold k c hc)).trans hc, hrest⟩
  · rintro j k old - ⟨c, hc, hcidx, hcopy⟩
    refine ⟨c, (hblocks k (hold k c hc)).trans hc, hcidx, ?_⟩
    cases old with
    | none => exact hcopy
    | some d => exact ⟨hcopy.1, fun o ho => hbytes k _ _ (hold k c hc) (hcopy.2 o ho)⟩

def cached (i : ℕ) (err : Option BlockErr) : FileBlock := { FileBlock.new i with flushed := true, err := err }

def withCached (sf : SwapFile) (i : ℕ) (err : Option BlockErr) : SwapFile :=
  (sf.newFileBlock i).2.setBlock sf.nextId (cached i err)

theorem blocks_withCached (err : Option BlockErr) {j : ℕ} (hj : j ≠ sf.nextId) :
    (sf.withCached i err).blocks j = sf.blocks j :=
  (update_of_ne hj _ _).trans (update_of_ne hj _ _)

theorem new_withCached (err : Option BlockErr) :
    (sf.withCached i err).blocks sf.nextId = some (cached i err) := update_self _ _ _

theorem new_newFileBlock : (sf.newFileBlock i).2.blocks sf.nextId = some (.new i) := update_self _ _ _

theorem byte_withCached (h : sf.ReadOnly cfg) (err : Option BlockErr) (j x : ℕ) :
    (sf.withCached i err).byte cfg j x = sf.byte cfg j x := by
  have hpages : (cached i err).pages = (new i).pages := rfl
  rw [withCached, byte_setBlock new_newFileBlock hpages, byte_newFileBlock h.new_none]

theorem disjoint_withCached (h : sf.ReadOnly cfg) (err : Option BlockErr) :
    (sf.withCached i err).Disjoint cfg := by
  have hpages : (cached i err).pages = (new i).pages := rfl
  exact (h.disjoint.newFileBlock h.new_none i).setBlock new_newFileBlock hpages

theorem copyMade_doCache (st : Storage) (env : ℕ → PageEnv) (h : sf.ReadOnly cfg)
    (henv : ∀ x < (i + 1) * cfg.blockSize, env x = none) :
    ∃ sf', doCache cfg env sf.nextId ((sf.newFileBlock i).2, st) = (sf', st) ∧
      CopyMade cfg st i sf.nextId sf sf' := by
  rw [doCache]
  dsimp only
  rw [new_newFileBlock]
  dsimp only
  cases hst : st.lookup (new i).idx with
  | none =>
    have hst : st.lookup i = none := hst
    refine ⟨sf.withCached i (some .notFound), rfl, copyMade_of_new h (disjoint_withCached h _) rfl rfl rfl
      (fun j hj => blocks_withCached _ hj) ?_ (new_withCached _) rfl ?_ ?_⟩
    · intro j x v _ hv
      rwa [byte_withCached h]
    · exact fun herr => by cases herr
    · rw [hst]
      exact ⟨_, new_withCached _, rfl, rfl⟩
  | some d =>
    have hst : st.lookup i = some d := hst
    have hlen : (read d 0 cfg.blockSize).length = cfg.blockSize := length_read _ _ _
    obtain ⟨sf', hw, hstores⟩ := writeToPage_stores cfg.blockSize env (i * cfg.blockSize)
      (read d 0 cfg.blockSize)
      (fun x hx => henv x (by rw [hlen] at hx; rw [Nat.add_mul]; omega))
      (Nat.le_of_eq hlen) _ (disjoint_withCached h none) _ (new_withCached none)
    obtain ⟨pages, hblock⟩ := hstores.own _ (new_withCached none)
    refine ⟨sf', hw, copyMade_of_new h hstores.disjoint hstores.lookup hstores.nextId hstores.dying
      (fun j hj => (hstores.others j hj).trans (blocks_withCached _ hj)) ?_ hblock rfl ?_ ?_⟩
    · intro j x v hj hv
      refine hstores.kept j x v ?_ fun hin => hj hin.1
      rwa [byte_withCached h]
    · exact fun herr => by cases herr
    · rw [hst]
      refine ⟨_, hblock, rfl, rfl, fun o ho => hstores.stored _ _ (Nat.le_add_right _ _) ?_⟩
      rw [Nat.add_sub_cancel_left, Segment.read, List.getElem?_map, List.getElem?_range ho]
      simp

end New

end SwapFile

end HugoFS.Vfs.Buffer
