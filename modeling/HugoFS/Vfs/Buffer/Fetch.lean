import HugoFS.Lib.Runs
import HugoFS.Vfs.Buffer.Copies
import HugoFS.Vfs.Buffer.Reader

/-!
# What the read buffer returns

A read of the read buffer returns the stored bytes up to the first block that is not stored,
if the buffer's copies of the blocks are what is stored now. It makes copies and never
changes the storage.
-/

namespace HugoFS.Vfs.Buffer

open Segment SwapFile Function List Option

namespace Reader

def Fresh (cfg : Config) (st : Storage) (i : ℕ) (r : Reader) : Prop :=
  (∀ d, r.blocks i = some d → st.lookup i = some d) ∧
    ∀ id, r.swapfile.lookup i = some id → Copies cfg r.swapfile i id (st.lookup i)

structure Follows (cfg : Config) (st : Storage) (r r' : Reader) : Prop where
  readOnly : r'.swapfile.ReadOnly cfg
  fresh : ∀ i, r.Fresh cfg st i → r'.Fresh cfg st i

variable {i : ℕ} {f : Fetched}

section Follows

variable {cfg : Config} {st : Storage} {r r' r'' : Reader}

theorem Follows.refl (h : r.swapfile.ReadOnly cfg) : Follows cfg st r r := ⟨h, fun _ h => h⟩

theorem Follows.trans (h : Follows cfg st r r') (h' : Follows cfg st r' r'') : Follows cfg st r r'' :=
  ⟨h'.readOnly, fun i hi => h'.fresh i (h.fresh i hi)⟩

theorem Follows.cache (h : r.swapfile.ReadOnly cfg) {d : Data} (hd : st.lookup i = some d) :
    Follows cfg st r { r with blocks := update r.blocks i (some d) } := by
  refine ⟨h, fun j hj => ⟨fun e he => ?_, hj.2⟩⟩
  obtain ⟨hji, he⟩ | ⟨-, he⟩ := Runs.update_eq_some he
  · rw [hji, ← he]
    exact hd
  · exact hj.1 e he

theorem Follows.copy {id : ℕ} {sf : SwapFile} (hmade : CopyMade cfg st i id r.swapfile sf) :
    Follows cfg st r { r with swapfile := sf } := by
  refine ⟨hmade.readOnly, fun j hj => ⟨hj.1, fun k hk => ?_⟩⟩
  by_cases hji : j = i
  · subst hji
    obtain rfl := some.inj (hmade.own.symm.trans hk)
    exact hmade.copies
  · have hk : r.swapfile.lookup j = some k := (hmade.others j hji).symm.trans hk
    exact hmade.kept j k _ hk (hj.2 k hk)

theorem swapBlock_eq (st : Storage) (pages : ℕ → PageEnv) (h : r.swapfile.ReadOnly cfg) (i : ℕ)
    (hpages : ∀ x < (i + 1) * cfg.blockSize, pages x = none) :
    ∃ id sf, swapBlock cfg pages i (r.swapfile, st) = (id, sf, st) ∧ sf.lookup i = some id ∧
      Follows cfg st r { r with swapfile := sf } := by
  rw [swapBlock]
  dsimp only
  cases hid : r.swapfile.lookup i with
  | some id => exact ⟨id, r.swapfile, rfl, hid, .refl h⟩
  | none =>
    obtain ⟨sf, hsf, hmade⟩ := copyMade_doCache st pages h hpages
    refine ⟨r.swapfile.nextId, sf, ?_, hmade.own, .copy hmade⟩
    exact congrArg (Prod.mk r.swapfile.nextId) hsf

theorem readBlocks_follows (acquire : ℕ → Bool) (is : List ℕ) (off len : ℕ) (r : Reader)
    (h : r.swapfile.ReadOnly cfg) :
    (readBlocks cfg acquire st is off len r).storage = st ∧
      Follows cfg st r (readBlocks cfg acquire st is off len r).reader := by
  induction is generalizing off len r with
  | nil => exact ⟨rfl, .refl h⟩
  | cons i is ih =>
    rw [readBlocks]
    split
    · exact ih _ _ r h
    split
    · split
      · exact ⟨rfl, .refl h⟩
      next d hd =>
        obtain ⟨hst, hfollows⟩ := ih (off + (readBlock cfg i d off len).length)
          (len - (readBlock cfg i d off len).length)
          { r with blocks := update r.blocks i (some d) } h
        exact ⟨hst, (Follows.cache h hd).trans hfollows⟩
    · exact ⟨rfl, .refl h⟩

theorem readFromLocal_follows (pages : ℕ → PageEnv) (h : r.swapfile.ReadOnly cfg) (is : List ℕ)
    (off len : ℕ) (acc : List UInt8)
    (hf : readFromLocal cfg pages is off len acc r st = some f) : f.storage = st ∧ f.reader = r := by
  induction is generalizing off len acc with
  | nil =>
    cases hf
    exact ⟨rfl, rfl⟩
  | cons i is ih =>
    rw [readFromLocal] at hf
    cases hd : r.blocks i with
    | some d =>
      rw [hd] at hf
      dsimp only at hf
      split at hf
      · cases hf
        exact ⟨rfl, rfl⟩
      · exact ih _ _ _ hf
    | none =>
      rw [hd] at hf
      dsimp only at hf
      cases hid : r.swapfile.lookup i with
      | none =>
        rw [hid] at hf
        cases hf
        exact ⟨rfl, rfl⟩
      | some id =>
        rw [hid] at hf
        dsimp only at hf
        obtain ⟨b, hb, -, herr⟩ := h.owned i id hid
        obtain ⟨a, ha, hf⟩ := bind_eq_some_iff.mp hf
        rw [state_readAt pages hb herr ha] at hf
        split at hf
        · cases hf
          exact ⟨rfl, rfl⟩
        split at hf
        · cases hf
          exact ⟨rfl, rfl⟩
        · exact ih _ _ _ hf

theorem readFromRemote_follows (pages : ℕ → PageEnv) {bound : ℕ} (hpages : ∀ x < bound, pages x = none)
    (is : List ℕ) (his : ∀ i ∈ is, (i + 1) * cfg.blockSize ≤ bound) (off len : ℕ) (acc : List UInt8)
    (r : Reader) (h : r.swapfile.ReadOnly cfg)
    (hf : readFromRemote cfg pages is off len acc r st = some f) :
    f.storage = st ∧ Follows cfg st r f.reader := by
  induction is generalizing off len acc r with
  | nil =>
    cases hf
    exact ⟨rfl, .refl h⟩
  | cons i is ih =>
    rw [readFromRemote] at hf
    obtain ⟨id, sf, hb, hid, hfollows⟩ := swapBlock_eq st pages h i
      fun x hx => hpages x (Nat.lt_of_lt_of_le hx (his i (mem_cons_self ..)))
    dsimp only at hf
    rw [hb] at hf
    dsimp only at hf
    obtain ⟨b, hblock, -, herr⟩ := hfollows.readOnly.owned i id hid
    obtain ⟨a, ha, hf⟩ := bind_eq_some_iff.mp hf
    rw [state_readAt pages hblock herr ha] at hf
    split at hf
    · cases hf
      exact ⟨rfl, hfollows⟩
    obtain ⟨hst, hrest⟩ := ih (fun j hj => his j (mem_cons_of_mem _ hj)) _ _ _ _
      hfollows.readOnly hf
    exact ⟨hst, hfollows.trans hrest⟩

end Follows

/-! ### The bytes -/

section Bytes

variable {cfg : Config} {st : Storage} {r : Reader} {off len m : ℕ}

theorem indexRange_of_pos (hlen : 0 < len) :
    indexRange cfg off len = range' (off / cfg.blockSize)
      ((off + len - 1) / cfg.blockSize + 1 - off / cfg.blockSize) := by
  have hpos := cfg.blockSize_pos
  have hdiv := Nat.div_add_mod (off + len) cfg.blockSize
  have hmod := Nat.mod_lt (off + len) hpos
  rw [indexRange]
  congr 2
  split
  next hzero =>
    -- the range ends with its last block
    rw [hzero, Nat.add_zero] at hdiv
    have hq : 0 < (off + len) / cfg.blockSize := by
      rw [Nat.pos_iff_ne_zero]
      intro h
      rw [h, Nat.mul_zero] at hdiv
      omega
    have hlast : (off + len - 1) / cfg.blockSize = (off + len) / cfg.blockSize - 1 := by
      refine Nat.div_eq_of_lt_le ?_ ?_
      · rw [Nat.sub_mul, Nat.one_mul, Nat.mul_comm]
        omega
      · rw [Nat.sub_add_cancel hq, Nat.mul_comm]
        omega
    omega
  next hzero =>
    have hlast : (off + len - 1) / cfg.blockSize = (off + len) / cfg.blockSize := by
      refine Nat.div_eq_of_lt_le ?_ ?_
      · rw [Nat.mul_comm]
        omega
      · rw [Nat.mul_comm, Nat.mul_add]
        omega
    rw [hlast]

theorem next_block (cfg : Config) (off : ℕ) :
    (off + (cfg.blockSize - off % cfg.blockSize)) / cfg.blockSize = off / cfg.blockSize + 1 := by
  have hmod := Nat.mod_lt off cfg.blockSize_pos
  have hdiv := Nat.div_add_mod off cfg.blockSize
  have hend : off + (cfg.blockSize - off % cfg.blockSize) =
      cfg.blockSize * (off / cfg.blockSize + 1) := by
    rw [Nat.mul_add]
    omega
  rw [hend, Nat.mul_div_cancel_left _ cfg.blockSize_pos]

theorem indexRange_eq (hlen : 0 < len) :
    indexRange cfg off len = off / cfg.blockSize ::
      if len ≤ cfg.blockSize - off % cfg.blockSize then []
      else indexRange cfg (off + (cfg.blockSize - off % cfg.blockSize))
        (len - (cfg.blockSize - off % cfg.blockSize)) := by
  have hpos := cfg.blockSize_pos
  have hmod := Nat.mod_lt off hpos
  have hdiv := Nat.div_add_mod off cfg.blockSize
  have hend : cfg.blockSize * (off / cfg.blockSize + 1) =
      off + (cfg.blockSize - off % cfg.blockSize) := by
    rw [Nat.mul_add]
    omega
  rw [indexRange_of_pos hlen]
  split
  next hone =>
    have hlast : (off + len - 1) / cfg.blockSize = off / cfg.blockSize := by
      refine Nat.div_eq_of_lt_le ?_ ?_
      · rw [Nat.mul_comm]
        omega
      · rw [Nat.mul_comm, hend]
        omega
    rw [hlast, Nat.add_sub_cancel_left]
    rfl
  next hmore =>
    have hle : off / cfg.blockSize + 1 ≤ (off + len - 1) / cfg.blockSize := by
      rw [Nat.le_div_iff_mul_le hpos, Nat.mul_comm, hend]
      omega
    have hsame : off + (cfg.blockSize - off % cfg.blockSize) +
        (len - (cfg.blockSize - off % cfg.blockSize)) - 1 = off + len - 1 := by omega
    have hcount : (off + len - 1) / cfg.blockSize + 1 - off / cfg.blockSize =
        (off + len - 1) / cfg.blockSize + 1 - (off / cfg.blockSize + 1) + 1 := by omega
    rw [indexRange_of_pos (by omega), next_block, hsame, hcount, range'_succ]

def InRange (cfg : Config) (off len i : ℕ) : Prop :=
  off / cfg.blockSize ≤ i ∧ i * cfg.blockSize < off + len

structure StoredTo (cfg : Config) (st : Storage) (off len m : ℕ) : Prop where
  le : off / cfg.blockSize ≤ m
  stored : ∀ i, InRange cfg off len i → i < m → st.lookup i ≠ none
  absent : InRange cfg off len m → st.lookup m = none

def storedBytes (cfg : Config) (st : Storage) (off len m : ℕ) : List UInt8 :=
  Segment.read (storedByte cfg st) off (min (off + len) (max off (m * cfg.blockSize)) - off)

theorem inRange_first (cfg : Config) (off : ℕ) (hlen : 0 < len) : InRange cfg off len (off / cfg.blockSize) :=
  ⟨Nat.le_refl _, by have := Nat.div_mul_le_self off cfg.blockSize; omega⟩

theorem storedBytes_absent (hm : m = off / cfg.blockSize) : storedBytes cfg st off len m = [] := by
  have hle := Nat.div_mul_le_self off cfg.blockSize
  have hzero : min (off + len) (max off (m * cfg.blockSize)) - off = 0 := by
    rw [hm]
    omega
  rw [storedBytes, hzero, read_zero]

theorem storedBytes_last (hm : off / cfg.blockSize < m)
    (hlast : len ≤ cfg.blockSize - off % cfg.blockSize) :
    storedBytes cfg st off len m = Segment.read (storedByte cfg st) off len := by
  have hend := block_end cfg off
  have hle := Nat.mul_le_mul_right cfg.blockSize (Nat.succ_le_of_lt hm)
  have hall : min (off + len) (max off (m * cfg.blockSize)) - off = len := by
    rw [Nat.succ_eq_add_one] at hle
    omega
  rw [storedBytes, hall]

theorem storedBytes_next (hm : off / cfg.blockSize < m)
    (hmore : ¬len ≤ cfg.blockSize - off % cfg.blockSize) :
    storedBytes cfg st off len m =
      Segment.read (storedByte cfg st) off (cfg.blockSize - off % cfg.blockSize) ++
        storedBytes cfg st (off + (cfg.blockSize - off % cfg.blockSize))
          (len - (cfg.blockSize - off % cfg.blockSize)) m := by
  have hend := block_end cfg off
  have hmod := Nat.mod_lt off cfg.blockSize_pos
  have hle := Nat.mul_le_mul_right cfg.blockSize (Nat.succ_le_of_lt hm)
  have hstart : off + (cfg.blockSize - off % cfg.blockSize) ≤ m * cfg.blockSize := by
    rw [Nat.succ_eq_add_one] at hle
    omega
  have hrest : off + (cfg.blockSize - off % cfg.blockSize) +
      (len - (cfg.blockSize - off % cfg.blockSize)) = off + len := by omega
  have hmax : max off (m * cfg.blockSize) = m * cfg.blockSize :=
    Nat.max_eq_right (Nat.le_trans (Nat.le_add_right _ _) hstart)
  rw [storedBytes, storedBytes, ← read_add, hrest, hmax, Nat.max_eq_right hstart]
  congr 1
  omega

theorem InRange.of_next (h : InRange cfg (off + (cfg.blockSize - off % cfg.blockSize))
    (len - (cfg.blockSize - off % cfg.blockSize)) i)
    (hmore : ¬len ≤ cfg.blockSize - off % cfg.blockSize) :
    InRange cfg off len i ∧ off / cfg.blockSize + 1 ≤ i := by
  obtain ⟨h₁, h₂⟩ := h
  rw [next_block] at h₁
  exact ⟨⟨by omega, by omega⟩, h₁⟩

theorem StoredTo.next (h : StoredTo cfg st off len m) (hm : off / cfg.blockSize < m)
    (hmore : ¬len ≤ cfg.blockSize - off % cfg.blockSize) :
    StoredTo cfg st (off + (cfg.blockSize - off % cfg.blockSize))
      (len - (cfg.blockSize - off % cfg.blockSize)) m where
  le := by
    rw [next_block]
    exact hm
  stored i hi him := h.stored i (hi.of_next hmore).1 him
  absent hi := h.absent (hi.of_next hmore).1

def FreshTo (cfg : Config) (st : Storage) (off len m : ℕ) (r : Reader) : Prop :=
  ∀ i, InRange cfg off len i → i ≤ m → r.Fresh cfg st i

theorem FreshTo.next (h : FreshTo cfg st off len m r)
    (hmore : ¬len ≤ cfg.blockSize - off % cfg.blockSize) :
    FreshTo cfg st (off + (cfg.blockSize - off % cfg.blockSize))
      (len - (cfg.blockSize - off % cfg.blockSize)) m r :=
  fun i hi him => h i (hi.of_next hmore).1 him

theorem FreshTo.follows {r' : Reader} (h : FreshTo cfg st off len m r) (hf : Follows cfg st r r') :
    FreshTo cfg st off len m r' := fun i hi him => hf.fresh i (h i hi him)

theorem Fresh.blocks_none (h : r.Fresh cfg st i) (hst : st.lookup i = none) :
    r.blocks i = none := by
  cases hd : r.blocks i with
  | none => rfl
  | some d =>
    rw [h.1 d hd] at hst
    cases hst

theorem readBlock_eq {d : Data} (hd : st.lookup (off / cfg.blockSize) = some d) :
    readBlock cfg (off / cfg.blockSize) d off len =
      Segment.read (storedByte cfg st) off (min (cfg.blockSize - off % cfg.blockSize) len) := by
  rw [readBlock, if_neg (fun h => h rfl), read_stored hd (Nat.min_le_left _ _)]

def Gives (bytes : List UInt8) (f : Fetched) : Prop :=
  f.bytes = bytes ∧ (f.err = none ∨ f.err = some .eof)

theorem range_induction (cfg : Config) {motive : ℕ → ℕ → Prop}
    (step : ∀ off len, (¬len ≤ cfg.blockSize - off % cfg.blockSize →
        motive (off + (cfg.blockSize - off % cfg.blockSize))
          (len - (cfg.blockSize - off % cfg.blockSize))) → motive off len)
    (off len : ℕ) : motive off len := by
  induction len using Nat.strong_induction_on generalizing off with
  | _ len ih =>
    refine step off len fun hmore => ih _ ?_ _
    have := Nat.mod_lt off cfg.blockSize_pos
    omega

theorem readBlocks_stored {acquire : ℕ → Bool} {is : List ℕ} (h : r.swapfile.ReadOnly cfg)
    (hfresh : r.Fresh cfg st (off / cfg.blockSize)) (hst : st.lookup (off / cfg.blockSize) ≠ none)
    (hacquire : r.blocks (off / cfg.blockSize) = none → acquire (off / cfg.blockSize) = true) :
    ∃ r', Follows cfg st r r' ∧ (∀ j, r'.blocks j = none → r.blocks j = none) ∧
      readBlocks cfg acquire st (off / cfg.blockSize :: is) off len r =
        let bytes := Segment.read (storedByte cfg st) off (min (cfg.blockSize - off % cfg.blockSize) len)
        let f := readBlocks cfg acquire st is (off + bytes.length) (len - bytes.length) r'
        { f with bytes := bytes ++ f.bytes } := by
  rw [readBlocks]
  cases hd : r.blocks (off / cfg.blockSize) with
  | some d =>
    refine ⟨r, .refl h, fun _ hj => hj, ?_⟩
    dsimp only
    rw [readBlock_eq (hfresh.1 d hd)]
  | none =>
    obtain ⟨d, hd'⟩ := ne_none_iff_exists'.mp hst
    refine ⟨_, .cache h hd', ?_, ?_⟩
    · intro j hj
      dsimp only at hj
      by_cases hji : j = off / cfg.blockSize
      · rw [hji]
        exact hd
      · rwa [update_of_ne hji] at hj
    · dsimp only
      rw [if_pos (hacquire hd), hd']
      dsimp only
      rw [readBlock_eq hd']

theorem readBlocks_gives (acquire : ℕ → Bool) (hlen : 0 < len) (hro : r.swapfile.ReadOnly cfg)
    (hto : StoredTo cfg st off len m) (hfresh : FreshTo cfg st off len m r)
    (hacquire : ∀ i, InRange cfg off len i → i < m → r.blocks i = none → acquire i = true) :
    Gives (storedBytes cfg st off len m)
      (readBlocks cfg acquire st (indexRange cfg off len) off len r) := by
  induction off, len using range_induction cfg generalizing r with
  | step off len ih =>
    have hin := inRange_first cfg off hlen
    rw [indexRange_eq hlen]
    rcases Nat.lt_or_eq_of_le hto.le with hm | hm
    · obtain ⟨r', hr', hblocks, heq⟩ := readBlocks_stored hro (hfresh _ hin hto.le)
        (hto.stored _ hin hm) (hacquire _ hin hm)
      rw [heq]
      split
      next hlast =>
        rw [storedBytes_last hm hlast, Nat.min_eq_right hlast]
        dsimp only
        rw [length_read, Nat.sub_self, readBlocks]
        exact ⟨append_nil _, .inl rfl⟩
      next hmore =>
        rw [storedBytes_next hm hmore, Nat.min_eq_left (Nat.le_of_not_le hmore)]
        dsimp only
        rw [length_read]
        obtain ⟨hbytes, herr⟩ := ih hmore (Nat.sub_pos_of_lt (Nat.lt_of_not_le hmore)) hr'.readOnly
          (hto.next hm hmore) ((hfresh.follows hr').next hmore)
          fun i hi him hnone => hacquire i (hi.of_next hmore).1 him (hblocks i hnone)
        exact ⟨congrArg _ hbytes, herr⟩
    · -- the first block is not stored, so it is not in the cache either
      have hst := hto.absent (hm ▸ hin)
      rw [← hm] at hst
      rw [readBlocks, (hfresh _ hin hto.le).blocks_none hst, hst, storedBytes_absent hm.symm]
      dsimp only
      split
      · exact ⟨rfl, .inr rfl⟩
      · exact ⟨rfl, .inl rfl⟩

theorem readFromLocal_stored (pages : ℕ → PageEnv) {is : List ℕ} {acc : List UInt8}
    (hfresh : r.Fresh cfg st (off / cfg.blockSize)) (hst : st.lookup (off / cfg.blockSize) ≠ none) :
    readFromLocal cfg pages (off / cfg.blockSize :: is) off len acc r st = some ⟨[], none, r, st⟩ ∨
      ∃ err, (err = none ∨ err = some .eof) ∧
        readFromLocal cfg pages (off / cfg.blockSize :: is) off len acc r st =
          let bytes := Segment.read (storedByte cfg st) off (min (cfg.blockSize - off % cfg.blockSize) len)
          if len ≤ bytes.length then some ⟨acc ++ bytes, err, r, st⟩
          else readFromLocal cfg pages is (off + bytes.length) (len - bytes.length) (acc ++ bytes) r st := by
  rw [readFromLocal]
  cases hd : r.blocks (off / cfg.blockSize) with
  | some d =>
    refine .inr ⟨none, .inl rfl, ?_⟩
    dsimp only
    rw [readBlock_eq (hfresh.1 d hd)]
  | none =>
    cases hid : r.swapfile.lookup (off / cfg.blockSize) with
    | none => exact .inl rfl
    | some id =>
      obtain ⟨d, hd'⟩ := ne_none_iff_exists'.mp hst
      have hcopies := hfresh.2 id hid
      rw [hd'] at hcopies
      obtain ⟨err, herr, hread⟩ := readAt_copy pages hcopies hd' rfl
      refine .inr ⟨err, herr, ?_⟩
      dsimp only
      rw [hread, bind_some]
      dsimp only
      rw [if_neg]
      rcases herr with rfl | rfl <;> exact fun h => by cases h

theorem readFromLocal_gives (pages : ℕ → PageEnv) (acc : List UInt8) (hlen : 0 < len)
    (hto : StoredTo cfg st off len m) (hfresh : FreshTo cfg st off len m r) :
    ∃ f, readFromLocal cfg pages (indexRange cfg off len) off len acc r st = some f ∧
      (Gives [] f ∨ Gives (acc ++ storedBytes cfg st off len m) f) := by
  induction off, len using range_induction cfg generalizing acc with
  | step off len ih =>
    have hin := inRange_first cfg off hlen
    rw [indexRange_eq hlen]
    rcases Nat.lt_or_eq_of_le hto.le with hm | hm
    · rcases readFromLocal_stored pages (hfresh _ hin hto.le) (hto.stored _ hin hm) with
        hnone | ⟨err, herr, heq⟩
      · exact ⟨_, hnone, .inl ⟨rfl, .inl rfl⟩⟩
      rw [heq]
      split
      next hlast =>
        dsimp only
        rw [storedBytes_last hm hlast, Nat.min_eq_right hlast, if_pos (by rw [length_read])]
        exact ⟨_, rfl, .inr ⟨rfl, herr⟩⟩
      next hmore =>
        dsimp only
        rw [storedBytes_next hm hmore, Nat.min_eq_left (Nat.le_of_not_le hmore),
          if_neg (by rwa [length_read]), length_read, ← append_assoc]
        exact ih hmore _ (Nat.sub_pos_of_lt (Nat.lt_of_not_le hmore)) (hto.next hm hmore)
          (hfresh.next hmore)
    · have hst := hto.absent (hm ▸ hin)
      rw [← hm] at hst
      rw [readFromLocal, (hfresh _ hin hto.le).blocks_none hst, storedBytes_absent hm.symm,
        append_nil]
      cases hid : r.swapfile.lookup (off / cfg.blockSize) with
      | none => exact ⟨_, rfl, .inl ⟨rfl, .inl rfl⟩⟩
      | some id =>
        have hcopies := (hfresh _ hin hto.le).2 id hid
        rw [hst] at hcopies
        dsimp only
        rw [readAt_missing pages hcopies rfl, bind_some]
        exact ⟨_, rfl, .inr ⟨rfl, .inr rfl⟩⟩

theorem readFromRemote_gives (pages : ℕ → PageEnv) {bound : ℕ} (hpages : ∀ x < bound, pages x = none)
    (his : ∀ i ∈ indexRange cfg off len, (i + 1) * cfg.blockSize ≤ bound) (acc : List UInt8)
    (hlen : 0 < len) (hro : r.swapfile.ReadOnly cfg) (hto : StoredTo cfg st off len m)
    (hfresh : FreshTo cfg st off len m r) :
    ∃ f, readFromRemote cfg pages (indexRange cfg off len) off len acc r st = some f ∧
      Gives (acc ++ storedBytes cfg st off len m) f := by
  induction off, len using range_induction cfg generalizing acc r with
  | step off len ih =>
    have hin := inRange_first cfg off hlen
    rw [indexRange_eq hlen] at his ⊢
    rw [readFromRemote]
    obtain ⟨id, sf, hb, hid, hfollows⟩ := swapBlock_eq st pages hro (off / cfg.blockSize)
      fun x hx => hpages x (Nat.lt_of_lt_of_le hx (his _ (mem_cons_self ..)))
    have hcopies := (hfollows.fresh _ (hfresh _ hin hto.le)).2 id hid
    dsimp only
    rw [hb]
    dsimp only
    rcases Nat.lt_or_eq_of_le hto.le with hm | hm
    · obtain ⟨d, hd⟩ := ne_none_iff_exists'.mp (hto.stored _ hin hm)
      rw [hd] at hcopies
      obtain ⟨err, herr, hread⟩ := readAt_copy pages hcopies hd rfl
      rw [hread, bind_some]
      dsimp only
      rw [if_neg (by rcases herr with rfl | rfl <;> exact fun h => by cases h)]
      split
      next hlast =>
        rw [storedBytes_last hm hlast, Nat.min_eq_right hlast, length_read, Nat.sub_self, readFromRemote]
        exact ⟨_, rfl, rfl, .inl rfl⟩
      next hmore =>
        rw [if_neg hmore] at his
        rw [storedBytes_next hm hmore, Nat.min_eq_left (Nat.le_of_not_le hmore), length_read,
          ← append_assoc]
        exact ih hmore (fun i hi => his i (mem_cons_of_mem _ hi)) _
          (Nat.sub_pos_of_lt (Nat.lt_of_not_le hmore)) hfollows.readOnly (hto.next hm hmore)
          ((hfresh.follows hfollows).next hmore)
    · have hst := hto.absent (hm ▸ hin)
      rw [← hm] at hst
      rw [hst] at hcopies
      rw [readAt_missing pages hcopies rfl, bind_some, storedBytes_absent hm.symm]
      exact ⟨_, rfl, rfl, .inr rfl⟩

theorem indexRange_bound (hlen : 0 < len) (hi : i ∈ indexRange cfg off len) :
    (i + 1) * cfg.blockSize ≤ off + len + cfg.blockSize := by
  rw [indexRange_of_pos hlen, mem_range'_1] at hi
  have hle : i ≤ (off + len - 1) / cfg.blockSize := by omega
  have := (Nat.le_div_iff_mul_le cfg.blockSize_pos).mp hle
  rw [Nat.add_mul]
  omega

theorem read_follows {env : ReadEnv} (hlen : 0 < len) (hro : r.swapfile.ReadOnly cfg)
    (hpages : ∀ x < off + len + cfg.blockSize, env.pages x = none)
    (hf : r.read cfg env off len st = some f) : f.storage = st ∧ Follows cfg st r f.reader := by
  have hmonitor : Follows cfg st r (r.monitor off len) := ⟨hro, fun _ h => h⟩
  rw [Reader.read] at hf
  split at hf
  · obtain ⟨f', hlocal, hf⟩ := bind_eq_some_iff.mp hf
    obtain ⟨hst, hreader⟩ := readFromLocal_follows env.pages hmonitor.readOnly _ _ _ _ hlocal
    split at hf
    · cases hf
      rw [hreader]
      exact ⟨hst, hmonitor⟩
    rw [hst, hreader] at hf
    obtain ⟨hst', hfollows⟩ := readFromRemote_follows env.pages hpages _
      (fun i hi => indexRange_bound hlen hi) _ _ _ _ hmonitor.readOnly hf
    exact ⟨hst', hmonitor.trans hfollows⟩
  · cases hf
    obtain ⟨hst, hfollows⟩ := readBlocks_follows env.acquire (indexRange cfg off len) off len
      (r.monitor off len) hro
    exact ⟨hst, hmonitor.trans hfollows⟩

def Served (cfg : Config) (env : ReadEnv) (off len m : ℕ) (r : Reader) : Prop :=
  ((r.monitor off len).isSequentialMode = false ∧ env.full) ∨
    ∀ i, InRange cfg off len i → i < m → r.blocks i = none → env.acquire i = true

theorem read_gives {env : ReadEnv} (hlen : 0 < len) (hro : r.swapfile.ReadOnly cfg)
    (hpages : ∀ x < off + len + cfg.blockSize, env.pages x = none) (hto : StoredTo cfg st off len m)
    (hfresh : FreshTo cfg st off len m r) (hserved : r.Served cfg env off len m) :
    ∃ f, r.read cfg env off len st = some f ∧ Gives (storedBytes cfg st off len m) f := by
  have hmonitor : FreshTo cfg st off len m (r.monitor off len) := hfresh
  have hro : (r.monitor off len).swapfile.ReadOnly cfg := hro
  rw [Reader.read]
  split
  · obtain ⟨f, hlocal, hgives⟩ := readFromLocal_gives env.pages [] hlen hto hmonitor
    obtain ⟨hst, hreader⟩ := readFromLocal_follows env.pages hro _ _ _ _ hlocal
    rw [hlocal, bind_some]
    split
    next hne =>
      rcases hgives with hnil | hgives
      · exact absurd hnil.1 hne
      · exact ⟨f, rfl, hgives⟩
    · rw [hst, hreader]
      exact readFromRemote_gives env.pages hpages (fun i hi => indexRange_bound hlen hi) [] hlen hro
        hto hmonitor
  next hpath =>
    exact ⟨_, rfl, readBlocks_gives env.acquire hlen hro hto hmonitor (hserved.resolve_left hpath)⟩

end Bytes

end Reader

end HugoFS.Vfs.Buffer
