import HugoFS.Lib.FiniteMap
import HugoFS.Vfs.Buffer.Pipeline

/-!
# What the storage holds

The pipeline under the same conditions. At each offset the storage has the byte it should have:
the last one accepted, else the one it had initially, else zero, unless a block holds it that
was not uploaded yet.
-/

namespace HugoFS.Vfs.Buffer

open Spans Segment Finmap Function Runs Option MemBlock UploadPipeline

namespace UploadPipeline

def expected (cfg : Config) (st : Storage) (last : ℕ → Option UInt8) (i o : ℕ) : UInt8 :=
  (last (i * cfg.blockSize + o)).getD (((st.lookup i).map fun d => d o).getD 0)

structure Waiting (cfg : Config) (last : ℕ → Option UInt8) (up : UploadPipeline) (u : Upload)
    (b : MemBlock) : Prop where
  flushed : u.flushed = false
  released : u.released = false
  records : b.Records cfg.blockSize fun o => last (u.idx * cfg.blockSize + o)
  unsent : b.flushed = false
  written : b.written ≠ 0
  alone : up.writeBlocks.lookup u.idx = none
  uploads : b.Uploads cfg.blockSize (up.storage.lookup u.idx)

theorem Waiting.congr {cfg : Config} {last : ℕ → Option UInt8} {up up' : UploadPipeline} {u : Upload}
    {b : MemBlock} (h : Waiting cfg last up u b) (hwrites : up'.writeBlocks = up.writeBlocks)
    (hst : up'.storage.lookup u.idx = up.storage.lookup u.idx) : Waiting cfg last up' u b where
  __ := h
  alone := by rw [hwrites]; exact h.alone
  uploads := by rw [hst]; exact h.uploads

def Sealed (up : UploadPipeline) (i o : ℕ) : Prop :=
  ∃ id u b, up.uploads id = some u ∧ u.idx = i ∧ u.block = .mem b ∧ b.flushed = false ∧
    Covers b.interval.items o

def Written (up : UploadPipeline) (i o : ℕ) : Prop :=
  ∃ b, up.writeBlocks.lookup i = some b ∧ Covers b.interval.items o

structure Flushes (cfg : Config) (init : Storage) (flushing : Bool) (last : ℕ → Option UInt8)
    (up : UploadPipeline) : Prop where
  noSwap : ∀ i, up.swapFile.lookup i = none
  dying : up.swapFile.dying = []
  records : ∀ i b, up.writeBlocks.lookup i = some b →
    b.Records cfg.blockSize fun o => last (i * cfg.blockSize + o)
  written : ∀ i b, up.writeBlocks.lookup i = some b → b.flushed = false → b.written ≠ 0
  sent : ∀ i b, up.writeBlocks.lookup i = some b → b.flushed = true →
    ∃ d, up.storage.lookup i = some d ∧ ∀ o, Covers b.interval.items o → d o = b.data o
  uploads : ∀ id u, up.uploads id = some u → ∃ b, u.block = .mem b ∧
    (b.flushed = true ∧ up.storage.lookup u.idx ≠ none ∨
      flushing = true ∧ Waiting cfg last up u b)
  single : ∀ id u b id' u' b', up.uploads id = some u → up.uploads id' = some u' →
    u.block = .mem b → u'.block = .mem b' → b.flushed = false → b'.flushed = false →
    u.idx = u'.idx → id = id'
  numbered : ∀ id u, up.uploads id = some u → id < up.nextUpload
  indexed : ∀ i id, up.sealedBlocks i = some id → ∃ u, up.uploads id = some u ∧ u.idx = i
  stored : ∀ i d o, up.storage.lookup i = some d → o < cfg.blockSize → ¬up.Written i o →
    ¬up.Sealed i o → d o = expected cfg init last i o
  absent : ∀ i, up.storage.lookup i = none → init.lookup i = none ∧
    ∀ o < cfg.blockSize, last (i * cfg.blockSize + o) ≠ none → up.Written i o ∨ up.Sealed i o

section Flushes

variable {cfg : Config} {init st : Storage} {fl : Bool} {last last' : ℕ → Option UInt8}
  {up : UploadPipeline} {i o : ℕ} {b : MemBlock}
variable {u : Upload} {id : ℕ} {out : Outcome}

theorem flushes_new (st : Storage) : Flushes cfg st false (fun _ => none) (new st) where
  noSwap _ := rfl
  dying := rfl
  records i b hb := by cases hb
  written i b hb := by cases hb
  sent i b hb := by cases hb
  uploads id u hu := by cases hu
  single id u b id' u' b' hu := by cases hu
  numbered id u hu := by cases hu
  indexed i id h := by cases h
  stored i d o hd _ _ _ := by
    have hd : st.lookup i = some d := hd
    rw [expected, hd]
    rfl
  absent i hi := ⟨hi, fun o _ hne => absurd rfl hne⟩

section

variable (h : Flushes cfg init fl last up)
include h

theorem Flushes.inMemory : up.InMemory := by
  intro id u hu
  obtain ⟨b, hb, -⟩ := h.uploads id u hu
  exact ⟨b, hb⟩

omit h in
theorem Flushes.not_sealed (h : Flushes cfg init false last up) (i o : ℕ) : ¬up.Sealed i o := by
  rintro ⟨id, u, b, hu, -, hb, hunsent, -⟩
  obtain ⟨b', hb', ⟨hsent, -⟩ | ⟨hfl, -⟩⟩ := h.uploads id u hu
  · obtain rfl : b = b' := by
      rw [hb] at hb'
      cases hb'
      rfl
    rw [hunsent] at hsent
    cases hsent
  · cases hfl

omit h in
theorem expected_of_records (h : b.Records cfg.blockSize fun o => last (i * cfg.blockSize + o))
    (ho : Covers b.interval.items o) : b.data o = expected cfg init last i o := by
  rw [expected, h.bytes o ho]
  rfl

theorem Flushes.getD_lookup (ho : o < cfg.blockSize) (hw : ¬up.Written i o) (hs : ¬up.Sealed i o) :
    ((up.storage.lookup i).map fun d => d o).getD 0 = expected cfg init last i o := by
  cases hst : up.storage.lookup i with
  | some d => exact h.stored i d o hst ho hw hs
  | none =>
    -- nothing was stored there and nothing was written
    obtain ⟨hinit, hcovers⟩ := h.absent i hst
    have hlast : last (i * cfg.blockSize + o) = none := by
      by_contra hne
      exact (hcovers o ho hne).elim hw hs
    rw [expected, hlast, hinit]
    rfl

omit h in
theorem Flushes.insert (h : Flushes cfg init false last up)
    (hrec : b.Records cfg.blockSize fun o => last' (i * cfg.blockSize + o))
    (hwritten : b.flushed = false → b.written ≠ 0)
    (hsent : b.flushed = true →
      ∃ d, st.lookup i = some d ∧ ∀ o, Covers b.interval.items o → d o = b.data o)
    (hothers : ∀ j ≠ i, ∀ o < cfg.blockSize,
      last' (j * cfg.blockSize + o) = last (j * cfg.blockSize + o))
    (hst : ∀ j ≠ i, st.lookup j = up.storage.lookup j)
    (hkeep : up.storage.lookup i ≠ none → st.lookup i ≠ none)
    (hstored : ∀ d o, st.lookup i = some d → o < cfg.blockSize → ¬Covers b.interval.items o →
      d o = expected cfg init last' i o)
    (habsent : st.lookup i = none → init.lookup i = none ∧
      ∀ o < cfg.blockSize, last' (i * cfg.blockSize + o) ≠ none → Covers b.interval.items o) :
    Flushes cfg init false last' { up with writeBlocks := up.writeBlocks.insert i b, storage := st } := by
  refine ⟨h.noSwap, h.dying, ?_, ?_, ?_, ?_, h.single, h.numbered, h.indexed, ?_, ?_⟩
  · intro j c hc
    obtain ⟨rfl, rfl⟩ | ⟨hj, hc⟩ := lookup_insert_eq_some hc
    · exact hrec
    · exact (h.records j c hc).congr fun o ho => hothers j hj o ho
  · intro j c hc
    obtain ⟨rfl, rfl⟩ | ⟨-, hc⟩ := lookup_insert_eq_some hc
    · exact hwritten
    · exact h.written j c hc
  · intro j c hc
    obtain ⟨rfl, rfl⟩ | ⟨hj, hc⟩ := lookup_insert_eq_some hc
    · exact hsent
    intro hfl
    obtain ⟨d, hd, hdo⟩ := h.sent j c hc hfl
    exact ⟨d, (hst j hj).trans hd, hdo⟩
  · intro id u hu
    obtain ⟨c, hc, ⟨hfl, hsome⟩ | ⟨hfl, -⟩⟩ := h.uploads id u hu
    · refine ⟨c, hc, .inl ⟨hfl, ?_⟩⟩
      by_cases hj : u.idx = i
      · rw [hj] at hsome ⊢
        exact hkeep hsome
      · change st.lookup u.idx ≠ none
        rwa [hst _ hj]
    · cases hfl
  · intro j d o hd ho hw hs
    by_cases hj : j = i
    · subst hj
      exact hstored d o hd ho fun hcov => hw ⟨b, lookup_insert _, hcov⟩
    have hd : up.storage.lookup j = some d := (hst j hj).symm.trans hd
    rw [expected, hothers j hj o ho]
    refine h.stored j d o hd ho (fun hw' => hw ?_) hs
    obtain ⟨c, hc, hcov⟩ := hw'
    exact ⟨c, by rwa [lookup_insert_of_ne _ hj], hcov⟩
  · intro j hd
    by_cases hj : j = i
    · subst hj
      obtain ⟨hinit, hcov⟩ := habsent hd
      exact ⟨hinit, fun o ho hne => .inl ⟨b, lookup_insert _, hcov o ho hne⟩⟩
    obtain ⟨hinit, hcov⟩ := h.absent j ((hst j hj).symm.trans hd)
    refine ⟨hinit, fun o ho hne => ?_⟩
    rw [hothers j hj o ho] at hne
    obtain ⟨c, hc, hcov⟩ | hs := hcov o ho hne
    · exact .inl ⟨c, by rwa [lookup_insert_of_ne _ hj], hcov⟩
    · exact .inr hs

omit h in
theorem Flushes.insert_sent (h : Flushes cfg init false last up)
    (hrec : b.Records cfg.blockSize fun o => last' (i * cfg.blockSize + o))
    (hothers : ∀ j ≠ i, ∀ o < cfg.blockSize,
      last' (j * cfg.blockSize + o) = last (j * cfg.blockSize + o))
    (hold : ∀ o < cfg.blockSize, ¬Covers b.interval.items o →
      ((up.storage.lookup i).map fun d => d o).getD 0 = expected cfg init last' i o)
    (hup : b.Uploads cfg.blockSize (up.storage.lookup i)) :
    Flushes cfg init false last' (up.sent cfg i b) := by
  refine h.insert hrec.sent (fun hfl => by cases hfl) (fun _ => ?_) hothers
    (fun j hj => lookup_insert_of_ne _ hj) (fun _ => ?_) ?_ ?_
  · refine ⟨_, lookup_insert _, fun o ho => ?_⟩
    exact uploaded_of_covers hrec hup ((covers_sent hrec o).mp ho)
  · rw [lookup_insert]
    exact some_ne_none _
  · intro d o hd ho hcov
    rw [lookup_insert] at hd
    obtain rfl := some.inj hd
    rw [covers_sent hrec] at hcov
    rw [uploaded_of_not_covers hrec ho hcov]
    exact hold o ho hcov
  · intro hd
    rw [lookup_insert] at hd
    cases hd

section

variable (hb : up.writeBlocks.lookup i = some b)
include hb

theorem Flushes.idx_ne_of_unsent {c : MemBlock} (hu : up.uploads id = some u)
    (hc : u.block = .mem c) (hunsent : c.flushed = false) :
    u.idx ≠ i := by
  intro hidx
  obtain ⟨c', hc', ⟨hsent, -⟩ | ⟨-, hw⟩⟩ := h.uploads id u hu
  · rw [hc] at hc'
    cases hc'
    rw [hunsent] at hsent
    cases hsent
  have := hw.alone
  rw [hidx, hb] at this
  cases this

theorem Flushes.written_or_sealed {j : ℕ} (hold : up.Written j o ∨ up.Sealed j o) :
    (j = i ∧ b.flushed = true ∧ Covers b.interval.items o) ∨
    Written { up with writeBlocks := up.writeBlocks.erase i } j o ∨
    Sealed { up with uploads := up.sealedUploads i (.mem b) } j o := by
  obtain ⟨c, hc, hcov⟩ | ⟨id, u, c, hu, hidx, hc, hunsent, hcov⟩ := hold
  · by_cases hj : j = i
    · subst hj
      obtain rfl := some.inj (hb.symm.trans hc)
      cases hfl : b.flushed with
      | true => exact .inl ⟨rfl, rfl, hcov⟩
      | false =>
        exact .inr (.inr ⟨up.nextUpload, _, b, update_self _ _ _, rfl, rfl, hfl, hcov⟩)
    · exact .inr (.inl ⟨c, by rwa [lookup_erase_ne hj], hcov⟩)
  · obtain ⟨u', hu', hidx', hblock, -⟩ :=
      sealedUploads_old i (.mem b) hu (Nat.ne_of_lt (h.numbered id u hu))
    exact .inr (.inr ⟨id, u', c, hu', hidx'.trans hidx, hblock.trans hc, hunsent, hcov⟩)

section

variable (hcase : b.flushed = true ∨ fl = true ∧ b.Uploads cfg.blockSize (up.storage.lookup i))
include hcase

theorem Flushes.sealed_new {up' : UploadPipeline} (hidx : u.idx = i) (hflushed : u.flushed = false)
    (hreleased : u.released = false) (hwrites : up'.writeBlocks.lookup i = none)
    (hst : up'.storage = up.storage) :
    b.flushed = true ∧ up'.storage.lookup u.idx ≠ none ∨ fl = true ∧ Waiting cfg last up' u b := by
  subst hidx
  cases hfl : b.flushed with
  | true =>
    obtain ⟨d, hd, -⟩ := h.sent u.idx b hb hfl
    refine .inl ⟨rfl, ?_⟩
    rw [hst, hd]
    exact some_ne_none d
  | false =>
    obtain hfl' | ⟨hfl', hup⟩ := hcase
    · cases hfl.symm.trans hfl'
    · exact .inr ⟨hfl', hflushed, hreleased, h.records u.idx b hb, hfl, h.written u.idx b hb hfl,
        hwrites, hst ▸ hup⟩

theorem Flushes.move2Sealed :
    Flushes cfg init fl last (up.move2Sealed cfg (.mem b) i out) := by
  rw [move2Sealed_eq h.inMemory]
  have herase : ∀ j c, (up.writeBlocks.erase i).lookup j = some c →
      up.writeBlocks.lookup j = some c := fun j c hc => (lookup_erase_eq_some hc).2
  refine ⟨h.noSwap, h.dying, ?_, ?_, ?_, ?_, ?_, ?_, ?_, ?_, ?_⟩
  · intro j c hc
    exact h.records j c (herase j c hc)
  · intro j c hc
    exact h.written j c (herase j c hc)
  · intro j c hc
    exact h.sent j c (herase j c hc)
  · intro id u hu
    obtain ⟨-, rfl⟩ | ⟨u', hu', hidx, hblock, hflushed, hreleased⟩ := sealedUploads_cases hu
    · exact ⟨b, rfl, h.sealed_new hb hcase rfl rfl rfl (lookup_erase _ _) rfl⟩
    obtain ⟨c, hc, hsent | ⟨hfl, hw⟩⟩ := h.uploads id u' hu'
    · exact ⟨c, hblock ▸ hc, .inl (by rwa [hidx] at hsent)⟩
    have hne := h.idx_ne_of_unsent hb hu' hc hw.unsent
    refine ⟨c, hblock ▸ hc, .inr ⟨hfl, hflushed ▸ hw.flushed, ?_, hidx ▸ hw.records, hw.unsent,
      hw.written, ?_, hidx ▸ hw.uploads⟩⟩
    · obtain hsame | hold := hreleased
      · rw [hsame]
        exact hw.released
      obtain ⟨u'', hu'', hi⟩ := h.indexed i id hold
      obtain rfl := some.inj (hu'.symm.trans hu'')
      exact absurd hi hne
    · rw [hidx] at hne
      change (up.writeBlocks.erase i).lookup u.idx = none
      rw [lookup_erase_ne hne, ← hidx]
      exact hw.alone
  · intro id u c id' u' c' hu hu' hc hc' hunsent hunsent' hidx
    obtain ⟨hid, rfl⟩ | ⟨v, hv, hvi, hvb, -⟩ := sealedUploads_cases hu
    · obtain ⟨hid', -⟩ | ⟨v', hv', hvi', hvb', -⟩ := sealedUploads_cases hu'
      · exact hid.trans hid'.symm
      · exact absurd (hvi'.trans hidx.symm) (h.idx_ne_of_unsent hb hv' (hvb'.trans hc') hunsent')
    obtain ⟨-, rfl⟩ | ⟨v', hv', hvi', hvb', -⟩ := sealedUploads_cases hu'
    · exact absurd (hvi.trans hidx) (h.idx_ne_of_unsent hb hv (hvb.trans hc) hunsent)
    · exact h.single id v c id' v' c' hv hv' (hvb.trans hc) (hvb'.trans hc') hunsent hunsent'
        (hvi.trans (hidx.trans hvi'.symm))
  · intro id u hu
    change id < up.nextUpload + 1
    obtain ⟨hid, -⟩ | ⟨v, hv, -⟩ := sealedUploads_cases hu
    · omega
    · have := h.numbered id v hv
      omega
  · intro j id hid
    obtain ⟨hj, hid⟩ | ⟨-, hid⟩ := update_eq_some hid
    · obtain rfl := some.inj hid
      exact ⟨_, update_self _ _ _, hj.symm⟩
    obtain ⟨u, hu, hidx⟩ := h.indexed j id hid
    obtain ⟨u', hu', hidx', -⟩ :=
      sealedUploads_old i (.mem b) hu (Nat.ne_of_lt (h.numbered id u hu))
    exact ⟨u', hu', hidx'.trans hidx⟩
  · intro j d o hd ho hw hs
    by_cases hold : up.Written j o ∨ up.Sealed j o
    · obtain ⟨rfl, hfl, hcov⟩ | hw' | hs' := h.written_or_sealed hb hold
      · obtain ⟨d', hd', hdo⟩ := h.sent j b hb hfl
        obtain rfl := some.inj (hd'.symm.trans hd)
        rw [hdo o hcov]
        exact expected_of_records (h.records j b hb) hcov
      · exact absurd hw' hw
      · exact absurd hs' hs
    · rw [not_or] at hold
      exact h.stored j d o hd ho hold.1 hold.2
  · intro j hd
    obtain ⟨hinit, hcov⟩ := h.absent j hd
    refine ⟨hinit, fun o ho hne => ?_⟩
    obtain ⟨rfl, hfl, -⟩ | hrest := h.written_or_sealed hb (hcov o ho hne)
    · obtain ⟨d, hd', -⟩ := h.sent j b hb hfl
      cases hd.symm.trans hd'
    · exact hrest

end

end

end

structure UploadTable (up : UploadPipeline) : Prop where
  single : ∀ id u b id' u' b', up.uploads id = some u → up.uploads id' = some u' →
    u.block = .mem b → u'.block = .mem b' → b.flushed = false → b'.flushed = false →
    u.idx = u'.idx → id = id'
  numbered : ∀ id u, up.uploads id = some u → id < up.nextUpload
  indexed : ∀ i id, up.sealedBlocks i = some id → ∃ u, up.uploads id = some u ∧ u.idx = i

section

variable (h : Flushes cfg init fl last up)
include h

theorem Flushes.table : UploadTable up :=
  ⟨h.single, h.numbered, h.indexed⟩

omit h in
theorem UploadTable.replace (h : UploadTable up) (hu : up.uploads id = some u) (u' : Upload)
    (hidx : u'.idx = u.idx) (hb : u'.block = .mem b) (hsent : b.flushed = true) (st : Storage) :
    UploadTable { up with uploads := update up.uploads id (some u'), storage := st } := by
  -- an upload that waits is an old one
  have hold : ∀ {j w c}, update up.uploads id (some u') j = some w → w.block = .mem c →
      c.flushed = false → up.uploads j = some w := by
    intro j w c hw hc hunsent
    obtain ⟨-, hw⟩ | ⟨-, hw⟩ := update_eq_some hw
    · cases hw
      rw [hb] at hc
      cases hc
      cases hsent.symm.trans hunsent
    · exact hw
  constructor
  · intro j w c j' w' c' hw hw' hc hc' hunsent hunsent'
    exact h.single j w c j' w' c' (hold hw hc hunsent) (hold hw' hc' hunsent') hc hc' hunsent hunsent'
  · intro j w hw
    obtain ⟨rfl, -⟩ | ⟨-, hw⟩ := update_eq_some hw
    · exact h.numbered j u hu
    · exact h.numbered j w hw
  · intro j k hk
    obtain ⟨w, hw, hj⟩ := h.indexed j k hk
    by_cases hkid : k = id
    · subst hkid
      obtain rfl := some.inj (hu.symm.trans hw)
      exact ⟨u', update_self _ _ _, hidx.trans hj⟩
    · exact ⟨w, (update_of_ne hkid _ _).trans hw, hj⟩

section

variable (hu : up.uploads id = some u)
include hu

theorem Flushes.mark (hb : u.block = .mem b) (hsent : b.flushed = true) :
    Flushes cfg init fl last { up with
      uploads := update up.uploads id (some { u with block := .mem b, flushed := true }) } := by
  have hsome : up.storage.lookup u.idx ≠ none := by
    obtain ⟨c, hc, ⟨-, hsome⟩ | ⟨-, hw⟩⟩ := h.uploads id u hu
    · exact hsome
    rw [hb] at hc
    cases hc
    cases hsent.symm.trans hw.unsent
  -- the new entry differs from the old one in the mark only
  have hconv : ∀ j w, up.uploads j = some w → ∃ w',
      update up.uploads id (some { u with block := .mem b, flushed := true }) j = some w' ∧
        w'.idx = w.idx ∧ w'.block = w.block := by
    intro j w hw
    by_cases hj : j = id
    · subst hj
      obtain rfl := some.inj (hu.symm.trans hw)
      exact ⟨_, update_self _ _ _, rfl, hb.symm⟩
    · exact ⟨w, by rwa [update_of_ne hj], rfl, rfl⟩
  have hsealed : ∀ j o, up.Sealed j o → Sealed { up with
      uploads := update up.uploads id (some { u with block := .mem b, flushed := true }) } j o := by
    rintro j o ⟨k, w, c, hw, hidx, hc, hrest⟩
    obtain ⟨w', hw', hidx', hblock⟩ := hconv k w hw
    exact ⟨k, w', c, hw', hidx'.trans hidx, hblock.trans hc, hrest⟩
  have ht := h.table.replace hu { u with block := .mem b, flushed := true } rfl rfl hsent
    up.storage
  refine ⟨h.noSwap, h.dying, h.records, h.written, h.sent, ?_, ht.single, ht.numbered, ht.indexed,
    ?_, ?_⟩
  · intro j w hw
    obtain ⟨-, hw⟩ | ⟨-, hw⟩ := update_eq_some hw
    · cases hw
      exact ⟨b, rfl, .inl ⟨hsent, hsome⟩⟩
    obtain ⟨c, hc, hsent | ⟨hfl, hwait⟩⟩ := h.uploads j w hw
    · exact ⟨c, hc, .inl hsent⟩
    · exact ⟨c, hc, .inr ⟨hfl, hwait.congr rfl rfl⟩⟩
  · intro j d o hd ho hw hs
    exact h.stored j d o hd ho hw (mt (hsealed j o) hs)
  · intro j hd
    obtain ⟨hinit, hcov⟩ := h.absent j hd
    exact ⟨hinit, fun o ho hne => (hcov o ho hne).imp_right (hsealed j o)⟩

theorem Flushes.alone_of_waiting (hb : u.block = .mem b) (hw : Waiting cfg last up u b)
    (ho : ¬Covers b.interval.items o) : ¬up.Written u.idx o ∧ ¬up.Sealed u.idx o := by
  constructor
  · rintro ⟨c, hc, -⟩
    cases hw.alone.symm.trans hc
  · rintro ⟨j, w, c, hw', hidx, hc, hunsent, hcov⟩
    obtain rfl := h.single j w c id u b hw' hu hc hb hunsent hw.unsent hidx
    obtain rfl := some.inj (hu.symm.trans hw')
    rw [hb] at hc
    cases hc
    exact ho hcov

theorem Flushes.send (hb : u.block = .mem b) (hfl : fl = true) (hw : Waiting cfg last up u b) :
    Flushes cfg init fl last { up with
      uploads := update up.uploads id (some { u with block := .mem b.sent, flushed := true })
      storage := up.storage.insert u.idx (b.uploaded cfg.blockSize (up.storage.lookup u.idx)) } := by
  have hother : ∀ j w, j ≠ id → up.uploads j = some w →
      update up.uploads id (some { u with block := .mem b.sent, flushed := true }) j = some w := by
    intro j w hj hw
    rwa [update_of_ne hj]
  have hself : (up.storage.insert u.idx (b.uploaded cfg.blockSize (up.storage.lookup u.idx))).lookup u.idx =
      some (b.uploaded cfg.blockSize (up.storage.lookup u.idx)) := lookup_insert _
  have hst : ∀ j, j ≠ u.idx →
      (up.storage.insert u.idx (b.uploaded cfg.blockSize (up.storage.lookup u.idx))).lookup j =
        up.storage.lookup j := fun j hj => lookup_insert_of_ne _ hj
  have hkeep : ∀ j o, j ≠ u.idx → up.Sealed j o → Sealed { up with
      uploads := update up.uploads id (some { u with block := .mem b.sent, flushed := true })
      storage := up.storage.insert u.idx (b.uploaded cfg.blockSize (up.storage.lookup u.idx)) } j o := by
    rintro j o hj ⟨k, w, c, hw', hidx, hrest⟩
    have hk : k ≠ id := by
      rintro rfl
      obtain rfl := some.inj (hu.symm.trans hw')
      exact hj hidx.symm
    exact ⟨k, w, c, hother k w hk hw', hidx, hrest⟩
  have ht := h.table.replace hu { u with block := .mem b.sent, flushed := true } rfl rfl rfl
    (up.storage.insert u.idx (b.uploaded cfg.blockSize (up.storage.lookup u.idx)))
  refine ⟨h.noSwap, h.dying, h.records, h.written, ?_, ?_, ht.single, ht.numbered, ht.indexed,
    ?_, ?_⟩
  · intro j c hc hsent
    have hj : j ≠ u.idx := by
      rintro rfl
      cases hw.alone.symm.trans hc
    obtain ⟨d, hd, hdo⟩ := h.sent j c hc hsent
    exact ⟨d, (hst j hj).trans hd, hdo⟩
  · intro j w hw'
    obtain ⟨-, hw'⟩ | ⟨hj, hw'⟩ := update_eq_some hw'
    · cases hw'
      refine ⟨b.sent, rfl, .inl ⟨rfl, ?_⟩⟩
      dsimp only
      rw [hself]
      exact some_ne_none _
    · obtain ⟨c, hc, ⟨hsent, hsome⟩ | ⟨-, hwait⟩⟩ := h.uploads j w hw'
      · refine ⟨c, hc, .inl ⟨hsent, ?_⟩⟩
        by_cases hidx : w.idx = u.idx
        · rw [hidx]
          dsimp only
          rw [hself]
          exact some_ne_none _
        · dsimp only
          rwa [hst _ hidx]
      · have hidx : w.idx ≠ u.idx := fun hidx =>
          hj (h.single j w c id u b hw' hu hc hb hwait.unsent hw.unsent hidx)
        exact ⟨c, hc, .inr ⟨hfl, hwait.congr rfl (hst _ hidx)⟩⟩
  · intro j d o hd ho hwr hs
    by_cases hj : j = u.idx
    · subst hj
      obtain rfl := some.inj (hself.symm.trans hd)
      by_cases hcov : Covers b.interval.items o
      · rw [uploaded_of_covers hw.records hw.uploads hcov]
        exact expected_of_records hw.records hcov
      obtain ⟨hnw, hns⟩ := h.alone_of_waiting hu hb hw hcov
      rw [uploaded_of_not_covers hw.records ho hcov]
      exact h.getD_lookup ho hnw hns
    · exact h.stored j d o ((hst j hj).symm.trans hd) ho hwr fun hs' => hs (hkeep j o hj hs')
  · intro j hd
    have hj : j ≠ u.idx := by
      rintro rfl
      cases hself.symm.trans hd
    obtain ⟨hinit, hcov⟩ := h.absent j ((hst j hj).symm.trans hd)
    exact ⟨hinit, fun o ho hne => (hcov o ho hne).imp_right (hkeep j o hj)⟩

omit hu in
theorem Flushes.upload (id : ℕ) :
    Flushes cfg init fl last (up.upload cfg id) := by
  rw [UploadPipeline.upload]
  cases hu : up.uploads id with
  | none => exact h
  | some u =>
    obtain ⟨b, hb, ⟨hsent, -⟩ | ⟨hfl, hw⟩⟩ := h.uploads id u hu
    · dsimp only
      rw [hb]
      dsimp only
      rw [doFlush_of_flushed hsent, ite_self]
      exact h.mark hu hb hsent
    · dsimp only
      rw [hb]
      dsimp only
      rw [if_neg (by rw [hw.released]; decide), doFlush_eq hw.records hw.unsent hw.written]
      exact h.send hu hb hfl hw

theorem Flushes.complete (hflushed : u.flushed = true) :
    Flushes cfg init fl last (up.complete cfg id out) := by
  rw [complete_eq h.inMemory hu]
  have hcases : ∀ j w, update up.uploads id none j = some w → j ≠ id ∧ up.uploads j = some w := by
    intro j w hw
    obtain ⟨-, hw⟩ | hw := update_eq_some hw
    · cases hw
    · exact hw
  -- the upload that ends has sent its block
  have hkeep : ∀ j o, up.Sealed j o → Sealed { up with
      sealedBlocks := update up.sealedBlocks u.idx none
      uploads := update up.uploads id none } j o := by
    rintro j o ⟨k, w, c, hw, hidx, hc, hunsent, hcov⟩
    have hk : k ≠ id := by
      rintro rfl
      obtain rfl := some.inj (hu.symm.trans hw)
      obtain ⟨c', hc', ⟨hsent, -⟩ | ⟨-, hwait⟩⟩ := h.uploads k u hu
      · rw [hc] at hc'
        cases hc'
        cases hunsent.symm.trans hsent
      · cases hflushed.symm.trans hwait.flushed
    exact ⟨k, w, c, (update_of_ne hk _ _).trans hw, hidx, hc, hunsent, hcov⟩
  refine ⟨h.noSwap, h.dying, h.records, h.written, h.sent, ?_, ?_, ?_, ?_, ?_, ?_⟩
  · intro j w hw
    obtain ⟨c, hc, hsent | ⟨hfl, hwait⟩⟩ := h.uploads j w (hcases j w hw).2
    · exact ⟨c, hc, .inl hsent⟩
    · exact ⟨c, hc, .inr ⟨hfl, hwait.congr rfl rfl⟩⟩
  · intro j w c j' w' c' hw hw'
    exact h.single j w c j' w' c' (hcases j w hw).2 (hcases j' w' hw').2
  · intro j w hw
    exact h.numbered j w (hcases j w hw).2
  · intro j k hk
    obtain ⟨-, hk⟩ | ⟨hj, hk⟩ := update_eq_some hk
    · cases hk
    obtain ⟨w, hw, hidx⟩ := h.indexed j k hk
    have hkid : k ≠ id := by
      rintro rfl
      obtain rfl := some.inj (hu.symm.trans hw)
      exact hj hidx.symm
    exact ⟨w, (update_of_ne hkid _ _).trans hw, hidx⟩
  · intro j d o hd ho hw hs
    exact h.stored j d o hd ho hw fun hs' => hs (hkeep j o hs')
  · intro j hd
    obtain ⟨hinit, hcov⟩ := h.absent j hd
    exact ⟨hinit, fun o ho hne => (hcov o ho hne).imp_right (hkeep j o)⟩

end

omit h in
theorem Flushes.start (h : Flushes cfg init false last up) : Flushes cfg init true last up where
  __ := h
  uploads := fun id u hu => by
    obtain ⟨b, hb, hsent | ⟨hfl, -⟩⟩ := h.uploads id u hu
    · exact ⟨b, hb, .inl hsent⟩
    · cases hfl

theorem Flushes.finish
    (hall : ∀ id u, up.uploads id = some u → u.flushed = true) : Flushes cfg init false last up where
  __ := h
  uploads := fun id u hu => by
    obtain ⟨b, hb, hsent | ⟨-, hw⟩⟩ := h.uploads id u hu
    · exact ⟨b, hb, .inl hsent⟩
    · cases hw.flushed.symm.trans (hall id u hu)

theorem Flushes.readAt_up {pages : ℕ → PageEnv} {off len : ℕ}
    {r : Reply} (hr : up.readAt cfg pages off len = some r) : r.up = up := by
  have hmem : ∀ b r, up.readHeld cfg pages off len (.mem b) = some r → r.up = up := by
    intro b r hr
    rw [readHeld] at hr
    split at hr <;> cases hr <;> rfl
  rw [readAt] at hr
  obtain ⟨r', hfirst, hr⟩ := bind_eq_some_iff.mp hr
  have hup : r'.up = up := by
    split at hfirst
    next u hu =>
      obtain ⟨id, -, hu⟩ := bind_eq_some_iff.mp hu
      obtain ⟨b, hb, -⟩ := h.uploads id u hu
      rw [hb] at hfirst
      exact hmem b r' hfirst
    · cases hfirst
      rfl
  split at hr
  · cases hr
    exact hup
  rw [hup, dirty, h.noSwap] at hr
  cases hw : up.writeBlocks.lookup (off / cfg.blockSize) with
  | none =>
    rw [hw] at hr
    cases hr
    exact hup
  | some b =>
    rw [hw] at hr
    exact hmem b r hr

end

end Flushes

/-! ### Rounds of a write -/

def SendsAll (cfg : Config) (b : MemBlock) (off : ℕ) (p : List UInt8) (old : Option Data) : Prop :=
  b.written + room cfg off p < cfg.blockSize ∨ old.isNone ∨
    max b.highOff (off % cfg.blockSize + room cfg off p) < cfg.blockSize ∨
    ∀ o < cfg.blockSize, Covers b.interval.items o ∨
      off % cfg.blockSize ≤ o ∧ o < off % cfg.blockSize + room cfg off p

instance (cfg : Config) (b : MemBlock) (off : ℕ) (p : List UInt8) (old : Option Data) :
    Decidable (SendsAll cfg b off p old) :=
  inferInstanceAs (Decidable (_ ∨ _ ∨ _ ∨ ∀ o < cfg.blockSize, _))

def RoundFlushes (cfg : Config) (off : ℕ) (p : List UInt8) (up : UploadPipeline) : Prop :=
  match up.writeBlocks.lookup (off / cfg.blockSize) with
  | some b => b.flushed = false ∧ SendsAll cfg b off p (up.storage.lookup (off / cfg.blockSize))
  | none => up.writeBlocks.keys.card < cfg.limit ∧
      SendsAll cfg .new off p (up.storage.lookup (off / cfg.blockSize))

instance (cfg : Config) (off : ℕ) (p : List UInt8) (up : UploadPipeline) :
    Decidable (up.RoundFlushes cfg off p) := by
  unfold RoundFlushes
  split <;> infer_instance

section Round

variable {cfg : Config} {init : Storage} {last : ℕ → Option UInt8} {up : UploadPipeline} {b : MemBlock}
  {off : ℕ} {p : List UInt8} {out : Outcome}

theorem written_filled : (filled cfg b off p).written = b.written + room cfg off p := by
  rw [filled, put, length_take_room]

theorem SendsAll.uploads {old : Option Data} (h : SendsAll cfg b off p old)
    (hrec : b.Records cfg.blockSize last) (hb : b.flushed = false) (hp : p ≠ [])
    (hfilled : Within 0 (filled cfg b off p).interval.items cfg.blockSize)
    (hw : cfg.blockSize ≤ (filled cfg b off p).written) :
    (filled cfg b off p).Uploads cfg.blockSize old := by
  rw [written_filled] at hw
  obtain hfew | hnone | hhigh | hall := h
  · omega
  · exact .inl (isNone_iff_eq_none.mp hnone)
  · refine .inr (.inr ?_)
    rw [filled, put, length_take_room]
    exact hhigh
  · refine .inr (.inl ?_)
    have htotal := hfilled.total_of_covers fun o _ ho => by
      rw [filled, covers_put hrec hb (take_room_ne_nil hp), length_take_room]
      exact (hall o ho).symm
    rwa [Nat.sub_zero] at htotal

theorem Flushes.writeMem (h : Flushes cfg init false last up) (hb : b.flushed = false) (hp : p ≠ [])
    (hblock : up.writeBlocks.lookup (off / cfg.blockSize) = some b ∨
      up.writeBlocks.lookup (off / cfg.blockSize) = none ∧ b = .new)
    (hall : SendsAll cfg b off p (up.storage.lookup (off / cfg.blockSize))) :
    Flushes cfg init false (accepted last off (room cfg off p) p)
      (up.writeMem cfg b off p .ok out).up := by
  generalize hi : off / cfg.blockSize = i at hblock hall
  have hrec : b.Records cfg.blockSize fun o => last (i * cfg.blockSize + o) := by
    obtain hb | ⟨-, rfl⟩ := hblock
    · exact h.records i b hb
    · exact records_new _
  have hrec' := filled_records (by rwa [hi]) hb hp
  rw [hi] at hrec'
  have hothers := accepted_others hi last p
  -- an offset outside the block is held by no other one
  have hfree : ∀ o, ¬Covers (filled cfg b off p).interval.items o →
      ¬up.Written i o ∧ accepted last off (room cfg off p) p (i * cfg.blockSize + o) =
        last (i * cfg.blockSize + o) := by
    intro o ho
    obtain ⟨hcov, hsame⟩ := not_covers_filled hrec hb hp ho last
    rw [hi] at hsame
    refine ⟨?_, hsame⟩
    rintro ⟨c, hc, hcov'⟩
    obtain hb' | ⟨hnone, -⟩ := hblock
    · obtain rfl := some.inj (hb'.symm.trans hc)
      exact hcov hcov'
    · cases hnone.symm.trans hc
  -- what the storage held there is what it should hold
  have hold : ∀ o < cfg.blockSize, ¬Covers (filled cfg b off p).interval.items o →
      ((up.storage.lookup i).map fun r => r o).getD 0 =
        expected cfg init (accepted last off (room cfg off p) p) i o := by
    intro o ho hcov
    obtain ⟨hnw, hsame⟩ := hfree o hcov
    rw [expected, hsame]
    exact h.getD_lookup ho hnw (h.not_sealed i o)
  have hsent := h.insert_sent hrec' hothers hold
  obtain he | ⟨hw, he⟩ | ⟨hfull, he⟩ := writeMem_cases hrec hb hp
  · rw [he, hi]
    refine h.insert hrec' (fun _ => ?_) (fun hfl => ?_) hothers (fun _ _ => rfl) id ?_ ?_
    · have hpos : 0 < room cfg off p := room_pos hp
      rw [written_filled]
      omega
    · cases (show (filled cfg b off p).flushed = false from hb).symm.trans hfl
    · intro d o hd ho hcov
      rw [← hold o ho hcov, hd]
      rfl
    · intro hd
      obtain ⟨hinit, hcovers⟩ := h.absent i hd
      refine ⟨hinit, fun o ho hne => ?_⟩
      by_contra hcov
      obtain ⟨hnw, hsame⟩ := hfree o hcov
      rw [hsame] at hne
      exact (hcovers o ho hne).elim hnw (h.not_sealed i o)
  · rw [he, hi]
    exact hsent (hall.uploads hrec hb hp hrec'.within hw)
  · rw [he, hi]
    exact (hsent (.inr (.inl hfull))).move2Sealed (lookup_insert _) (.inl rfl)

theorem RoundFlushes.writeRound_eq (env : ℕ → PageEnv) (hsafe : up.RoundFlushes cfg off p)
    (hswap : ∀ i, up.swapFile.lookup i = none) :
    ∃ b, (up.writeBlocks.lookup (off / cfg.blockSize) = some b ∨
        up.writeBlocks.lookup (off / cfg.blockSize) = none ∧ b = .new) ∧
      b.flushed = false ∧ SendsAll cfg b off p (up.storage.lookup (off / cfg.blockSize)) ∧
      up.writeRound cfg env off p .ok out = some (up.writeMem cfg b off p .ok out) := by
  rw [RoundFlushes] at hsafe
  rw [writeRound, target]
  cases hb : up.writeBlocks.lookup (off / cfg.blockSize) with
  | some b =>
    rw [hb] at hsafe
    exact ⟨b, .inl rfl, hsafe.1, hsafe.2, rfl⟩
  | none =>
    rw [hb] at hsafe
    dsimp only at hsafe ⊢
    rw [hswap]
    dsimp only
    rw [if_neg (lt_asymm hsafe.1), if_pos hsafe.1]
    exact ⟨.new, .inr ⟨rfl, rfl⟩, rfl, hsafe.2, rfl⟩

end Round

end UploadPipeline

end HugoFS.Vfs.Buffer
