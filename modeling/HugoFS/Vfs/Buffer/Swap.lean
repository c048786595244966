import HugoFS.Lib.SortedMap
import HugoFS.Vfs.Buffer.Block

/-!
# Blocks in the swap file

`FileBlock` and `SwapFile`. The bytes of a block lie in pages of one temporary file, whose number
is limited by a context that other files share. When it is exhausted the blocks with the
largest pages are dropped from the lookup table, and destroyed some time later.
-/

namespace HugoFS.Vfs.Buffer

open Spans Segment Function Option List IntervalList

structure FilePage where
  offsetInFile : ℕ
  size : ℕ

inductive BlockErr
  | notFound
  | destroyed
deriving DecidableEq

inductive ReadErr
  | eof
  | notFound
  | invalidOffset
deriving DecidableEq

structure FileBlock where
  idx : ℕ
  highOff : ℕ
  written : ℕ
  pages : SortedMap ℕ FilePage
  interval : IntervalList
  flushed : Bool
  err : Option BlockErr
  closed : Bool

/-- The swap file. Blocks are numbered as they are made; `order` is the slice that is
sorted for an eviction, and `dying` lists the blocks whose `Destroy` was started. -/
structure SwapFile where
  file : ℕ → UInt8
  length : ℕ
  blocks : ℕ → Option FileBlock
  nextId : ℕ
  order : List ℕ
  lookup : ℕ → Option ℕ
  freePages : List ℕ
  size : ℕ
  dying : List ℕ

/-- What `OccupyPage` meets: a page context that is not full, or a full one and the blocks whose
`Destroy` ends while it waits, with the answers of the storage to their uploads. -/
abbrev PageEnv := Option (List (ℕ × Outcome))

namespace FileBlock

def new (idx : ℕ) : FileBlock := ⟨idx, 0, 0, .empty, .empty, false, none, false⟩

def totalWritten (b : FileBlock) : ℕ := (b.pages.entries.map fun e => e.2.size).sum

def isFull (size : ℕ) (b : FileBlock) : Bool := b.interval.total = size

end FileBlock

namespace SwapFile

def empty : SwapFile := ⟨fun _ => 0, 0, fun _ => none, 0, [], fun _ => none, [], 0, []⟩

def newFileBlock (idx : ℕ) (sf : SwapFile) : ℕ × SwapFile :=
  (sf.nextId,
    { sf with
      blocks := Function.update sf.blocks sf.nextId (some (.new idx))
      nextId := sf.nextId + 1
      order := sf.order ++ [sf.nextId]
      lookup := Function.update sf.lookup idx (some sf.nextId) })

def setBlock (id : ℕ) (b : FileBlock) (sf : SwapFile) : SwapFile :=
  { sf with blocks := Function.update sf.blocks id (some b) }

def writeFile (pos : ℕ) (p : List UInt8) (sf : SwapFile) : SwapFile :=
  { sf with file := splice sf.file pos p, length := max sf.length (pos + p.length) }

def readFile (sf : SwapFile) (pos n : ℕ) : List UInt8 × Bool :=
  (read sf.file pos (min n (sf.length - pos)), decide (sf.length - pos < n))

def readPage (sf : SwapFile) (pg : FilePage) (off len : ℕ) : Option (List UInt8 × Bool) :=
  if pg.size < off then none
  else some (sf.readFile (pg.offsetInFile + off) (min (pg.size - off) len))

/-! ### Uploading and destroying -/

def gather (sf : SwapFile) (size : ℕ) : List (ℕ × FilePage) → List UInt8 → List UInt8
  | [], acc => acc
  | (_, pg) :: pages, acc =>
    let r := sf.readFile pg.offsetInFile (min pg.size (size - acc.length))
    if r.2 ∨ r.1 = [] then acc else gather sf size pages (acc ++ r.1)

/-- Uploads the block, as that of a block in memory. The pages are put one after the other. -/
def doFlush (cfg : Config) (id : ℕ) (b : FileBlock) (s : SwapFile × Storage)
    (out : Outcome := .ok) : SwapFile × Storage :=
  if b.flushed ∨ b.written = 0 then (s.1.setBlock id b, s.2)
  else
    let buffer := s.1.gather cfg.blockSize b.pages.entries []
    (s.1.setBlock id (if out.fails cfg.blockSize b.interval.merge then
        { b with interval := b.interval.merge }
      else { b with interval := b.interval.merge, flushed := true, written := 0 }),
      s.2.upload cfg.blockSize b.idx b.interval.merge (fun o => (buffer[o]?).getD 0) out)

def flush (cfg : Config) (id : ℕ) (s : SwapFile × Storage) (out : Outcome := .ok) :
    SwapFile × Storage :=
  match s.1.blocks id with
  | none => s
  | some b => doFlush cfg id b s out

def freePage (cfg : Config) (sf : SwapFile) (pg : FilePage) : SwapFile :=
  { sf.writeFile pg.offsetInFile (List.replicate cfg.pageSize 0) with
    freePages := pg.offsetInFile :: sf.freePages }

/-- `Destroy` frees the pages of the block, also if its upload fails. -/
def destroy (cfg : Config) (id : ℕ) (s : SwapFile × Storage) (out : Outcome := .ok) :
    SwapFile × Storage :=
  match s.1.blocks id with
  | none => s
  | some b =>
    if b.closed then s
    else
      let s := doFlush cfg id b s out
      let sf := (b.pages.entries.map fun e => e.2).foldl (freePage cfg) s.1
      ({ sf with
          blocks := fun i => if i = id then (sf.blocks id).map fun b =>
              { b with pages := .empty, err := some .destroyed, closed := true }
            else sf.blocks i
          dying := sf.dying.erase id }, s.2)

/-! ### Taking a page -/

/-- The blocks, those with the largest pages first. -/
def sorted (sf : SwapFile) : List ℕ :=
  let total id := ((sf.blocks id).map FileBlock.totalWritten).getD 0
  sf.order.insertionSort fun a b => total b ≤ total a

def victims (sf : SwapFile) : List ℕ := sf.sorted.take (sf.order.length / 10 + 1)

def evict (sf : SwapFile) : SwapFile :=
  let idxs := sf.victims.filterMap fun id => (sf.blocks id).map FileBlock.idx
  { sf with
    order := sf.sorted
    lookup := fun i => if i ∈ idxs then none else sf.lookup i
    dying := sf.dying ++ sf.victims }

def occupyPage (cfg : Config) (env : PageEnv) (id : ℕ) (s : SwapFile × Storage) :
    SwapFile × Storage :=
  match env with
  | none => s
  | some done =>
    (done.filter fun d => d.1 ≠ id).foldl
      (fun s d => if d.1 ∈ s.1.dying then destroy cfg d.1 s d.2 else s) (s.1.evict, s.2)

def acquireOffset (cfg : Config) (sf : SwapFile) : ℕ × SwapFile :=
  match sf.freePages with
  | off :: rest => (off, { sf with freePages := rest })
  | [] => (sf.size, { sf with size := sf.size + cfg.pageSize })

def page (sf : SwapFile) (id k : ℕ) : Option FilePage := (sf.blocks id).bind fun b => b.pages.get k

def setPage (id k : ℕ) (pg : FilePage) (sf : SwapFile) : SwapFile :=
  { sf with blocks := fun i => if i = id then (sf.blocks id).map fun b =>
      { b with pages := b.pages.put k pg } else sf.blocks i }

def ensurePage (cfg : Config) (env : PageEnv) (id k : ℕ) (s : SwapFile × Storage) :
    FilePage × SwapFile × Storage :=
  match s.1.page id k with
  | some pg => (pg, s)
  | none =>
    let s := occupyPage cfg env id s
    let a := acquireOffset cfg s.1
    (⟨a.1, 0⟩, a.2, s.2)

def writePage (id k : ℕ) (pg : FilePage) (off : ℕ) (p : List UInt8) (sf : SwapFile) : SwapFile :=
  (sf.setPage id k ⟨pg.offsetInFile, pg.size + (p.length + off)⟩).writeFile
    (pg.offsetInFile + off) p

def storePage (cfg : Config) (env : PageEnv) (id off : ℕ) (q : List UInt8)
    (s : SwapFile × Storage) : SwapFile × Storage :=
  let r := ensurePage cfg env id (off / cfg.pageSize) s
  (r.2.1.writePage id (off / cfg.pageSize) r.1 (off % cfg.pageSize) q, r.2.2)

def writeToPage (cfg : Config) (env : ℕ → PageEnv) (id : ℕ) :
    ℕ → ℕ → List UInt8 → SwapFile × Storage → SwapFile × Storage
  | 0, _, _, s => s
  | fuel + 1, off, p, s =>
    if p = [] then s
    else
      let n := min p.length ((off / cfg.pageSize + 1) * cfg.pageSize - off)
      writeToPage cfg env id fuel (off + n) (p.drop n)
        (storePage cfg (env off) id off (p.take n) s)

/-- `WriteAt` of a block takes all of `p`, at an offset of the block. It takes the mark away unless
it goes on with a flush. -/
def writeAt (cfg : Config) (env : ℕ → PageEnv) (id off : ℕ) (p : List UInt8)
    (s : SwapFile × Storage) (out : Outcome := .ok) : SwapFile × Storage :=
  if (s.1.blocks id).any fun b => off / cfg.blockSize ≠ b.idx then s
  else
    let s := writeToPage cfg env id p.length off p s
    match s.1.blocks id with
    | none => s
    | some b =>
      let start := off % cfg.blockSize
      let end_ := min (start + p.length) cfg.blockSize
      let b := { b with
        interval := b.interval.addInterval start end_
        written := b.written + p.length
        highOff := max b.highOff end_ }
      if cfg.blockSize ≤ b.written then doFlush cfg id b s out
      else (s.1.setBlock id { b with flushed := false }, s.2)

/-! ### Reading -/

def doCache (cfg : Config) (env : ℕ → PageEnv) (id : ℕ) (s : SwapFile × Storage) :
    SwapFile × Storage :=
  match s.1.blocks id with
  | none => s
  | some b =>
    match s.2.lookup b.idx with
    | none => (s.1.setBlock id { b with flushed := true, err := some .notFound }, s.2)
    | some d =>
      let cleared := if b.err = some .destroyed then none else b.err
      writeToPage cfg env id cfg.blockSize (b.idx * cfg.blockSize) (read d 0 cfg.blockSize)
        (s.1.setBlock id { b with flushed := true, err := cleared }, s.2)

def readPages (cfg : Config) (sf : SwapFile) (b : FileBlock) (limit : ℕ) :
    ℕ → ℕ → ℕ → Option (List UInt8 × Bool)
  | 0, _, _ => none
  | fuel + 1, off, len =>
    if len = 0 ∨ limit ≤ off then some ([], decide (0 < len))
    else
      let n := min (min (limit - off) len) (cfg.pageSize - off % cfg.pageSize)
      match b.pages.get (off / cfg.pageSize) with
      | none => (readPages cfg sf b limit fuel (off + n) (len - n)).map fun r =>
          (List.replicate n 0 ++ r.1, r.2)
      | some pg =>
        (sf.readPage pg (off % cfg.pageSize) n).bind fun x =>
          if x.2 then some (x.1, true)
          else if x.1 = [] then none
          else (readPages cfg sf b limit fuel (off + x.1.length) (len - x.1.length)).map fun r =>
            (x.1 ++ r.1, r.2)

structure Answer where
  bytes : List UInt8
  err : Option ReadErr
  state : SwapFile × Storage

def readAt (cfg : Config) (env : ℕ → PageEnv) (id off len : ℕ) (s : SwapFile × Storage) :
    Option Answer :=
  match s.1.blocks id with
  | none => none
  | some b =>
    if off / cfg.blockSize ≠ b.idx then some ⟨[], some .invalidOffset, s⟩
    else if b.err = some .notFound then some ⟨[], some .notFound, s⟩
    else
      let s := if b.err = some .destroyed then doCache cfg env id s else s
      match s.1.blocks id with
      | none => none
      | some b =>
        (readPages cfg s.1 b ((b.idx + 1) * cfg.blockSize) (len + 1) off len).map fun r =>
          ⟨r.1, if r.2 then some .eof else none, s⟩

/-! ### Pages without an eviction -/

def byte (cfg : Config) (sf : SwapFile) (id x : ℕ) : Option UInt8 :=
  (sf.page id (x / cfg.pageSize)).bind fun pg =>
    if x % cfg.pageSize < pg.size ∧ pg.offsetInFile + x % cfg.pageSize < sf.length then
      some (sf.file (pg.offsetInFile + x % cfg.pageSize))
    else none

structure Disjoint (cfg : Config) (sf : SwapFile) : Prop where
  free : sf.freePages = []
  size : cfg.pageSize ∣ sf.size
  aligned : ∀ id k pg, sf.page id k = some pg → cfg.pageSize ∣ pg.offsetInFile
  below : ∀ id k pg, sf.page id k = some pg → pg.offsetInFile < sf.size
  apart : ∀ id k pg id' k' pg', sf.page id k = some pg → sf.page id' k' = some pg' →
    pg.offsetInFile = pg'.offsetInFile → id = id' ∧ k = k'

theorem disjoint_empty (cfg : Config) : empty.Disjoint cfg where
  free := rfl
  size := Nat.dvd_zero _
  aligned _ _ _ h := by cases h
  below _ _ _ h := by cases h
  apart _ _ _ _ _ _ h := by cases h

structure Stores (cfg : Config) (id off : ℕ) (p : List UInt8) (sf sf' : SwapFile) : Prop where
  disjoint : sf'.Disjoint cfg
  lookup : sf'.lookup = sf.lookup
  nextId : sf'.nextId = sf.nextId
  order : sf'.order = sf.order
  dying : sf'.dying = sf.dying
  others : ∀ i, i ≠ id → sf'.blocks i = sf.blocks i
  own : ∀ b, sf.blocks id = some b → ∃ pages, sf'.blocks id = some { b with pages := pages }
  stored : ∀ x v, off ≤ x → p[x - off]? = some v → sf'.byte cfg id x = some v
  kept : ∀ i x v, sf.byte cfg i x = some v → ¬(i = id ∧ off ≤ x ∧ x < off + p.length) →
    sf'.byte cfg i x = some v

theorem Stores.refl {cfg : Config} {id off : ℕ} {sf : SwapFile} (h : sf.Disjoint cfg) :
    Stores cfg id off [] sf sf where
  disjoint := h
  lookup := rfl
  nextId := rfl
  order := rfl
  dying := rfl
  others _ _ := rfl
  own b hb := ⟨b.pages, hb⟩
  stored _ _ _ hv := by simp at hv
  kept _ _ _ hv _ := hv

variable {sf' : SwapFile}

theorem Stores.append {cfg : Config} {id off : ℕ} {p q : List UInt8} {sf sf'' : SwapFile}
    (h : Stores cfg id off p sf sf') (h' : Stores cfg id (off + p.length) q sf' sf'') :
    Stores cfg id off (p ++ q) sf sf'' where
  disjoint := h'.disjoint
  lookup := h'.lookup.trans h.lookup
  nextId := h'.nextId.trans h.nextId
  order := h'.order.trans h.order
  dying := h'.dying.trans h.dying
  others i hi := (h'.others i hi).trans (h.others i hi)
  own b hb := by
    obtain ⟨pages, hb'⟩ := h.own b hb
    exact h'.own { b with pages := pages } hb'
  stored x v hx hv := by
    by_cases hp : x < off + p.length
    · rw [getElem?_append_left (by omega)] at hv
      exact h'.kept id x v (h.stored x v hx hv) fun hin => by omega
    rw [getElem?_append_right (by omega), show x - off - p.length = x - (off + p.length) by omega]
      at hv
    exact h'.stored x v (by omega) hv
  kept i x v hv hout := by
    rw [length_append] at hout
    exact h'.kept i x v (h.kept i x v hv fun hin => hout ⟨hin.1, by omega, by omega⟩)
      fun hin => hout ⟨hin.1, by omega, by omega⟩

section Store

variable {cfg : Config} {id k off : ℕ} {b : FileBlock} {pg : FilePage} {q : List UInt8}
  {sf : SwapFile} {st : Storage}

theorem page_setPage (hb : sf.blocks id = some b) (i j : ℕ) :
    (sf.setPage id k pg).page i j = if i = id ∧ j = k then some pg else sf.page i j := by
  rw [page, page, setPage]
  dsimp only
  by_cases hi : i = id
  · subst hi
    rw [if_pos rfl, hb]
    simp
  · rw [if_neg hi, if_neg fun h => hi h.1]

theorem ne_of_pages {size a b u w : ℕ} (ha : size ∣ a) (hb : size ∣ b) (hab : a ≠ b) (hu : u < size)
    (hw : w < size) : a + u ≠ b + w := by
  obtain ⟨m, rfl⟩ := ha
  obtain ⟨n, rfl⟩ := hb
  intro h
  have hdiv : (size * m + u) / size = (size * n + w) / size := by rw [h]
  rw [Nat.mul_add_div (by omega), Nat.mul_add_div (by omega), Nat.div_eq_of_lt hu,
    Nat.div_eq_of_lt hw] at hdiv
  exact hab (by rw [show m = n by omega])

theorem page_writePage (hb : sf.blocks id = some b) (r : ℕ) (i j : ℕ) :
    (sf.writePage id k pg r q).page i j =
      if i = id ∧ j = k then some ⟨pg.offsetInFile, pg.size + (q.length + r)⟩ else sf.page i j :=
  page_setPage hb i j

theorem page_writePage_cases (hb : sf.blocks id = some b) {r i j : ℕ} {pg' : FilePage}
    (hp : (sf.writePage id k pg r q).page i j = some pg') :
    (i = id ∧ j = k ∧ pg'.offsetInFile = pg.offsetInFile) ∨ sf.page i j = some pg' := by
  rw [page_writePage hb] at hp
  split at hp
  next hij =>
    cases hp
    exact .inl ⟨hij.1, hij.2, rfl⟩
  · exact .inr hp

/-- Where the page `k` of the block lies, or is put: on the grid, and not where another one is. -/
structure Fits (cfg : Config) (sf : SwapFile) (id k : ℕ) (pg : FilePage) : Prop where
  aligned : cfg.pageSize ∣ pg.offsetInFile
  below : pg.offsetInFile < sf.size
  apart : ∀ i j pg', sf.page i j = some pg' → pg'.offsetInFile = pg.offsetInFile → i = id ∧ j = k

theorem Disjoint.writePage (h : sf.Disjoint cfg) (hb : sf.blocks id = some b) (r : ℕ)
    (hpg : sf.Fits cfg id k pg) : (sf.writePage id k pg r q).Disjoint cfg := by
  refine ⟨h.free, h.size, ?_, ?_, ?_⟩
  · intro i j pg' hp
    obtain ⟨-, -, ho⟩ | hp := page_writePage_cases hb hp
    · rw [ho]
      exact hpg.aligned
    · exact h.aligned i j pg' hp
  · intro i j pg' hp
    obtain ⟨-, -, ho⟩ | hp := page_writePage_cases hb hp
    · rw [ho]
      exact hpg.below
    · exact h.below i j pg' hp
  · intro i j pg₁ i' j' pg₂ h₁ h₂ heq
    obtain ⟨hi, hj, ho⟩ | old₁ := page_writePage_cases hb h₁
    · obtain ⟨hi', hj', -⟩ | old₂ := page_writePage_cases hb h₂
      · exact ⟨hi.trans hi'.symm, hj.trans hj'.symm⟩
      · obtain ⟨hi', hj'⟩ := hpg.apart i' j' pg₂ old₂ (heq.symm.trans ho)
        exact ⟨hi.trans hi'.symm, hj.trans hj'.symm⟩
    obtain ⟨hi', hj', ho⟩ | old₂ := page_writePage_cases hb h₂
    · obtain ⟨hi, hj⟩ := hpg.apart i j pg₁ old₁ (heq.trans ho)
      exact ⟨hi.trans hi'.symm, hj.trans hj'.symm⟩
    · exact h.apart i j pg₁ i' j' pg₂ old₁ old₂ heq

theorem Fits.splice_other (hpg : sf.Fits cfg id k pg) {r i j x : ℕ} {pg' : FilePage}
    (hlen : r + q.length ≤ cfg.pageSize) (h : sf.Disjoint cfg) (hp : sf.page i j = some pg')
    (hij : ¬(i = id ∧ j = k)) (hx : x < cfg.pageSize) :
    splice sf.file (pg.offsetInFile + r) q (pg'.offsetInFile + x) =
      sf.file (pg'.offsetInFile + x) := by
  refine splice_of_not_mem fun hin => ?_
  have hne : pg'.offsetInFile ≠ pg.offsetInFile := fun he => hij (hpg.apart i j pg' hp he)
  have := ne_of_pages (w := pg'.offsetInFile + x - pg.offsetInFile) (h.aligned i j pg' hp)
    hpg.aligned hne hx (by omega)
  omega

theorem byte_writePage_new (hb : sf.blocks id = some b)
    (hlen : off % cfg.pageSize + q.length ≤ cfg.pageSize) (hk : k = off / cfg.pageSize)
    {x : ℕ} {v : UInt8} (hx : off ≤ x) (hv : q[x - off]? = some v) :
    (sf.writePage id k pg (off % cfg.pageSize) q).byte cfg id x = some v := by
  have hoff : cfg.pageSize * k + off % cfg.pageSize = off := by rw [hk]; exact Nat.div_add_mod _ _
  have hlt : x - off < q.length := (List.getElem?_eq_some_iff.mp hv).1
  have hxk : x / cfg.pageSize = k := Nat.div_eq_of_lt_le
    (by rw [Nat.mul_comm]; omega) (by rw [Nat.mul_comm, Nat.mul_add]; omega)
  have hxmod : cfg.pageSize * k + x % cfg.pageSize = x := by rw [← hxk]; exact Nat.div_add_mod _ _
  have hat : pg.offsetInFile + x % cfg.pageSize =
      pg.offsetInFile + off % cfg.pageSize + (x - off) := by omega
  rw [byte, page_writePage hb, hxk, if_pos ⟨rfl, rfl⟩, bind_some, if_pos, hat]
  · have hin : splice sf.file (pg.offsetInFile + off % cfg.pageSize) q
        (pg.offsetInFile + off % cfg.pageSize + (x - off)) = v := by
      rw [splice, if_pos (Nat.le_add_right _ _), Nat.add_sub_cancel_left, hv]
      rfl
    exact congrArg some hin
  · refine ⟨by dsimp only; omega, ?_⟩
    change _ < max sf.length (pg.offsetInFile + off % cfg.pageSize + q.length)
    dsimp only
    omega

section

variable (h : sf.Disjoint cfg) (hb : sf.blocks id = some b)
  (hlen : off % cfg.pageSize + q.length ≤ cfg.pageSize) (hk : k = off / cfg.pageSize)
  (hpg : sf.Fits cfg id k pg) (hsame : ∀ pg', sf.page id k = some pg' → pg' = pg)
include h hb hlen hk hpg hsame

theorem byte_writePage_old {i x : ℕ} {v : UInt8} (hv : sf.byte cfg i x = some v)
    (hout : ¬(i = id ∧ off ≤ x ∧ x < off + q.length)) :
    (sf.writePage id k pg (off % cfg.pageSize) q).byte cfg i x = some v := by
  have hoff : cfg.pageSize * k + off % cfg.pageSize = off := by rw [hk]; exact Nat.div_add_mod _ _
  rw [byte, bind_eq_some_iff] at hv
  obtain ⟨pg', hp, hv⟩ := hv
  obtain ⟨hfits, hv⟩ := (ite_none_right_eq_some).mp hv
  have hmod : x % cfg.pageSize < cfg.pageSize := Nat.mod_lt x cfg.pageSize_pos
  have hkeep : splice sf.file (pg.offsetInFile + off % cfg.pageSize) q
      (pg'.offsetInFile + x % cfg.pageSize) = sf.file (pg'.offsetInFile + x % cfg.pageSize) := by
    by_cases hij : i = id ∧ x / cfg.pageSize = k
    · obtain ⟨rfl, hxk⟩ := hij
      rw [hxk] at hp
      obtain rfl := hsame pg' hp
      have hxmod : cfg.pageSize * k + x % cfg.pageSize = x := by
        rw [← hxk]
        exact Nat.div_add_mod _ _
      exact splice_of_not_mem fun hin => hout ⟨rfl, by omega, by omega⟩
    · exact hpg.splice_other hlen h hp hij hmod
  have hlength : pg'.offsetInFile + x % cfg.pageSize <
      (sf.writePage id k pg (off % cfg.pageSize) q).length :=
    Nat.lt_of_lt_of_le hfits.2 (Nat.le_max_left _ _)
  rw [byte, page_writePage hb]
  split
  next hij =>
    obtain ⟨rfl, hxk⟩ := hij
    rw [hxk] at hp
    obtain rfl := hsame pg' hp
    rw [bind_some, if_pos ⟨by dsimp only; omega, hlength⟩]
    exact (congrArg some hkeep).trans hv
  · rw [hp, bind_some, if_pos ⟨hfits.1, hlength⟩]
    exact (congrArg some hkeep).trans hv

theorem writePage_stores :
    Stores cfg id off q sf (sf.writePage id k pg (off % cfg.pageSize) q) where
  disjoint := h.writePage hb _ hpg
  lookup := rfl
  nextId := rfl
  order := rfl
  dying := rfl
  others i hi := if_neg hi
  own b' hb' :=
    ⟨_, by rw [writePage, writeFile, setPage]; exact (if_pos rfl).trans (by rw [hb']; rfl)⟩
  stored _ _ hx hv := byte_writePage_new hb hlen hk hx hv
  kept _ _ _ hv hout := byte_writePage_old h hb hlen hk hpg hsame hv hout

end

theorem Stores.of_grow {n : ℕ} (h : Stores cfg id off q { sf with size := n } sf') :
    Stores cfg id off q sf sf' :=
  ⟨h.disjoint, h.lookup, h.nextId, h.order, h.dying, h.others, h.own, h.stored, h.kept⟩

theorem storePage_cases (st : Storage) (h : sf.Disjoint cfg) (id off : ℕ) (q : List UInt8) :
    ∃ n pg, sf.size ≤ n ∧ Disjoint cfg { sf with size := n } ∧
      Fits cfg { sf with size := n } id (off / cfg.pageSize) pg ∧
      (sf.page id (off / cfg.pageSize) = some pg ∨
        sf.page id (off / cfg.pageSize) = none ∧ pg = ⟨sf.size, 0⟩) ∧
      storePage cfg none id off q (sf, st) =
        (({ sf with size := n } : SwapFile).writePage id (off / cfg.pageSize) pg
          (off % cfg.pageSize) q, st) := by
  rw [storePage, ensurePage]
  cases hp : sf.page id (off / cfg.pageSize) with
  | some pg =>
    refine ⟨sf.size, pg, Nat.le_refl _, h, ⟨h.aligned _ _ pg hp, h.below _ _ pg hp, ?_⟩, .inl rfl, rfl⟩
    exact fun i j pg' hp' he => h.apart i j pg' _ _ pg hp' hp he
  | none =>
    have hnew : acquireOffset cfg sf = (sf.size, { sf with size := sf.size + cfg.pageSize }) := by
      rw [acquireOffset, h.free]
    dsimp only [occupyPage]
    rw [hnew]
    refine ⟨_, ⟨sf.size, 0⟩, Nat.le_add_right _ _, ?_, ?_, .inr ⟨rfl, rfl⟩, rfl⟩
    · exact ⟨h.free, (Nat.dvd_add_right h.size).mpr (Nat.dvd_refl _), h.aligned,
        fun i j pg hp => Nat.lt_of_lt_of_le (h.below i j pg hp) (Nat.le_add_right _ _), h.apart⟩
    · exact ⟨h.size, Nat.lt_add_of_pos_right cfg.pageSize_pos,
        fun i j pg' hp' he => absurd he (Nat.ne_of_lt (h.below i j pg' hp'))⟩

theorem storePage_stores (st : Storage) (h : sf.Disjoint cfg) (hb : sf.blocks id = some b)
    (hlen : off % cfg.pageSize + q.length ≤ cfg.pageSize) :
    ∃ sf', storePage cfg none id off q (sf, st) = (sf', st) ∧ Stores cfg id off q sf sf' := by
  obtain ⟨n, pg, -, hn, hpg, hpage, heq⟩ := storePage_cases st h id off q
  refine ⟨_, heq, .of_grow (writePage_stores hn hb hlen rfl hpg fun pg' hp' => ?_)⟩
  obtain hpage | ⟨hpage, -⟩ := hpage
  · exact some.inj (hp'.symm.trans hpage)
  · cases hpage.symm.trans hp'

theorem writeToPage_rule (cfg : Config) (env : ℕ → PageEnv) (id : ℕ)
    {I : ℕ → List UInt8 → SwapFile × Storage → Prop} {fuel off : ℕ} {p : List UInt8}
    {s : SwapFile × Storage} (hfuel : p.length ≤ fuel) (h : I off p s)
    (hstep : ∀ off p n s, 0 < n → n ≤ p.length → off % cfg.pageSize + n ≤ cfg.pageSize →
      (n = p.length ∨ cfg.pageSize ∣ off + n) → I off p s →
      I (off + n) (p.drop n) (storePage cfg (env off) id off (p.take n) s)) :
    ∃ x, I x [] (writeToPage cfg env id fuel off p s) := by
  induction fuel generalizing off p s with
  | zero =>
    obtain rfl := length_eq_zero_iff.mp (Nat.le_zero.mp hfuel)
    exact ⟨off, h⟩
  | succ fuel ih =>
    rw [writeToPage]
    by_cases hp : p = []
    · subst hp
      exact ⟨off, by rwa [if_pos rfl]⟩
    have hpos := length_pos_iff.mpr hp
    have hmod := Nat.mod_lt off cfg.pageSize_pos
    -- the room on the page of `off`
    have hroom : (off / cfg.pageSize + 1) * cfg.pageSize - off =
        cfg.pageSize - off % cfg.pageSize := by
      have := Nat.div_add_mod off cfg.pageSize
      rw [Nat.add_mul, Nat.one_mul, Nat.mul_comm]
      omega
    have hend : cfg.pageSize ∣ off + (cfg.pageSize - off % cfg.pageSize) := by
      have := Nat.div_add_mod off cfg.pageSize
      exact ⟨off / cfg.pageSize + 1, by rw [Nat.mul_add]; omega⟩
    rw [if_neg hp, hroom]
    refine ih (by rw [length_drop]; omega) (hstep off p _ s (by omega) (by omega) (by omega) ?_ h)
    exact (Nat.le_total _ _).imp Nat.min_eq_left fun hle => by rwa [Nat.min_eq_right hle]

theorem writeToPage_stores (fuel : ℕ) (env : ℕ → PageEnv) (off : ℕ) (p : List UInt8)
    (henv : ∀ x < off + p.length, env x = none) (hfuel : p.length ≤ fuel) (sf : SwapFile)
    (h : sf.Disjoint cfg) (b : FileBlock) (hb : sf.blocks id = some b) :
    ∃ sf', writeToPage cfg env id fuel off p (sf, st) = (sf', st) ∧ Stores cfg id off p sf sf' := by
  -- what was stored so far, and what is left
  obtain ⟨-, q, sf', hq, -, heq, hst⟩ := writeToPage_rule cfg env id (s := (sf, st))
    (I := fun x r s => ∃ q sf', q ++ r = p ∧ x = off + q.length ∧ s = (sf', st) ∧
      Stores cfg id off q sf sf') hfuel ⟨[], sf, rfl, rfl, rfl, .refl h⟩ (by
    rintro x r n s hpos hn hfits - ⟨q, sf₁, rfl, rfl, rfl, hst⟩
    have hlen : (r.take n).length = n := by rw [length_take]; omega
    obtain ⟨pages, hb₁⟩ := hst.own b hb
    obtain ⟨sf₂, h₂, hst₂⟩ := storePage_stores st hst.disjoint hb₁ (by rwa [hlen])
    refine ⟨q ++ r.take n, sf₂, ?_, ?_, ?_, hst.append hst₂⟩
    · rw [append_assoc, take_append_drop]
    · rw [length_append, hlen, Nat.add_assoc]
    · rw [henv _ (by rw [length_append]; omega), h₂])
  rw [append_nil] at hq
  exact ⟨sf', heq, hq ▸ hst⟩

end Store

/-! ### Writing less than a block -/

structure Holds (cfg : Config) (sf : SwapFile) (i id : ℕ) (last : ℕ → Option UInt8)
    (b : FileBlock) : Prop where
  idx : b.idx = i
  proper : b.interval.Proper cfg.blockSize
  written : b.interval.total ≤ b.written
  small : b.written < cfg.blockSize
  flushed : b.flushed = false
  closed : b.closed = false
  bytes : ∀ o, Covers b.interval.items o → ∃ v, last o = some v ∧
    sf.byte cfg id (i * cfg.blockSize + o) = some v

section Hold

variable {cfg : Config} {i id off : ℕ} {b b' : FileBlock} {last : ℕ → Option UInt8} {p : List UInt8}
  {sf : SwapFile} {pages : SortedMap ℕ FilePage}

theorem page_setBlock (hb : sf.blocks id = some b) (hpages : b'.pages = b.pages) (j k : ℕ) :
    (sf.setBlock id b').page j k = sf.page j k := by
  rw [page, page, setBlock]
  dsimp only
  by_cases hj : j = id
  · subst hj
    rw [update_self, hb, bind_some, bind_some, hpages]
  · rw [update_of_ne hj]

theorem byte_setBlock (hb : sf.blocks id = some b) (hpages : b'.pages = b.pages) (j x : ℕ) :
    (sf.setBlock id b').byte cfg j x = sf.byte cfg j x := by
  rw [byte, byte, page_setBlock hb hpages]
  rfl

theorem Disjoint.of_pages (h : sf.Disjoint cfg)
    (hfree : sf'.freePages = sf.freePages) (hsize : sf'.size = sf.size)
    (hpage : ∀ j k, sf'.page j k = sf.page j k) : sf'.Disjoint cfg := by
  refine ⟨hfree.trans h.free, hsize ▸ h.size, ?_, ?_, ?_⟩
  · intro j k pg hp
    exact h.aligned j k pg (by rwa [hpage] at hp)
  · intro j k pg hp
    rw [hsize]
    exact h.below j k pg (by rwa [hpage] at hp)
  · intro j k pg j' k' pg' hp hp'
    exact h.apart j k pg j' k' pg' (by rwa [hpage] at hp) (by rwa [hpage] at hp')

theorem Disjoint.setBlock (h : sf.Disjoint cfg) (hb : sf.blocks id = some b)
    (hpages : b'.pages = b.pages) : (sf.setBlock id b').Disjoint cfg :=
  h.of_pages rfl rfl (page_setBlock hb hpages)

theorem page_newFileBlock (hnew : sf.blocks sf.nextId = none) (idx j k : ℕ) :
    (sf.newFileBlock idx).2.page j k = sf.page j k := by
  rw [page, page, newFileBlock]
  dsimp only
  by_cases hj : j = sf.nextId
  · rw [hj, update_self, hnew]
    rfl
  · rw [update_of_ne hj]

theorem byte_newFileBlock (hnew : sf.blocks sf.nextId = none) (idx j x : ℕ) :
    (sf.newFileBlock idx).2.byte cfg j x = sf.byte cfg j x := by
  rw [byte, byte, page_newFileBlock hnew]
  rfl

theorem Disjoint.newFileBlock (h : sf.Disjoint cfg) (hnew : sf.blocks sf.nextId = none) (idx : ℕ) :
    (sf.newFileBlock idx).2.Disjoint cfg :=
  h.of_pages rfl rfl (page_newFileBlock hnew idx)

def taken (b : FileBlock) (start n : ℕ) (pages : SortedMap ℕ FilePage) : FileBlock :=
  { b with
    pages := pages
    interval := b.interval.addInterval start (start + n)
    written := b.written + n
    highOff := max b.highOff (start + n)
    flushed := false }

theorem writeAt_eq (st : Storage) (env : ℕ → PageEnv) (henv : ∀ x < off + p.length, env x = none)
    (h : sf.Disjoint cfg) (hb : sf.blocks id = some b) (hidx : off / cfg.blockSize = b.idx)
    (hlen : off % cfg.blockSize + p.length ≤ cfg.blockSize)
    (hsmall : b.written + p.length < cfg.blockSize) :
    ∃ sf' pages, Stores cfg id off p sf sf' ∧ sf'.blocks id = some { b with pages := pages } ∧
      writeAt cfg env id off p (sf, st) =
        (sf'.setBlock id (taken b (off % cfg.blockSize) p.length pages), st) := by
  obtain ⟨sf', hw, hst⟩ := writeToPage_stores p.length env off p henv (Nat.le_refl _) sf h b hb
  obtain ⟨pages, hb'⟩ := hst.own b hb
  refine ⟨sf', pages, hst, hb', ?_⟩
  rw [writeAt, if_neg (by simp [hb, hidx]), hw]
  dsimp only
  rw [hb']
  dsimp only
  rw [if_neg (by omega), Nat.min_eq_left hlen]
  rfl

theorem holds_new (hpos : 0 < cfg.blockSize) (last : ℕ → Option UInt8) :
    Holds cfg sf i id last (.new i) where
  idx := rfl
  proper := proper_empty _
  written := Nat.le_refl 0
  small := hpos
  flushed := rfl
  closed := rfl
  bytes o ho := absurd ho (covers_nil o)

theorem Holds.taken (hh : Holds cfg sf i id last b) (hst : Stores cfg id off p sf sf')
    (hb' : sf'.blocks id = some { b with pages := pages }) (hi : off / cfg.blockSize = i)
    (hp : p ≠ []) (hlen : off % cfg.blockSize + p.length ≤ cfg.blockSize)
    (hsmall : b.written + p.length < cfg.blockSize) :
    Holds cfg (sf'.setBlock id (taken b (off % cfg.blockSize) p.length pages)) i id
      (splice last (off % cfg.blockSize) (p.map some))
      (taken b (off % cfg.blockSize) p.length pages) := by
  have hpos := length_pos_iff.mpr hp
  have hlt : off % cfg.blockSize < off % cfg.blockSize + p.length := by omega
  have hoff : i * cfg.blockSize + off % cfg.blockSize = off := by
    rw [← hi, Nat.mul_comm]
    exact Nat.div_add_mod _ _
  refine ⟨hh.idx, hh.proper.addInterval hlt hlen, ?_, hsmall, rfl, hh.closed, ?_⟩
  · have := total_addInterval_le hh.proper hlt
    have := hh.written
    change (b.interval.addInterval _ _).total ≤ b.written + p.length
    omega
  · intro o ho
    have hpages : (SwapFile.taken b (off % cfg.blockSize) p.length pages).pages = pages := rfl
    rw [byte_setBlock hb' hpages]
    by_cases hin : off % cfg.blockSize ≤ o ∧ o < off % cfg.blockSize + p.length
    · obtain ⟨v, hv⟩ : ∃ v, p[o - off % cfg.blockSize]? = some v :=
        ⟨_, getElem?_eq_getElem (by omega)⟩
      refine ⟨v, ?_, hst.stored _ v (by omega) ?_⟩
      · rw [splice, if_pos hin.1, getElem?_map, hv]
        rfl
      · rw [show i * cfg.blockSize + o - off = o - off % cfg.blockSize by omega]
        exact hv
    · have hcov := ((covers_addInterval hh.proper hlt o).mp ho).resolve_left hin
      obtain ⟨v, hv, hbyte⟩ := hh.bytes o hcov
      refine ⟨v, ?_, hst.kept id _ v hbyte fun hx => hin ⟨by omega, by omega⟩⟩
      rwa [splice_of_not_mem (by rwa [length_map])]

theorem Holds.congr (hh : Holds cfg sf i id last b) {last' : ℕ → Option UInt8}
    (hlast : ∀ o < cfg.blockSize, last' o = last o) : Holds cfg sf i id last' b where
  __ := hh
  bytes := by
    intro o ho
    obtain ⟨v, hv, hbyte⟩ := hh.bytes o ho
    exact ⟨v, (hlast o (hh.proper.within.covers ho).2).trans hv, hbyte⟩

theorem Holds.kept (hh : Holds cfg sf i id last b) {j : ℕ}
    (hst : Stores cfg j off p sf sf') {c c' : FileBlock}
    (hc : sf'.blocks j = some { c with pages := pages }) (hpages : c'.pages = pages) (hne : id ≠ j) :
    Holds cfg (sf'.setBlock j c') i id last b where
  __ := hh
  bytes := by
    intro o ho
    obtain ⟨v, hv, hbyte⟩ := hh.bytes o ho
    exact ⟨v, hv, (byte_setBlock hc hpages id _).trans
      (hst.kept id _ v hbyte fun hx => hne hx.1)⟩

end Hold

end SwapFile

end HugoFS.Vfs.Buffer
