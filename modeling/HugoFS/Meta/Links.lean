import HugoFS.Meta.Store

/-!
# Link counts

`tally s q` is the number of entries of `s` that satisfy `q`. The number of
names of an inode and the number of child directories of a directory are
tallies, and `Consistent` ties the stored link counts to them. The lemmas of the
second section say what each elementary update does to a tally.
-/

namespace HugoFS.Meta

open Finmap Option Nat Attr

variable {s : Store} {n : UInt32} {i p : Ino}

/-! ### Link counts as words -/

theorem toNat_add_one (h : n.toNat + 1 < 2 ^ 32) : (n + 1).toNat = n.toNat + 1 := by
  rw [UInt32.toNat_add]
  exact mod_eq_of_lt h

theorem toNat_add_one_of_max (h : ¬n.toNat + 1 < 2 ^ 32) : (n + 1).toNat = 0 := by
  have hn := n.toNat_lt
  have he : n.toNat + 1 = 2 ^ 32 := by omega
  rw [UInt32.toNat_add]
  change (n.toNat + 1) % 2 ^ 32 = 0
  rw [he, mod_self]

theorem toNat_sub_one (h : 1 ≤ n.toNat) : (n - 1).toNat + 1 = n.toNat := by
  have hle : (1 : UInt32) ≤ n := UInt32.le_iff_toNat_le.mpr h
  rw [UInt32.toNat_sub_of_le _ _ hle]
  exact Nat.sub_add_cancel h

theorem pos_iff_toNat : 0 < n ↔ 0 < n.toNat := UInt32.lt_iff_toNat_lt

theorem one_lt_iff_toNat : 1 < n ↔ 1 < n.toNat := UInt32.lt_iff_toNat_lt

theorem word_succ_ne (n : UInt32) : n + 1 ≠ n := by
  intro h
  have h0 : n + 1 = n + 0 := by rw [h, UInt32.add_zero]
  exact absurd ((UInt32.add_right_inj n).mp h0) (by decide)

theorem word_pred_ne (n : UInt32) : n - 1 ≠ n := by
  intro h
  have h1 := word_succ_ne (n - 1)
  rw [UInt32.sub_add_cancel] at h1
  exact h1 h.symm

/-! ### Tallies -/

def onEntries (q : Entry → Bool) : (k : Key) → Rec k → Prop
  | .attr _, _ => False
  | .entry _ _, r => q r.1 = true

instance (q : Entry → Bool) : (k : Key) → (r : Rec k) → Decidable (onEntries q k r)
  | .attr _, _ => inferInstanceAs (Decidable False)
  | .entry _ _, r => inferInstanceAs (Decidable (q r.1 = true))

def tally (s : Store) (q : Entry → Bool) : ℕ := s.count (onEntries q)

def isDirAt (s : Store) (i : Ino) : Bool := (attrAt s i).any Attr.isDir

def links (s : Store) (i : Ino) : ℕ := tally s fun e => e.ino == i

def subdirs (s : Store) (p : Ino) : ℕ :=
  tally s fun e => e.parentIno == p && isDirAt s e.ino

structure Consistent (s : Store) : Prop where
  entry_attr : ∀ {p n e}, entryAt s p n = some e → ∃ a, attrAt s e.ino = some a
  file_nlink : ∀ {i a}, attrAt s i = some a → a.isDir = false → a.nlink.toNat = links s i
  dir_nlink : ∀ {i a}, attrAt s i = some a → a.isDir = true → a.nlink.toNat = 2 + subdirs s i
  attr_entry : ∀ {i a}, attrAt s i = some a → i ≠ rootIno → 0 < links s i

theorem isDirAt_of_attrAt {a : Attr} (h : attrAt s i = some a) :
    isDirAt s i = a.isDir := by
  simp [isDirAt, h]

theorem isDirAt_eq_true :
    isDirAt s i = true ↔ ∃ a, attrAt s i = some a ∧ a.isDir = true := by
  simp [isDirAt, any_eq_true]

theorem isDirAt_congr {s t : Store} (h : (attrAt s i).map mode = (attrAt t i).map mode) :
    isDirAt s i = isDirAt t i := by
  rw [isDirAt, isDirAt]
  rcases hs : attrAt s i with _ | a <;> rcases ht : attrAt t i with _ | b <;>
    simp_all [isDir]

def stat (s : Store) (i : Ino) : Option (UInt32 × UInt32) :=
  (attrAt s i).map fun a => (a.mode, a.nlink)

theorem stat_of_attrAt {a : Attr} (h : attrAt s i = some a) :
    stat s i = some (a.mode, a.nlink) := by
  rw [stat, h]
  rfl

theorem stat_eq_some {x : UInt32 × UInt32} :
    stat s i = some x ↔ ∃ a, attrAt s i = some a ∧ (a.mode, a.nlink) = x :=
  map_eq_some_iff

@[simp] theorem stat_putAttr (s : Store) (a : Attr) (i : Ino) :
    stat (putAttr s a) i = if i = a.inode then some (a.mode, a.nlink) else stat s i := by
  rw [stat, attrAt_putAttr]
  split_ifs <;> rfl

@[simp] theorem stat_dropAttr (s : Store) (j i : Ino) :
    stat (dropAttr s j) i = if i = j then none else stat s i := by
  rw [stat, attrAt_dropAttr]
  split_ifs <;> rfl

@[simp] theorem stat_putEntry (s : Store) (e : Entry) (i : Ino) :
    stat (putEntry s e) i = stat s i := by
  rw [stat, attrAt_putEntry, stat]

@[simp] theorem stat_dropEntry (s : Store) (p : Ino) (n : String) (i : Ino) :
    stat (dropEntry s p n) i = stat s i := by
  rw [stat, attrAt_dropEntry, stat]

theorem isDirAt_of_stat {m n : UInt32} (h : stat s i = some (m, n)) :
    isDirAt s i = modeIsDir m := by
  obtain ⟨a, ha, hx⟩ := stat_eq_some.mp h
  rw [isDirAt_of_attrAt ha, isDir, (Prod.mk.inj hx).1]

theorem consistent_iff_stat : Consistent s ↔
    (∀ p n e, entryAt s p n = some e → ∃ x, stat s e.ino = some x) ∧
    (∀ i m n, stat s i = some (m, n) → modeIsDir m = false → n.toNat = links s i) ∧
    (∀ i m n, stat s i = some (m, n) → modeIsDir m = true → n.toNat = 2 + subdirs s i) ∧
    (∀ i x, stat s i = some x → i ≠ rootIno → 0 < links s i) := by
  constructor
  · intro h
    refine ⟨?_, ?_, ?_, ?_⟩
    · intro p n e he
      obtain ⟨a, ha⟩ := h.entry_attr he
      exact ⟨_, stat_of_attrAt ha⟩
    · intro i m n hi hm
      obtain ⟨a, ha, hx⟩ := stat_eq_some.mp hi
      cases hx
      exact h.file_nlink ha hm
    · intro i m n hi hm
      obtain ⟨a, ha, hx⟩ := stat_eq_some.mp hi
      cases hx
      exact h.dir_nlink ha hm
    · intro i x hi hr
      obtain ⟨a, ha, -⟩ := stat_eq_some.mp hi
      exact h.attr_entry ha hr
  · rintro ⟨h1, h2, h3, h4⟩
    refine ⟨?_, ?_, ?_, ?_⟩
    · intro p n e he
      obtain ⟨x, hx⟩ := h1 p n e he
      obtain ⟨a, ha, -⟩ := stat_eq_some.mp hx
      exact ⟨a, ha⟩
    · exact fun ha hd => h2 _ _ _ (stat_of_attrAt ha) hd
    · exact fun ha hd => h3 _ _ _ (stat_of_attrAt ha) hd
    · exact fun ha hr => h4 _ _ (stat_of_attrAt ha) hr

/-! ### Tallies after an update -/

section Tally

variable {s t : Store} {q q' : Entry → Bool}

theorem lookup_entry_eq_some {n : String} {r : Rec (.entry p n)} :
    s.lookup (.entry p n) = some r ↔ entryAt s p n = some r.1 := by
  rw [entryAt, map_eq_some_iff]
  constructor
  · exact fun h => ⟨r, h, rfl⟩
  · rintro ⟨r', h, hr⟩
    rw [h, Subtype.ext hr]

theorem tally_pos : 0 < tally s q ↔ ∃ p n e, entryAt s p n = some e ∧ q e = true := by
  rw [tally, count_pos]
  constructor
  · rintro ⟨i | ⟨p, n⟩, r, hr, hq⟩
    · exact hq.elim
    · exact ⟨p, n, r.1, lookup_entry_eq_some.mp hr, hq⟩
  · rintro ⟨p, n, e, he, hq⟩
    exact ⟨.entry p n, ⟨e, entryAt_key he⟩, lookup_entry_eq_some.mpr he, hq⟩

theorem tally_eq_zero : tally s q = 0 ↔ ∀ p n e, entryAt s p n = some e → q e = false := by
  rw [← le_zero, ← not_lt, tally_pos]
  push Not
  simp only [ne_eq, Bool.not_eq_true]

theorem tally_congr (h : ∀ p n e, entryAt s p n = some e → q e = q' e) :
    tally s q = tally s q' := by
  apply count_congr
  rintro (i | ⟨p, n⟩) r hr
  · exact Iff.rfl
  · change q r.1 = true ↔ q' r.1 = true
    rw [h p n r.1 (lookup_entry_eq_some.mp hr)]

def isEntryKey : Key → Bool
  | .attr _ => false
  | .entry _ _ => true

def keptKey (keep : Ino → String → Bool) : Key → Bool
  | .attr _ => true
  | .entry p n => keep p n

theorem tally_eq_of_entryAt (h : ∀ p n, entryAt s p n = entryAt t p n) :
    tally s q = tally t q := by
  have hr : ∀ k (r : Rec k), onEntries q k r → isEntryKey k = true := by
    rintro (i | ⟨p, n⟩) r hq
    · exact hq.elim
    · rfl
  rw [tally, tally, ← count_restrict hr s, ← count_restrict hr t]
  congr 1
  apply ext_lookup
  intro k
  rw [lookup_restrict, lookup_restrict]
  rcases k with i | ⟨p, n⟩
  · rfl
  · exact map_injective Subtype.val_injective (h p n)

@[simp] theorem tally_empty : tally ∅ q = 0 := rfl

theorem tally_of_keep {keep : Ino → String → Bool}
    (h : ∀ p n, entryAt t p n = if keep p n then entryAt s p n else none) :
    tally t q = tally s fun e => q e && keep e.parentIno e.name := by
  have ht : tally t q = tally (s.restrict (keptKey keep)) q := by
    apply tally_eq_of_entryAt
    intro p n
    rw [h, entryAt, entryAt, lookup_restrict]
    change _ = Option.map _ (if keep p n = true then _ else _)
    split_ifs <;> rfl
  rw [ht, tally, tally, count_restrict_eq]
  apply count_congr
  rintro (i | ⟨p, n⟩) r -
  · exact ⟨fun hq => hq.1, fun hq => hq.elim⟩
  · change q r.1 = true ∧ keep p n = true ↔ (q r.1 && keep r.1.parentIno r.1.name) = true
    rw [r.2.1, r.2.2, Bool.and_eq_true]

theorem tally_eq_add (s : Store) (q r : Entry → Bool) :
    tally s q = (tally s fun e => q e && r e) + tally s fun e => q e && !r e := by
  rw [tally, count_eq_add (q := onEntries r) s]
  congr 1 <;> apply count_congr <;> rintro (i | ⟨p, n⟩) x - <;> simp [onEntries]

theorem tally_putEntry (s : Store) (e : Entry) (q : Entry → Bool) :
    tally (putEntry s e) q =
      tally (dropEntry s e.parentIno e.name) q + if q e then 1 else 0 :=
  count_insert (onEntries q) s _ _

theorem tally_of_entryAt {n : String} {e : Entry} (h : entryAt s p n = some e) (q : Entry → Bool) :
    tally s q = tally (dropEntry s p n) q + if q e then 1 else 0 := by
  obtain ⟨r, hr, rfl⟩ := map_eq_some_iff.mp h
  exact count_of_lookup (onEntries q) hr

theorem dropEntry_of_entryAt_none {n : String} (h : entryAt s p n = none) :
    dropEntry s p n = s :=
  erase_of_lookup_none (map_eq_none_iff.mp h)

@[simp] theorem tally_putAttr (s : Store) (a : Attr) (q : Entry → Bool) :
    tally (putAttr s a) q = tally s q :=
  tally_eq_of_entryAt (entryAt_putAttr s a)

@[simp] theorem tally_dropAttr (s : Store) (i : Ino) (q : Entry → Bool) :
    tally (dropAttr s i) q = tally s q :=
  tally_eq_of_entryAt (entryAt_dropAttr s i)

end Tally

variable {s : Store}

@[simp] theorem links_putAttr (s : Store) (a : Attr) (i : Ino) :
    links (putAttr s a) i = links s i := tally_putAttr s a _

theorem links_putEntry (s : Store) (e : Entry) (i : Ino) :
    links (putEntry s e) i =
      links (dropEntry s e.parentIno e.name) i + if e.ino = i then 1 else 0 := by
  simp [links, tally_putEntry]

theorem links_of_entryAt {n : String} {e : Entry} (h : entryAt s p n = some e) (i : Ino) :
    links s i = links (dropEntry s p n) i + if e.ino = i then 1 else 0 := by
  simp [links, tally_of_entryAt h]

theorem links_pos {i : Ino} :
    0 < links s i ↔ ∃ p n e, entryAt s p n = some e ∧ e.ino = i := by
  simp [links, tally_pos]

theorem subdirs_eq_tally {d : Ino → Bool}
    (h : ∀ q n e, entryAt s q n = some e → d e.ino = isDirAt s e.ino) (p : Ino) :
    subdirs s p = tally s fun e => e.parentIno == p && d e.ino := by
  apply tally_congr
  intro q n e he
  rw [h q n e he]

theorem Consistent.links_eq_zero (h : Consistent s) {i : Ino}
    (hi : attrAt s i = none) : links s i = 0 := by
  rw [links, tally_eq_zero]
  intro p n e he
  obtain ⟨a, ha⟩ := h.entry_attr he
  by_contra hne
  simp only [Bool.not_eq_false, beq_iff_eq] at hne
  rw [hne, hi] at ha
  cases ha

end HugoFS.Meta
