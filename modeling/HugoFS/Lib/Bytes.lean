import Mathlib.Data.List.Lex
import Mathlib.Algebra.Order.Group.Nat
import Mathlib.Algebra.Group.Int.Defs

/-!
# Byte strings

Byte strings in their lexicographic order, texts and decimal numbers as byte
strings, and the two facts that a format with separators rests on: a field
without the separator can be read back from its left end, and a number in
decimal digits determines the number.
-/

abbrev ByteString := List UInt8

instance ByteString.byteOrder : LinearOrder UInt8 where
  le_refl := UInt8.le_refl
  le_trans _ _ _ := UInt8.le_trans
  le_antisymm _ _ := UInt8.le_antisymm
  le_total := UInt8.le_total
  lt_iff_le_not_ge a b := by
    rw [UInt8.not_le]
    exact ⟨fun h => ⟨UInt8.le_of_lt h, h⟩, fun h => h.2⟩
  toDecidableLE := inferInstance
  toDecidableEq := inferInstance
  toDecidableLT := inferInstance

namespace ByteString

open List Nat

def ofText (t : String) : ByteString := t.toList.map Char.toUInt8

/-! ### Decimal numbers -/

def decimal (n : ℕ) : ByteString := (Nat.toDigits 10 n).map Char.toUInt8

def signed : ℤ → ByteString
  | .ofNat n => decimal n
  | .negSucc n => 45 :: decimal (n + 1)

def isDigit (b : UInt8) : Bool := 48 ≤ b && b ≤ 57

def value (bs : ByteString) : ℕ := bs.foldl (fun n b => 10 * n + (b.toNat - 48)) 0

theorem toNat_toUInt8_of_isDigit {c : Char} (h : c.isDigit) :
    c.toUInt8.toNat = c.toNat := by
  have hc : c.toNat ≤ 57 := (Char.isDigit_iff_toNat.mp h).2
  change c.val.toUInt8.toNat = c.val.toNat
  change c.val.toNat ≤ 57 at hc
  rw [UInt32.toNat_toUInt8]
  omega

theorem isDigit_toUInt8 {c : Char} (h : c.isDigit) : isDigit c.toUInt8 := by
  have hc : 48 ≤ c.toNat ∧ c.toNat ≤ 57 := Char.isDigit_iff_toNat.mp h
  rw [← toNat_toUInt8_of_isDigit h] at hc
  rw [isDigit, Bool.and_eq_true, decide_eq_true_eq, decide_eq_true_eq]
  exact ⟨UInt8.le_iff_toNat_le.mpr hc.1, UInt8.le_iff_toNat_le.mpr hc.2⟩

theorem decimal_ne_nil (n : ℕ) : decimal n ≠ [] := by
  simp [decimal, toDigits_ne_nil]

theorem isDigit_of_mem_decimal {n : ℕ} {b : UInt8} (h : b ∈ decimal n) : isDigit b := by
  obtain ⟨c, hc, rfl⟩ := mem_map.mp h
  exact isDigit_toUInt8 (isDigit_of_mem_toDigits (by decide) (by decide) hc)

theorem value_decimal (n : ℕ) : value (decimal n) = n := by
  -- the fold over the bytes is the fold over the characters they come from
  have hfold : ∀ (cs : List Char) (a : ℕ), (∀ c ∈ cs, c.isDigit) →
      (cs.map Char.toUInt8).foldl (fun n b => 10 * n + (b.toNat - 48)) a =
        Nat.ofDigitChars 10 cs a := by
    intro cs
    induction cs with
    | nil => exact fun _ _ => rfl
    | cons c cs ih =>
      intro a h
      have hc := toNat_toUInt8_of_isDigit (h c mem_cons_self)
      rw [map_cons, foldl_cons, ofDigitChars_cons, hc]
      exact ih _ fun d hd => h d (mem_cons_of_mem c hd)
  have hdigits : ∀ c ∈ Nat.toDigits 10 n, c.isDigit = true :=
    fun c hc => isDigit_of_mem_toDigits (by decide) (by decide) hc
  exact (hfold _ 0 hdigits).trans (ofDigitChars_toDigits (by decide) (by decide))

theorem decimal_injective : Function.Injective decimal :=
  Function.LeftInverse.injective value_decimal

theorem signed_injective : Function.Injective signed := by
  -- a number starts with a digit, not with a sign
  have hsign : ∀ m n : ℕ, decimal m ≠ 45 :: decimal n := by
    intro m n h
    have hmem : (45 : UInt8) ∈ decimal m := by
      rw [h]
      exact mem_cons_self
    exact absurd (isDigit_of_mem_decimal hmem) (by decide)
  intro a b h
  cases a with
  | ofNat m =>
    cases b with
    | ofNat n => exact congrArg Int.ofNat (decimal_injective h)
    | negSucc n => exact absurd h (hsign m (n + 1))
  | negSucc m =>
    cases b with
    | ofNat n => exact absurd h.symm (hsign n (m + 1))
    | negSucc n =>
      have hmn : m + 1 = n + 1 := decimal_injective (cons_inj_right 45 |>.mp h)
      rw [Nat.succ.inj hmn]

def natural? (bs : ByteString) : Option ℕ :=
  if bs ≠ [] ∧ bs.all isDigit = true then some (value bs) else none

/-- The 64-bit integer that a text denotes: zero for a text that is not a number, the
nearest integer for one that is too large. -/
def atoi : ByteString → ℤ
  | 43 :: bs => (natural? bs).elim 0 fun n => min n (2 ^ 63 - 1)
  | 45 :: bs => (natural? bs).elim 0 fun n => max (-n) (-2 ^ 63)
  | bs => (natural? bs).elim 0 fun n => min n (2 ^ 63 - 1)

theorem natural?_decimal (n : ℕ) : natural? (decimal n) = some n := by
  have hall : (decimal n).all isDigit = true := by
    rw [all_eq_true]
    intro b hb
    exact isDigit_of_mem_decimal hb
  rw [natural?, if_pos ⟨decimal_ne_nil n, hall⟩, value_decimal]

theorem atoi_decimal {n : ℕ} (h : n < 2 ^ 63) : atoi (decimal n) = n := by
  have hfirst : ∀ b bs, decimal n = b :: bs → isDigit b = true := by
    intro b bs hb
    exact isDigit_of_mem_decimal (hb ▸ mem_cons_self)
  rw [atoi]
  · rw [natural?_decimal, Option.elim_some]
    omega
  · intro bs hb
    exact absurd (hfirst _ _ hb) (by decide)
  · intro bs hb
    exact absurd (hfirst _ _ hb) (by decide)

theorem notMem_decimal {b : UInt8} (h : isDigit b = false) (n : ℕ) : b ∉ decimal n := by
  intro hb
  rw [isDigit_of_mem_decimal hb] at h
  cases h

/-! ### Separators -/

section Separator

variable {α : Type} {sep : α} {a b x y : List α}

theorem append_sep_inj (ha : sep ∉ a) (hb : sep ∉ b) :
    a ++ sep :: x = b ++ sep :: y ↔ a = b ∧ x = y := by
  refine ⟨fun h => ?_, fun h => by rw [h.1, h.2]⟩
  -- one field is a prefix of the other, and the rest of that one would begin with the separator
  obtain ⟨t, rfl, ht⟩ | ⟨t, rfl, ht⟩ := append_eq_append_iff.mp h <;> cases t <;> simp_all

theorem append_sep_isPrefix_iff (ha : sep ∉ a) (hb : sep ∉ b) :
    a ++ sep :: x <+: b ++ sep :: y ↔ a = b ∧ x <+: y := by
  constructor
  · rintro ⟨t, ht⟩
    rw [append_assoc, cons_append] at ht
    obtain ⟨hab, hxy⟩ := (append_sep_inj ha hb).mp ht
    exact ⟨hab, t, hxy⟩
  · rintro ⟨rfl, t, rfl⟩
    exact ⟨t, by simp⟩

end Separator

/-! ### Order -/

theorem cons_le_cons_iff {c d : UInt8} {x y : ByteString} :
    c :: x ≤ d :: y ↔ c < d ∨ c = d ∧ x ≤ y := by
  have hlt : c :: x < d :: y ↔ c < d ∨ c = d ∧ x < y := cons_lt_cons_iff
  rw [le_iff_lt_or_eq, le_iff_lt_or_eq, hlt, cons.injEq, and_or_left, or_assoc]

theorem append_le_append_iff {p x y : ByteString} : p ++ x ≤ p ++ y ↔ x ≤ y := by
  induction p with
  | nil => rfl
  | cons c p ih =>
    rw [cons_append, cons_append, cons_le_cons_iff, ih]
    simp

theorem append_lt_append_iff {p x y : ByteString} : p ++ x < p ++ y ↔ x < y := by
  rw [← not_le, append_le_append_iff, not_le]

theorem le_of_isPrefix {a b : ByteString} (h : a <+: b) : a ≤ b := by
  obtain ⟨t, rfl⟩ := h
  induction a with
  | nil =>
    cases t with
    | nil => exact le_rfl
    | cons c t => exact le_of_lt List.Lex.nil
  | cons c a ih => exact cons_le_cons c ih

theorem zero_le_decimal (n : ℕ) : decimal 0 ≤ decimal n := by
  obtain ⟨b, bs, hb⟩ := exists_cons_of_ne_nil (decimal_ne_nil n)
  have hdigit : isDigit b := isDigit_of_mem_decimal (n := n) (by rw [hb]; exact mem_cons_self)
  rw [isDigit, Bool.and_eq_true, decide_eq_true_eq] at hdigit
  rw [hb, show decimal 0 = [48] from rfl, cons_le_cons_iff]
  rcases hdigit.1.lt_or_eq with hlt | heq
  · exact .inl hlt
  · exact .inr ⟨heq, le_of_isPrefix nil_prefix⟩

theorem isPrefix_of_between {p a b c : ByteString} (ha : p <+: a) (hc : p <+: c) (hab : a ≤ b)
    (hbc : b ≤ c) : p <+: b := by
  induction p generalizing a b c with
  | nil => exact nil_prefix
  | cons d p ih =>
    obtain ⟨x, rfl⟩ := ha
    obtain ⟨z, rfl⟩ := hc
    cases b with
    | nil =>
      have hlt : ([] : ByteString) < d :: (p ++ x) := List.Lex.nil
      exact absurd hab (not_le_of_gt hlt)
    | cons e b =>
      have hl := cons_le_cons_iff.mp hab
      have hr := cons_le_cons_iff.mp hbc
      -- the first byte lies between two equal bytes
      have hde : d = e := by
        rcases hl with hl | hl
        · rcases hr with hr | hr
          · exact absurd (lt_trans hl hr) (lt_irrefl d)
          · exact hr.1.symm
        · exact hl.1
      subst hde
      have hl' : p ++ x ≤ b := (hl.resolve_left (lt_irrefl d)).2
      have hr' : b ≤ p ++ z := (hr.resolve_left (lt_irrefl d)).2
      exact cons_prefix_cons.mpr ⟨rfl, ih ⟨x, rfl⟩ ⟨z, rfl⟩ hl' hr'⟩

end ByteString
