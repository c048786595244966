import Mathlib.Data.Finmap

/-!
# Counting and restricting the bindings of a finite map

`Finmap.count p m` is the number of bindings of `m` that satisfy `p`, `Finmap.restrict p m`
keeps the bindings whose key satisfies `p`, and `Finmap.values m` are the bound values. The
decomposition lemmas express them through the map with one key erased.
-/

namespace Finmap

open Finmap List

variable {α : Type*} {β : α → Type*}

def restrict (p : α → Bool) (m : Finmap β) : Finmap β where
  entries := m.entries.filter (fun x => p x.1)
  nodupKeys := by
    have h := m.nodupKeys
    rw [← Multiset.nodup_keys] at h ⊢
    exact Multiset.nodup_of_le
      (Multiset.map_le_map (Multiset.filter_le _ _)) h

def count (p : ∀ a, β a → Prop) [∀ a b, Decidable (p a b)] (m : Finmap β) : ℕ :=
  m.entries.countP (fun x => p x.1 x.2)

variable [DecidableEq α] {a : α}

theorem lookup_restrict (p : α → Bool) (m : Finmap β) (a : α) :
    (m.restrict p).lookup a = if p a then m.lookup a else none := by
  ext b
  rw [← Option.mem_def, mem_lookup_iff]
  by_cases hp : p a = true
  · simp [restrict, hp, ← mem_lookup_iff]
  · simp [restrict, hp]

@[simp] theorem insert_erase_self (m : Finmap β) (a : α) (b : β a) :
    (m.erase a).insert a b = m.insert a b := by
  apply ext_lookup
  intro x
  by_cases hx : x = a
  · subst hx
    simp
  · simp [lookup_insert_of_ne _ hx, lookup_erase_ne hx]

theorem insert_of_lookup {m : Finmap β} {b : β a} (h : m.lookup a = some b) :
    m.insert a b = m := by
  apply ext_lookup
  intro x
  by_cases hx : x = a
  · subst hx
    simp [h]
  · simp [lookup_insert_of_ne _ hx]

theorem erase_of_lookup_none {m : Finmap β} (h : m.lookup a = none) :
    m.erase a = m := by
  apply ext_lookup
  intro x
  by_cases hx : x = a
  · subst hx
    simp [h]
  · simp [lookup_erase_ne hx]

theorem lookup_erase_eq_some {m : Finmap β} {x : α} {b : β x}
    (h : (m.erase a).lookup x = some b) : x ≠ a ∧ m.lookup x = some b := by
  have hx : x ≠ a := by
    rintro rfl
    rw [lookup_erase] at h
    cases h
  exact ⟨hx, (lookup_erase_ne hx).symm.trans h⟩

theorem lookup_insert_eq_some {γ : Type*} {m : Finmap fun _ : α => γ} {x : α} {b c : γ}
    (h : (m.insert a c).lookup x = some b) : x = a ∧ c = b ∨ x ≠ a ∧ m.lookup x = some b := by
  by_cases hx : x = a
  · subst hx
    exact .inl ⟨rfl, Option.some.inj ((lookup_insert _).symm.trans h)⟩
  · exact .inr ⟨hx, (lookup_insert_of_ne _ hx).symm.trans h⟩

section Count

variable (p q : ∀ a, β a → Prop) [∀ a b, Decidable (p a b)] [∀ a b, Decidable (q a b)]
variable {m : Finmap β}

omit [DecidableEq α] in
@[simp] theorem count_empty : (∅ : Finmap β).count p = 0 := rfl

theorem count_insert (m : Finmap β) (a : α) (b : β a) :
    (m.insert a b).count p = (m.erase a).count p + if p a b then 1 else 0 := by
  rw [← insert_erase_self, count,
    entries_insert_of_notMem notMem_erase_self, Multiset.countP_cons]
  rfl

theorem count_of_lookup {b : β a} (h : m.lookup a = some b) :
    m.count p = (m.erase a).count p + if p a b then 1 else 0 := by
  rw [← count_insert, insert_of_lookup h]

variable {p q}

theorem count_congr (h : ∀ a b, m.lookup a = some b → (p a b ↔ q a b)) : m.count p = m.count q := by
  apply Multiset.countP_congr rfl
  rintro ⟨a, b⟩ hab
  simpa using h a b (lookup_eq_some_iff.mpr hab)

omit [DecidableEq α] in
theorem count_restrict {r : α → Bool} (h : ∀ a b, p a b → r a = true) (m : Finmap β) :
    (m.restrict r).count p = m.count p := by
  rw [count, count, restrict, Multiset.countP_filter]
  apply Multiset.countP_congr rfl
  rintro ⟨a, b⟩ -
  simpa using h a b

omit [DecidableEq α] in
theorem count_restrict_eq (r : α → Bool) (m : Finmap β) :
    (m.restrict r).count p = m.count fun a b => p a b ∧ r a = true := by
  rw [count, count, restrict, Multiset.countP_filter]

omit [DecidableEq α] in
theorem count_eq_add (m : Finmap β) :
    m.count p = (m.count fun a b => p a b ∧ q a b) + m.count fun a b => p a b ∧ ¬q a b := by
  rw [count, Multiset.countP_eq_countP_filter_add _ _ fun x => q x.1 x.2,
    Multiset.countP_filter, Multiset.countP_filter]
  rfl

theorem count_pos :
    0 < m.count p ↔ ∃ a b, m.lookup a = some b ∧ p a b := by
  rw [count, Multiset.countP_pos]
  constructor
  · rintro ⟨⟨a, b⟩, hab, hp⟩
    exact ⟨a, b, lookup_eq_some_iff.mpr hab, hp⟩
  · rintro ⟨a, b, hab, hp⟩
    exact ⟨⟨a, b⟩, lookup_eq_some_iff.mp hab, hp⟩

end Count

section Values

variable {γ : Type*}
variable {m : Finmap fun _ : α => γ}

def values (m : Finmap fun _ : α => γ) : Multiset γ := m.entries.map Sigma.snd

theorem mem_values {b : γ} :
    b ∈ m.values ↔ ∃ a, m.lookup a = some b := by
  rw [values, Multiset.mem_map]
  constructor
  · rintro ⟨⟨a, b⟩, hab, rfl⟩
    exact ⟨a, lookup_eq_some_iff.mpr hab⟩
  · rintro ⟨a, hab⟩
    exact ⟨⟨a, b⟩, lookup_eq_some_iff.mp hab, rfl⟩

omit [DecidableEq α] in
@[simp] theorem values_empty : (∅ : Finmap fun _ : α => γ).values = 0 := rfl

theorem values_insert (h : m.lookup a = none) (b : γ) :
    (m.insert a b).values = b ::ₘ m.values := by
  rw [values, entries_insert_of_notMem (lookup_eq_none.mp h), Multiset.map_cons]
  rfl

theorem values_of_lookup {b : γ} (h : m.lookup a = some b) :
    m.values = b ::ₘ (m.erase a).values := by
  rw [← values_insert (lookup_erase a m), insert_erase_self, insert_of_lookup h]

end Values

section Fold

variable {γ δ : Type*} (key : γ → α) (value : γ → δ)

theorem lookup_foldl_insert (l : List γ) (m : Finmap fun _ : α => δ) (a : α) :
    (l.foldl (fun m c => m.insert (key c) (value c)) m).lookup a =
      ((l.reverse.find? fun c => key c = a).map value).or (m.lookup a) := by
  induction l generalizing m with
  | nil => rfl
  | cons c l ih =>
    rw [foldl_cons, ih, reverse_cons, find?_append, find?_singleton]
    by_cases hc : key c = a
    · subst hc
      cases l.reverse.find? fun d => key d = key c <;> simp
    · cases l.reverse.find? fun d => key d = a <;>
        simp [hc, lookup_insert_of_ne _ (Ne.symm hc)]

variable {key value} {l : List γ}

theorem lookup_foldl_insert_eq_some {d : δ} (h : (l.foldl (fun m c => m.insert (key c) (value c))
      (∅ : Finmap fun _ : α => δ)).lookup a = some d) : ∃ c ∈ l, key c = a ∧ value c = d := by
  rw [lookup_foldl_insert, lookup_empty, Option.or_none, Option.map_eq_some_iff] at h
  obtain ⟨c, hc, hd⟩ := h
  have hkey := find?_some hc
  exact ⟨c, mem_reverse.mp (mem_of_find?_eq_some hc), by simpa using hkey, hd⟩

theorem mem_foldl_insert {c : γ} (hc : c ∈ l) :
    key c ∈ l.foldl (fun m c => m.insert (key c) (value c)) (∅ : Finmap fun _ : α => δ) := by
  rw [← lookup_isSome, lookup_foldl_insert, lookup_empty, Option.or_none,
    Option.isSome_map, find?_isSome]
  exact ⟨c, mem_reverse.mpr hc, by simp⟩

end Fold

theorem exists_list {δ : Type*} (m : Finmap fun _ : α => δ) :
    ∃ l : List (α × δ), (l.map Prod.fst).Nodup ∧ ∀ a b, (a, b) ∈ l ↔ m.lookup a = some b := by
  induction m using induction_on with
  | H s =>
    refine ⟨s.entries.map fun e => (e.1, e.2), ?_, fun a b => ?_⟩
    · rw [map_map]
      exact s.nodupKeys
    · rw [lookup_toFinmap, ← Option.mem_def, AList.mem_lookup_iff, mem_map]
      constructor
      · rintro ⟨e, he, heq⟩
        cases heq
        exact he
      · exact fun h => ⟨⟨a, b⟩, h, rfl⟩

end Finmap
