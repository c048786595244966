import HugoFS.Storage.Node

/-!
# Uploads of one block

`ObjectSyncer.Sync` marks a block, hands its upload to the executor and takes the mark away. The
executor only waits for a token before it starts the goroutine, so the mark keeps the calls of
`Sync` apart, and the uploads only where no call starts during the upload of an earlier one.
-/

namespace HugoFS.Storage

open Function Runs Finset

/-- A caller has the block it has marked, and whether `Execute` has returned. `jobs` are the
uploads that run, and `tokens` those in the channel of the executor. -/
structure ObjectSyncer (κ : Type) where
  processing : Finset BlockID
  callers : κ → Option (BlockID × Bool)
  jobs : Multiset BlockID
  tokens : ℕ

namespace ObjectSyncer

def new (κ : Type) (limit : ℕ) : ObjectSyncer κ := ⟨∅, fun _ => none, 0, limit⟩

inductive Event (κ : Type)
  | mark (c : κ) (b : BlockID)
  | execute (c : κ) (b : BlockID)
  | unmark (c : κ) (b : BlockID)
  | finish (b : BlockID)
  | take
  | give

variable {κ : Type} [DecidableEq κ]

def Event.next : Event κ → ObjectSyncer κ → ObjectSyncer κ
  | .mark c b, s =>
    if b ∈ s.processing then s
    else { s with
      processing := insert b s.processing
      callers := Function.update s.callers c (some (b, false)) }
  | .execute c b, s => { s with
      tokens := s.tokens - 1, jobs := b ::ₘ s.jobs
      callers := Function.update s.callers c (some (b, true)) }
  | .unmark c b, s => { s with
      processing := s.processing.erase b, callers := Function.update s.callers c none }
  | .finish b, s => { s with jobs := s.jobs.erase b, tokens := s.tokens + 1 }
  | .take, s => { s with tokens := s.tokens - 1 }
  | .give, s => { s with tokens := s.tokens + 1 }

def Enabled (s : ObjectSyncer κ) : Event κ → Prop
  | .mark c _ => s.callers c = none
  | .execute c b => s.callers c = some (b, false) ∧ 0 < s.tokens
  | .unmark c b => s.callers c = some (b, true)
  | .finish b => b ∈ s.jobs
  | .take => 0 < s.tokens
  | .give => True

/-- No call of `Sync` for a block starts while the upload of an earlier call that has returned
runs. -/
def Apart (s : ObjectSyncer κ) : Event κ → Prop
  | .mark _ b => b ∈ s.jobs → b ∈ s.processing
  | .execute _ _ | .unmark _ _ | .finish _ | .take | .give => True

/-- A block has a mark while a call of `Sync` is in progress for it, and one such call. -/
structure Marked (s : ObjectSyncer κ) : Prop where
  mem : ∀ c b r, s.callers c = some (b, r) → b ∈ s.processing
  inj : ∀ c c' b r r', s.callers c = some (b, r) → s.callers c' = some (b, r') → c = c'

variable {s : ObjectSyncer κ} {e : Event κ} {es : List (Event κ)} {limit : ℕ}

open Event

theorem Marked.next (h : s.Marked) (he : s.Enabled e) : (e.next s).Marked := by
  cases e with
  | mark c b =>
    rw [next]
    split_ifs with hb
    · exact h
    refine ⟨fun d b' r hd => ?_, fun d d' b' r r' hd hd' => ?_⟩
    · obtain ⟨-, hd⟩ | ⟨-, hd⟩ := update_eq_some hd
      · cases hd
        exact mem_insert_self ..
      · exact mem_insert_of_mem (h.mem d b' r hd)
    · obtain ⟨hdc, hd⟩ | ⟨-, hd⟩ := update_eq_some hd <;>
        obtain ⟨hdc', hd'⟩ | ⟨-, hd'⟩ := update_eq_some hd'
      · rw [hdc, hdc']
      · cases hd
        exact absurd (h.mem d' _ r' hd') hb
      · cases hd'
        exact absurd (h.mem d _ r hd) hb
      · exact h.inj d d' b' r r' hd hd'
  | execute c b =>
    -- the caller keeps its block
    have hold : ∀ d b' r, update s.callers c (some (b, true)) d = some (b', r) →
        ∃ r', s.callers d = some (b', r') := by
      intro d b' r hd
      obtain ⟨hdc, hd⟩ | ⟨-, hd⟩ := update_eq_some hd
      · cases hd
        exact ⟨false, hdc ▸ he.1⟩
      · exact ⟨r, hd⟩
    refine ⟨fun d b' r hd => ?_, fun d d' b' r r' hd hd' => ?_⟩
    · obtain ⟨r, hd⟩ := hold d b' r hd
      exact h.mem d b' r hd
    · obtain ⟨r, hd⟩ := hold d b' r hd
      obtain ⟨r', hd'⟩ := hold d' b' r' hd'
      exact h.inj d d' b' r r' hd hd'
  | unmark c b =>
    refine ⟨fun d b' r hd => ?_, fun d d' b' r r' hd hd' => ?_⟩
    · obtain ⟨-, hd⟩ | ⟨hne, hd⟩ := update_eq_some hd
      · cases hd
      · exact mem_erase.mpr ⟨fun heq => hne (h.inj d c b r true (heq ▸ hd) he),
          h.mem d b' r hd⟩
    · obtain ⟨-, hd⟩ | ⟨-, hd⟩ := update_eq_some hd
      · cases hd
      obtain ⟨-, hd'⟩ | ⟨-, hd'⟩ := update_eq_some hd'
      · cases hd'
      exact h.inj d d' b' r r' hd hd'
  | finish b => exact ⟨h.mem, h.inj⟩
  | take => exact ⟨h.mem, h.inj⟩
  | give => exact ⟨h.mem, h.inj⟩

/-- No block has two uploads, and a call that waits for its token will be the only one to upload
its block. -/
structure Single (s : ObjectSyncer κ) : Prop extends Marked s where
  nodup : s.jobs.Nodup
  waits : ∀ c b, s.callers c = some (b, false) → b ∉ s.jobs

theorem Single.next (h : s.Single) (he : s.Enabled e) (hap : s.Apart e) : (e.next s).Single := by
  refine ⟨h.toMarked.next he, ?_, ?_⟩
  · cases e with
    | mark c b =>
      rw [next]
      split_ifs <;> exact h.nodup
    | execute c b => exact Multiset.nodup_cons.mpr ⟨h.waits c b he.1, h.nodup⟩
    | finish b => exact h.nodup.erase b
    | unmark c b => exact h.nodup
    | take => exact h.nodup
    | give => exact h.nodup
  · intro d b' hd
    cases e with
    | mark c b =>
      rw [next] at hd ⊢
      split_ifs at hd ⊢ with hb
      · exact h.waits d b' hd
      obtain ⟨-, hd⟩ | ⟨-, hd⟩ := update_eq_some hd
      · cases hd
        exact fun hj => hb (hap hj)
      · exact h.waits d b' hd
    | execute c b =>
      obtain ⟨-, hd⟩ | ⟨hne, hd⟩ := update_eq_some hd
      · cases hd
      intro hj
      obtain hb | hj := Multiset.mem_cons.mp hj
      · exact hne (h.inj d c b' false false hd (hb ▸ he.1))
      · exact h.waits d b' hd hj
    | unmark c b =>
      obtain ⟨-, hd⟩ | ⟨-, hd⟩ := update_eq_some hd
      · cases hd
      · exact h.waits d b' hd
    | finish b => exact fun hj => h.waits d b' hd (Multiset.mem_of_mem_erase hj)
    | take => exact h.waits d b' hd
    | give => exact h.waits d b' hd

/-- In every run the mark keeps the calls of `Sync` for one block apart. No block is uploaded by
two jobs at once, in any state, where no call starts while the upload of an earlier one runs. -/
theorem one_upload (hes : Legal Event.next Enabled es (new κ limit)) :
    Always Event.next Marked es (new κ limit) ∧
      (Legal Event.next Apart es (new κ limit) →
        Always Event.next (fun s => s.jobs.Nodup) es (new κ limit)) := by
  have hnew : (new κ limit).Marked := ⟨by simp [new], by simp [new]⟩
  refine ⟨?_, fun hap => ?_⟩
  · have htrue : Legal Event.next (fun _ _ => True) es (new κ limit) :=
      legal_of_forall fun _ _ => trivial
    exact always_of_legal (I := Marked) (fun _ h => h) (fun _ _ h he _ => h.next he) hes htrue hnew
  · exact always_of_legal (I := Single) (fun _ h => h.nodup)
      (fun _ _ h he hap => h.next he hap) hes hap ⟨hnew, Multiset.nodup_zero, by simp [new]⟩

/-- A second call during the first one is refused; a third starts when the upload has ended. -/
def apartSyncs : List (Event Bool) :=
  [.mark true "aa", .execute true "aa", .mark false "aa", .unmark true "aa", .finish "aa",
    .mark false "aa", .execute false "aa"]

theorem one_upload_sample : Legal Event.next Enabled apartSyncs (new Bool 32) ∧
    Legal Event.next Apart apartSyncs (new Bool 32) ∧
      Always Event.next (fun s => s.jobs.Nodup) apartSyncs (new Bool 32) := by
  have hes : Legal Event.next Enabled apartSyncs (new Bool 32) :=
    ⟨rfl, ⟨rfl, by decide⟩, rfl, rfl, show "aa" ∈ jobs _ by decide, rfl, ⟨rfl, by decide⟩, trivial⟩
  have hap : Legal Event.next Apart apartSyncs (new Bool 32) :=
    ⟨fun hj => absurd hj (Multiset.notMem_zero _), trivial, fun _ => mem_insert_self .., trivial,
      trivial, fun hj => absurd hj (by decide), trivial, trivial⟩
  exact ⟨hes, hap, (one_upload hes).2 hap⟩

def twoSyncs : List (Event Unit) :=
  [.mark () "aa", .execute () "aa", .unmark () "aa", .mark () "aa", .execute () "aa"]

theorem two_uploads_run : Legal Event.next Enabled twoSyncs (new Unit 32) ∧
    ¬Always Event.next (fun s => s.jobs.Nodup) twoSyncs (new Unit 32) :=
  ⟨⟨rfl, ⟨rfl, by decide⟩, rfl, rfl, ⟨rfl, by decide⟩, trivial⟩, by decide⟩

end ObjectSyncer

end HugoFS.Storage
