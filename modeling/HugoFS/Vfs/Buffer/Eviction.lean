import HugoFS.Vfs.Buffer.Throttler
import Mathlib.Data.Multiset.OrderedMonoid

/-!
# Waiting for an eviction

A `TryAcquire` without a token holds the lock of the throttler until a buffer of the evicted block
confirms. When every inode has at most one buffer, and only blocks of registered buffers get
tokens, one request is on its way, and it comes back as a token.
-/

namespace HugoFS.Vfs.Buffer

open Multiset Function Runs ThrottlerLock Prod
open HugoFS.Meta (Ino)

namespace Throttler

variable {β : Type}

def Event.Subscribed : Event β → Throttler β → Prop
  | .acquire key, s => s.subs key.1 ≠ []
  | _, _ => True

instance Event.instDecidableSubscribed :
    (e : Event β) → (s : Throttler β) → Decidable (e.Subscribed s)
  | .acquire key, s => inferInstanceAs (Decidable (¬s.subs key.1 = []))
  | .register _ _, _ | .publish _ _ _ _, _ | .published _ _, _ | .take _, _ | .receive _ _, _
  | .confirm _ _, _ | .release _, _ | .unRegister _ _, _ | .putBack _ _, _ | .unlock _, _
  | .close _, _ | .exit _, _ => isTrue trivial

/-! ### The buffers of the blocks in memory -/

structure Watched (s : Throttler β) : Prop where
  fresh : ∀ b, s.ino b = none → s.destroyed b = false ∧ s.closed b = false ∧ s.exited b = false
  alive : ∀ ino, ∀ b ∈ s.subs ino, s.ino b = some ino ∧ s.destroyed b = false ∧
    s.closed b = false ∧ s.exited b = false
  lists : ∀ ino l, s.lru.inoKeyMap.lookup ino = some l → l ≠ [] → s.subs ino ≠ []
  wanted : ∀ key ∈ s.lock.wanted, s.subs key.1 ≠ []

theorem Watched.new (limit : ℤ) : (new β limit).Watched where
  fresh := by simp [Throttler.new]
  alive := by simp [Throttler.new]
  lists := by simp [Throttler.new]
  wanted := by simp [Throttler.new, ThrottlerLock.wanted]

variable {s : Throttler β} {key : BlockKey} {e : Event β}

namespace Watched

variable {b : β}

theorem put (h : s.Watched) (hkey : s.subs key.1 ≠ []) (tokens : ℕ)
    {lock : ThrottlerLock β} (hlock : lock.wanted = none) :
    { s with tokens := tokens, lru := s.lru.put key, lock := lock }.Watched where
  __ := h
  lists := by
    intro ino l hl hne
    by_cases hino : ino = key.1
    · exact hino ▸ hkey
    change (s.lru.inoKeyMap.insert key.1 _).lookup ino = some l at hl
    rw [Finmap.lookup_insert_of_ne _ hino] at hl
    exact h.lists ino l hl hne
  wanted := by simp [hlock]

theorem acquire (h : s.Watched) (hbal : s.Balanced) (hlock : s.lock = .free)
    (hkey : s.subs key.1 ≠ []) : (s.tryAcquire key).Watched := by
  by_cases htokens : s.tokens = 0
  · obtain ⟨k, ks, hlru⟩ := hbal.exists_oldest hlock htokens
    obtain ⟨-, -, -, -, hlists⟩ := hbal.listed.removeOldest hlru
    rw [tryAcquire_evict htokens hbal.listed hlru]
    exact
      { h with
        lists := by
          intro ino l hl hne
          obtain ⟨l', hl', hne'⟩ := hlists ino l hl hne
          exact h.lists ino l' hl' hne'
        wanted := by
          intro key' hkey'
          cases hkey'
          exact hkey }
  · rw [tryAcquire, if_pos (Nat.pos_of_ne_zero htokens)]
    exact h.put hkey _ (by rw [hlock]; rfl)

open Event

theorem notMem_subs_of_exit (h : s.Watched) (he : (exit b).Enabled s) (i : Ino) :
    b ∉ s.subs i := by
  intro hb
  obtain ⟨hino, -, hclosed, -⟩ := h.alive i b hb
  obtain ⟨-, hc | ⟨⟨j, hj, hbj⟩, -⟩⟩ := he
  · simp [hclosed] at hc
  · cases hino.symm.trans hj
    exact hbj hb

variable [DecidableEq β]

theorem register (h : s.Watched) (hlock : s.lock = .free) (hb : s.ino b = none)
    {ino : Ino} (hsubs : s.subs ino = []) : ((register b ino).next s).Watched where
  fresh := by
    intro b' hb'
    by_cases heq : b' = b
    · subst heq
      simp [next] at hb'
    · exact h.fresh b' (by simpa [next, update_of_ne heq] using hb')
  alive := by
    intro i b' hb'
    by_cases hi : i = ino
    · subst hi
      simp only [next, update_self, hsubs, List.nil_append,
        List.mem_singleton] at hb'
      subst hb'
      exact ⟨update_self .., h.fresh b' hb⟩
    · simp only [next, update_of_ne hi] at hb'
      have halive := h.alive i b' hb'
      have hne : b' ≠ b := by
        rintro rfl
        simp [hb] at halive
      exact ⟨by simpa [next, update_of_ne hne] using halive.1, halive.2⟩
  lists := by
    intro i l hl hne
    by_cases hi : i = ino
    · subst hi
      simp [next]
    · simpa [next, update_of_ne hi] using h.lists i l hl hne
  wanted := by simp [next, hlock, ThrottlerLock.wanted]

theorem unRegister (h : s.Watched) {ino : Ino} (hb : s.ino b = some ino) :
    (s.unRegister b ino).Watched where
  fresh := by
    intro b' hb'
    have hne : b' ≠ b := by
      rintro rfl
      cases hb.symm.trans hb'
    simpa [Throttler.unRegister, update_of_ne hne] using h.fresh b' hb'
  alive := by
    intro i b' hb'
    by_cases hi : i = ino
    · subst hi
      simp [Throttler.unRegister] at hb'
    simp only [Throttler.unRegister, update_of_ne hi] at hb'
    have halive := h.alive i b' hb'
    have hne : b' ≠ b := by
      rintro rfl
      exact hi (Option.some.inj (halive.1.symm.trans hb))
    simpa [Throttler.unRegister, update_of_ne hne] using halive
  lists := by
    intro i l hl hne
    obtain ⟨hi, hl⟩ := BlockLRU.lookup_removeByIno hl
    simpa [Throttler.unRegister, update_of_ne hi] using h.lists i l hl hne
  wanted := by simp [Throttler.unRegister, ThrottlerLock.wanted]

theorem close (h : s.Watched) (hb : s.destroyed b = true) :
    ((close b).next s).Watched where
  __ := h
  fresh := by
    intro b' hb'
    have hfresh := h.fresh b' hb'
    have hne : b' ≠ b := by
      rintro rfl
      simp [hb] at hfresh
    simpa [next, update_of_ne hne] using hfresh
  alive := by
    intro i b' hb'
    have halive := h.alive i b' hb'
    have hne : b' ≠ b := by
      rintro rfl
      simp [hb] at halive
    simpa [next, update_of_ne hne] using halive

theorem exit (h : s.Watched) (he : (exit b).Enabled s) :
    ((exit b).next s).Watched where
  __ := h
  fresh := by
    intro b' hb'
    have hfresh := h.fresh b' hb'
    have hne : b' ≠ b := by
      rintro rfl
      obtain ⟨-, hc | ⟨⟨j, hj, -⟩, -⟩⟩ := he
      · simp [hc] at hfresh
      · cases hj.symm.trans hb'
    simpa [next, update_of_ne hne] using hfresh
  alive := by
    intro i b' hb'
    have hne : b' ≠ b := by
      rintro rfl
      exact h.notMem_subs_of_exit he i hb'
    simpa [next, update_of_ne hne] using h.alive i b' hb'

theorem next (h : s.Watched) (hbal : s.Balanced) (he : e.Enabled s)
    (ha : e.Alone s) (hsub : e.Subscribed s) : (e.next s).Watched := by
  cases e with
  | register b ino => exact h.register he.1 he.2 ha
  | acquire key => exact h.acquire hbal he hsub
  | take key => exact h.put (h.wanted key (by rw [he.1]; rfl)) _ rfl
  | unRegister b ino => exact h.unRegister he.2.1
  | close b => exact h.close he.1
  | exit b => exact h.exit he
  | publish key oldest b bs =>
    exact { h with wanted := fun key hkey => h.wanted key (by rw [he.1]; exact hkey) }
  | published key oldest =>
    have hlock : s.lock = .publishing key oldest [] := he
    exact { h with wanted := fun key hkey => h.wanted key (by rw [hlock]; exact hkey) }
  | putBack | unlock => exact { h with wanted := fun key hkey => by cases hkey }
  | receive | confirm | release => exact { h with }

end Watched

/-! ### One request on its way -/

theorem inFlight_eq_zero : s.inFlight = 0 ↔
    s.lock.unsent = 0 ∧ s.queued = 0 ∧ s.confirming = 0 ∧ s.releasing = none := by
  rw [inFlight]
  cases s.releasing with
  | none => simp [and_assoc]
  | some k => simp

structure Answered (s : Throttler β) : Prop where
  workers : ∀ b, b ∈ s.lock.targets ∨ b ∈ s.queued.map Prod.fst ∨ b ∈ s.confirming.map Prod.fst →
    ∃ ino, b ∈ s.subs ino
  single : ∀ key ∈ s.lock.wanted, s.inFlight.card + s.tokens = 1
  rest : s.lock.wanted = none → s.inFlight = 0

namespace Answered

variable {t : Throttler β}

theorem of_rest (hwanted : s.lock.wanted = none) (hflight : s.inFlight = 0) : s.Answered where
  workers := by
    obtain ⟨-, hq, hc, -⟩ := inFlight_eq_zero.mp hflight
    have htargets : s.lock.targets = [] := by
      cases hlock : s.lock with
      | publishing key oldest targets => simp [hlock, wanted] at hwanted
      | free | waiting | unregistering => rfl
    simp [hq, hc, htargets]
  single := by simp [hwanted]
  rest := fun _ => hflight

theorem new (limit : ℤ) : (new β limit).Answered :=
  of_rest rfl (by simp [Throttler.new, inFlight_eq_zero, unsent])

theorem withLock (h : s.Answered) (hs : s.lock.wanted = none)
    (ht : t.lock.wanted = none) (hunsent : t.lock.unsent = 0) (hqueued : t.queued = s.queued)
    (hconfirming : t.confirming = s.confirming) (hreleasing : t.releasing = s.releasing) :
    t.Answered := by
  obtain ⟨-, hq, hc, hr⟩ := inFlight_eq_zero.mp (h.rest hs)
  refine of_rest ht (inFlight_eq_zero.mpr ⟨hunsent, ?_, ?_, ?_⟩)
  · rw [hqueued, hq]
  · rw [hconfirming, hc]
  · rw [hreleasing, hr]

theorem move (h : s.Answered) (hwanted : t.lock.wanted = s.lock.wanted)
    (hflight : t.inFlight = s.inFlight) (htokens : t.tokens = s.tokens) (hsubs : t.subs = s.subs)
    (hworkers : ∀ b, b ∈ t.lock.targets ∨ b ∈ t.queued.map fst ∨
      b ∈ t.confirming.map fst → b ∈ s.lock.targets ∨ b ∈ s.queued.map fst ∨
        b ∈ s.confirming.map fst) : t.Answered where
  workers := by
    rw [hsubs]
    exact fun b hb => h.workers b (hworkers b hb)
  single := by rw [hwanted, hflight, htokens]; exact h.single
  rest := by rw [hwanted, hflight]; exact h.rest

theorem acquire (h : s.Answered) (hw : s.Watched) (hbal : s.Balanced) (hlock : s.lock = .free)
    (key : BlockKey) : (s.tryAcquire key).Answered := by
  have hfree : s.lock.wanted = none := by rw [hlock]; rfl
  by_cases htokens : s.tokens = 0
  · obtain ⟨k, ks, hlru⟩ := hbal.exists_oldest hlock htokens
    obtain ⟨l, hl, hkl⟩ := hbal.listed.mem k (hlru ▸ List.mem_cons_self)
    -- the block has a buffer, and only one
    have hsubs := hw.lists k.1 l hl (List.ne_nil_of_mem hkl)
    have hlen : (s.subs k.1).length = 1 :=
      le_antisymm (hbal.alone k.1) (List.length_pos_iff.mpr hsubs)
    obtain ⟨-, hq, hc, hr⟩ := inFlight_eq_zero.mp (h.rest hfree)
    rw [tryAcquire_evict htokens hbal.listed hlru]
    exact
      { workers := by
          intro b hb
          simp only [hq, hc, map_zero, notMem_zero, or_false] at hb
          exact ⟨k.1, hb⟩
        single := by
          intro _ _
          simp [inFlight, unsent, hlen, hq, hc, hr, htokens]
        rest := by simp [wanted] }
  · rw [tryAcquire, if_pos (Nat.pos_of_ne_zero htokens)]
    exact h.withLock hfree hfree (by rw [hlock]; rfl) rfl rfl rfl

theorem take (h : s.Answered) (hlock : s.lock = .waiting key)
    (hpos : 0 < s.tokens) (ht : t.lock = .free) (hqueued : t.queued = s.queued)
    (hconfirming : t.confirming = s.confirming) (hreleasing : t.releasing = s.releasing) :
    t.Answered := by
  have hsingle := h.single key (by rw [hlock]; rfl)
  have hflight : s.inFlight = 0 := card_eq_zero.mp (by omega)
  obtain ⟨-, hq, hc, hr⟩ := inFlight_eq_zero.mp hflight
  refine of_rest (by rw [ht]; rfl) (inFlight_eq_zero.mpr ⟨by rw [ht]; rfl, ?_, ?_, ?_⟩)
  · rw [hqueued, hq]
  · rw [hconfirming, hc]
  · rw [hreleasing, hr]

variable [DecidableEq β]

theorem release (h : s.Answered) {k : Option BlockKey} (hr : s.releasing = some k) :
    ((Event.release k).next s).Answered where
  workers := h.workers
  single := by
    intro key hkey
    have hsingle := h.single key hkey
    rw [inFlight_release hr, card_cons] at hsingle
    show ((Event.release k).next s).inFlight.card + (s.tokens + 1) = 1
    omega
  rest := by
    intro hwanted
    have hflight := h.rest hwanted
    rw [inFlight_release hr] at hflight
    exact absurd hflight (cons_ne_zero)

theorem exit (h : s.Answered) (hw : s.Watched) {b : β} (he : (Event.exit b).Enabled s) :
    ((Event.exit b).next s).Answered := by
  have hfilter : s.queued.filter (fun q => q.1 ≠ b) = s.queued := by
    rw [filter_eq_self]
    rintro q hq rfl
    obtain ⟨ino, hino⟩ := h.workers q.1 (.inr (.inl (mem_map_of_mem _ hq)))
    exact hw.notMem_subs_of_exit he ino hino
  refine h.move rfl ?_ rfl rfl ?_
  · rw [inFlight, inFlight]
    simp only [Event.next, hfilter]
  · intro b'
    simp only [Event.next, hfilter]
    exact id

theorem next (h : s.Answered) (hw : s.Watched) (hbal : s.Balanced)
    (he : e.Enabled s) : (e.next s).Answered := by
  cases e with
  | register b ino =>
    have hfree : s.lock.wanted = none := by rw [he.1]; rfl
    exact h.withLock hfree hfree (by rw [Event.next, he.1]; rfl) rfl rfl rfl
  | acquire key => exact h.acquire hw hbal he key
  | publish key oldest b bs =>
    refine h.move (by rw [he.1]; rfl) (inFlight_publish he.1) rfl rfl ?_
    rw [he.1]
    intro b' hb'
    simp only [Event.next, targets, map_cons, mem_cons,
      List.mem_cons] at hb' ⊢
    tauto
  | published key oldest =>
    have hlock : s.lock = .publishing key oldest [] := he
    refine h.move (by rw [hlock]; rfl) ?_ rfl rfl ?_
    · rw [inFlight, inFlight, hlock]
      rfl
    · rw [hlock]
      exact fun _ hb' => hb'
  | take key => exact h.take he.1 he.2 rfl rfl rfl rfl
  | receive b k =>
    refine h.move rfl (inFlight_receive he.1) rfl rfl ?_
    intro b' hb'
    obtain ⟨q, hq⟩ := exists_cons_of_mem he.1
    simp only [Event.next, hq, erase_cons_head, map_cons,
      mem_cons] at hb' ⊢
    tauto
  | confirm b k =>
    refine h.move rfl (inFlight_confirm he.1 he.2) rfl rfl ?_
    intro b' hb'
    obtain ⟨c, hc⟩ := exists_cons_of_mem he.1
    simp only [Event.next, hc, erase_cons_head, map_cons,
      mem_cons] at hb' ⊢
    tauto
  | release k => exact h.release he.1
  | unRegister b ino =>
    exact h.withLock (by rw [he.1]; rfl) rfl rfl rfl rfl rfl
  | putBack b left => exact h.withLock (by rw [he.1]; rfl) rfl rfl rfl rfl rfl
  | unlock b =>
    have hlock : s.lock = .unregistering b 0 := he
    exact h.withLock (by rw [hlock]; rfl) rfl rfl rfl rfl rfl
  | close b => exact { h with }
  | exit b => exact h.exit hw he

end Answered

/-! ### No deadlock -/

def Event.Internal : Event β → Prop
  | .receive _ _ | .confirm _ _ | .release _ => True
  | _ => False

def distance (s : Throttler β) : ℕ :=
  3 * s.queued.card + 2 * s.confirming.card + s.releasing.elim 0 fun _ => 1

variable [DecidableEq β]

theorem exists_step (hbal : s.Balanced) (hw : s.Watched) (ha : s.Answered)
    (hlock : s.lock = .waiting key) (htokens : s.tokens = 0) :
    ∃ e : Event β, e.Enabled s ∧ e.Internal ∧ (e.next s).distance < s.distance := by
  have hsingle := ha.single key (by rw [hlock]; rfl)
  rw [htokens, inFlight, hlock] at hsingle
  simp only [unsent, zero_add, add_zero, card_add,
    card_map] at hsingle
  cases hr : s.releasing with
  | some k =>
    refine ⟨.release k, ⟨hr, htokens ▸ hbal.pos⟩, trivial, ?_⟩
    simp [distance, Event.next, hr]
  | none =>
    simp only [hr, Option.elim, card_zero, add_zero] at hsingle
    by_cases hc : s.confirming = 0
    · -- the request is in the channel of a buffer, whose goroutine listens
      rw [hc, card_zero, add_zero] at hsingle
      obtain ⟨⟨b, k⟩, hq⟩ : ∃ q, q ∈ s.queued :=
        card_pos_iff_exists_mem.mp (by omega)
      obtain ⟨ino, hb⟩ := ha.workers b (.inr (.inl (mem_map_of_mem fst hq)))
      refine ⟨.receive b k, ⟨hq, (hw.alive ino b hb).2.2.2, by simp [hc]⟩, trivial, ?_⟩
      have hcard := card_erase_add_one hq
      simp only [distance, Event.next, card_cons]
      omega
    · obtain ⟨⟨b, k⟩, hmem⟩ := exists_mem_of_ne_zero hc
      refine ⟨.confirm b k, ⟨hmem, hr⟩, trivial, ?_⟩
      have hcard := card_erase_add_one hmem
      simp only [distance, Event.next, hr, Option.elim]
      omega

/-- In every run in which no inode has two buffers and only registered buffers get tokens:
whenever a `TryAcquire` waits for a token, the goroutines of the buffers and the event loop
can put one into the channel without any other step. -/
theorem waiting_gets_token {limit : ℤ}
    (hs : Reach Event.next (fun s e => e.Enabled s ∧ e.Alone s ∧ e.Subscribed s)
      (new β limit) s) {key : BlockKey} (hlock : s.lock = .waiting key) :
    ∃ s', Reach Event.next (fun s e => e.Enabled s ∧ e.Internal) s s' ∧
      s'.lock = .waiting key ∧ 0 < s'.tokens := by
  have h : s.Balanced ∧ s.Watched ∧ s.Answered :=
    Reach.invariant (I := fun s : Throttler β => s.Balanced ∧ s.Watched ∧ s.Answered)
      (fun _ _ hI hok => ⟨hI.1.next hok.1 hok.2.1, hI.2.1.next hI.1 hok.1 hok.2.1 hok.2.2,
        hI.2.2.next hI.2.1 hI.1 hok.1⟩) hs ⟨.new limit, .new limit, .new limit⟩
  have hstep : ∀ s : Throttler β,
      (s.Balanced ∧ s.Watched ∧ s.Answered) ∧ s.lock = .waiting key → ¬0 < s.tokens →
      ∃ e : Event β, (e.Enabled s ∧ e.Internal) ∧
        (((e.next s).Balanced ∧ (e.next s).Watched ∧ (e.next s).Answered) ∧
          (e.next s).lock = .waiting key) ∧ (e.next s).distance < s.distance := by
    intro s hI hzero
    obtain ⟨hbal, hw, ha⟩ := hI.1
    obtain ⟨e, he, hint, hlt⟩ :=
      exists_step hbal hw ha hI.2 (Nat.eq_zero_of_not_pos hzero)
    refine ⟨e, ⟨he, hint⟩, ⟨?_, ?_⟩, hlt⟩
    · cases e with
      | receive | confirm | release =>
        exact ⟨hbal.next he trivial, hw.next hbal he trivial trivial, ha.next hw hbal he⟩
      | _ => exact absurd hint id
    · cases e with
      | receive | confirm | release => exact hI.2
      | _ => exact absurd hint id
  obtain ⟨s', hreach, hI, hgoal⟩ := exists_reach distance hstep ⟨h, hlock⟩
  exact ⟨s', hreach, hI.2, hgoal⟩

def attendedSteps : List (Event Bool) :=
  [.register false 1, .register true 2, .acquire (1, 0), .acquire (2, 0),
    .publish (2, 0) (some (1, 0)) false [], .published (2, 0) (some (1, 0))]

theorem waiting_gets_token_sample :
    let s := exec Event.next attendedSteps (new Bool 1)
    ∃ s', Reach Event.next (fun s e => e.Enabled s ∧ e.Internal) s s' ∧
      s'.lock = .waiting (2, 0) ∧ 0 < s'.tokens := by
  have hs : Reach Event.next (fun s e => e.Enabled s ∧ e.Alone s ∧ e.Subscribed s)
      (new Bool 1) (exec Event.next attendedSteps (new Bool 1)) :=
    reach_exec (by decide +kernel)
  exact waiting_gets_token hs (by decide +kernel)

/-! ### A deadlock -/

structure Deadlocked (key : BlockKey) (s : Throttler β) : Prop where
  lock : s.lock = .waiting key
  tokens : s.tokens = 0
  flight : s.inFlight = 0

theorem Deadlocked.next (h : s.Deadlocked key) (he : e.Enabled s) : (e.next s).Deadlocked key := by
  obtain ⟨-, hq, hc, hr⟩ := inFlight_eq_zero.mp h.flight
  cases e with
  | register b ino => exact absurd he.1 (by simp [h.lock])
  | acquire key' => exact absurd (show s.lock = .free from he) (by simp [h.lock])
  | publish key' oldest b bs => exact absurd he.1 (by simp [h.lock])
  | published key' oldest =>
    exact absurd (show s.lock = .publishing key' oldest [] from he) (by simp [h.lock])
  | take key' => exact absurd he.2 (by simp [h.tokens])
  | receive b k => exact absurd he.1 (by simp [hq])
  | confirm b k => exact absurd he.1 (by simp [hc])
  | release k => exact absurd he.1 (by simp [hr])
  | unRegister b ino => exact absurd he.1 (by simp [h.lock])
  | putBack b left => exact absurd he.1 (by simp [h.lock])
  | unlock b => exact absurd (show s.lock = .unregistering b 0 from he) (by simp [h.lock])
  | close b => exact { h with }
  | exit b =>
    refine ⟨h.lock, h.tokens, ?_⟩
    exact le_zero.mp (h.flight ▸ inFlight_exit_le b)

def orphanSteps : List (Event Bool) :=
  [.register false 1, .unRegister false 1, .unlock false, .acquire (1, 0), .acquire (1, 1),
    .published (1, 1) (some (1, 0))]

theorem waiting_for_ever :
    ∃ s, Reach Event.next (fun s e => e.Enabled s) (new Bool 1) s ∧
      s.lock = .waiting (1, 1) ∧
      ∀ s', Reach Event.next (fun s e => e.Enabled s) s s' →
        s'.lock = .waiting (1, 1) ∧ s'.tokens = 0 := by
  refine ⟨exec Event.next orphanSteps (new Bool 1), reach_exec (by decide +kernel),
    by decide +kernel, fun s' hs' => ?_⟩
  have hdead : (exec Event.next orphanSteps (new Bool 1)).Deadlocked (1, 1) :=
    ⟨by decide +kernel, by decide +kernel, by decide +kernel⟩
  have h : s'.Deadlocked (1, 1) :=
    Reach.invariant (I := Deadlocked (1, 1)) (fun _ _ hI he => hI.next he) hs' hdead
  exact ⟨h.lock, h.tokens⟩

end Throttler

end HugoFS.Vfs.Buffer
