import HugoFS.Storage.Node

/-!
# Restoring a block

`ObjectSyncer.Restore` hands its work to an executor and returns its named results, which the
goroutine assigns; nothing makes the caller wait for it.
-/

namespace HugoFS.Storage

open Runs

inductive RestoreError
  | get
  | select
  | decode
  | write (e : VolumeError)
deriving DecidableEq

/-- What the goroutine is answered: the object, whether the volume is there, whether the id is
hexadecimal, and the reply of `WriteBlock`. Without a reply `WriteBlock` does not come back. -/
structure RestoreAnswers where
  object : Option Bytes
  selected : Bool
  decoded : Bool
  written : Option (Except VolumeError Unit)

inductive RestoreJob
  | unstarted
  | get
  | select
  | decode
  | write
  | ended
deriving DecidableEq

inductive RestoreCaller
  | execute
  | started
  | gotData (theData : Bytes) (seen : RestoreJob)
  | returned (theData : Bytes) (theErr : Option RestoreError)

def RestoreCaller.seen? : RestoreCaller → Option RestoreJob
  | .gotData _ seen => some seen
  | .execute | .started | .returned _ _ => none

structure RestoreRun where
  tokens : ℕ
  caller : RestoreCaller
  job : RestoreJob
  theData : Bytes
  theErr : Option RestoreError

def newRestoreRun (tokens : ℕ) : RestoreRun := ⟨tokens, .execute, .unstarted, [], none⟩

inductive RestoreStep
  | caller
  | job
  /-- Another job takes a token. -/
  | take
  /-- Another job gives its token back. -/
  | give
deriving DecidableEq

namespace RestoreRun

def finish (st : RestoreRun) (theErr : Option RestoreError) : RestoreRun :=
  { st with tokens := st.tokens + 1, job := .ended, theErr := theErr }

def work (ans : RestoreAnswers) (st : RestoreRun) : RestoreRun :=
  match st.job with
  | .unstarted | .ended => st
  | .get =>
    match ans.object with
    | none => st.finish (some .get)
    | some data => { st with theData := data, job := .select }
  | .select => if ans.selected then { st with job := .decode } else st.finish (some .select)
  | .decode => if ans.decoded then { st with job := .write } else st.finish (some .decode)
  | .write =>
    match ans.written with
    | none => st
    | some (.error e) => st.finish (some (.write e))
    | some (.ok _) => st.finish st.theErr

def call (st : RestoreRun) : RestoreRun :=
  match st.caller with
  | .execute =>
    if st.tokens = 0 then st
    else { st with tokens := st.tokens - 1, caller := .started, job := .get }
  | .started => { st with caller := .gotData st.theData st.job }
  | .gotData theData _ => { st with caller := .returned theData st.theErr }
  | .returned _ _ => st

end RestoreRun

def RestoreStep.next (ans : RestoreAnswers) : RestoreStep → RestoreRun → RestoreRun
  | .caller, st => st.call
  | .job, st => st.work ans
  | .take, st => { st with tokens := st.tokens - 1 }
  | .give, st => { st with tokens := st.tokens + 1 }

/-! ### How far the goroutine is -/

def RestoreJob.answered : RestoreJob → Bool
  | .unstarted | .get => false
  | .select | .decode | .write | .ended => true

namespace RestoreAnswers

def fails (ans : RestoreAnswers) : Bool :=
  !(ans.object.isSome && ans.selected && ans.decoded) ||
    match ans.written with
    | some (.error _) => true
    | _ => false

def Leads (ans : RestoreAnswers) : RestoreJob → Prop
  | .unstarted | .get | .ended => True
  | .select => ans.object.isSome
  | .decode => ans.object.isSome ∧ ans.selected
  | .write => ans.object.isSome ∧ ans.selected ∧ ans.decoded

def dataAt (ans : RestoreAnswers) (job : RestoreJob) : Bytes :=
  if job.answered then ans.object.getD [] else []

def InTime (ans : RestoreAnswers) (seen : RestoreJob) : Prop :=
  ans.object.isSome ∧ (seen.answered ∨ ans.object = some [])
deriving Decidable

def Failed (ans : RestoreAnswers) (job : RestoreJob) : Prop := ans.fails ∧ job = .ended
deriving Decidable

theorem object_eq_dataAt_iff (ans : RestoreAnswers) (seen : RestoreJob) :
    ans.object = some (ans.dataAt seen) ↔ ans.InTime seen := by
  rw [InTime, dataAt]
  cases ans.object with
  | none => simp
  | some data => cases seen.answered <;> simp

end RestoreAnswers

namespace RestoreRun

variable {ans : RestoreAnswers} {st : RestoreRun} {Q : Bytes → Option RestoreError → Prop}

structure Sound (ans : RestoreAnswers) (st : RestoreRun) : Prop where
  leads : ans.Leads st.job
  theData : st.theData = ans.dataAt st.job
  theErr : st.theErr.isSome ↔ ans.Failed st.job
  gotData : ∀ d seen, st.caller = .gotData d seen → d = ans.dataAt seen
  unstarted : st.caller = .execute → st.job = .unstarted

open RestoreAnswers

theorem Sound.new (ans : RestoreAnswers) (tokens : ℕ) : (newRestoreRun tokens).Sound ans where
  leads := trivial
  theData := rfl
  theErr := by simp [newRestoreRun, Failed]
  gotData := by simp [newRestoreRun]
  unstarted _ := rfl

section

variable (h : st.Sound ans)
include h

theorem Sound.goTo {job : RestoreJob} {data : Bytes} (hstarted : st.caller ≠ .execute)
    (hleads : ans.Leads job) (hdata : data = ans.dataAt job) (hjob : st.job ≠ .ended)
    (hjob' : job ≠ .ended) : ({ st with theData := data, job := job } : RestoreRun).Sound ans where
  leads := hleads
  theData := hdata
  theErr := h.theErr.trans (iff_of_false (fun hf => hjob hf.2) fun hf => hjob' hf.2)
  gotData := h.gotData
  unstarted hc := absurd hc hstarted

theorem Sound.finish {theErr : Option RestoreError} (hstarted : st.caller ≠ .execute)
    (hdata : st.theData = ans.object.getD []) (herr : theErr.isSome ↔ ans.fails) :
    (st.finish theErr).Sound ans where
  leads := trivial
  theData := hdata
  theErr := herr.trans (by simp [Failed, RestoreRun.finish])
  gotData := h.gotData
  unstarted hc := absurd hc hstarted

theorem Sound.work : (st.work ans).Sound ans := by
  have hstarted : st.job ≠ .unstarted → st.caller ≠ .execute := mt h.unstarted
  have hdata := h.theData
  have hleads := h.leads
  rw [RestoreRun.work]
  cases hjob : st.job with
  | unstarted => exact h
  | ended => exact h
  | get =>
    rw [hjob] at hstarted hdata
    cases hobject : ans.object with
    | none =>
      refine h.finish (hstarted (by decide)) ?_ (by simp [fails, hobject])
      rw [hdata, hobject]
      rfl
    | some data =>
      refine h.goTo (hstarted (by decide)) ?_ ?_ (by simp [hjob]) (by decide)
      · simp [Leads, hobject]
      · simp [dataAt, RestoreJob.answered, hobject]
  | select =>
    rw [hjob] at hstarted hdata hleads
    dsimp only
    split_ifs with hselected
    · exact h.goTo (hstarted (by decide)) ⟨hleads, hselected⟩ hdata (by simp [hjob]) (by decide)
    · exact h.finish (hstarted (by decide)) hdata (by simp [fails, hselected])
  | decode =>
    rw [hjob] at hstarted hdata hleads
    dsimp only
    split_ifs with hdecoded
    · exact h.goTo (hstarted (by decide)) ⟨hleads.1, hleads.2, hdecoded⟩ hdata (by simp [hjob])
        (by decide)
    · exact h.finish (hstarted (by decide)) hdata (by simp [fails, hdecoded])
  | write =>
    rw [hjob] at hstarted hdata hleads
    obtain ⟨hobject, hselected, hdecoded⟩ := hleads
    have hnone : st.theErr.isSome = false := by
      rw [Bool.eq_false_iff, ne_eq, h.theErr, Failed, hjob]
      simp
    cases hwritten : ans.written with
    | none => exact h
    | some reply =>
      cases reply with
      | error e =>
        exact h.finish (hstarted (by decide)) hdata (by simp [fails, hwritten])
      | ok u =>
        refine h.finish (hstarted (by decide)) hdata ?_
        simp [hnone, fails, hwritten, hobject, hselected, hdecoded]

theorem Sound.call : st.call.Sound ans := by
  rw [RestoreRun.call]
  cases hcaller : st.caller with
  | execute =>
    have hjob := h.unstarted hcaller
    have hdata := h.theData
    rw [hjob] at hdata
    dsimp only
    split_ifs with htokens
    · exact h
    refine ⟨trivial, hdata, ?_, by simp, by simp⟩
    rw [h.theErr, hjob]
    simp [Failed]
  | started =>
    refine ⟨h.leads, h.theData, h.theErr, fun d seen hc => ?_, by simp⟩
    cases hc
    exact h.theData
  | gotData d seen => exact ⟨h.leads, h.theData, h.theErr, by simp, by simp⟩
  | returned d e => exact h

theorem Sound.next (c : RestoreStep) : (c.next ans st).Sound ans := by
  cases c with
  | caller => exact h.call
  | job => exact h.work
  | take => exact ⟨h.leads, h.theData, h.theErr, h.gotData, h.unstarted⟩
  | give => exact ⟨h.leads, h.theData, h.theErr, h.gotData, h.unstarted⟩

end

/-! ### What the caller returns -/

def Meets (Q : Bytes → Option RestoreError → Prop) (st : RestoreRun) : Prop :=
  ∀ d e, st.caller = .returned d e → Q d e

def Reads (T : RestoreJob → RestoreJob → Prop) (st : RestoreRun) (c : RestoreStep) : Prop :=
  c = .caller → ∀ seen ∈ st.caller.seen?, T seen st.job

instance (T : RestoreJob → RestoreJob → Prop) [∀ seen job, Decidable (T seen job)]
    (st : RestoreRun) (c : RestoreStep) : Decidable (st.Reads T c) :=
  inferInstanceAs (Decidable (_ → _))

theorem seen?_eq_some {k : RestoreCaller} {seen : RestoreJob} :
    k.seen? = some seen ↔ ∃ d, k = .gotData d seen := by
  cases k <;> simp [RestoreCaller.seen?]

theorem work_caller : (st.work ans).caller = st.caller := by
  rw [work]
  repeat' split
  all_goals rfl

open RestoreStep

theorem returned_exec {d : Bytes} {e : Option RestoreError} (h : st.caller = .returned d e)
    (steps : List RestoreStep) :
    (exec (next ans) steps st).caller = .returned d e := by
  induction steps generalizing st with
  | nil => exact h
  | cons c steps ih =>
    apply ih
    cases c with
    | caller => simp [next, call, h]
    | job => exact work_caller.trans h
    | take => exact h
    | give => exact h

theorem Meets.next (h : st.Meets Q) {c : RestoreStep}
    (hread : c = .caller → ∀ d seen, st.caller = .gotData d seen → Q d st.theErr) :
    (c.next ans st).Meets Q := by
  intro d e hreturned
  cases c with
  | caller =>
    simp only [RestoreStep.next, call] at hreturned
    cases hcaller : st.caller with
    | execute =>
      simp only [hcaller] at hreturned
      split_ifs at hreturned
      exact h d e hreturned
    | started => simp [hcaller] at hreturned
    | gotData d' seen =>
      simp only [hcaller] at hreturned
      cases hreturned
      exact hread rfl d seen hcaller
    | returned d' e' =>
      simp only [hcaller] at hreturned
      exact h d e (hcaller.trans hreturned)
  | job => exact h d e (work_caller.symm.trans hreturned)
  | take => exact h d e hreturned
  | give => exact h d e hreturned

theorem meets_iff {T : RestoreJob → RestoreJob → Prop}
    (hQ : ∀ st : RestoreRun, st.Sound ans → ∀ seen, Q (ans.dataAt seen) st.theErr ↔ T seen st.job)
    (hs : st.Sound ans) (hm : st.Meets Q) (steps : List RestoreStep) :
    (exec (next ans) steps st).Meets Q ↔
      Legal (next ans) (Reads T) steps st := by
  induction steps generalizing st with
  | nil => exact iff_of_true hm trivial
  | cons c steps ih =>
    have hread : Reads T st c ↔
        (c = .caller → ∀ d seen, st.caller = .gotData d seen → Q d st.theErr) := by
      refine imp_congr_right fun _ => ?_
      constructor
      · intro h d seen hgot
        rw [hs.gotData d seen hgot, hQ st hs]
        exact h seen (seen?_eq_some.mpr ⟨d, hgot⟩)
      · intro h seen hseen
        obtain ⟨d, hgot⟩ := seen?_eq_some.mp hseen
        have hQd := h d seen hgot
        rwa [hs.gotData d seen hgot, hQ st hs] at hQd
    rw [exec_cons, Legal]
    by_cases hok : Reads T st c
    · rw [ih (hs.next c) (hm.next (hread.mp hok)), and_iff_right hok]
    -- the results are wrong, and they stay
    refine iff_of_false (fun hmeets => hok (hread.mpr fun hc d seen hgot => ?_)) fun h => hok h.1
    refine hmeets d st.theErr (returned_exec ?_ steps)
    rw [hc, next, call, hgot]

theorem Meets.new (Q : Bytes → Option RestoreError → Prop) (tokens : ℕ) :
    (newRestoreRun tokens).Meets Q := by
  intro d e h
  cases h

end RestoreRun

end HugoFS.Storage
