import Mathlib.Data.List.Induction
import Tinyflows.Cron.Lemmas.RunLoop

/-!
# Callbacks of a claimed run

However the host replies, whenever the loop around a run renews its claim and whenever it is stopped, the
callbacks of the run come in order, and none is started once the claim is known to be lost. The one
exception is the commit: after the delivery, the loop no longer keeps the work from it.
-/

namespace Tinyflows.Cron
open Lib List

variable {d : Driver} {rt : Nat}

theorem runInv_initial : RunInv d rt {} where
  orderly before c after h := by
    cases before <;> cases h
  kept _ _ e he := absurd he not_mem_nil

theorem polled_initial : Polled [] Any {} :=
  ⟨rfl, rfl, trivial⟩

theorem orderly_of_ensures {α} {x : Runtime α} {Q E}
    (hx : Ensures (runTerms d rt) (Polled [] Any) x Q E)
    {p : Work (Except String α)} {s} (h : (runLoop d).Reaches (x.run, {}) (p, s)) :
    Orderly d rt s.trace :=
  (Surroundings.meets_reaches RunInv.moves runInv_initial (hx {} runInv_initial polled_initial) h).1.orderly

variable {tr : List RunEvent}

theorem countP_starts_le {k n} (h : ∀ be c af, tr = be ++ .started c :: af → c.kind = k →
      be.countP (·.starts k) ≤ n) : tr.countP (·.starts k) ≤ n + 1 := by
  induction tr using reverseRecOn with
  | nil => exact Nat.zero_le _
  | append_singleton tr e ih =>
    rw [countP_append, countP_singleton]
    split_ifs with he
    · cases e with
      | started c => exact Nat.succ_le_succ (h tr c [] rfl (of_decide_eq_true he))
      | _ => cases he
    · exact ih fun be c af hq => h be c (af ++ [e]) (by rw [hq]; simp)

theorem countP_le_one {k} (ki) (hk : k ∈ ki)
    (h : ∀ be c af, tr = be ++ .started c :: af → c.kind = k → NoneStarted ki be) :
    tr.countP (·.starts k) ≤ 1 := by
  refine countP_starts_le fun be c af hq hc => Nat.le_of_eq ?_
  rw [countP_eq_zero]
  intro e he hs
  rw [h be c af hq hc e he k hk] at hs
  cases hs

/-- How often each callback is started at most. -/
structure Counted (retries : Nat) (trace : List RunEvent) : Prop where
  attempts : trace.countP (·.starts .attempt) ≤ retries + 1
  failed : trace.countP (·.starts .failed) ≤ 1
  send : trace.countP (·.starts .send) ≤ 1
  complete : trace.countP (·.starts .complete) ≤ 1

theorem Orderly.counted (h : Orderly d rt tr) : Counted rt tr where
  attempts := countP_starts_le fun be c af he hc => by
    cases c with
    | attempt sink ri => exact (h _ _ _ he).1
    | _ => cases hc
  failed := countP_le_one [.failed, .send, .deliver, .complete] (by simp)
    fun be c af he hc => by
      cases c with
      | failed ri a => exact (h _ _ _ he).2.2.2.1
      | _ => cases hc
  send := countP_le_one [.send, .deliver, .complete] (by simp) fun be c af he hc => by
    cases c with
    | send ri a => exact (h _ _ _ he).2.2.1
    | _ => cases hc
  complete := countP_le_one [.complete] (by simp) fun be c af he hc => by
    cases c with
    | completeOccurrence re co => exact (h _ _ _ he).1
    | _ => cases hc

section Runs

variable (cal : Calendar) (config : SchedulerConfig) (claim : OccurrenceClaim) (delivery : ManualDelivery)

/-- Whatever is answered and wherever a renewal or a stop comes in between, the callbacks of a claimed run are
started in order, each no more often than it may be. -/
theorem callbacks_fenced (advance permits : Bool) :
    (∀ p s, (runLoop .renewing).Reaches
        ((runClaimWithRenewal cal config claim delivery advance permits).run, {}) (p, s) →
      Orderly .renewing (retriesOf config claim.job) s.trace ∧
        Counted (retriesOf config claim.job) s.trace) ∧
    (∀ p s, (runLoop .cooperative).Reaches
        ((executeAndPersistInner cal config claim delivery false).run, {}) (p, s) →
      Orderly .cooperative (retriesOf config claim.job) s.trace ∧
        Counted (retriesOf config claim.job) s.trace) := by
  refine ⟨fun p s h => ?_, fun p s h => ?_⟩
  · have horderly := orderly_of_ensures (ensures_runClaimWithRenewal rfl) h
    exact ⟨horderly, horderly.counted⟩
  · have horderly := orderly_of_ensures (ensures_executeAndPersistInner rfl executing_nil) h
    exact ⟨horderly, horderly.counted⟩

end Runs

/-! ## A renewal that fails during the delivery -/

/-- No callback is started after a lost renewal. -/
def Fenced (trace : List RunEvent) : Prop :=
  trace.Pairwise fun e e' => e.lost → ∀ k ∈ [Kind.attempt, .failed, .send, .complete], e'.starts k = false

instance (trace : List RunEvent) : Decidable (Fenced trace) :=
  inferInstanceAs (Decidable (trace.Pairwise _))

def grants : (c : Callback) → c.Reply
  | .acquirePermit => .ok ()
  | .renewOccurrence _ => .ok true
  | .attempt _ _ => .ok { success := true, output := "done", retryable := false }
  | .failed _ _ => ()
  | .send _ _ => .ok .delivered
  | .deliver _ => .ok ()
  | .completeOccurrence _ _ => .ok true
  | .releaseOccurrence _ => .ok true
  | .sleep _ => false

def granting (s : RunState) : (c : RuntimeCall) → c.Reply × RunState
  | .start c => ((), { s with waiting := c.polled, trace := s.trace ++ [.started c] })
  | .reply c => (grants c, { s with waiting := false, trace := s.trace ++ [.replied c (grants c)] })
  | .stopped => (s.stop, s)
  | .cancelled => (false, s)
  | .now => (100, s)
  | .uuid => ("run", s)

theorem runServes_granting (s c) : RunServes s c (granting s c).1 (granting s c).2 := by
  cases c with
  | start c => exact .start c
  | reply c => exact .reply c _
  | stopped => exact .stopped
  | cancelled => exact .cancelled _
  | now => exact .now _
  | uuid => exact .uuid _

def minutely : OccurrenceClaim where
  claim := {
    job := { id := "job", schedule := .every 60000, createdAt := 0, nextRun := 100 }
    lease := {
      owner := "worker", token := "token", epoch := 1, incarnation := "job", occurrence := 100
      startedAt := 100, expiresAt := 7200100 } }

def minutelyRun : Work (Except String ManualRunOutcome) :=
  (runClaimWithRenewal noCalendar {} minutely .requested true true).run

def sending : Work (Except String ManualRunOutcome) × RunState :=
  minutelyRun.after granting 20 {}

theorem minutely_run_fenced : (runLoop .renewing).Reaches (minutelyRun, {}) sending ∧
    Orderly .renewing 2 sending.2.trace ∧ Counted 2 sending.2.trace :=
  have hsending : (runLoop .renewing).Reaches (minutelyRun, {}) sending :=
    Surroundings.reaches_after runServes_granting _ _ _
  ⟨hsending, (callbacks_fenced noCalendar {} minutely .requested true true).1 _ _ hsending⟩

def disturbed : RunState :=
  { sending.2 with
    stop := true
    renewals := false
    trace := sending.2.trace ++ [.renewed (.error "unavailable")] }

theorem commit_after_failed_renewal : ∃ p s, (runLoop .renewing).Reaches (minutelyRun, {}) (p, s) ∧
    ¬ Fenced s.trace := by
  have hsending : (runLoop .renewing).Reaches (minutelyRun, {}) sending :=
    Surroundings.reaches_after runServes_granting _ _ _
  have hbeat : (runLoop .renewing).Step sending (sending.1, disturbed) :=
    .move (.beat (.error "unavailable") (by decide +kernel) (by decide +kernel))
  -- The next renewal, which is the work's, succeeds, and the run is committed.
  have hcommitted : (runLoop .renewing).Reaches (sending.1, disturbed)
      (sending.1.after granting 8 disturbed) :=
    Surroundings.reaches_after runServes_granting _ _ _
  exact ⟨_, _, (hsending.tail hbeat).trans hcommitted, by decide +kernel⟩

end Tinyflows.Cron
