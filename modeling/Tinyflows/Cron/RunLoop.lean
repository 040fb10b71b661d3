import Tinyflows.Cron.Runtime

/-!
# The loop around a run

While the work waits for a callback, the loop around it renews the claim and looks out for a stop. The
work is not polled while the loop does either, and the loop does nothing while the work is polled.
-/

namespace Tinyflows.Cron
open Lib

/-- A claimed run is stopped by its loop when a renewal fails; a cooperative one by its caller only. -/
inductive Driver where
  | renewing
  | cooperative
  deriving DecidableEq

inductive RunEvent where
  | started (c : Callback)
  | replied (c : Callback) (r : c.Reply)
  | renewed (r : Except String Bool)

def confirmed : Except String Bool → Bool
  | .ok owned => owned
  | .error _ => false

structure RunState where
  waiting : Bool := false
  stop : Bool := false
  renewals : Bool := true
  trace : List RunEvent := []

/-- The loop is over by the time the claim is released. -/
def Callback.polled : Callback → Bool
  | .releaseOccurrence _ => false
  | _ => true

inductive RunServes (s : RunState) : (c : RuntimeCall) → c.Reply → RunState → Prop
  | start (c : Callback) :
      RunServes s (.start c) () { s with waiting := c.polled, trace := s.trace ++ [.started c] }
  | reply (c : Callback) (r : c.Reply) :
      RunServes s (.reply c) r { s with waiting := false, trace := s.trace ++ [.replied c r] }
  | stopped : RunServes s .stopped s.stop s
  | cancelled (b : Bool) : RunServes s .cancelled b s
  | now (now : Int) : RunServes s .now now s
  | uuid (id : String) : RunServes s .uuid id s

inductive LoopMoves : Driver → RunState → RunState → Prop
  | beat {d : Driver} {s : RunState} (r : Except String Bool) (hwaiting : s.waiting = true)
      (hrenewals : s.renewals = true) :
      LoopMoves d s { s with
        stop := s.stop || (decide (d = .renewing) && !confirmed r)
        renewals := confirmed r
        trace := s.trace ++ [.renewed r] }
  | cancel {s : RunState} (hwaiting : s.waiting = true) :
      LoopMoves .renewing s { s with stop := true }
  | stop {s : RunState} : LoopMoves .cooperative s { s with stop := true }

def runLoop (d : Driver) : Surroundings RunState RuntimeCall RuntimeCall.Reply where
  serves := RunServes
  moves := LoopMoves d

/-! ## What a trace shows -/

inductive Kind where
  | attempt
  | failed
  | send
  | deliver
  | complete
  | other
  deriving DecidableEq

def Callback.kind : Callback → Kind
  | .attempt _ _ => .attempt
  | .failed _ _ => .failed
  | .send _ _ => .send
  | .deliver _ => .deliver
  | .completeOccurrence _ _ => .complete
  | _ => .other

namespace RunEvent

def starts (k : Kind) : RunEvent → Bool
  | .started c => c.kind = k
  | _ => false

def lost : RunEvent → Bool
  | .replied (.renewOccurrence _) r => !confirmed r
  | .renewed r => !confirmed r
  | _ => false

def own : RunEvent → Bool
  | .renewed _ => false
  | _ => true

def attemptReply? : RunEvent → Option (Except String Attempt)
  | .replied (.attempt _ _) r => some r
  | _ => none

def ends (e : RunEvent) : Bool :=
  e.attemptReply?.any fun r => (attemptOf r none).success || !(attemptOf r none).retryable

def settles : RunEvent → Bool
  | .replied (.attempt _ _) r => (attemptOf r none).success
  | .replied (.failed _ _) _ => true
  | _ => false

def renews : RunEvent → Bool
  | .replied (.renewOccurrence _) r => confirmed r
  | _ => false

end RunEvent

def attemptCount (trace : List RunEvent) : Nat :=
  trace.countP (·.starts .attempt)

def NoneStarted (kinds : List Kind) (trace : List RunEvent) : Prop :=
  ∀ e ∈ trace, ∀ k ∈ kinds, e.starts k = false

def LastAttempt (trace : List RunEvent) (attempt : Attempt) : Prop :=
  ∃ r detail, (trace.filterMap RunEvent.attemptReply?).getLast? = some r ∧ attempt = attemptOf r detail

def NoneLost (d : Driver) (trace : List RunEvent) : Prop :=
  ∀ e ∈ trace, e.lost → d = .cooperative ∧ e.own = false

/-- Execution has ended, and the work has renewed the claim since. -/
def Deliverable (trace : List RunEvent) : Prop :=
  ∃ e e', [e, e'].Sublist trace ∧ e.settles ∧ e'.renews

def MayStart (d : Driver) (retries : Nat) (before : List RunEvent) : Callback → Prop
  | .attempt _ _ => attemptCount before ≤ retries ∧ (∀ e ∈ before, e.ends = false) ∧
      NoneStarted [.failed, .send, .deliver, .complete] before ∧ NoneLost d before
  | .failed _ a => LastAttempt before a ∧ a.success = false ∧
      (a.retryable = false ∨ attemptCount before = retries + 1) ∧
      NoneStarted [.failed, .send, .deliver, .complete] before ∧ NoneLost d before
  | .send runId a => LastAttempt before a ∧ (a.success ∨ .replied (.failed runId a) () ∈ before) ∧
      NoneStarted [.send, .deliver, .complete] before ∧ NoneLost d before
  | .deliver _ => NoneStarted [.deliver, .complete] before ∧ NoneLost d before
  | .completeOccurrence _ _ => NoneStarted [.complete] before ∧
      (∀ e ∈ before, e.lost → e.own = false) ∧
      (d = .renewing → ∀ earlier e later, before = earlier ++ e :: later → e.lost → Deliverable earlier)
  | _ => True

/-- Whatever was started was allowed to be. -/
def Orderly (d : Driver) (retries : Nat) (trace : List RunEvent) : Prop :=
  ∀ before c after, trace = before ++ .started c :: after → MayStart d retries before c

end Tinyflows.Cron
