import Tinyflows.Cron.Edits
import Tinyflows.Lib.Crashes

/-!
# Running a claimed occurrence

The scheduler executes a claimed job, retrying it, delivers the result and commits it. Everything it
asks of its host is a callback; before each one it makes sure that it still owns the occurrence. A loop
around this work renews the claim in the meantime and passes a stop on to it.
-/

namespace Tinyflows.Cron
open Lib

/-! ## What is asked of the host -/

structure Attempt where
  success : Bool
  output : String
  retryable : Bool
  rawDetail : Option String := none
  deriving DecidableEq

structure RunRecord where
  runId : String
  jobId : String
  jobCreatedAt : Int
  startedAt : Int
  finishedAt : Int
  status : String
  output : String
  deliveryStatus : Option DeliveryStatus
  deriving DecidableEq

structure Completion where
  advanceSchedule : Bool
  remove : Bool
  disable : Bool
  nextRun : Option Int
  finishedAt : Int
  success : Bool
  output : String
  deriving DecidableEq

structure DeliveryProjection where
  job : CronJob
  runId : String
  attempt : Attempt
  success : Bool
  deliveryStatus : Option DeliveryStatus
  deriving DecidableEq

structure OccurrenceClaim where
  claim : ClaimedOccurrence
  runId : Option String := none
  deriving DecidableEq

def OccurrenceClaim.job (claim : OccurrenceClaim) : CronJob :=
  claim.claim.job

def OccurrenceClaim.startedAt (claim : OccurrenceClaim) : Int :=
  claim.claim.lease.startedAt

inductive Sink where
  | executor
  | triggers
  deriving DecidableEq

inductive Callback where
  | acquirePermit
  | renewOccurrence (now : Int)
  | attempt (sink : Sink) (runId : String)
  | failed (runId : String) (attempt : Attempt)
  | send (runId : String) (attempt : Attempt)
  | deliver (projection : DeliveryProjection)
  | completeOccurrence (record : RunRecord) (completion : Completion)
  | releaseOccurrence (now : Int)
  | sleep (ms : Nat)
  deriving DecidableEq

/-- A sleep says whether it was the stop flag that ended it. -/
abbrev Callback.Reply : Callback → Type
  | .acquirePermit => Except String Unit
  | .renewOccurrence _ => Except String Bool
  | .attempt _ _ => Except String Attempt
  | .failed _ _ => Unit
  | .send _ _ => Except String DeliveryStatus
  | .deliver _ => Except String Unit
  | .completeOccurrence _ _ => Except String Bool
  | .releaseOccurrence _ => Except String Bool
  | .sleep _ => Bool

/-- A callback is started and, later, has replied; the rest takes no time. -/
inductive RuntimeCall where
  | start (c : Callback)
  | reply (c : Callback)
  | stopped
  | cancelled
  | now
  | uuid

abbrev RuntimeCall.Reply : RuntimeCall → Type
  | .start _ => Unit
  | .reply c => c.Reply
  | .stopped => Bool
  | .cancelled => Bool
  | .now => Int
  | .uuid => String

abbrev Work := Program RuntimeCall RuntimeCall.Reply

abbrev Runtime := ExceptT String Work

namespace Runtime

def call (c : RuntimeCall) : Runtime c.Reply :=
  ExceptT.lift (.call c .done)

def await (c : Callback) : Runtime c.Reply := do
  call (.start c)
  call (.reply c)

def ofExcept {α : Type} : Except String α → Runtime α
  | .ok a => return a
  | .error e => throw e

end Runtime

/-! ## Execution -/

structure SchedulerConfig where
  retries : Nat := 2
  backoffMs : Nat := 200
  deriving DecidableEq

def ensureClaimOwned (lost : String) : Runtime Unit := do
  let now ← Runtime.call .now
  let owned ← Runtime.ofExcept (← Runtime.await (.renewOccurrence now))
  if owned then return () else throw lost

/-- An attempt that failed in the host may be retried. The last detail that was not empty stays. -/
def attemptOf (reply : Except String Attempt) (lastRawDetail : Option String) : Attempt :=
  let result : Attempt := match reply with
    | .ok result => result
    | .error e => { success := false, output := e, retryable := true }
  let lastRawDetail := if result.rawDetail.any (· ≠ "") then result.rawDetail else lastRawDetail
  { result with rawDetail := lastRawDetail }

def sinkOf (job : CronJob) : Sink :=
  if job.definition.jobType = .flow then .triggers else .executor

def retryDelay (backoffMs : Nat) (now : Int) : Nat :=
  min (backoffMs + (now % 1000).toNat % 250) (2 ^ 64 - 1)

def nextBackoff (backoffMs : Nat) : Nat :=
  min (backoffMs * 2) 30000

def attemptOnce (job : CronJob) (runId : String) (backoffMs : Nat) (lastRawDetail : Option String)
    (again : Option (Option String → Runtime (Option Attempt))) : Runtime (Option Attempt) := do
  if ← Runtime.call .stopped then return none
  else
    ensureClaimOwned "scheduler lost the occurrence before retry attempt"
    if ← Runtime.call .stopped then return none
    else
      let reply ← Runtime.await (.attempt (sinkOf job) runId)
      -- A stop never drops a callback: it is seen once the reply has arrived.
      if ← Runtime.call .stopped then return none
      else
        let result := attemptOf reply lastRawDetail
        if result.success then return some result
        else
          match again.filter fun _ => result.retryable with
          | none =>
            if ← Runtime.call .stopped then return none
            else
              ensureClaimOwned "scheduler lost the occurrence before final failure callback"
              if ← Runtime.call .stopped then return none
              else
                Runtime.await (.failed runId result)
                return some result
          | some again =>
            let now ← Runtime.call .now
            let changed ← Runtime.await (.sleep (retryDelay backoffMs now))
            if changed then
              if ← Runtime.call .stopped then return none else again result.rawDetail
            else again result.rawDetail

def attempts (job : CronJob) (runId : String) : Nat → Nat → Option String → Runtime (Option Attempt)
  | 0, backoffMs, lastRawDetail => attemptOnce job runId backoffMs lastRawDetail none
  | left + 1, backoffMs, lastRawDetail => attemptOnce job runId backoffMs lastRawDetail
      (some (attempts job runId left (nextBackoff backoffMs)))

def retriesOf (config : SchedulerConfig) (job : CronJob) : Nat :=
  job.definition.policy.retries.getD config.retries

def executeWithRetry (config : SchedulerConfig) (job : CronJob) (runId : String) :
    Runtime (Option Attempt) :=
  attempts job runId (retriesOf config job) (max config.backoffMs 200) none

/-! ## Delivery and completion -/

inductive ManualDelivery where
  | requested
  | notRequested
  deriving DecidableEq

structure ManualRunOutcome where
  attempt : Attempt
  success : Bool
  deliveryStatus : Option DeliveryStatus
  deriving DecidableEq

def runSuccess (job : CronJob) (attempt : Attempt) (status : Option DeliveryStatus) (sent : Bool) : Bool :=
  attempt.success &&
    (job.definition.delivery.bestEffort || (sent && decide (status ≠ some .failed)))

def sendResult (delivery : ManualDelivery) (runId : String) (attempt : Attempt) :
    Runtime (Option DeliveryStatus × Bool) :=
  match delivery with
  | .notRequested => return (none, true)
  | .requested => do
    match ← Runtime.await (.send runId attempt) with
    | .ok status => return (some status, true)
    | .error _ => return (some .failed, false)

section Persist

variable (cal : Calendar) (config : SchedulerConfig) (claim : OccurrenceClaim) (delivery : ManualDelivery)
  (advance : Bool)

def runRecord (runId : String) (attempt : Attempt) (finishedAt : Int) (success : Bool)
    (status : Option DeliveryStatus) : RunRecord where
  runId := runId
  jobId := claim.job.id
  jobCreatedAt := claim.job.createdAt
  startedAt := claim.startedAt
  finishedAt := finishedAt
  status := if success then "ok" else "error"
  output := attempt.output
  deliveryStatus := status

def completionOf (attempt : Attempt) (finishedAt : Int) (success : Bool) (nextRun : Option Int) :
    Completion :=
  let oneShot := claim.job.schedule.oneShot
  let remove := advance && oneShot && claim.job.definition.deleteAfterRun && success
  { advanceSchedule := advance
    remove
    disable := advance && oneShot && !remove
    nextRun, finishedAt, success
    output := attempt.output }

def nextRunAfter (finishedAt : Int) : Except String (Option Int) :=
  if ¬ advance ∨ claim.job.schedule.oneShot then .ok none
  else (nextRunForSchedule cal claim.job.schedule finishedAt).map some

/-- A stop that came during the delivery skips the projection, and nothing else. -/
def projectRun (runId : String) (attempt : Attempt) (status : Option DeliveryStatus) (success : Bool) :
    Runtime Unit := do
  ensureClaimOwned "scheduler lost the occurrence before terminal projection"
  if ← Runtime.call .stopped then return ()
  else
    Runtime.ofExcept (← Runtime.await (.deliver
      { job := claim.job, runId, attempt, success, deliveryStatus := status }))

def commitRun (runId : String) (attempt : Attempt) (status : Option DeliveryStatus) (success : Bool) :
    Runtime ManualRunOutcome := do
  let finishedAt ← Runtime.call .now
  let nextRun ← Runtime.ofExcept (nextRunAfter cal claim advance finishedAt)
  let completed ← Runtime.ofExcept (← Runtime.await (.completeOccurrence
    (runRecord claim runId attempt finishedAt success status)
    (completionOf claim advance attempt finishedAt success nextRun)))
  if completed then return { attempt, success, deliveryStatus := status }
  else throw "scheduler lost the occurrence before terminal commit"

def runIdOf : Runtime String :=
  match claim.runId with
  | some runId => return runId
  | none => Runtime.call .uuid

def executeAndPersistInner : Runtime (Option ManualRunOutcome) := do
  let runId ← runIdOf claim
  match ← executeWithRetry config claim.job runId with
  | none => return none
  | some attempt =>
    ensureClaimOwned "scheduler lost the occurrence before delivery"
    if ← Runtime.call .stopped then return none
    else
      let (status, sent) ← sendResult delivery runId attempt
      let success := runSuccess claim.job attempt status sent
      projectRun claim runId attempt status success
      let outcome ← commitRun cal claim advance runId attempt status success
      return some outcome

def acquirePermit (permits : Bool) : Runtime Unit := do
  if permits then Runtime.ofExcept (← Runtime.await .acquirePermit) else return ()

def claimWork (permits : Bool) : Runtime ManualRunOutcome := do
  acquirePermit permits
  ensureClaimOwned "scheduler lost the occurrence before execution"
  if ← Runtime.call .cancelled then throw "scheduler stopped before execution"
  else
    match ← executeAndPersistInner cal config claim delivery advance with
    | some outcome => return outcome
    | none => throw "scheduler stopped before occurrence completion"

def releaseClaimAfterWorkError (e : String) : Runtime ManualRunOutcome := do
  let now ← Runtime.call .now
  let _ ← Runtime.await (.releaseOccurrence now)
  throw e

def runClaimWithRenewal (permits : Bool) : Runtime ManualRunOutcome :=
  tryCatch (claimWork cal config claim delivery advance permits) releaseClaimAfterWorkError

end Persist

end Tinyflows.Cron
