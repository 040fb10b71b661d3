import Tinyflows.Cron.Claims

/-!
# Completing, creating and editing jobs

Everything else that writes a job's document. An import is the one writer that does not go through the
ledger: it writes the document first and enrols it afterwards.
-/

namespace Tinyflows.Cron
open Lib Storage Access

def jobNotFound (id : String) : CronError :=
  .refused s!"Cron job '{id}' not found"

/-! ## Completion -/

structure RunCompletion where
  finishedAt : Int
  success : Bool
  output : String
  deliveryStatus : Option DeliveryStatus := none
  runId : Option String := none
  deriving DecidableEq

def claimReceipt (claim : ClaimLease) : Receipt where
  owner := claim.owner
  token := claim.token
  epoch := claim.epoch
  incarnation := claim.incarnation
  occurrenceMs := claim.occurrence

def completedDoc (doc : JobDoc) (claim : ClaimLease) (completion : RunCompletion) : JobDoc :=
  { doc with
    queuedRun := none
    claimEpoch := none
    claimOwner := none
    completedOccurrence := some (claimReceipt claim) }.setLastRun completion.finishedAt
      completion.success (truncateCronOutput completion.output)

def advancedDoc (cal : Calendar) (doc : JobDoc) (claim : ClaimLease) (completion : RunCompletion)
    (advance : Bool) : Except CronError JobDoc := do
  let completed := completedDoc doc claim completion
  if advance then
    let next ← refuse (nextRunForSchedule cal doc.schedule completion.finishedAt)
    return completed.reschedule next doc.schedule.oneShot
  else return completed

def completedRun (claim : ClaimedOccurrence) (completion : RunCompletion) (seq : Nat) : RunDoc where
  seq := seq
  jobId := claim.job.id
  runId := completion.runId
  incarnation := some claim.lease.incarnation
  startedMs := claim.lease.startedAt
  finishedMs := completion.finishedAt
  status := if completion.success then "ok" else "error"
  output := some (truncateCronOutput completion.output)
  durationMs := completion.finishedAt - claim.lease.startedAt
  deliveryStatus := completion.deliveryStatus

/-- Nothing can claim an occurrence again once the job's next run is past it, and then the record of
its lease is dropped. -/
def endLease (claim : ClaimedOccurrence) (finishedAt : Int) (dropped : Bool) : Access Unit :=
  if dropped then
    (compactLease claim.job.id claim.lease.occurrence claim.lease.token claim.lease.epoch).logged
  else
    (releaseLease claim.job.id claim.lease.occurrence finishedAt .settled claim.lease.token
      claim.lease.epoch).logged

section Completion

variable (cal : Calendar) (maxRunHistory : Nat) (claim : ClaimedOccurrence)
  (completion : RunCompletion) (advance : Bool)

def completeLoop : Nat → Access Bool
  | 0 => throw (.refused "cron store: occurrence kept changing during completion")
  | left + 1 => do
    match ← read (.job claim.job.id) with
    | none => return false
    | some stored =>
      if ← owns stored.doc claim completion.finishedAt then
        let doc ← Access.ofExcept (advancedDoc cal stored.doc claim.lease completion advance)
        let seq ← nextRunNumber
        let run := completedRun claim completion seq
        match ← (commitJob claim.job.id (some stored.doc) (some doc)
            (runWrite run :: queuedRunCleanup stored.doc)
            (.completed claim.lease run)).unlessConflict with
        | some () =>
          endLease claim completion.finishedAt (advance ∧ claim.lease.occurrence < doc.nextRunMs)
          (pruneRuns maxRunHistory claim.job.id stored.doc).logged
          return true
        | none => completeLoop left
      else return false

def completeClaim : Access Bool :=
  if completion.finishedAt < claim.lease.startedAt then
    throw (.refused "cron store: completion precedes acquisition")
  else completeLoop cal maxRunHistory claim completion advance CAS_ATTEMPTS

end Completion

/-! ## Removal -/

/-- Deletes the job while its document is `doc`, then frees its claims and deletes its runs. -/
def removeStored (id : String) (doc : JobDoc) : Access Bool := do
  match ← (commitJob id (some doc) none [] .removed).unlessConflict with
  | some () =>
    fenceClaims id doc
    deleteRunsOf id doc
    return true
  | none => return false

def removeLoop (id : String) : Nat → Access Unit
  | 0 => throw (.refused s!"cron store: job {id} kept changing under {CAS_ATTEMPTS} attempts")
  | left + 1 => do
    match ← read (.job id) with
    | none => throw (jobNotFound id)
    | some stored => if ← removeStored id stored.doc then return () else removeLoop id left

def removeJob (id : String) : Access Unit :=
  removeLoop id CAS_ATTEMPTS

def removeUnchanged (id : String) (stored : Versioned JobDoc) : Access Bool := do
  match ← read (.job id) with
  | none => return false
  | some current =>
    if current.version ≠ stored.version ∨ current.doc.incarnation ≠ stored.doc.incarnation then
      return false
    else removeStored id stored.doc

def removeCompletedLoop (claim : ClaimedOccurrence) : Nat → Access Bool
  | 0 => throw (.refused "cron store: completed occurrence kept changing during removal")
  | left + 1 => do
    match ← read (.job claim.job.id) with
    | none => return false
    | some stored =>
      if stored.doc.completedOccurrence = some (claimReceipt claim.lease) ∧
          stored.doc.incarnation = some claim.lease.incarnation then
        if ← removeUnchanged claim.job.id stored then return true
        else removeCompletedLoop claim left
      else return false

def removeCompletedClaim (claim : ClaimedOccurrence) : Access Bool :=
  removeCompletedLoop claim CAS_ATTEMPTS

/-! ## Creation -/

def getJob (id : String) : Access CronJob := do
  match ← read (.job id) with
  | none => throw (jobNotFound id)
  | some stored => return docToJob id stored.doc

def insertLoop (job : CronJob) (incarnation : String) : Nat → Access CronJob
  | 0 => throw (.refused "cron store: insertion kept changing")
  | left + 1 => do
    match ← (commitJob job.id none (some (newJobDoc job incarnation)) []
        (.created incarnation)).unlessConflict with
    | some () => getJob job.id
    | none => insertLoop job incarnation left

def insertJob (job : CronJob) : Access CronJob := do
  let incarnation ← uuid
  insertLoop job incarnation CAS_ATTEMPTS

def registerLoop (job : CronJob) (incarnation : String) : Nat → Access CronJob
  | 0 => throw (.refused "cron store: flow registration kept changing")
  | left + 1 => do
    match ← read (.job job.id) with
    | some existing => return docToJob job.id existing.doc
    | none =>
      match ← (commitJob job.id none (some (newJobDoc job incarnation)) []
          (.created incarnation)).unlessConflict with
      | some () => getJob job.id
      | none => registerLoop job incarnation left

def addFlowScheduleJob (flowId : String) (job : CronJob) : Access CronJob := do
  let incarnation ← uuid
  registerLoop { job with id := flowJobId flowId } incarnation CAS_ATTEMPTS

/-- The wall clock is read twice in every attempt. -/
def updateLoop (cal : Calendar) (id : String) (patch : CronJobPatch) (clock : Nat → Int) :
    Nat → Access CronJob
  | 0 => throw (.refused s!"cron store: job {id} kept changing under {CAS_ATTEMPTS} attempts")
  | left + 1 => do
    match ← read (.job id) with
    | none => throw (jobNotFound id)
    | some stored =>
      let job ← Access.ofExcept (refuse (applyPatch cal (docToJob id stored.doc) patch
        (clock (2 * left)) (clock (2 * left + 1))))
      let doc := updatedJobDoc job stored.doc
      match ← (commitJob id (some stored.doc) (some doc) (queuedRunCleanup stored.doc)
          .edited).unlessConflict with
      | some () =>
        -- An edit invalidates the claims taken on the old shape.
        fenceClaims id stored.doc
        return docToJob id doc
      | none => updateLoop cal id patch clock left

def updateJob (cal : Calendar) (id : String) (patch : CronJobPatch) (clock : Nat → Int) :
    Access CronJob :=
  updateLoop cal id patch clock CAS_ATTEMPTS

def setMaxLoop (limit : Option Nat) : Nat → Access Unit
  | 0 => throw (.refused "cron store: admission policy kept changing")
  | left + 1 => do
    let stored ← admission
    let rows ← rows
    let state := Admission.ofRows limit rows
    if state.check then
      match ← (write (rows.map rewrite ++ [.put .ledger state (.version stored.version)])
          none).unlessConflict with
      | some () => return ()
      | none => setMaxLoop limit left
    else throw limitExceeded

def setMaxActiveJobs (limit : Option Nat) : Access Unit :=
  setMaxLoop limit CAS_ATTEMPTS

/-! ## Imports -/

def enrolLoop (id : String) (doc : JobDoc) : Nat → Access Unit
  | 0 => throw (.refused "cron store: admission enrolment kept changing")
  | left + 1 => do
    let ledger ← admission
    let state := ledger.doc.withJob id (some doc)
    if state.check then
      match ← (write [.put .ledger state (.version ledger.version)]
          (some (.imported id .enrolled))).unlessConflict with
      | some () => return ()
      | none => enrolLoop id doc left
    else throw limitExceeded

/-- The document is written first and enrolled second; one that is refused is taken back. -/
def insertWithCreated (id : String) (doc : JobDoc) : Access Unit := do
  write [.put (.job id) doc .absent] (some (.imported id (.written doc)))
  match ← (enrolLoop id doc CAS_ATTEMPTS).outcome with
  | .ok () => return ()
  | .error e =>
    (write [.delete (.job id) .any] (some (.imported id .takenBack))).logged
    throw e

structure ImportedJob where
  id : String
  written : Bool
  deriving DecidableEq

def importLoop (id : String) (doc : JobDoc) : Nat → Access ImportedJob
  | 0 => throw (.refused "cron store: job import kept changing")
  | left + 1 => do
    match ← read (.job id) with
    | some _ => return { id, written := false }
    | none =>
      match ← (insertWithCreated id doc).unlessConflict with
      | some () => return { id, written := true }
      | none => importLoop id doc left

def importJob (job : CronJob) : Access ImportedJob := do
  let id := if job.definition.jobType = .flow then flowJobId job.definition.command else job.id
  let incarnation ← uuid
  importLoop id (newJobDoc job incarnation) CAS_ATTEMPTS

end Tinyflows.Cron
