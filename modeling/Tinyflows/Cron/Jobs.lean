import Tinyflows.Cron.Schedule
import Tinyflows.Lib.Documents
import Tinyflows.Lib.Json

/-!
# Jobs and their documents

A job as callers see it, the document it is stored in, and how a patch changes it.
-/

namespace Tinyflows.Cron
open Lib

inductive CronError where
  | storage (error : StoreError)
  | refused (message : String)
  deriving DecidableEq

/-- A conflicted write may be tried again; every other error ends the call. -/
def CronError.conflict : CronError → Bool
  | .storage .conflict => true
  | _ => false

def refuse {α : Type} : Except String α → Except CronError α :=
  Except.mapError .refused

/-! ## Jobs -/

inductive JobType where
  | shell
  | agent
  | flow
  deriving DecidableEq

inductive SessionTarget where
  | isolated
  | main
  | current
  deriving DecidableEq

structure DeliveryConfig where
  mode : String := "none"
  channel : Option String := none
  to_ : Option String := none
  bestEffort : Bool := true
  deriving DecidableEq

structure JobPolicy where
  retries : Option Nat := none
  singleFlight : Bool := false
  deriving DecidableEq

structure Definition where
  command : String := ""
  prompt : Option String := none
  jobType : JobType := .shell
  sessionTarget : SessionTarget := .isolated
  model : Option String := none
  agentId : Option String := none
  delivery : DeliveryConfig := {}
  origin : Option Json := none
  policy : JobPolicy := {}
  deleteAfterRun : Bool := false
  deriving DecidableEq

structure CronJob where
  id : String
  definition : Definition := {}
  claimGeneration : Nat := 0
  expression : String := ""
  schedule : Schedule
  name : Option String := none
  enabled : Bool := true
  createdAt : Int
  nextRun : Int
  lastRun : Option Int := none
  lastStatus : Option String := none
  lastOutput : Option String := none
  deriving DecidableEq

structure Receipt where
  owner : String
  token : String
  epoch : Nat
  incarnation : String
  occurrenceMs : Int
  deriving DecidableEq

structure JobDoc where
  definition : Definition := {}
  claimGeneration : Nat := 0
  expression : String := ""
  schedule : Schedule
  name : Option String := none
  enabled : Bool := true
  createdMs : Int
  nextRunMs : Int
  lastRunMs : Option Int := none
  lastStatus : Option String := none
  lastOutput : Option String := none
  incarnation : Option String := none
  claimEpoch : Option Nat := none
  claimOwner : Option String := none
  completedOccurrence : Option Receipt := none
  queuedRun : Option Nat := none
  deriving DecidableEq

def docToJob (id : String) (doc : JobDoc) : CronJob where
  id := id
  definition := doc.definition
  claimGeneration := doc.claimGeneration
  expression := doc.expression
  schedule := doc.schedule
  name := doc.name
  enabled := doc.enabled
  createdAt := doc.createdMs
  nextRun := doc.nextRunMs
  lastRun := doc.lastRunMs
  lastStatus := doc.lastStatus
  lastOutput := doc.lastOutput

def jobToDoc (job : CronJob) : JobDoc where
  definition := job.definition
  claimGeneration := job.claimGeneration
  expression := job.expression
  schedule := job.schedule
  name := job.name
  enabled := job.enabled
  createdMs := job.createdAt
  nextRunMs := job.nextRun
  lastRunMs := job.lastRun
  lastStatus := job.lastStatus
  lastOutput := job.lastOutput

def newJobDoc (job : CronJob) (incarnation : String) : JobDoc :=
  { jobToDoc job with incarnation := some incarnation }

/-- An edit keeps the incarnation and drops every claim. -/
def updatedJobDoc (job : CronJob) (previous : JobDoc) : JobDoc :=
  { jobToDoc job with incarnation := previous.incarnation, createdMs := previous.createdMs }

def JobDoc.setLastRun (doc : JobDoc) (finishedAt : Int) (success : Bool) (output : String) : JobDoc :=
  { doc with
    lastRunMs := some finishedAt
    lastStatus := some (if success then "ok" else "error")
    lastOutput := some output }

def JobDoc.reschedule (doc : JobDoc) (nextRun : Int) (oneShot : Bool) : JobDoc :=
  { doc with nextRunMs := nextRun, enabled := if oneShot then false else doc.enabled }

def flowJobId (flowId : String) : String :=
  "flow:" ++ flowId

/-! ## Runs -/

inductive DeliveryStatus where
  | delivered
  | suppressed
  | failed
  | notRequested
  deriving DecidableEq

structure RunDoc where
  seq : Nat
  jobId : String
  runId : Option String
  incarnation : Option String
  startedMs : Int
  finishedMs : Int
  status : String
  output : Option String
  durationMs : Int
  deliveryStatus : Option DeliveryStatus
  deriving DecidableEq

def MAX_CRON_OUTPUT_BYTES : Nat := 16 * 1024

def TRUNCATED_OUTPUT_MARKER : String := "\n...[truncated]"

def takeBytes : Nat → List Char → List Char
  | _, [] => []
  | budget, c :: rest => if c.utf8Size ≤ budget then c :: takeBytes (budget - c.utf8Size) rest else []

def truncateCronOutput (output : String) : String :=
  if output.utf8ByteSize ≤ MAX_CRON_OUTPUT_BYTES then output
  else .ofList (takeBytes (MAX_CRON_OUTPUT_BYTES - TRUNCATED_OUTPUT_MARKER.utf8ByteSize)
    output.toList) ++ TRUNCATED_OUTPUT_MARKER

/-! ## Patches -/

structure CronJobPatch where
  policy : Option JobPolicy := none
  schedule : Option Schedule := none
  command : Option String := none
  prompt : Option String := none
  name : Option String := none
  enabled : Option Bool := none
  delivery : Option DeliveryConfig := none
  model : Option String := none
  sessionTarget : Option SessionTarget := none
  deleteAfterRun : Option Bool := none
  agentId : Option (Option String) := none
  origin : Option (Option Json) := none
  deriving DecidableEq

/-- A flow-schedule job cannot be turned on another flow. -/
def checkPatch (job : CronJob) (patch : CronJobPatch) : Except String Unit :=
  if job.definition.jobType = .flow ∧ patch.command.any (· ≠ job.definition.command) then
    .error (s!"Cron job '{job.id}' fires flow '{job.definition.command}'; its command cannot be " ++
      "changed. Remove it and register a schedule job for the other flow instead")
  else .ok ()

def CronJobPatch.define (patch : CronJobPatch) (d : Definition) : Definition where
  command := patch.command.getD d.command
  prompt := patch.prompt.or d.prompt
  jobType := d.jobType
  sessionTarget := patch.sessionTarget.getD d.sessionTarget
  model := patch.model.or d.model
  agentId := patch.agentId.getD d.agentId
  delivery := patch.delivery.getD d.delivery
  origin := patch.origin.getD d.origin
  policy := patch.policy.getD d.policy
  deleteAfterRun := patch.deleteAfterRun.getD d.deleteAfterRun

def scheduleCronExpression : Schedule → String
  | .cron spec => spec.expr
  | _ => ""

/-- Applies a patch; the wall clock is read for the check of a new schedule and once more for the next
run. -/
def applyPatch (cal : Calendar) (job : CronJob) (patch : CronJobPatch) (checked computed : Int) :
    Except String CronJob := do
  checkPatch job patch
  if let some schedule := patch.schedule then
    match job.definition.jobType with
    | .agent => validateAgentSchedule cal schedule checked
    | .shell | .flow => validateSchedule cal schedule checked
  let next : CronJob := { job with
    schedule := patch.schedule.getD job.schedule
    expression := patch.schedule.elim job.expression scheduleCronExpression
    definition := patch.define job.definition
    name := patch.name.or job.name
    enabled := patch.enabled.getD job.enabled }
  if patch.schedule.isSome then
    return { next with nextRun := ← nextRunForSchedule cal next.schedule computed }
  -- A job that sat disabled past its next run would fire the instant it is enabled.
  else if next.enabled ∧ ¬ job.enabled ∧ next.nextRun ≤ computed then
    return { next with nextRun := ← nextRunForSchedule cal next.schedule computed }
  else return next

end Tinyflows.Cron
