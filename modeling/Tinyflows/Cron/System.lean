import Tinyflows.Cron.Edits

/-!
# The cron store under concurrent use

Any number of workers and editors call the store, each with a clock of its own.
-/

namespace Tinyflows.Cron
open Lib Storage

structure CronConfig where
  calendar : Calendar
  maxRunHistory : Nat

inductive JobOp where
  | create (job : CronJob)
  | register (flowId : String) (job : CronJob)
  | update (id : String) (patch : CronJobPatch) (clock : Nat → Int)
  | remove (id : String)
  | claim (request : ClaimRequest)
  | queue (claim : ClaimedOccurrence) (queuedAt : Int) (invocation : Option String)
  | renew (claim : ClaimedOccurrence) (now durationMs : Int)
  | release (claim : ClaimedOccurrence) (now : Int)
  | complete (claim : ClaimedOccurrence) (completion : RunCompletion) (advance : Bool)
  | removeCompleted (claim : ClaimedOccurrence)

inductive CronOp where
  | job (op : JobOp)
  | setMaxActiveJobs (limit : Option Nat)
  | importJob (job : CronJob)

inductive Reply where
  | done
  | flag (b : Bool)
  | job (job : CronJob)
  | claimed (claim : Option ClaimedOccurrence)
  | imported (job : ImportedJob)
  deriving DecidableEq

variable (cfg : CronConfig)

def jobAccess : JobOp → Access Reply
  | .create job => return .job (← insertJob job)
  | .register flowId job => return .job (← addFlowScheduleJob flowId job)
  | .update id patch clock => return .job (← updateJob cfg.calendar id patch clock)
  | .remove id => do
    removeJob id
    return .done
  | .claim request => return .claimed (← claimOccurrence request)
  | .queue claim queuedAt invocation => return .flag (← queueClaimedRun claim queuedAt invocation)
  | .renew claim now durationMs => return .flag (← renewClaim claim now durationMs)
  | .release claim now => return .flag (← releaseClaim claim now)
  | .complete claim completion advance =>
    return .flag (← completeClaim cfg.calendar cfg.maxRunHistory claim completion advance)
  | .removeCompleted claim => return .flag (← removeCompletedClaim claim)

def cronAccess : CronOp → Access Reply
  | .job op => jobAccess cfg op
  | .setMaxActiveJobs limit => do
    setMaxActiveJobs limit
    return .done
  | .importJob job => return .imported (← importJob job)

inductive JobOp.Makes : JobOp → String → RowEvent → Prop
  | create {job : CronJob} {incarnation : String} : Makes (.create job) job.id (.created incarnation)
  | register {flowId : String} {job : CronJob} {incarnation : String} :
      Makes (.register flowId job) (flowJobId flowId) (.created incarnation)
  | update {id : String} {patch : CronJobPatch} {clock : Nat → Int} :
      Makes (.update id patch clock) id .edited
  | remove {id : String} : Makes (.remove id) id .removed
  | claim {request : ClaimRequest} {claim : ClaimLease} :
      Makes (.claim request) request.jobId (.acquired claim)
  | queue {claim : ClaimedOccurrence} {queuedAt : Int} {invocation : Option String} {run : RunDoc} :
      Makes (.queue claim queuedAt invocation) claim.job.id (.queued claim.lease run)
  | release {claim : ClaimedOccurrence} {now : Int} :
      Makes (.release claim now) claim.job.id (.released claim.lease)
  | complete {claim : ClaimedOccurrence} {completion : RunCompletion} {advance : Bool} {run : RunDoc} :
      Makes (.complete claim completion advance) claim.job.id (.completed claim.lease run)
  | removeCompleted {claim : ClaimedOccurrence} : Makes (.removeCompleted claim) claim.job.id .removed

abbrev CronResult := Except CronError Reply

def jobSystem : System CronStore (Call CronDocs Event) Call.Reply JobOp CronResult where
  serves := Store.Serves
  program op := (jobAccess cfg op).run

abbrev JobWorld := World CronStore (Call CronDocs Event) Call.Reply JobOp CronResult

def cronSystem : System CronStore (Call CronDocs Event) Call.Reply CronOp CronResult where
  serves := Store.Serves
  program op := (cronAccess cfg op).run

abbrev CronWorld := World CronStore (Call CronDocs Event) Call.Reply CronOp CronResult

/-! ## Reading the store -/

namespace CronStore

def row (s : CronStore) (id : String) : Option (Versioned JobDoc) :=
  s.docs.lookup (CronKey.job id)

def rowDoc (s : CronStore) (id : String) : Option JobDoc :=
  (s.row id).map (·.doc)

def ledger (s : CronStore) : Option (Versioned Admission) :=
  s.docs.lookup CronKey.ledger

def listed (s : CronStore) (id : String) : Option Member :=
  s.ledger.bind (·.doc.jobs.lookup id)

def lease (s : CronStore) (job : String) (occurrence : Int) : Option (Versioned Body) :=
  s.docs.lookup (CronKey.lease job occurrence)

def leaseBody (s : CronStore) (job : String) (occurrence : Int) : Option Body :=
  (s.lease job occurrence).map (·.doc)

end CronStore

/-! ## Reading the log -/

def own (i : Nat) (log : List (Nat × Event)) : List Event :=
  (log.filter (·.1 = i)).map (·.2)

def importStep (current : Option (String × JobDoc)) : Event → Option (String × JobDoc)
  | .imported id (.written doc) => some (id, doc)
  | .imported _ .enrolled => none
  | .imported _ .takenBack => none
  | _ => current

/-- The import that the call of number `i` is in the middle of. -/
def importOf (i : Nat) (log : List (Nat × Event)) : Option (String × JobDoc) :=
  (own i log).foldl importStep none

def Event.begins (job : String) (occurrence : Int) : Event → Bool
  | .lease job' occurrence' (.taken _ body) =>
    job' = job ∧ occurrence' = occurrence ∧ body.epoch = 1
  | _ => false

/-- How often the record of the lease of an occurrence was begun. -/
def beginnings (job : String) (occurrence : Int) (log : List (Nat × Event)) : Nat :=
  log.countP (·.2.begins job occurrence)

def Event.token : Event → Option String
  | .row _ (.acquired claim) => some claim.token
  | .lease _ _ (.taken _ body) => some body.holder
  | _ => none

def TakenBy (log : List (Nat × Event)) (job : String) (occurrence : Int) (holder : String)
    (epoch : Nat) : Prop :=
  ∃ j reading body, (j, Event.lease job occurrence (.taken reading body)) ∈ log ∧
    body.holder = holder ∧ body.epoch = epoch

def Unused (log : List (Nat × Event)) (token : String) : Prop :=
  ∀ e ∈ log, e.2.token ≠ some token

def Unclaimed (log : List (Nat × Event)) (token : String) : Prop :=
  ∀ e ∈ log, ∀ id claim, e.2 = .row id (.acquired claim) → claim.token ≠ token

end Tinyflows.Cron
