import Tinyflows.Cron.Store
import Tinyflows.Lib.Text

/-!
# Claims

A worker claims a due occurrence before it runs the job: it takes the lease of the occurrence, writes
the epoch of that lease into the job's document, and from then on changes the document only while both
still name it.
-/

namespace Tinyflows.Cron
open Lib Storage

structure ClaimedOccurrence where
  job : CronJob
  lease : ClaimLease
  deriving DecidableEq

def expiry (now durationMs : Int) : Except CronError Int :=
  if durationMs ≤ 0 then .error (.refused "cron store: lease duration must be positive")
  else
    match checkedAdd now durationMs with
    | some expires => .ok expires
    | none => .error (.refused "cron store: lease expiry overflow")

def leaseOf (job : String) (occurrence : Int) (note : Body → LeaseEvent) :
    Repo (Transaction CronDocs Event) Body :=
  Repo.at_ (D := CronDocs) (N := Event) (.lease job occurrence) CAS_ATTEMPTS fun body =>
    some (.lease job occurrence (note body))

def leaseClock (now : Int) : Clock :=
  fun _ => now.toNat

section Leases

variable (job : String) (occurrence now : Int)

def acquireLease (token : String) (ttlMs : Int) : Access (Option Lease) :=
  .ofStorage (Leases.acquire (leaseOf job occurrence (.taken now.toNat)) (leaseClock now) token ttlMs)

def renewLease (token : String) (epoch : Nat) (ttlMs : Int) : Access (Option Lease) :=
  .ofStorage (Leases.renew (leaseOf job occurrence .renewed) (leaseClock now) token epoch ttlMs)

def releaseLease (note : Body → LeaseEvent) (token : String) (epoch : Nat) : Access Bool :=
  .ofStorage (Leases.release (leaseOf job occurrence note) (leaseClock now) token epoch)

def currentLease : Access (Option Lease) :=
  .ofStorage (Leases.current (leaseOf job occurrence .renewed) (leaseClock now))

def compactLease (token : String) (epoch : Nat) : Access Bool :=
  .ofStorage (Leases.compact (leaseOf job occurrence .settled) token epoch)

end Leases

/-- Frees the lease of the occurrence the document is due at, whoever holds it. -/
def fenceLoop (id : String) (occurrence : Int) : Nat → Access Unit
  | 0 => return ()
  | left + 1 => do
    match ← Access.read (.lease id occurrence) with
    | none => return ()
    | some found =>
      if found.doc.expiresMs = 0 then return ()
      else
        let body : Body := { found.doc with expiresMs := 0 }
        match ← (Access.write [.put (.lease id occurrence) body (.version found.version)]
          (some (.lease id occurrence (.freed body)))).unlessConflict with
        | some () => return ()
        -- The holder renewed the lease.
        | none => fenceLoop id occurrence left

def fenceClaims (id : String) (doc : JobDoc) : Access Unit :=
  (fenceLoop id doc.nextRunMs CAS_ATTEMPTS).logged

def JobDoc.carries (doc : JobDoc) (claim : ClaimLease) : Bool :=
  doc.incarnation = some claim.incarnation ∧ doc.claimEpoch = some claim.epoch ∧
    doc.nextRunMs = claim.occurrence

def owns (doc : JobDoc) (claim : ClaimedOccurrence) (now : Int) : Access Bool :=
  if doc.carries claim.lease then do
    let held ← currentLease claim.job.id claim.lease.occurrence now
    return held.any fun held => held.holder = claim.lease.token ∧ held.epoch = claim.lease.epoch
  else return false

/-! ## Acquisition -/

structure ClaimRequest where
  jobId : String
  expected : Option CronJob := none
  owner : String
  now : Int
  durationMs : Int
  force : Bool := false
  deriving DecidableEq

def ClaimRequest.mismatched (request : ClaimRequest) (job : CronJob) : Bool :=
  request.expected.any fun expected =>
    job.createdAt ≠ expected.createdAt ∨ job.claimGeneration ≠ expected.claimGeneration ∨
      job.definition ≠ expected.definition ∨ job.schedule ≠ expected.schedule ∨
      job.nextRun ≠ expected.nextRun

def claimedDoc (doc : JobDoc) (claim : ClaimLease) : JobDoc :=
  { doc with
    incarnation := some claim.incarnation
    claimOwner := some claim.owner
    claimEpoch := some claim.epoch
    completedOccurrence := none
    queuedRun := none }

/-- Documents written before there were incarnations get one with their first claim. -/
def incarnationOf (doc : JobDoc) : Access String :=
  match doc.incarnation with
  | some incarnation => return incarnation
  | none => Access.uuid

def claimOnce (request : ClaimRequest) (expiresAt : Int) (again : Access (Option ClaimedOccurrence)) :
    Access (Option ClaimedOccurrence) := do
  match ← Access.read (.job request.jobId) with
  | none => return none
  | some stored =>
    let job := docToJob request.jobId stored.doc
    if request.mismatched job then return none
    else if ¬ request.force ∧ (¬ job.enabled ∨ request.now < job.nextRun) then return none
    else
      let incarnation ← incarnationOf stored.doc
      let token ← Access.uuid
      match ← acquireLease job.id job.nextRun request.now token (max request.durationMs 1) with
      | none => return none
      | some lease =>
        let claim : ClaimLease := {
          owner := request.owner, token, epoch := lease.epoch, incarnation
          occurrence := job.nextRun, startedAt := request.now, expiresAt }
        let giveBack : Access Unit :=
          (releaseLease job.id job.nextRun request.now .givenBack token lease.epoch).logged
        match ← (commitJob job.id (some stored.doc) (some (claimedDoc stored.doc claim))
            (queuedRunCleanup stored.doc) (.acquired claim)).outcome with
        | .ok () => return some { job, lease := claim }
        | .error e =>
          giveBack
          if e.conflict then again else throw e

def claimLoop (request : ClaimRequest) (expiresAt : Int) : Nat → Access (Option ClaimedOccurrence)
  | 0 => throw (.refused "cron store: occurrence kept changing during acquisition")
  | left + 1 => claimOnce request expiresAt (claimLoop request expiresAt left)

def claimOccurrence (request : ClaimRequest) : Access (Option ClaimedOccurrence) := do
  if Text.trim request.owner = "" then
    throw (.refused "cron store: lease owner must not be empty")
  let expiresAt ← Access.ofExcept (expiry request.now request.durationMs)
  claimLoop request expiresAt CAS_ATTEMPTS

def queueLoop (claim : ClaimedOccurrence) (queuedAt : Int) (invocation : Option String) :
    Nat → Access Bool
  | 0 => throw (.refused "cron store: occurrence changed while queueing run")
  | left + 1 => do
    match ← Access.read (.job claim.job.id) with
    | none => return false
    | some stored =>
      if ← owns stored.doc claim queuedAt then
        if stored.doc.queuedRun.isSome then return true
        else
          let seq ← nextRunNumber
          let run : RunDoc := {
            seq, jobId := claim.job.id, runId := invocation
            incarnation := some claim.lease.incarnation
            startedMs := queuedAt, finishedMs := queuedAt
            status := "queued", output := none, durationMs := 0, deliveryStatus := none }
          match ← (commitJob claim.job.id (some stored.doc)
              (some { stored.doc with queuedRun := some seq }) [runWrite run]
              (.queued claim.lease run)).unlessConflict with
          | some () => return true
          | none => queueLoop claim queuedAt invocation left
      else return false

variable (claim : ClaimedOccurrence)

def queueClaimedRun (queuedAt : Int) (invocation : Option String) : Access Bool :=
  queueLoop claim queuedAt invocation CAS_ATTEMPTS

/-! ## Renewal and release -/

def renewHeld (now expiresAt : Int) : Access Bool := do
  let current ← currentLease claim.job.id claim.lease.occurrence now
  let wanted := max expiresAt (current.elim 0 (·.expiresMs))
  let renewed ← renewLease claim.job.id claim.lease.occurrence now claim.lease.token claim.lease.epoch
    (max (wanted - now) 1)
  return renewed.isSome

def renewLoop (now expiresAt : Int) : Nat → Access Bool
  | 0 => throw (.refused "cron store: occurrence kept changing during lease change")
  | _ + 1 => do
    match ← Access.read (.job claim.job.id) with
    | none => return false
    | some stored =>
      if ← owns stored.doc claim now then renewHeld claim now expiresAt else return false

def renewClaim (now durationMs : Int) : Access Bool := do
  let expiresAt ← Access.ofExcept (expiry now durationMs)
  renewLoop claim now expiresAt CAS_ATTEMPTS

/-- The placeholder of a claim goes while its lease is still held. -/
def releaseLoop (claim : ClaimedOccurrence) (now : Int) : Nat → Access Bool
  | 0 => throw (.refused "cron store: occurrence kept changing during lease change")
  | left + 1 => do
    match ← Access.read (.job claim.job.id) with
    | none => return false
    | some stored =>
      if ← owns stored.doc claim now then
        let release := releaseLease claim.job.id claim.lease.occurrence now .released
          claim.lease.token claim.lease.epoch
        if stored.doc.queuedRun.isSome then
          match ← (commitJob claim.job.id (some stored.doc)
              (some { stored.doc with queuedRun := none }) (queuedRunCleanup stored.doc)
              (.released claim.lease)).unlessConflict with
          | some () => release
          | none => releaseLoop claim now left
        else release
      else return false

def releaseClaim (now : Int) : Access Bool :=
  releaseLoop claim now CAS_ATTEMPTS

end Tinyflows.Cron
