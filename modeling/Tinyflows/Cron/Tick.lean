import Tinyflows.Cron.Runtime

/-!
# Polling for due jobs

One tick of the scheduler claims the due jobs batch by batch, until it holds as many claims as the first
batch had jobs, and dispatches them. A job that was examined is excluded from the batches that follow.
-/

namespace Tinyflows.Cron
open Lib

inductive TickCall where
  | now
  | dueJobs (now : Int)
  | dueJobsExcluding (now : Int) (excluded : List String)
  | claimDueOccurrence (job : CronJob) (owner : String) (now : Int) (leaseMs : Nat)
  | releaseOccurrence (claim : OccurrenceClaim) (now : Int)
  | spawn (claim : OccurrenceClaim) (delivery : ManualDelivery)

abbrev TickCall.Reply : TickCall → Type
  | .now => Int
  | .dueJobs _ => Except String (List CronJob)
  | .dueJobsExcluding _ _ => Except String (List CronJob)
  | .claimDueOccurrence _ _ _ _ => Except String (Option OccurrenceClaim)
  | .releaseOccurrence _ _ => Except String Bool
  | .spawn _ _ => Unit

abbrev Ticks := Program TickCall TickCall.Reply

def Ticks.call (c : TickCall) : Ticks c.Reply :=
  Program.call c .done

def OCCURRENCE_LEASE : Nat := 2 * 60 * 60 * 1000

structure Scheduler where
  stopped : Bool
  owner : String
  deriving DecidableEq

def releaseAll (now : Int) : List OccurrenceClaim → Ticks Unit
  | [] => return ()
  | claim :: claims => do
    let _ ← Ticks.call (.releaseOccurrence claim now)
    releaseAll now claims

def releaseClaims (claims : List OccurrenceClaim) : Ticks Unit := do
  let now ← Ticks.call .now
  releaseAll now claims

def dispatchClaims (delivery : ManualDelivery) : List OccurrenceClaim → Nat → Ticks Nat
  | [], count => return count
  | claim :: claims, count => do
    Ticks.call (.spawn claim delivery)
    dispatchClaims delivery claims (count + 1)

section Tick

variable (owner : String) (now : Int) (limit : Nat)

def claimBatch : List CronJob → List String → List OccurrenceClaim →
    Ticks (Except String (List String × List OccurrenceClaim))
  | [], examined, selected => return .ok (examined, selected)
  | job :: jobs, examined, selected =>
    if limit ≤ selected.length then return .ok (examined, selected)
    else do
      match ← Ticks.call (.claimDueOccurrence job owner now OCCURRENCE_LEASE) with
      | .error error =>
        releaseClaims selected
        return .error error
      | .ok claim => claimBatch jobs (examined ++ [job.id]) (selected ++ claim.toList)

def claimRound (next : List CronJob → List String → List OccurrenceClaim →
      Ticks (Option (Except String Nat)))
    (batch : List CronJob) (examined : List String) (selected : List OccurrenceClaim) :
    Ticks (Option (Except String Nat)) := do
  match ← claimBatch owner now limit batch examined selected with
  | .error error => return some (.error error)
  | .ok (examined, selected) =>
    if limit ≤ selected.length then return some (.ok (← dispatchClaims .requested selected 0))
    else
      match ← Ticks.call (.dueJobsExcluding now examined) with
      | .error error =>
        releaseClaims selected
        return some (.error error)
      | .ok batch =>
        if batch.isEmpty then return some (.ok (← dispatchClaims .requested selected 0))
        else if batch.any fun job => job.id ∈ examined then
          releaseClaims selected
          return some (.error "job store returned an excluded due job")
        else next batch examined selected

def claimBatches : Nat → List CronJob → List String → List OccurrenceClaim →
    Ticks (Option (Except String Nat))
  | 0 => claimRound owner now limit fun _ _ _ => return none
  | rounds + 1 => claimRound owner now limit (claimBatches rounds)

end Tick

/-- One tick. It is unfinished if it has asked for more jobs so many times and got new ones every time. -/
def Scheduler.tick (scheduler : Scheduler) (rounds : Nat) : Ticks (Option (Except String Nat)) := do
  if scheduler.stopped then return some (.error "scheduler is stopped")
  else
    let now ← Ticks.call .now
    match ← Ticks.call (.dueJobs now) with
    | .error error => return some (.error error)
    | .ok batch =>
      if batch.length = 0 then return some (.ok 0)
      else claimBatches scheduler.owner now batch.length rounds batch [] []

end Tinyflows.Cron
