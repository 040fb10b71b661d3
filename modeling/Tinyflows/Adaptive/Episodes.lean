import Tinyflows.Lib.Crashes

/-!
# Episodes

An episode is attempted until its goal is met or the loop stands down. Its counters are kept in the
ledger, so that a call which was cut short can be made again.
-/

namespace Tinyflows.Adaptive
open Lib

inductive Blocker where
  | none | unverified | goalNotMet | missingEvidence | needsInput | externalWait
  deriving DecidableEq

def Blocker.continuable (b : Blocker) : Bool := b = .unverified || b = .goalNotMet

def Blocker.debug : Blocker → String
  | .none => "None"
  | .unverified => "Unverified"
  | .goalNotMet => "GoalNotMet"
  | .missingEvidence => "MissingEvidence"
  | .needsInput => "NeedsInput"
  | .externalWait => "ExternalWait"

structure Verdict where
  satisfied : Bool
  blocker : Blocker
  gap : String
  advanced : Bool

structure Budget where
  attempts : Nat
  minAttempts : Nat
  stallLimit : Nat

def Budget.exhausted (b : Budget) (spent : Nat) : Bool := spent ≥ b.attempts

def Verdict.shouldRetry (v : Verdict) (spent stalled : Nat) (b : Budget) : Bool :=
  if v.satisfied || !v.blocker.continuable then false
  else if b.exhausted spent then false
  else if spent < b.minAttempts then true
  else stalled < b.stallLimit

inductive EpisodeStatus where
  | running
  | satisfied
  | stoodDown (reason : String)

inductive Next where
  | done
  | retry
  | standDown (reason : String)

def Next.status : Next → EpisodeStatus
  | .done => .satisfied
  | .retry => .running
  | .standDown reason => .stoodDown reason

def decideNext (v : Verdict) (attempt stalled : Nat) (b : Budget) : Next :=
  if v.satisfied then .done
  else if v.shouldRetry attempt stalled b then .retry
  else .standDown <|
    if !v.blocker.continuable then v.blocker.debug ++ " — " ++ v.gap
    else if b.exhausted attempt then "out of attempts after " ++ toString attempt
    else toString stalled ++ " attempts in a row made no progress"

structure Episode where
  status : EpisodeStatus := .running
  attempt : Nat := 0
  stalled : Nat := 0

inductive Approach where
  | selected (workflowId why : String)
  | authored (why : String)
  | errand (why : String)

def Approach.workflowId : Approach → Option String
  | .selected id _ => some id
  | .authored _ | .errand _ => none

variable {G R P : Type}

/-- Where the next attempt may continue: the workflow, and its boundary `P`. -/
structure ResumePoint (P : Type) where
  workflow : String
  boundary : P

structure Attempt (G P : Type) where
  approach : Approach
  graph : G
  lessonsShown : List String
  resume : Option (ResumePoint P) := none

structure LedgerRow where
  attempt : Nat
  approach : Approach
  verdict : Verdict

/-- What the loop asks of the ledger, the planner, the runner (which gives an `R`) and the judge. The
calls after `scoreLesson` stand for passes that may make several. -/
inductive Call (G R P : Type) where
  | episode
  | saveEpisode (record : Episode)
  | execute (planned : Attempt G P)
  | judge (ran : R)
  | append (row : LedgerRow)
  | saveSteps (rowId : String) (ran : R)
  | scoreWorkflow (id : String) (helped : Bool)
  | scoreLesson (id : String) (helped : Bool)
  | decide
  | keep (planned : Attempt G P)
  | repair (verdict : Verdict) (parent : String) (planned : Attempt G P) (ran : R)
  | consolidate (satisfied : Bool)

abbrev Answer : Call G R P → Type
  | .episode => Option Episode
  | .execute _ => R
  | .judge _ => Verdict
  | .append _ => String
  | .decide => Attempt G P
  | .keep _ => Option String
  | .repair .. => Option (ResumePoint P)
  | .consolidate _ => List String
  | .saveEpisode _ | .saveSteps .. | .scoreWorkflow .. | .scoreLesson .. => Unit

abbrev Driving (G R P α : Type) :=
  ExceptT String (Program (Call G R P) fun c => Except String (Answer c)) α

def ask (c : Call G R P) : Driving G R P (Answer c) := .mk (.call c .done)

/-- A call whose failure is the caller's to see, not the end of it. -/
def settle (c : Call G R P) : Driving G R P (Except String (Answer c)) := .lift (.call c .done)

def start : Driving G R P Episode := do
  match ← ask .episode with
  | some existing => return existing
  | none =>
    ask (.saveEpisode {})
    return {}

structure Closed where
  verdict : Verdict
  rowId : String
  next : Next
  stalled : Nat

section Loop

-- The workflows an attempt called and whether their steps succeeded, read off the graph and the run.
variable (calledWorkflows : G → R → List (String × Bool)) (budget : Budget)

def close (attempt : Nat) (planned : Attempt G P) (ran : R) : Driving G R P Closed := do
  let verdict ← ask (.judge ran)
  let record := (← ask .episode).getD {}
  let rowId ← ask (.append { attempt, approach := planned.approach, verdict })
  discard (settle (.saveSteps rowId ran))
  planned.approach.workflowId.toList.forM fun id => ask (.scoreWorkflow id verdict.satisfied)
  (calledWorkflows planned.graph ran).forM fun called =>
    ask (.scoreWorkflow called.1 (called.2 && verdict.satisfied))
  let stalled := if verdict.satisfied || verdict.advanced then 0 else (record.stalled + 1) % 2 ^ 32
  let next := decideNext verdict attempt stalled budget
  ask (.saveEpisode { status := next.status, attempt, stalled })
  return { verdict, rowId, next, stalled }

/-- The continuation applies only to the workflow the repair produced. -/
def Attempt.continuing (planned : Attempt G P) : Option (ResumePoint P) → Attempt G P
  | some point =>
    if planned.approach.workflowId = some point.workflow then { planned with resume := some point }
    else planned
  | none => planned

def keepIfItGeneralises (planned : Attempt G P) : Driving G R P Unit := do
  if let .authored _ := planned.approach then
    if let .ok (some id) ← settle (.keep planned) then
      discard (settle (.scoreWorkflow id true))

def repairIfTheGraphIsAtFault (closed : Closed) (planned : Attempt G P) (ran : R) :
    Driving G R P (Option (ResumePoint P)) := do
  if let .selected id _ := planned.approach then
    if let .ok point ← settle (.repair closed.verdict id planned ran) then return point
  return none

def attemptContinuing (carry : Option (ResumePoint P)) :
    Driving G R P (Closed × Option (ResumePoint P)) := do
  let record ← start
  let attempt := (record.attempt + 1) % 2 ^ 32
  let planned := (← ask .decide).continuing carry
  let ran ← ask (.execute planned)
  let closed ← close calledWorkflows budget attempt planned ran
  planned.lessonsShown.forM fun lesson =>
    discard (settle (.scoreLesson lesson closed.verdict.satisfied))
  if closed.verdict.satisfied then
    keepIfItGeneralises planned
    return (closed, none)
  else
    return (closed, ← repairIfTheGraphIsAtFault closed planned ran)

structure Finished where
  status : EpisodeStatus
  attempts : Nat
  verdict : Verdict
  lessons : List String

def run : Nat → Option (ResumePoint P) → Driving G R P (Option Finished)
  | 0, _ => return none
  | rounds + 1, carry => do
    let (closed, next) ← attemptContinuing calledWorkflows budget carry
    match closed.next with
    | .retry => run rounds next
    | ended =>
      let lessons ← settle (.consolidate closed.verdict.satisfied)
      let attempts := ((← ask .episode).map (·.attempt)).getD 0
      return some { status := ended.status, attempts, verdict := closed.verdict,
                    lessons := lessons.toOption.getD [] }

end Loop

/-! ## One call after another -/

/-- The stored record, what every execution found stored when it began and the attempt numbers
written to the ledger; the newest first. -/
structure Trail where
  stored : Option Episode := none
  executed : List (Option Episode) := []
  recorded : List Nat := []

namespace Trail

def save (s : Trail) (record : Episode) : Trail :=
  { s with stored := some record, recorded := record.attempt :: s.recorded }

def append (s : Trail) (row : LedgerRow) : Trail :=
  { s with recorded := row.attempt :: s.recorded }

def execute (s : Trail) : Trail := { s with executed := s.stored :: s.executed }

end Trail

/-- A write that fails may have been made. The runner always gives a result. -/
def Serves (s : Trail) : (c : Call G R P) → Except String (Answer c) → Trail → Prop
  | .episode, r, t => t = s ∧ ∀ record, r = .ok record → record = s.stored
  | .saveEpisode record, r, t => t = s.save record ∨ t = s ∧ r.toBool = false
  | .append row, r, t => t = s.append row ∨ t = s ∧ r.toBool = false
  | .execute _, r, t => t = s.execute ∧ r.toBool
  | _, _, t => t = s

def Episode.finished (e : Episode) : Bool := e.status matches .satisfied | .stoodDown _

/-- `run` was called again and again, `finished` times when the stored episode was over; `cut` of the
calls failed or were cut short. -/
inductive Driven (calledWorkflows : G → R → List (String × Bool)) (budget : Budget) (P : Type) :
    Nat → Nat → Trail → Prop
  | new : Driven calledWorkflows budget P 0 0 {}
  | returned (rounds : Nat) {finished cut : Nat} {s t : Trail} {r : Finished}
      (h : Driven calledWorkflows budget P finished cut s)
      (hrun : (run calledWorkflows budget rounds (none : Option (ResumePoint P))).run.Returns
        Serves s (.ok (some r)) t) :
      Driven calledWorkflows budget P (finished + (s.stored.any Episode.finished).toNat) cut t
  | cut (rounds : Nat) {finished cut : Nat} {s t : Trail}
      (h : Driven calledWorkflows budget P finished cut s)
      (hrun : (run calledWorkflows budget rounds (none : Option (ResumePoint P))).run.Leads Serves s t) :
      Driven calledWorkflows budget P (finished + (s.stored.any Episode.finished).toNat) (cut + 1) t

end Tinyflows.Adaptive
