import Tinyflows.Graph.Persistence
import Tinyflows.Graph.Routing

/-!
# The run loop

One super-step runs the active set, folds the updates, and ends in one of three boundaries: a failure,
an interrupt, or the routing of everything that completed into the next active set.
-/

namespace Tinyflows.Graph
open Lib

variable {S U V : Type}

structure Loop (S V : Type) where
  state : S
  active : List (Activation V)
  resumeMap : ResumeMap V
  barriers : Barriers
  parentCheckpoint : Option CheckpointId
  persistence : Persistence S V
  visited : List NodeId := []
  steps : Nat := 0
  nodeVisits : HashMap NodeId Nat := ∅
  lastCheckpoint : Option CheckpointId := none

structure GraphExecution (S V : Type) where
  state : S
  runId : RunId
  visited : List NodeId
  steps : Nat
  interrupts : List (Interrupt V)
  checkpointId : Option CheckpointId

/-- `minted` counts the checkpoints a run has minted, written or not; nothing reads it. -/
structure RunResult (S V : Type) where
  result : Except GraphError (GraphExecution S V)
  store : CheckpointStore S V
  minted : Nat := 0

inductive StepOutcome (S V : Type) where
  | next (l : Loop S V)
  | done (r : RunResult S V)

variable (g : CompiledGraph S U V) (active : List (Activation V))
  (rt : Runtime S U V) (l : Loop S V) (threadId : Option ThreadId)

def Loop.abort (e : GraphError) : RunResult S V :=
  { result := .error e, store := l.persistence.store, minted := l.persistence.minted }

/-! ## Entering a super-step -/

def stepLimit : Nat :=
  min g.recursionLimit g.recursionPolicy.maxTotalSteps

def recordNodeVisit (policy : RecursionPolicy) (counts : HashMap NodeId Nat) (node : NodeId) :
    Except GraphError (HashMap NodeId Nat) :=
  match policy.maxVisitsPerNode with
  | none => .ok counts
  | some limit =>
    let count := (counts.lookup node).getD 0 + 1
    if limit < count then .error (.nodeVisitLimit node limit) else .ok (counts.insert node count)

def recordNodeVisits (policy : RecursionPolicy) (counts : HashMap NodeId Nat) :
    List (Activation V) → Except GraphError (HashMap NodeId Nat)
  | [] => .ok counts
  | a :: rest =>
    match recordNodeVisit policy counts a.node with
    | .error e => .error e
    | .ok counts => recordNodeVisits policy counts rest

def freshTaskId (step index : Nat) (node : NodeId) : TaskId :=
  s!"{step}:{index}:{node}"

def assignTaskIds (step : Nat) (active : List (Activation V)) : List (Activation V) :=
  active.mapIdx fun index a =>
    if a.taskId = "" then { a with taskId := freshTaskId step index a.node } else a

def enterStep : Except GraphError (Loop S V) :=
  if stepLimit g ≤ l.steps then .error (.recursionLimit (stepLimit g))
  else
    match g.runDeadline.filter (· ≤ rt.elapsed l.steps) with
    | some deadline => .error (.timeout (s!"graph run exceeded its {rt.showDuration deadline} " ++
        s!"deadline after {l.steps} super-step(s) ({rt.showDuration (rt.elapsed l.steps)} elapsed)"))
    | none =>
      match recordNodeVisits g.recursionPolicy l.nodeVisits l.active with
      | .error e => .error e
      | .ok nodeVisits => .ok { l with
          nodeVisits, steps := l.steps + 1, active := assignTaskIds (l.steps + 1) l.active }

def applyUpdates : S → List U → Except GraphError S
  | state, [] => .ok state
  | state, u :: us =>
    match g.reducer state u with
    | .error e => .error e
    | .ok state => applyUpdates state us

/-! ## Boundaries -/

def partitionCompleted (gotoMap : HashMap Nat (List (RouteTarget V))) (completed : List Nat) :
    List (Activation V) × HashMap Nat (List (RouteTarget V)) :=
  completed.foldl (fun acc index =>
    match active[index]? with
    | none => acc
    | some a =>
      (acc.1 ++ [a],
       match gotoMap.lookup index with
       | some targets => acc.2.insert acc.1.length targets
       | none => acc.2)) ([], ∅)

def remaining (ran : List Nat) : List (Activation V) :=
  (active.zipIdx.filter fun x => x.2 ∉ ran).map (·.1)

/-- At a failure every branch that did not complete is scheduled again. -/
def failureBoundary (run : StepRun U V) (failure : StepFailure) (state : S)
    (barriers : Barriers) : Except GraphError (Boundary S V) :=
  let (completed, completedGoto) := partitionCompleted active run.gotoMap run.completed
  match routeCompleted g completed completedGoto state barriers with
  | .error e => .error e
  | .ok (successors, barriers) => .ok {
      state, barriers
      completedTasks := completed
      pending := successors ++ remaining active run.completed
      failed := some (branchNode active failure.failedIndex, failure.error) }

/-- At an interrupt the interrupted branches are scheduled again, then those never started. -/
def interruptBoundary (run : StepRun U V) (state : S) (barriers : Barriers) :
    Except GraphError (Boundary S V) :=
  let (completed, completedGoto) := partitionCompleted active run.gotoMap run.completed
  match routeCompleted g completed completedGoto state barriers with
  | .error e => .error e
  | .ok (successors, barriers) => .ok {
      state, barriers
      completedTasks := completed
      pending := successors ++ (run.interrupts.filterMap (fun i => active[i.1]?) ++
        remaining active (run.completed ++ run.interrupts.map (·.1)))
      interrupts := run.interrupts.map (·.2)
      interrupted := run.interrupts.map (fun i => branchNode active i.1) }

/-- The step failed: leave a checkpoint to retry from and report the branch's error. Neither a lost
background write nor a failed write of this checkpoint replaces that error. -/
def finishFailure (l : Loop S V) (run : StepRun U V) (failure : StepFailure) :
    RunResult S V :=
  match failureBoundary g l.active run failure l.state l.barriers with
  | .error e => l.abort e
  | .ok boundary =>
    let d := { l.persistence with writes := l.persistence.writes.drain.2 }
    let (d, _) := persistCheckpoint g rt threadId l.parentCheckpoint l.steps boundary d
    { result := .error failure.error, store := d.store, minted := d.minted }

def finishInterrupt (l : Loop S V) (run : StepRun U V) : RunResult S V :=
  match requireInterruptDurability g threadId with
  | .error e => l.abort e
  | .ok () =>
    match interruptBoundary g l.active run l.state l.barriers with
    | .error e => l.abort e
    | .ok boundary =>
      match l.persistence.writes.drain with
      | (some e, _) => l.abort e
      | (none, writes) =>
        let d := { l.persistence with writes }
        match persistCheckpoint g rt threadId l.parentCheckpoint l.steps boundary d with
        | (d, .error e) => { result := .error e, store := d.store, minted := d.minted }
        | (d, .ok checkpointId) =>
          { result := .ok {
              state := l.state, runId := rt.runId, visited := l.visited, steps := l.steps
              interrupts := boundary.interrupts, checkpointId }
            store := d.store
            minted := d.minted }

/-- Moves on to the next active set once the boundary is dealt with. -/
def Loop.advance (next : List (Activation V))
    (persisted : Persistence S V × Except GraphError (Option CheckpointId)) :
    StepOutcome S V :=
  match persisted with
  | (d, .error e) => .done { result := .error e, store := d.store, minted := d.minted }
  | (d, .ok id) => .next { l with
      active := next
      persistence := d
      lastCheckpoint := id.or l.lastCheckpoint
      parentCheckpoint := id.or l.parentCheckpoint }

/-- How a loop boundary is written under each durability mode. The terminal boundary waits for the
background writes and is then written inline in every mode. -/
def persistBoundary (parent : Option CheckpointId) (step : Nat) (b : Boundary S V)
    (d : Persistence S V) : Persistence S V × Except GraphError (Option CheckpointId) :=
  if b.pending = [] then
    match d.writes.drain with
    | (some e, _) => (d, .error e)
    | (none, writes) => persistCheckpoint g rt threadId parent step b { d with writes }
  else
    match g.durability with
    | .exit => (d, .ok none)
    | .async => persistCheckpointNonblocking g rt threadId parent step b d
    | .sync => persistCheckpoint g rt threadId parent step b d

def loopBoundary (l : Loop S V) (run : StepRun U V) : StepOutcome S V :=
  match routeCompleted g l.active run.gotoMap l.state l.barriers with
  | .error e => .done (l.abort e)
  | .ok (next, barriers) =>
    let boundary : Boundary S V :=
      { state := l.state, pending := next, completedTasks := l.active, barriers }
    match l.persistence.writes.takeFailure (rt.finished l.steps) with
    | (some e, _) => .done (l.abort e)
    | (none, writes) =>
      ({ l with barriers }).advance next (persistBoundary g rt threadId l.parentCheckpoint l.steps
        boundary { l.persistence with writes })

/-! ## Super-steps and runs -/

def superStep (l : Loop S V) : StepOutcome S V :=
  match enterStep g rt l with
  | .error e => .done (l.abort e)
  | .ok l =>
    match runActive g rt threadId l.steps l.state l.active
        { resumeMap := l.resumeMap, visited := l.visited } with
    | .error e => .done (l.abort e)
    | .ok p =>
      match applyUpdates g l.state p.run.updates with
      | .error e => .done (l.abort e)
      | .ok state =>
        let l := { l with state, resumeMap := p.resumeMap, visited := p.visited }
        match p.run.failure with
        | some failure => .done (finishFailure g rt threadId l p.run failure)
        | none =>
          if p.run.interrupts.isEmpty then loopBoundary g rt threadId l p.run
          else .done (finishInterrupt g rt threadId l p.run)

def finishCompleted : RunResult S V :=
  { result := .ok {
      state := l.state, runId := rt.runId, visited := l.visited, steps := l.steps
      interrupts := [], checkpointId := l.lastCheckpoint }
    store := l.persistence.store
    minted := l.persistence.minted }

/-- Super-steps until nothing is active. The budget is never what ends a run: a super-step fails by
itself at the step limit. -/
def runLoop : Nat → Loop S V → RunResult S V
  | 0, l =>
    if l.active = [] then finishCompleted rt l else l.abort (.recursionLimit (stepLimit g))
  | budget + 1, l =>
    if l.active = [] then finishCompleted rt l
    else
      match superStep g rt threadId l with
      | .done r => r
      | .next l => runLoop budget l

def boundaries : Nat → Loop S V → List (Loop S V)
  | 0, _ => []
  | budget + 1, l =>
    if l.active = [] then []
    else
      match superStep g rt threadId l with
      | .done _ => []
      | .next l => l :: boundaries budget l

def executeRun (l : Loop S V) : RunResult S V :=
  if g.recursionPolicy.maxDepth < g.recursionFrames + 1 then
    l.abort (.subAgentDepth g.recursionPolicy.maxDepth)
  else runLoop g rt threadId (stepLimit g) l

end Tinyflows.Graph
