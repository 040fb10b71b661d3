import Tinyflows.Graph.Fates
import Tinyflows.Graph.RunLoop

/-!
# What a paused step leaves behind

The property a checkpoint written at an interrupt or a failure should have: the active set splits into
the branches that completed and the branches that are still pending.
-/

namespace Tinyflows.Graph
open Lib

variable {S U V : Type}

def Loop.ran (l : Loop S V) (state : S) (p : Progress U V) : Loop S V :=
  { l with state, resumeMap := p.resumeMap, visited := p.visited }

variable (g : CompiledGraph S U V) (active : List (Activation V))

structure Ran (rt : Runtime S U V) (threadId : Option ThreadId) (l entered : Loop S V)
    (p : Progress U V) (state : S) : Prop where
  enter : enterStep g rt l = .ok entered
  run : runActive g rt threadId entered.steps entered.state entered.active
    { resumeMap := entered.resumeMap, visited := entered.visited } = .ok p
  fold : applyUpdates g entered.state p.run.updates = .ok state

def activationsAt (indices : List Nat) : List (Activation V) :=
  indices.filterMap (active[·]?)

/-- `c` accounts for every position of the active set once: in `completed`, where the branch's update
is folded into the state, its marker is written and its own `goto` routes its successors, or in
`pending`, where the activation stands unchanged behind the successors. -/
structure Partitioned (fates : List (Fate U V)) (state : S) (barriers : Barriers)
    (completed pending : List Nat) (c : Checkpoint S V) : Prop where
  exactlyOne : (completed ++ pending).Perm (List.range active.length)
  completed_iff : ∀ i, i ∈ completed ↔ ∃ f, fates[i]? = some f ∧ f.isCompleted
  folded : applyUpdates g state (completed.filterMap fun i => (fates[i]?).bind Fate.update) =
    .ok c.state
  marked : c.pendingWrites = completionWrites (activationsAt active completed)
  routed : ∃ routing successors,
    (∀ k, routing.lookup k = (completed[k]?).bind fun i => (fates[i]?).bind Fate.goto) ∧
    routeCompleted g (activationsAt active completed) routing c.state barriers =
      .ok (successors, barriersFromPersisted c.barrierArrivals) ∧
    (∀ s ∈ successors, s.taskId = "") ∧
    c.pendingActivations =
      some ((successors ++ activationsAt active pending).map PendingActivation.ofActivation)

/-- The boundary at which a step that failed or was interrupted is persisted. -/
def pauseBoundary (run : StepRun U V) (state : S) (barriers : Barriers) :
    Option (Except GraphError (Boundary S V)) :=
  match run.failure with
  | some failure => some (failureBoundary g active run failure state barriers)
  | none =>
    if run.interrupts.isEmpty then none else some (interruptBoundary g active run state barriers)

/-- Every checkpoint that a pause of a step over `active` can leave, whatever the handlers do and in
whatever order they finish, partitions the active set. -/
def PausesPartition (state : S) (barriers : Barriers) : Prop :=
  ∀ (rt : Runtime S U V) (threadId : Option ThreadId) (step : Nat)
    (resumeMap : ResumeMap V) (visited : List NodeId) (p : Progress U V)
    (state' : S) (b : Boundary S V) (thread : ThreadId) (id : CheckpointId)
    (parent : Option CheckpointId),
    runActive g rt threadId step state active { resumeMap, visited } = .ok p →
    applyUpdates g state p.run.updates = .ok state' →
    pauseBoundary g active p.run state' barriers = some (.ok b) →
    ∃ pending, Partitioned g active (branchFates g rt threadId step state active resumeMap) state
      barriers p.run.completed pending (buildCheckpoint g rt thread id parent step b)

end Tinyflows.Graph
