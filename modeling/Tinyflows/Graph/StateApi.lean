import Tinyflows.Graph.Api

/-!
# Writing state by hand

A manual write appends a checkpoint to a thread. Attributed to a node, it stands for a run of that
node: the node leaves the pending work and its successors join it.
-/

namespace Tinyflows.Graph
open Lib

variable {S U V : Type}

/-- The pending work a write attributed to `node` leaves alone. -/
def retainedPending (node : NodeId) (base : Checkpoint S V) : List (Activation V) :=
  match base.pendingActivations with
  | some (p :: pending) => ((p :: pending).map Activation.ofPending).filter (·.node ≠ node)
  | _ => (base.nextNodes.filter (· ≠ node)).map fun n => { node := n }

def plainNodes (active : List (Activation V)) : HashSet NodeId :=
  (activationNodes (active.filter (·.sendArg.isNone))).toFinset

variable (g : CompiledGraph S U V)

/-- Follows one target of the attributed node. Every arrival is gated here, that of a required
predecessor or not. -/
def mergeTarget (node : NodeId) (r : Routed V) (target : RouteTarget V) : Routed V :=
  if target.nodeId = END then r
  else
    match g.waiting.lookup target.nodeId with
    | some required => r.await required target.nodeId node target.sendArg
    | none => r.pass node target.nodeId target.sendArg

def mergePass (node : NodeId) (state : S) (base : Checkpoint S V) :
    Except GraphError (Routed V) :=
  match route g node none state with
  | .error e => .error e
  | .ok targets => .ok (targets.foldl (mergeTarget g node) {
      next := retainedPending node base
      nextSeen := plainNodes (retainedPending node base)
      barriers := barriersFromPersisted base.barrierArrivals })

/-- What a manual write schedules: the merged activations, or the inherited schedule. -/
structure Schedule (V : Type) where
  nextNodes : List NodeId
  pendingActivations : Option (List (PendingActivation V))
  barriers : Barriers

def Schedule.ofMerged (r : Routed V) : Schedule V where
  nextNodes := activationNodes r.next
  pendingActivations :=
    if r.next = [] then none else some (r.next.map PendingActivation.ofActivation)
  barriers := r.barriers

def updateSchedule (asNode : Option NodeId) (state : S) (base : Checkpoint S V) :
    Except GraphError (Schedule V) :=
  match asNode with
  | some node =>
    match mergePass g node state base with
    | .error e => .error e
    | .ok r => .ok (.ofMerged r)
  | none => .ok {
      nextNodes := base.nextNodes
      pendingActivations := base.pendingActivations
      barriers := barriersFromPersisted base.barrierArrivals }

/-- Refuses an attribution to something that is no node, or whose routing is not known in advance. -/
def checkAttribution : Option NodeId → Except GraphError Unit
  | none => .ok ()
  | some node =>
    if node ∉ g.nodes then .error (.missingNode node)
    else if node ∈ g.commandNodes then
      .error (.graph (s!"cannot update state as node `{node}`: it routes dynamically " ++
        "via Command and has no static successors, so the resulting " ++
        "checkpoint would be non-resumable"))
    else .ok ()

/-- What `update_state` and `fork_state` need from outside: a new checkpoint id, whether the write
fails, and an iteration order. -/
structure Writer where
  id : CheckpointId
  put : Option GraphError
  iterOrder : IterOrder NodeId

def updatedCheckpoint (w : Writer) (thread : ThreadId) (asNode : Option NodeId) (state : S)
    (base : Checkpoint S V) (schedule : Schedule V) : Checkpoint S V where
  threadId := thread
  checkpointId := w.id
  runId := none
  parentCheckpointId := some base.checkpointId
  ns := g.ns
  state
  nextNodes := schedule.nextNodes
  completedTasks := asNode.toList
  pendingWrites := []
  interrupts := []
  pendingActivations := schedule.pendingActivations
  barrierArrivals := barriersToPersisted w.iterOrder schedule.barriers
  metadata := { source := "update", step := base.metadata.step + 1 }

def putCheckpoint (w : Writer) (store : CheckpointStore S V) (c : Checkpoint S V) :
    Except GraphError CheckpointConfig × CheckpointStore S V :=
  match w.put with
  | some e => (.error e, store)
  | none => (.ok { threadId := c.threadId, checkpointId := some w.id, ns := g.ns }, store.put c)

def updateState (w : Writer) (store : CheckpointStore S V) (thread : ThreadId) (update : U)
    (asNode : Option NodeId) : Except GraphError CheckpointConfig × CheckpointStore S V :=
  if g.checkpointer = false then (.error (.checkpoint "no checkpointer configured"), store)
  else
    match checkAttribution g asNode with
    | .error e => (.error e, store)
    | .ok () =>
      match store.getScoped thread none g.ns with
      | none => (.error (.checkpoint
          s!"cannot update state: no checkpoint exists for thread `{thread}`"), store)
      | some base =>
        match g.reducer base.state update with
        | .error e => (.error e, store)
        | .ok state =>
          match updateSchedule g asNode state base with
          | .error e => (.error e, store)
          | .ok schedule =>
            putCheckpoint g w store (updatedCheckpoint g w thread asNode state base schedule)

def forkedCheckpoint (thread : ThreadId) (id : CheckpointId) (c : Checkpoint S V) : Checkpoint S V :=
  { c with
    threadId := thread
    checkpointId := id
    runId := none
    parentCheckpointId := none
    metadata := { source := "fork", step := c.metadata.step } }

/-- Copies a checkpoint into another thread, as that thread's root. -/
def forkState (w : Writer) (store : CheckpointStore S V) (sourceThread : ThreadId)
    (source : Option CheckpointId) (targetThread : ThreadId) :
    Except GraphError CheckpointConfig × CheckpointStore S V :=
  if g.checkpointer = false then (.error (.checkpoint "no checkpointer configured"), store)
  else
    match store.getScoped sourceThread source g.ns with
    | none => (.error (.checkpoint
        s!"cannot fork: no checkpoint found for thread `{sourceThread}`"), store)
    | some c => putCheckpoint g w store (forkedCheckpoint targetThread w.id c)

/-! ## A write as a run of its node

What an attributed write should leave behind: the schedule of a thread whose executor has just seen the
node complete.
-/

def joinPending (pending next : List (Activation V)) : List (Activation V) :=
  (next.foldl (fun r a => r.schedule a.node a.sendArg)
    ({ next := pending, nextSeen := plainNodes pending, barriers := ∅ } : Routed V)).next

def completedSchedule (node : NodeId) (state : S) (base : Checkpoint S V) :
    Except GraphError (List (Activation V) × Barriers) :=
  match routeCompleted g [{ node }] ∅ state (barriersFromPersisted base.barrierArrivals) with
  | .error e => .error e
  | .ok (next, barriers) => .ok (joinPending (retainedPending node base) next, barriers)

/-- The update leaves what the completion of the node would leave. -/
def SchedulesAsCompleted (w : Writer) (store : CheckpointStore S V) (thread : ThreadId)
    (update : U) (node : NodeId) (state : S) (base : Checkpoint S V) : Prop :=
  match completedSchedule g node state base with
  | .error e => updateState g w store thread update (some node) = (.error e, store)
  | .ok (next, barriers) => ∃ c,
      (updateState g w store thread update (some node)).2.getScoped thread none g.ns = some c ∧
      c.state = state ∧ pendingOf c = next ∧ barriersFromPersisted c.barrierArrivals = barriers

/-- The relief does nothing when `node` is routed to `targets`: it belongs to another node, the branch
it stands for was taken, its barrier does not exist, or `node` goes to that barrier, nothing leads back
from there, and the arrival of `node` is all the barrier waits for or all the relief could add. -/
def BarrierRelief.Disarmed (node : NodeId) (targets : List (RouteTarget V)) (relief : BarrierRelief) :
    Prop :=
  relief.source ≠ node ∨
  leadsTo g [({ node }, targets)] relief.reliefNode relief.barrierNode = true ∨
  g.waiting.lookup relief.barrierNode = none ∨
  (targets = [.node relief.barrierNode] ∧ relief.barrierNode ≠ END ∧
    ∃ required, g.waiting.lookup relief.barrierNode = some required ∧
      (required = {node} ∨ relief.reliefNode = node) ∧
      ∀ predecessor ∈ required,
        reachesDeterministically g relief.barrierNode predecessor relief.barrierNode = false)

/-- Every barrier `node` is routed to requires it, and no relief answers to its routing. -/
def UpdatesAlike (node : NodeId) (state : S) : Prop :=
  ∀ targets, route g node none state = .ok targets →
    (∀ target ∈ targets, target.nodeId ≠ END → ∀ required,
      g.waiting.lookup target.nodeId = some required → node ∈ required) ∧
    ∀ relief ∈ g.barrierReliefs, relief.Disarmed g node targets

end Tinyflows.Graph
