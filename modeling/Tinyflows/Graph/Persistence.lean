import Tinyflows.Graph.Checkpointer
import Tinyflows.Graph.NodeExecution

/-!
# Persisting boundaries

What is written at a super-step boundary, and how: inline, or on a chain of background writes.
-/

namespace Tinyflows.Graph
open Lib

variable {S U V : Type}

def barriersToPersisted (ord : IterOrder NodeId) (barriers : Barriers) : List BarrierArrivals :=
  (HashMap.iter ord barriers).map fun e => { node := e.1, arrived := ord.keys e.2 }

def barriersFromPersisted (persisted : List BarrierArrivals) : Barriers :=
  HashMap.collect (persisted.map fun b => (b.node, b.arrived.toFinset))

def completionWrites (completedTasks : List (Activation V)) : List (PendingWrite V) :=
  completedTasks.map fun a => PendingWrite.completionMarker a.node a.taskId

structure Boundary (S V : Type) where
  state : S
  pending : List (Activation V)
  completedTasks : List (Activation V)
  interrupts : List (Interrupt V) := []
  interrupted : List NodeId := []
  barriers : Barriers
  failed : Option (NodeId × GraphError) := none

/-- The record of a boundary; a failure boundary differs from a loop boundary in its metadata only. -/
def buildCheckpoint (g : CompiledGraph S U V) (rt : Runtime S U V)
    (thread : ThreadId) (id : CheckpointId) (parent : Option CheckpointId) (step : Nat)
    (b : Boundary S V) : Checkpoint S V where
  threadId := thread
  checkpointId := id
  runId := some rt.runId
  parentCheckpointId := parent
  ns := g.ns
  state := b.state
  nextNodes := activationNodes b.pending
  completedTasks := activationNodes b.completedTasks
  pendingWrites := completionWrites b.completedTasks
  interrupts := b.interrupts
  pendingActivations := some (b.pending.map PendingActivation.ofActivation)
  barrierArrivals := barriersToPersisted rt.iterOrder b.barriers
  metadata :=
    { source := "loop", step, interruptedNodes := b.interrupted,
      failedNode := b.failed.map (·.1), error := b.failed.map (·.2) }

/-! ## Background writes -/

/-- The background writes not harvested yet, each by the error it settles with, if any. A spawn takes
the last handle out again and waits for it, so there is at most one. -/
structure AsyncCheckpointWrites where
  handles : List (Option GraphError) := []
  deriving DecidableEq

namespace AsyncCheckpointWrites

/-- Chains a write behind the last one. After a failed predecessor the write is skipped and the
failure passed on; `true` says the write took effect. -/
def spawnOrdered (ws : AsyncCheckpointWrites) (write : Option GraphError) :
    AsyncCheckpointWrites × Bool :=
  match ws.handles.getLast? with
  | some (some e) => ({ handles := ws.handles.dropLast ++ [some e] }, false)
  | _ => ({ handles := ws.handles.dropLast ++ [write] }, write.isNone)

def firstError (handles : List (Option GraphError)) : Option GraphError :=
  handles.findSome? id

/-- Harvests the last write if it has settled, without waiting for it. -/
def takeFailure (ws : AsyncCheckpointWrites) (finished : Bool) :
    Option GraphError × AsyncCheckpointWrites :=
  if finished then (firstError ws.handles, { handles := [] }) else (none, ws)

def drain (ws : AsyncCheckpointWrites) : Option GraphError × AsyncCheckpointWrites :=
  (firstError ws.handles, { handles := [] })

end AsyncCheckpointWrites

/-- The durable side of a run: the store, how many checkpoints the run has minted, and the background
writes. A background write shows in the store from the moment it is spawned: nothing in the run reads
the store, and every way out of the run waits for the writes. -/
structure Persistence (S V : Type) where
  store : CheckpointStore S V
  minted : Nat := 0
  writes : AsyncCheckpointWrites := {}

/-- Writes a boundary inline, then its completion markers through the write protocol. -/
def persistCheckpoint (g : CompiledGraph S U V) (rt : Runtime S U V)
    (threadId : Option ThreadId) (parent : Option CheckpointId) (step : Nat)
    (b : Boundary S V) (d : Persistence S V) :
    Persistence S V × Except GraphError (Option CheckpointId) :=
  match g.checkpointer, threadId with
  | true, some thread =>
    let id := rt.checkpointId d.minted
    let checkpoint := buildCheckpoint g rt thread id parent step b
    let minted := { d with minted := d.minted + 1 }
    match rt.put d.minted with
    | some e => (minted, .error e)
    | none =>
      let stored := { minted with store := d.store.put checkpoint }
      match rt.putWrites d.minted with
      | some e => (stored, .error e)
      | none =>
        ({ stored with
           store := stored.store.putWrites thread g.ns id checkpoint.pendingWrites },
         .ok (some id))
  | _, _ => (d, .ok none)

/-- Hands a boundary to the background chain. Outside a runtime the write happens inline. -/
def persistCheckpointNonblocking (g : CompiledGraph S U V)
    (rt : Runtime S U V) (threadId : Option ThreadId) (parent : Option CheckpointId)
    (step : Nat) (b : Boundary S V) (d : Persistence S V) :
    Persistence S V × Except GraphError (Option CheckpointId) :=
  match g.checkpointer, threadId with
  | true, some thread =>
    let id := rt.checkpointId d.minted
    let checkpoint := buildCheckpoint g rt thread id parent step b
    let minted := { d with minted := d.minted + 1 }
    if rt.tokio then
      let (writes, written) := d.writes.spawnOrdered (rt.put d.minted)
      ({ minted with writes, store := if written then d.store.put checkpoint else d.store },
       .ok (some id))
    else
      match rt.put d.minted with
      | some e => (minted, .error e)
      | none => ({ minted with store := d.store.put checkpoint }, .ok (some id))
  | _, _ => (d, .ok none)

end Tinyflows.Graph
