import Tinyflows.Lib.HashMap

/-!
# Data of the graph runtime

Ids are the strings the runtime passes around. `Value` stands for the JSON values carried by `Send`
packets, interrupts and resumes: the executor moves them and never looks inside.
-/

namespace Tinyflows.Graph
open Lib

abbrev NodeId := String
abbrev RunId := String
abbrev ThreadId := String
abbrev TaskId := String
abbrev CheckpointId := String

def START : NodeId := "__start__"
def END : NodeId := "__end__"

inductive GraphError where
  | missingStart
  | missingNode (node : String)
  | missingEdgeTarget (node : String)
  | missingRoute (node route : String)
  | recursionLimit (steps : Nat)
  | subAgentDepth (depth : Nat)
  | nodeVisitLimit (node : String) (limit : Nat)
  | validation (message : String)
  | timeout (message : String)
  | cancelled
  | graph (message : String)
  | interrupted (node message : String)
  | invalidConcurrentUpdate (message : String)
  | checkpoint (message : String)
  | resume (message : String)
  | serialization (message : String)
  deriving DecidableEq

/-! ## Commands -/

/-- A routing target: a plain node, or a `Send` packet with its own argument. -/
inductive RouteTarget (V : Type) where
  | node (node : NodeId)
  | send (node : NodeId) (arg : V)
  deriving DecidableEq

variable {S U V : Type}

def RouteTarget.nodeId : RouteTarget V → NodeId
  | .node n => n
  | .send n _ => n

def RouteTarget.sendArg : RouteTarget V → Option V
  | .node _ => none
  | .send _ arg => some arg

structure Command (U V : Type) where
  update : Option U := none
  goto : List (RouteTarget V) := []
  resume : Option V := none
  deriving DecidableEq

structure Interrupt (V : Type) where
  id : String
  node : NodeId
  payload : V
  deriving DecidableEq

inductive NodeResult (U V : Type) where
  | update (u : U)
  | command (c : Command U V)
  | interrupt (i : Interrupt V)
  deriving DecidableEq

/-! ## Activations and checkpoints -/

/-- One scheduled run of a node. Plain activations carry no argument; the task id is empty until the
super-step that runs the activation assigns one. -/
structure Activation (V : Type) where
  node : NodeId
  sendArg : Option V := none
  taskId : TaskId := ""
  deriving DecidableEq

structure PendingActivation (V : Type) where
  node : NodeId
  sendArg : Option V
  taskId : TaskId
  deriving DecidableEq

def PendingActivation.ofActivation (a : Activation V) : PendingActivation V :=
  { node := a.node, sendArg := a.sendArg, taskId := a.taskId }

def Activation.ofPending (p : PendingActivation V) : Activation V :=
  { node := p.node, sendArg := p.sendArg, taskId := p.taskId }

@[simp] theorem Activation.ofPending_ofActivation (a : Activation V) :
    Activation.ofPending (PendingActivation.ofActivation a) = a := rfl

def activationNodes (active : List (Activation V)) : List NodeId :=
  active.map (·.node)

/-- A write recorded against a checkpoint. A negative index marks a control-plane write. -/
structure PendingWrite (V : Type) where
  node : NodeId
  taskId : TaskId
  idx : Int
  channel : String
  payload : Option V
  deriving DecidableEq

/-- The record that `taskId` ran to completion; its payload is JSON `null`. -/
def PendingWrite.completionMarker (node : NodeId) (taskId : TaskId) : PendingWrite V :=
  { node, taskId, idx := 0, channel := node, payload := none }

def PendingWrite.isControlPlane (w : PendingWrite V) : Bool := decide (w.idx < 0)

def PendingWrite.identity (w : PendingWrite V) : TaskId × Int := (w.taskId, w.idx)

structure BarrierArrivals where
  node : NodeId
  arrived : List NodeId
  deriving DecidableEq

/-- The keys of a checkpoint's metadata object that the executor reads back or stamps on purpose.
An absent `interrupted_nodes` key reads as the empty list. -/
structure Metadata where
  source : String
  step : Nat
  interruptedNodes : List NodeId := []
  failedNode : Option NodeId := none
  error : Option GraphError := none
  deriving DecidableEq

structure Checkpoint (S V : Type) where
  threadId : ThreadId
  checkpointId : CheckpointId
  runId : Option RunId
  parentCheckpointId : Option CheckpointId
  ns : List String
  state : S
  nextNodes : List NodeId
  completedTasks : List NodeId
  pendingWrites : List (PendingWrite V)
  interrupts : List (Interrupt V)
  pendingActivations : Option (List (PendingActivation V))
  barrierArrivals : List BarrierArrivals
  metadata : Metadata
  deriving DecidableEq

inductive DurabilityMode where
  | sync
  | async
  | exit
  deriving DecidableEq

/-! ## Compiled graphs -/

structure Branch (S : Type) where
  router : S → String
  routes : HashMap String NodeId

structure NodeMeta where
  commandDestinations : List NodeId := []
  commandFanout : Bool := false
  deriving DecidableEq

/-- When `source` completes without routing towards `reliefNode`, the barrier `barrierNode` stops
waiting for `reliefNode`. -/
structure BarrierRelief where
  source : NodeId
  reliefNode : NodeId
  barrierNode : NodeId
  deriving DecidableEq

structure RecursionPolicy where
  maxDepth : Nat := 25
  maxVisitsPerNode : Option Nat := none
  maxTotalSteps : Nat := 1000
  deriving DecidableEq

abbrev Barriers := HashMap NodeId (HashSet NodeId)

theorem noBarriers : ∀ b ∈ (∅ : Barriers).keys, (∅ : Barriers).lookup b ≠ some ∅ := by decide

theorem noBounds : ∀ n ∈ (∅ : HashMap NodeId Nat).keys, (∅ : HashMap NodeId Nat).lookup n ≠ some 0 := by
  decide

/-- The frozen topology and settings of a graph. The node handlers are not part of it: what a
handler's future resolves to belongs to the runtime. The last fields hold of everything the builder
compiles: it adds a barrier together with its first predecessor, drops a concurrency bound of zero,
and refuses an edge, a route or a barrier whose target is not a node. -/
structure CompiledGraph (S U V : Type) where
  entry : NodeId
  nodes : HashSet NodeId
  edges : HashMap NodeId NodeId := ∅
  branches : HashMap NodeId (Branch S) := ∅
  commandNodes : HashSet NodeId := ∅
  waiting : HashMap NodeId (HashSet NodeId) := ∅
  barrierReliefs : List BarrierRelief := []
  nodeMeta : HashMap NodeId NodeMeta := ∅
  reducer : S → U → Except GraphError S
  recursionLimit : Nat := 50
  recursionPolicy : RecursionPolicy := {}
  recursionFrames : Nat := 0
  checkpointer : Bool := true
  ns : List String := []
  parallel : Bool := false
  maxConcurrency : Option Nat := none
  nodeConcurrency : HashMap NodeId Nat := ∅
  runDeadline : Option Nat := none
  durability : DurabilityMode := .sync
  waiting_nonempty : ∀ b ∈ waiting.keys, waiting.lookup b ≠ some ∅ := by
    first | exact noBarriers | decide
  nodeConcurrency_pos : ∀ n ∈ nodeConcurrency.keys, nodeConcurrency.lookup n ≠ some 0 := by
    first | exact noBounds | decide
  entry_known : entry ∈ nodes := by decide
  edges_known : ∀ n ∈ edges.keys, ∀ t ∈ edges.lookup n, t = END ∨ t ∈ nodes := by decide
  branches_known : ∀ n ∈ branches.keys, ∀ b ∈ branches.lookup n, ∀ label ∈ b.routes.keys,
    ∀ t ∈ b.routes.lookup label, t = END ∨ t ∈ nodes := by decide
  waiting_known : ∀ b ∈ waiting.keys, b ∈ nodes := by decide

end Tinyflows.Graph
