import Tinyflows.Graph.RunLoop

/-!
# Starting and resuming runs
-/

namespace Tinyflows.Graph
open Lib

variable {S U V : Type}

/-! ## Fresh runs -/

structure GraphInput (V : Type) where
  node : NodeId
  payload : Option V
  deriving DecidableEq

def initialActivations (g : CompiledGraph S U V) : List (GraphInput V) →
    Except GraphError (List (Activation V))
  | [] => .ok []
  | input :: inputs =>
    if input.node = END then .error (.graph "graph input cannot target END")
    else if input.node ≠ START ∧ input.node ∉ g.nodes then .error (.missingNode input.node)
    else
      match initialActivations g inputs with
      | .error e => .error e
      | .ok active =>
        let node := if input.node = START then g.entry else input.node
        .ok ({ node, sendArg := input.payload } :: active)

variable (g : CompiledGraph S U V) (c : Checkpoint S V)
  (rt : Runtime S U V) (store : CheckpointStore S V)

def initialInputs (inputs : List (GraphInput V)) : Except GraphError (List (Activation V)) :=
  match initialActivations g inputs with
  | .error e => .error e
  | .ok [] => .error (.validation "run_with_inputs requires at least one input")
  | .ok active => .ok active

def freshLoop (state : S) (active : List (Activation V)) : Loop S V :=
  { state, active, resumeMap := ∅, barriers := ∅, parentCheckpoint := none,
    persistence := { store } }

def run (threadId : Option ThreadId) (state : S) : RunResult S V :=
  executeRun g rt threadId (freshLoop store state [{ node := g.entry }])

def runWithInputs (threadId : Option ThreadId) (state : S) (inputs : List (GraphInput V)) :
    RunResult S V :=
  match initialInputs g inputs with
  | .error e => { result := .error e, store }
  | .ok active => executeRun g rt threadId (freshLoop store state active)

/-! ## Resuming -/

inductive ResumeTarget where
  | latest
  | checkpoint (id : CheckpointId)
  deriving DecidableEq

def ResumeTarget.id : ResumeTarget → Option CheckpointId
  | .latest => none
  | .checkpoint id => some id

/-- What a checkpoint left to run. Old records only name the nodes. -/
def pendingOf : List (Activation V) :=
  match c.pendingActivations with
  | some (p :: pending) => (p :: pending).map Activation.ofPending
  | _ => c.nextNodes.map fun node => { node }

def doneTasks (recorded : List (PendingWrite V)) : HashSet TaskId :=
  ((if recorded.isEmpty then c.pendingWrites else recorded).map (·.taskId)).toFinset

def skipDone (done : HashSet TaskId) (active : List (Activation V)) : List (Activation V) :=
  let filtered := active.filter fun a => a.taskId = "" ∨ a.taskId ∉ done
  if filtered = [] then active else filtered

def interruptedNodes (c : Checkpoint S V) (pending : List (Activation V)) :
    List NodeId :=
  if c.metadata.interruptedNodes = [] then
    (c.interrupts.map (·.node)).filter (· ∈ activationNodes pending)
  else c.metadata.interruptedNodes

def resumeMapFor (active : List (Activation V)) (resume : Option V) : ResumeMap V :=
  match resume with
  | none => ∅
  | some value =>
    let nodes := if interruptedNodes c active = [] then activationNodes active
      else interruptedNodes c active
    nodes.foldl (fun m node => m.insert node value) ∅

def resumeActive (recorded : List (PendingWrite V)) : List (Activation V) :=
  skipDone (doneTasks c recorded) (pendingOf c)

def resumeLoop (c : Checkpoint S V) (recorded : List (PendingWrite V))
    (resume : Option V) : Loop S V :=
  { state := c.state
    active := resumeActive c recorded
    resumeMap := resumeMapFor c (resumeActive c recorded) resume
    barriers := barriersFromPersisted c.barrierArrivals
    parentCheckpoint := some c.checkpointId
    persistence := { store } }

def resumeFrom (thread : ThreadId) (target : ResumeTarget) (resume : Option V) :
    RunResult S V :=
  if g.checkpointer = false then { result := .error (.resume "no checkpointer configured"), store }
  else
    match store.getScoped thread target.id g.ns with
    | none =>
      let message := match target with
        | .latest => s!"no checkpoint found for thread `{thread}`"
        | .checkpoint id => s!"no checkpoint `{id}` found for thread `{thread}`"
      { result := .error (.resume message), store }
    | some c =>
      if pendingOf c = [] then
        { result := .error (.resume "checkpoint has no pending nodes to resume"), store }
      else
        let recorded := store.getWrites
          { threadId := thread, checkpointId := some c.checkpointId, ns := g.ns }
        executeRun g rt (some thread) (resumeLoop store c recorded resume)

def retry (thread : ThreadId) : RunResult S V :=
  resumeFrom g rt store thread .latest none

theorem pendingOf_buildCheckpoint {th} (g) (rt : Runtime S U V) (id pa step) {b} (h : b.pending ≠ []) :
    pendingOf (buildCheckpoint g rt th id pa step b) = b.pending := by
  cases hp : b.pending with
  | nil => exact absurd hp h
  | cons a rest => simp [pendingOf, buildCheckpoint, hp, List.map_map, Function.comp_def]

end Tinyflows.Graph
