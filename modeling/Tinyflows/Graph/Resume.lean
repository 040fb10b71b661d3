import Tinyflows.Graph.Api
import Tinyflows.Graph.View

/-!
# Resuming a run that was cut off
-/

namespace Tinyflows.Graph
open Lib

variable {S U V : Type}

/-- A run from `start` that passes the boundary `l` and then those in `rest`, the checkpoint `c` it
wrote at `l`, and a later resume from `c` without a value. The handlers of both runs are the same
functions of the state and the argument, no limit stops either run, and every write goes through. -/
structure CutOff (g : CompiledGraph S U V) (f : Handlers S U V) (rt rt' : Runtime S U V)
    (thread : ThreadId) (start l : Loop S V) (rest : List (Loop S V)) (c : Checkpoint S V)
    (store : CheckpointStore S V) (target : ResumeTarget) : Prop where
  handlers : rt.Follows f ∧ rt'.Follows f
  reliable : rt.Reliable ∧ rt'.Reliable
  checkpointer : g.checkpointer = true
  sync : g.durability = .sync
  starting : start.steps = 0 ∧ start.persistence.writes = {}
  passes : ∃ before, boundaries g rt (some thread) (stepLimit g) start = before ++ l :: rest
  unfinished : l.active ≠ []
  wrote : l.persistence.store.get thread none = some c
  depth : g.recursionFrames + 1 ≤ g.recursionPolicy.maxDepth
  limits : ∀ m ∈ l :: rest, m.active ≠ [] → ∃ entered, enterStep g rt m = .ok entered
  deadline : ∀ step, g.runDeadline.filter (· ≤ rt'.elapsed step) = none
  found : store.getScoped thread target.id g.ns = some c

def resumed (g : CompiledGraph S U V) (thread : ThreadId) (store : CheckpointStore S V)
    (c : Checkpoint S V) (resume : Option V) : Loop S V :=
  resumeLoop store c
    (store.getWrites { threadId := thread, checkpointId := some c.checkpointId, ns := g.ns }) resume

/-- The resumed run passes the boundaries the first run passed after `l`, and ends like it. -/
def ContinuesAlike (g : CompiledGraph S U V) (rt rt' : Runtime S U V) (thread : ThreadId)
    (start : Loop S V) (rest : List (Loop S V)) (c : Checkpoint S V) (store : CheckpointStore S V)
    (target : ResumeTarget) : Prop :=
  (boundaries g rt' (some thread) (stepLimit g) (resumed g thread store c none)).map Loop.view =
      rest.map Loop.view ∧
    (resumeFrom g rt' store thread target none).result.map (·.state) =
      (executeRun g rt (some thread) start).result.map (·.state)

/-!
## Chains of runs on one thread

A thread is run, interrupted, resumed and retried any number of times, each time by a runtime of its
own. Steps are counted anew by each run, while pending activations keep the task ids of earlier ones.
-/

inductive Operation (S V : Type) where
  | run (state : S)
  | runWithInputs (state : S) (inputs : List (GraphInput V))
  | resume (target : ResumeTarget) (value : Option V)
  | retry

def Operation.perform (g : CompiledGraph S U V) (rt : Runtime S U V) (store : CheckpointStore S V)
    (thread : ThreadId) : Operation S V → RunResult S V
  | .run state => Graph.run g rt store (some thread) state
  | .runWithInputs state inputs => Graph.runWithInputs g rt store (some thread) state inputs
  | .resume target value => resumeFrom g rt store thread target value
  | .retry => Graph.retry g rt store thread

def Runtime.MintsFresh (rt : Runtime S U V) (thread : ThreadId) (store : CheckpointStore S V) : Prop :=
  Function.Injective rt.checkpointId ∧
    ∀ n, ∀ c ∈ store.getThread thread, c.checkpointId ≠ rt.checkpointId n

/-- The stores that chains of allowed operations on `thread` leave behind. -/
inductive Chain (g : CompiledGraph S U V) (thread : ThreadId)
    (allowed : CheckpointStore S V → Operation S V → Prop) : CheckpointStore S V → Prop where
  | start : Chain g thread allowed {}
  | step {store} (rt : Runtime S U V) (op : Operation S V) :
      Chain g thread allowed store → rt.MintsFresh thread store → allowed store op →
      Chain g thread allowed (op.perform g rt store thread).store

/-! ## Task ids -/

def pendingIds (c : Checkpoint S V) : List TaskId :=
  ((c.pendingActivations.getD []).map (·.taskId)).filter (· ≠ "")

/-- The tasks with recorded writes are none of the pending ones. -/
def Separated (c : Checkpoint S V) : Prop :=
  ∀ w ∈ c.pendingWrites, w.taskId ∉ pendingIds c

def MintsUnused (step : Nat) (active : List (Activation V)) : Prop :=
  ∀ i a, active[i]? = some a → a.taskId = "" → ∀ b ∈ active, b.taskId ≠ freshTaskId step i a.node

/-- A resume whose first step mints no task id that a pending activation still carries. -/
def ResumeMintsUnused (g : CompiledGraph S U V) (thread : ThreadId) (store : CheckpointStore S V)
    (target : ResumeTarget) : Prop :=
  ∀ c, store.getScoped thread target.id g.ns = some c → MintsUnused 1 (pendingOf c)

/-- If the operation resumes, it mints no task id that is still in use. -/
def NoIdReused (g : CompiledGraph S U V) (thread : ThreadId) (store : CheckpointStore S V) :
    Operation S V → Prop
  | .resume target _ => ResumeMintsUnused g thread store target
  | .retry => ResumeMintsUnused g thread store .latest
  | _ => True

end Tinyflows.Graph
