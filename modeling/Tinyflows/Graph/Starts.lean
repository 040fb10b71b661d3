import Tinyflows.Graph.Resume

/-!
# What the branches of a run are started with

A resume value is meant for the activations that paused. This module lists every branch a run starts,
with the context it is given, and says when a resume value has reached the right ones.
-/

namespace Tinyflows.Graph
open Lib

variable {S U V : Type}

abbrev Start (V : Type) := Nat × NodeContext V

variable (g : CompiledGraph S U V) (rt : Runtime S U V)

section

variable (threadId : Option ThreadId) (step : Nat) (state : S)

def sequentialStarts : Nat → List (Activation V) → ResumeMap V → List (Start V)
  | _, [], _ => []
  | index, a :: rest, resumeMap =>
    if a.node ∈ g.nodes then
      let (ctx, resumeMap) := nodeContext rt threadId step none a resumeMap
      (index, ctx) ::
        if (Fate.ofResult (rt.handler a.node index state ctx)).isCompleted then
          sequentialStarts (index + 1) rest resumeMap
        else []
    else []

def stepStarts (active : List (Activation V)) (resumeMap : ResumeMap V) : List (Start V) :=
  if g.parallel ∧ 1 < active.length then
    if ∀ a ∈ active, a.node ∈ g.nodes then
      (List.range active.length).zip (forkedContexts rt threadId step 0 active resumeMap)
    else []
  else sequentialStarts g rt threadId step state 0 active resumeMap

def runStarts : Nat → Loop S V → List (Start V)
  | 0, _ => []
  | budget + 1, l =>
    if l.active = [] then []
    else
      match enterStep g rt l with
      | .error _ => []
      | .ok entered =>
        stepStarts g rt threadId entered.steps entered.state entered.active entered.resumeMap ++
          match superStep g rt threadId l with
          | .done _ => []
          | .next l => runStarts budget l

end

variable (store : CheckpointStore S V) (thread : ThreadId) (c : Checkpoint S V)
  (paused : List (Activation V)) (value : V)

def resumeStarts (resume : Option V) : List (Start V) :=
  if g.checkpointer = false ∨ pendingOf c = [] ∨
    g.recursionPolicy.maxDepth < g.recursionFrames + 1 then []
  else runStarts g rt (some thread) (stepLimit g) (resumed g thread store c resume)

def handed (starts : List (Start V)) : List (Nat × Nat × V) :=
  starts.filterMap fun s => s.2.resume.map fun value => (s.2.step, s.1, value)

/-! ## Interrupts -/

/-- A super-step from `l` that stops at an interrupt, and the checkpoint it leaves. -/
structure Interrupted (thread : ThreadId) (l entered : Loop S V) (p : Progress U V) (state : S)
    (c : Checkpoint S V) : Prop where
  ran : Ran g rt (some thread) l entered p state
  unfailed : p.run.failure = none
  interrupts : p.run.interrupts ≠ []
  durable : requireInterruptDurability g (some thread) = .ok ()
  wrote : ∃ b id parent,
    interruptBoundary g entered.active p.run state entered.barriers = .ok b ∧
    c = buildCheckpoint g rt thread id parent entered.steps b

def pausedActivations (active : List (Activation V)) (run : StepRun U V) : List (Activation V) :=
  activationsAt active (run.interrupts.map (·.1))

/-- What an interrupt scheduled beside the branches it keeps: only these have no task id yet. -/
def successorsOf : List (Activation V) :=
  (pendingOf c).filter (·.taskId = "")

/-- The value goes to each of the paused activations once and to no other branch of the run. The
paused activations stand right behind the successors, and that is where the first super-step of the
resume finds them again. -/
structure Addressed : Prop where
  kept : ((resumed g thread store c (some value)).active.drop (successorsOf c).length).take
    paused.length = paused
  reaches : handed (resumeStarts g rt store thread c (some value)) =
    (List.range' (successorsOf c).length paused.length).map fun i => (1, i, value)

/-! ## When the value finds its way -/

def markedTasks : HashSet TaskId :=
  doneTasks c (store.getWrites { threadId := thread, checkpointId := some c.checkpointId, ns := g.ns })

def plainContext (a : Activation V) : NodeContext V :=
  { nodeId := a.node, runId := rt.runId, threadId := some thread, step := 1, resume := none
    fork := none, sendArg := a.sendArg }

/-- The paused activations are of different nodes, no successor is of one of these nodes, and nothing
keeps the resume from starting the paused activations: no limit, no completion marker and, where the
branches run one after the other, no successor that does not complete. -/
structure Addressable : Prop where
  distinct : (activationNodes paused).Nodup
  apart : ∀ s ∈ successorsOf c, s.node ∉ activationNodes paused
  depth : g.recursionFrames + 1 ≤ g.recursionPolicy.maxDepth
  enters : ∃ entered, enterStep g rt (resumed g thread store c (some value)) = .ok entered
  unmarked : (∀ a ∈ paused, a.taskId ∉ markedTasks g store thread c) ∨
    ∀ a ∈ pendingOf c, a.taskId ≠ "" ∧ a.taskId ∈ markedTasks g store thread c
  reached : g.parallel = false → ∀ i s, (successorsOf c)[i]? = some s →
    (Fate.ofResult (rt.handler s.node i c.state (plainContext rt thread s))).isCompleted

end Tinyflows.Graph
