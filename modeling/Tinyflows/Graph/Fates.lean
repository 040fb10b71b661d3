import Tinyflows.Graph.NodeExecution

/-!
# The fate of each branch

An abstract account of a super-step: every branch has exactly one fate, and the folded result is
determined by the list of fates. Both runners meet it.
-/

namespace Tinyflows.Graph
open Lib

variable {S U V : Type}

inductive Fate (U V : Type) where
  | completed (update : Option U) (goto : List (RouteTarget V))
  | interrupted (i : Interrupt V)
  | failed (e : GraphError)
  | unstarted

namespace Fate

def ofResult : Except GraphError (NodeResult U V) → Fate U V
  | .error e => .failed e
  | .ok (.update u) => .completed (some u) []
  | .ok (.command c) => .completed c.update c.goto
  | .ok (.interrupt i) => .interrupted i

def isCompleted : Fate U V → Bool
  | .completed _ _ => true
  | _ => false

def update : Fate U V → Option U
  | .completed u _ => u
  | _ => none

/-- The explicit routing of a completed branch. An empty `goto` is none at all. -/
def goto : Fate U V → Option (List (RouteTarget V))
  | .completed _ [] => none
  | .completed _ (t :: ts) => some (t :: ts)
  | _ => none

def interrupt : Fate U V → Option (Interrupt V)
  | .interrupted i => some i
  | _ => none

def error : Fate U V → Option GraphError
  | .failed e => some e
  | _ => none

end Fate

def StepRun.add (run : StepRun U V) (x : Fate U V × Nat) : StepRun U V where
  updates := run.updates ++ x.1.update.toList
  gotoMap := match x.1.goto with
    | some targets => run.gotoMap.insert x.2 targets
    | none => run.gotoMap
  completed := run.completed ++ if x.1.isCompleted then [x.2] else []
  interrupts := run.interrupts ++ (x.1.interrupt.map fun i => (x.2, i)).toList
  failure := run.failure.or (x.1.error.map fun e => ⟨x.2, e⟩)

def StepRun.ofFates (fates : List (Fate U V)) : StepRun U V :=
  fates.zipIdx.foldl StepRun.add {}

/-! ## The fates under each runner -/

section

variable (g : CompiledGraph S U V) (rt : Runtime S U V) (threadId : Option ThreadId) (step : Nat)
  (state : S) (active : List (Activation V)) (resumeMap : ResumeMap V)

/-- Sequentially, a branch is started when every branch before it completed. -/
def sequentialFates : Nat → List (Activation V) → ResumeMap V → List (Fate U V)
  | _, [], _ => []
  | index, a :: rest, resumeMap =>
    let (ctx, resumeMap) := nodeContext rt threadId step none a resumeMap
    let fate := Fate.ofResult (rt.handler a.node index state ctx)
    if fate.isCompleted then
      fate :: sequentialFates (index + 1) rest resumeMap
    else fate :: rest.map fun _ => .unstarted

def forkedContexts : Nat → List (Activation V) → ResumeMap V → List (NodeContext V)
  | _, [], _ => []
  | index, a :: rest, resumeMap =>
    let (ctx, resumeMap) := nodeContext rt threadId step (some ⟨index, a.node⟩) a resumeMap
    ctx :: forkedContexts (index + 1) rest resumeMap

/-- In parallel every branch is started, and its fate is what its own handler returned. -/
def parallelFates : List (Fate U V) :=
  (List.range active.length).map fun i => Fate.ofResult
    (branchResult rt state active (forkedContexts rt threadId step 0 active resumeMap) i)

def branchFates : List (Fate U V) :=
  if g.parallel ∧ 1 < active.length then parallelFates rt threadId step state active resumeMap
  else sequentialFates rt threadId step state 0 active resumeMap

/-- The step runs its branches through the admission loop. -/
def bounded : Prop :=
  (g.parallel ∧ 1 < active.length) ∧ (globalBinds g active || nodeCapsBind g active) = true

/-- No concurrency bound is in force, or the bounds let at most two branches run at once. -/
def SlotsInOrder : Prop :=
  bounded g active → Admission.peak (ceilings g active) (branchNode active) active.length ≤ 2

end

/-! ## Against the sequential runner -/

/-- A forked branch is told apart in its context; these handlers do not look at that. -/
def Runtime.ForkBlind (rt : Runtime S U V) : Prop :=
  ∀ node index state ctx fork, rt.handler node index state { ctx with fork } =
    rt.handler node index state ctx

section Branches

variable (g : CompiledGraph S U V) (select : Admission.SelectAll)
  (active : List (Activation V)) (results : Nat → Except GraphError (NodeResult U V))

def branchesInFlight (round : Nat) : List Nat :=
  if globalBinds g active || nodeCapsBind g active then
    (Admission.after (ceilings g active) (branchNode active) select results active.length round).running
  else List.range active.length

def branchesStarted : List Nat :=
  if globalBinds g active || nodeCapsBind g active then
    (Admission.after (ceilings g active) (branchNode active) select results active.length
      active.length).started
  else List.range active.length

end Branches

/-- A parallel step starts every branch once, keeps to every bound, and comes to what running the
branches one after the other comes to. -/
structure RunsAlike (g : CompiledGraph S U V) (rt : Runtime S U V)
    (threadId : Option ThreadId) (step : Nat) (state : S) (active : List (Activation V))
    (p : Progress U V) : Prop where
  started : (branchesStarted g (rt.select step) active (branchResult rt state active
    (forkedContexts rt threadId step 0 active p.resumeMap))).Perm (List.range active.length)
  underLimit : ∀ round m, g.maxConcurrency = some m →
    (branchesInFlight g (rt.select step) active (branchResult rt state active
      (forkedContexts rt threadId step 0 active p.resumeMap)) round).length ≤ m
  underCaps : ∀ round node cap, g.nodeConcurrency.lookup node = some cap →
    Admission.tally (branchNode active) node (branchesInFlight g (rt.select step) active
      (branchResult rt state active (forkedContexts rt threadId step 0 active p.resumeMap)) round) ≤ cap
  alike : ∃ q q', runActive g rt threadId step state active p = .ok q ∧
    runActiveSequential g rt threadId step state 0 active p = .ok q' ∧ q.run = q'.run

end Tinyflows.Graph
