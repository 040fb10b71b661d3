import Tinyflows.Graph.Types
import Tinyflows.Lib.Admission

/-!
# Running the active set

The two runners of a super-step. The sequential one stops at the first failure or interrupt; the
parallel one runs every branch, possibly under concurrency bounds, and folds the results in active-set
order.
-/

namespace Tinyflows.Graph
open Lib

variable {S U V : Type}

/-! ## The runtime of a run -/

structure ForkId where
  branchIndex : Nat
  node : NodeId
  deriving DecidableEq

structure NodeContext (V : Type) where
  nodeId : NodeId
  runId : RunId
  threadId : Option ThreadId
  step : Nat
  resume : Option V
  fork : Option ForkId
  sendArg : Option V
  deriving DecidableEq

abbrev ResumeMap (V : Type) := HashMap NodeId V

/-- Everything a run meets that the graph does not decide. A handler's future resolves to a result
that may differ for every branch, so `handler` also sees the branch's position in the active set; a
node timeout is one of the errors it can resolve to. `select` drives the futures of each super-step,
`elapsed` is the run's age at each super-step, `put` and `putWrites` say which checkpoint writes fail,
and `finished` whether the last background write has settled by the end of a super-step. By default
nothing gets in the way of a run. -/
structure Runtime (S U V : Type) where
  runId : RunId := "run"
  handler : NodeId → Nat → S → NodeContext V → Except GraphError (NodeResult U V)
  select : Nat → Admission.SelectAll := fun _ => Admission.firstReady
  elapsed : Nat → Nat := fun _ => 0
  showDuration : Nat → String := fun _ => ""
  checkpointId : Nat → CheckpointId := fun minted => s!"{minted}"
  put : Nat → Option GraphError := fun _ => none
  putWrites : Nat → Option GraphError := fun _ => none
  finished : Nat → Bool := fun _ => true
  tokio : Bool := true
  iterOrder : IterOrder NodeId := .sorted NodeId

/-! ## Step accumulators -/

structure StepFailure where
  failedIndex : Nat
  error : GraphError
  deriving DecidableEq

structure StepRun (U V : Type) where
  updates : List U := []
  gotoMap : HashMap Nat (List (RouteTarget V)) := ∅
  completed : List Nat := []
  interrupts : List (Nat × Interrupt V) := []
  failure : Option StepFailure := none

/-- What the runners thread through a super-step. `contexts` records what each branch was started
with, by its index; nothing reads it. -/
structure Progress (U V : Type) where
  run : StepRun U V := {}
  resumeMap : ResumeMap V
  visited : List NodeId := []
  contexts : List (Nat × NodeContext V) := []

variable (g : CompiledGraph S U V) (rt : Runtime S U V)
  (threadId : Option ThreadId) (step : Nat) (state : S) (active : List (Activation V))

def nodeContext (fork : Option ForkId) (a : Activation V)
    (resumeMap : ResumeMap V) : NodeContext V × ResumeMap V :=
  ({ nodeId := a.node, runId := rt.runId, threadId, step, resume := resumeMap.lookup a.node, fork,
     sendArg := a.sendArg },
   resumeMap.erase a.node)

def foldResult (index : Nat) (node : NodeId) (result : NodeResult U V)
    (p : Progress U V) : Progress U V × Option (Nat × Interrupt V) :=
  let p := { p with visited := p.visited ++ [node] }
  match result with
  | .update u => ({ p with run := { p.run with updates := p.run.updates ++ [u] } }, none)
  | .command c =>
    let run := { p.run with updates := p.run.updates ++ c.update.toList }
    let run := if c.goto.isEmpty then run
      else { run with gotoMap := run.gotoMap.insert index c.goto }
    ({ p with run }, none)
  | .interrupt i => (p, some (index, i))

def Progress.pause (p : Progress U V) (found : Nat × Interrupt V) :
    Progress U V :=
  { p with run := { p.run with interrupts := p.run.interrupts ++ [found] } }

def Progress.complete (p : Progress U V) (index : Nat) : Progress U V :=
  { p with run := { p.run with completed := p.run.completed ++ [index] } }

def Progress.fail (p : Progress U V) (index : Nat) (error : GraphError) :
    Progress U V :=
  { p with run := { p.run with failure := p.run.failure.or (some ⟨index, error⟩) } }

def runActiveSequential :
    Nat → List (Activation V) → Progress U V → Except GraphError (Progress U V)
  | _, [], p => .ok p
  | index, a :: rest, p =>
    if a.node ∈ g.nodes then
      let (ctx, resumeMap) := nodeContext rt threadId step none a p.resumeMap
      let p := { p with resumeMap, contexts := p.contexts ++ [(index, ctx)] }
      match rt.handler a.node index state ctx with
      | .error e => .ok (p.fail index e)
      | .ok result =>
        match foldResult index a.node result p with
        | (p, some found) => .ok (p.pause found)
        | (p, none) => runActiveSequential (index + 1) rest (p.complete index)
    else .error (.missingNode a.node)

/-! ## The parallel runner -/

def forkContexts :
    Nat → List (Activation V) → ResumeMap V →
      Except GraphError (List (NodeContext V) × ResumeMap V)
  | _, [], resumeMap => .ok ([], resumeMap)
  | index, a :: rest, resumeMap =>
    if a.node ∈ g.nodes then
      let (ctx, resumeMap) := nodeContext rt threadId step (some ⟨index, a.node⟩) a resumeMap
      match forkContexts (index + 1) rest resumeMap with
      | .error e => .error e
      | .ok (ctxs, resumeMap) => .ok (ctx :: ctxs, resumeMap)
    else .error (.missingNode a.node)

def branchNode (index : Nat) : NodeId :=
  (active[index]?.map (·.node)).getD ""

def branchResult (ctxs : List (NodeContext V)) (index : Nat) : Except GraphError (NodeResult U V) :=
  match active[index]?, ctxs[index]? with
  | some a, some ctx => rt.handler a.node index state ctx
  | _, _ => .error (.missingNode (branchNode active index))

/-- Some node is activated more often than its own bound allows at once. Without any bound no lookup
succeeds. -/
def nodeCapsBind : Bool :=
  (List.range active.length).any fun i =>
    (g.nodeConcurrency.lookup (branchNode active i)).any fun cap =>
      cap < ((activationNodes active).take (i + 1)).count (branchNode active i)

def globalBinds : Bool :=
  g.maxConcurrency.any (· < active.length)

def ceilings : Admission.Ceilings NodeId where
  limit := max (g.maxConcurrency.getD active.length) 1
  cap := g.nodeConcurrency.lookup

/-- Drives the branches to completion. `none` is the panic of an unfilled slot. -/
def driveBranches (select : Admission.SelectAll) (active : List (Activation V))
    (results : Nat → Except GraphError (NodeResult U V)) :
    Option (List (Except GraphError (NodeResult U V))) :=
  if globalBinds g active || nodeCapsBind g active then
    Admission.drive (ceilings g active) (branchNode active) select results active.length
  else some ((List.range active.length).map results)

def foldBranches : Nat → List (Activation V × Except GraphError (NodeResult U V)) →
    Progress U V → Progress U V
  | _, [], p => p
  | index, (_, .error e) :: rest, p => foldBranches (index + 1) rest (p.fail index e)
  | index, (a, .ok result) :: rest, p =>
    match foldResult index a.node result p with
    | (p, some found) => foldBranches (index + 1) rest (p.pause found)
    | (p, none) => foldBranches (index + 1) rest (p.complete index)

def runActiveParallel (p : Progress U V) : Except GraphError (Progress U V) :=
  match forkContexts g rt threadId step 0 active p.resumeMap with
  | .error e => .error e
  | .ok (ctxs, resumeMap) =>
    match driveBranches g (rt.select step) active (branchResult rt state active ctxs) with
    | none => .error (.graph "every branch produced a result")
    | some results => .ok (foldBranches 0 (active.zip results)
        { p with resumeMap, contexts := p.contexts ++ (List.range active.length).zip ctxs })

def runActive (p : Progress U V) : Except GraphError (Progress U V) :=
  if g.parallel ∧ 1 < active.length then runActiveParallel g rt threadId step state active p
  else runActiveSequential g rt threadId step state 0 active p

end Tinyflows.Graph
