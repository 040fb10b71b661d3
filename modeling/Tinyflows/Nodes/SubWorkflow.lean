import Tinyflows.Engine.Approvals
import Tinyflows.Lib.Text
import Tinyflows.Nodes.Binding

/-!
# The sub_workflow node

Runs another workflow as a child run. The child is a graph of its own: it shares nothing with its
parent but the host, and a gate it stops at is reported by the parent under a name that says which
node ran the child.
-/

namespace Tinyflows.Nodes
open Lib Tinyflows.Graph Model Engine Json

/-! ## Gates across the boundary -/

/-- Separates the id of a node from the id of a gate inside its child. -/
def GATE_NAMESPACE : String := "::"

def namespacedGate (nodeId gate : String) : String :=
  nodeId ++ GATE_NAMESPACE ++ gate

def gatesFor (nodeId : NodeId) (ids : Option Json) : List String :=
  (listedIds ids).filterMap (Text.stripPrefix (nodeId ++ GATE_NAMESPACE))

/-- Approvals arrive in the trigger when the run is executed again, and in the resume value when it
is continued from a checkpoint. -/
def approvalsForChild (ctx : ExecContext) : List String :=
  let approved := gatesFor ctx.node.id ((ctx.run.get "trigger").bind (·.get "approvals")) ++
    gatesFor ctx.node.id (ctx.resume.bind (·.get "approved"))
  (approved.insertionSort (· ≤ ·)).dedup

def MAX_SUB_WORKFLOW_DEPTH : Nat := 8

def currentDepth (run : Json) : Nat :=
  (((run.get "sub_workflow_depth").bind asU64).map (·.toNat)).getD 0

def maxDepth (run : Json) : Nat :=
  ((((run.get "max_sub_workflow_depth").bind asU64).map (·.toNat)).filter (0 < ·)).getD
    MAX_SUB_WORKFLOW_DEPTH

/-! ## The child -/

/-- What a node that runs a child relies on: how a graph is read from its JSON form, the host's saved
workflows, the check that compiles a graph, and how a directory is resolved inside the workspace. -/
structure Hosting where
  parse : Json → Except String WorkflowGraph
  resolver : String → Except EngineError WorkflowGraph
  compile : WorkflowGraph → Except EngineError Unit
  resolveDir : ExecContext → String → Except EngineError String

structure ChildRun where
  graph : WorkflowGraph
  input : RunInput
  depth : Nat
  maxDepth : Nat
  workspace : Option String

structure RunOutcome where
  output : Json
  pendingApprovals : List String := []
  cancelled : Bool := false
  deriving DecidableEq

def invalidWorkflow (e : String) : EngineError :=
  .capability s!"sub_workflow node: invalid workflow: {e}"

def referencesItself (child : WorkflowGraph) (workflowId : String) : Bool :=
  child.nodes.any fun n =>
    n.kind = .subWorkflow ∧ (n.config.get "workflow_id").bind asStr = some workflowId

section Child

variable (ex : Expressions) (host : Hosting) (ctx : ExecContext) (scope : Json)

/-- The child's graph: embedded in the configuration as it stands, or saved under an id that may be
an expression. -/
def childGraph : Except EngineError WorkflowGraph :=
  let workflowId := (((ctx.node.config.get "workflow_id").map (ex.resolveAll scope)).bind
    asStr).filter (· ≠ "")
  match ctx.node.config.get "workflow", workflowId with
  | some _, some _ => .error (.capability ("sub_workflow node: set exactly one of `workflow` " ++
      "(inline) or `workflow_id` (reference), not both"))
  | none, none => .error (.capability ("sub_workflow node: missing `workflow` (inline) or " ++
      "`workflow_id` (reference) in config"))
  | some inline, none => (host.parse inline).mapError invalidWorkflow
  | none, some id =>
    match host.resolver id with
    | .error e => .error e
    | .ok child =>
      if referencesItself child id then
        .error (.capability
          s!"sub_workflow node: workflow_id {String.quote id} references itself (cycle)")
      else .ok child

def childInputs : Except EngineError (List (String × Json)) :=
  match ctx.node.config.get "inputs" with
  | none => .ok []
  | some (.obj fields) => .ok (fields.map fun f => (f.1, ex.resolveAll scope f.2))
  | some _ => .error (.capability ("sub_workflow node: `inputs` must be an object mapping the " ++
      "child's declared input names to values"))

def nonBlank (s : String) : Option String :=
  (some (Text.trim s)).filter (· ≠ "")

def runWorkspace (run : Json) : Option String :=
  (((run.get "workspace").bind asStr).or
    (((run.get "trigger").bind (·.get "workspace")).bind asStr)).bind nonBlank

def childWorkspace : Except EngineError (Option String) :=
  match (ctx.node.config.get "workspace").filter (· ≠ .null) with
  | none => .ok (runWorkspace ctx.run)
  | some declared =>
    match (ex.resolveAll scope declared).asStr with
    | none => .error (.capability
        s!"sub_workflow node {ctx.node.id}: `workspace` must be a string")
    | some raw =>
      if Text.trim raw = "" then .error (.capability (s!"sub_workflow node {ctx.node.id}: " ++
        "`workspace` must be a non-empty path when present"))
      else (host.resolveDir ctx raw).map some

/-- The run a node asks for: one level deeper than its own, from its input items, with the approvals
addressed to its child. -/
def childRun (input : List Item) : Except EngineError ChildRun := do
  let graph ← childGraph ex host ctx scope
  let depth := currentDepth ctx.run + 1
  let cap := maxDepth ctx.run
  if cap < depth then
    throw (.capability
      s!"sub_workflow node: maximum nesting depth {cap} exceeded (possible cycle)")
  host.compile graph
  let inputs ← childInputs ex ctx scope
  let workspace ← childWorkspace ex host ctx scope
  return {
    graph, depth, workspace
    input := { trigger := itemsJson input, inputs, approvals := approvalsForChild ctx }
    maxDepth := cap }

end Child

/-! ## What comes of it -/

inductive ChildOutcome where
  | finished (item : Item)
  | cancelled
  | paused (gates : List String)
  deriving DecidableEq

/-- A child that stopped at gates pauses its parent. One that was cancelled winds down with its
parent, and is an error when the parent was not cancelled. -/
def childOutcome (nodeId : NodeId) (windingDown : Bool) (outcome : RunOutcome) :
    Except EngineError ChildOutcome :=
  if outcome.pendingApprovals ≠ [] then
    .ok (.paused (outcome.pendingApprovals.map (namespacedGate nodeId)))
  else if outcome.cancelled then
    if windingDown then .ok .cancelled
    else .error (.capability (s!"sub_workflow node {String.quote nodeId}: child run was cancelled " ++
      "before completing; the parent run is halted rather than falsely completed"))
  else .ok (.finished { json := outcome.output })

/-- A node emits one interrupt, which names the first gate and carries them all. -/
def pauseForChildGates (nodeId : NodeId) (gates : List String) : NodeOutput :=
  { control := some (.interrupt (gates.head?.getD nodeId) (.object [
      ("kind", .str "sub_workflow_approval"), ("node", .str nodeId),
      ("pending", .arr (gates.map .str))])) }

def PAUSED_MARKER : String := "_sub_workflow_paused"

def ChildOutcome.item : ChildOutcome → Item
  | .finished item => item
  | .cancelled => { json := .null }
  | .paused gates => { json := .obj [(PAUSED_MARKER, .arr (gates.map .str))] }

def ChildOutcome.output (nodeId : NodeId) : ChildOutcome → NodeOutput
  | .finished item => .main [item]
  | .cancelled => .main []
  | .paused gates => pauseForChildGates nodeId gates

def pausedGates (items : List Item) : List String :=
  items.flatMap fun item => listedIds (item.json.get PAUSED_MARKER)

def batchOutput (nodeId : NodeId) (windingDown : Bool) (items : List Item) : NodeOutput :=
  if windingDown then .main []
  else if pausedGates items ≠ [] then pauseForChildGates nodeId (pausedGates items)
  else .main items

section Execution

variable {m : Type → Type} [Monad m] (ex : Expressions) (host : Hosting)
  (start : Nat → ChildRun → m (Except EngineError RunOutcome)) (windingDown : Bool)

def runChild (ctx : ExecContext) (index : Nat) (scope : Json) (input : List Item) :
    m (Except EngineError ChildOutcome) := do
  match childRun ex host ctx scope input with
  | .error e => return .error e
  | .ok child => return (← start index child).bind (childOutcome ctx.node.id windingDown)

def subWorkflowExecute (ctx : ExecContext) : m (Except EngineError NodeOutput) := do
  if mapsOver ctx .once then
    let results ← ctx.input.zipIdx.mapM fun (item, index) =>
      return (← runChild ex host start windingDown ctx index (exprScopeFor ctx item.json) [item]).map
        ChildOutcome.item
    return (collectItems (itemErrorPolicy ctx.node.config ctx.run) 0 results).map
      (batchOutput ctx.node.id windingDown)
  else
    return (← runChild ex host start windingDown ctx 0 (exprScope ctx) ctx.input).map
      (ChildOutcome.output ctx.node.id)

end Execution

end Tinyflows.Nodes
