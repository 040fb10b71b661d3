import Tinyflows.Engine.Runs
import Tinyflows.Nodes.SubWorkflow
import Tinyflows.Validate.All

/-!
# Runs within runs

How a run is seeded from its input, and the runs that its sub_workflow nodes start.
-/

namespace Tinyflows.Engine
open Lib Tinyflows.Graph Model Nodes

/-! ## The first state of a run -/

def runMeta (fields : List (String × Json)) : Json :=
  .obj [("run", .object fields)]

def mergeMeta (state : Json) (fields : Option (List (String × Json))) : Json :=
  match fields with
  | some fields => merge state (runMeta fields)
  | none => state

/-- What the trigger's configuration says about the whole run. -/
def triggerKnobs (trigger : Node) : Option (List (String × Json)) × Option (List (String × Json)) :=
  ((positiveKnob trigger.config "max_sub_workflow_depth").map fun n =>
      [("max_sub_workflow_depth", .nat n)],
    (((trigger.config.get "workspace").bind Json.asStr).bind nonBlank).map fun dir =>
      [("workspace", .str dir)])

/-- The state a run starts from: what it was triggered with, the values of its inputs and the
explicit approvals, then the trigger's items, and last what the engine lays over the metadata. -/
def seed (trigger : Node) (input : RunInput) (inputs : Json)
    (overlay : Option (List (String × Json))) : Json :=
  let initial := .obj [("run", .object [("trigger", input.trigger), ("inputs", inputs),
    ("approvals", .arr (input.approvals.map .str))])]
  let initial := mergeMeta initial (input.runId.map fun id => [("id", .str id)])
  let initial := merge initial (itemsUpdate trigger.id [{ json := input.trigger }] none)
  let (depth, workspace) := triggerKnobs trigger
  mergeMeta (mergeMeta (mergeMeta initial depth) workspace) overlay

def overlayOf (child : ChildRun) : List (String × Json) :=
  [("sub_workflow_depth", .nat child.depth), ("max_sub_workflow_depth", .nat child.maxDepth)] ++
    (child.workspace.map fun dir => ("workspace", .str dir)).toList

/-! ## Whole runs -/

/-- One execution of a sub_workflow node: the super-step, the position in its active set, the attempt
and the item. -/
structure Visit where
  step : Nat
  node : NodeId
  index : Nat
  attempt : Nat
  item : Nat
  deriving DecidableEq

abbrev Address := List Visit

/-- Everything a run and the runs below it meet: how expressions and children are read, how declared
inputs are resolved and errors shown, and, for every run, what its activations meet, how its futures
are driven, and whether its token is found cancelled once it has ended. -/
structure Surroundings where
  expressions : Expressions
  hosting : Hosting
  resolveInputs : WorkflowGraph → List (String × Json) → Except EngineError Json
  engineError : GraphError → EngineError
  buildError : BuildError → EngineError
  order : IterOrder NodeId
  conducts : Address → Conducts
  runtime : Address → Runtime Json Json Json
  cancelled : Address → Bool

def withActivations (rt : Runtime Json Json Json) (w : WorkflowGraph) (c : Conducts) :
    Runtime Json Json Json :=
  { rt with
    handler := fun id index state ctx =>
      match w.node id with
      | some n => activate (handlerData w n) (c ctx.step id index) state ctx
      | none => .error (.missingNode id) }

theorem conforms_withActivations {w} (h : w.ids.Nodup) (rt)
    (c) : Conforms w c (withActivations rt w c) := by
  intro n hn index state ctx
  simp only [withActivations, WorkflowGraph.node_of_mem h hn]

def Conduct.unhooked (c : Conduct) : Conduct :=
  { cancelled := c.cancelled, executor := c.executor }

variable (env : Surroundings)

/-- The activations of a run whose sub_workflow nodes start children. An attempt that times out, or
whose result does not meet the node's postcondition, fails whatever the child did. -/
def withChildren (address : Address) (start : Address → ChildRun → Except EngineError RunOutcome)
    (c : Conducts) : Conducts :=
  fun step node index =>
    let base := c step node index
    { base with
      executor := fun ectx attempt =>
        if ectx.node.kind = .subWorkflow then
          match base.executor ectx attempt with
          | .error e => .error e
          | .ok _ => Id.run (subWorkflowExecute env.expressions env.hosting
              (fun item child => start (address ++ [⟨step, node, index, attempt, item⟩]) child)
              (base.cancelled .reentry) ectx)
        else base.executor ectx attempt }

def prepare (w : WorkflowGraph) (input : RunInput) (overlay : Option (List (String × Json))) :
    Except EngineError (Node × CompiledGraph Json Json Json × Json) :=
  match env.resolveInputs w input.inputs, w.trigger with
  | .error e, _ => .error e
  | .ok _, none => .error (env.buildError .missingTrigger)
  | .ok inputs, some trigger =>
    match buildGraph env.order w with
    | .error e => .error (env.buildError e)
    | .ok g => .ok (trigger, g, seed trigger input inputs overlay)

def outcomeOf (address : Address) (r : RunResult Json Json) : Except EngineError RunOutcome :=
  match r.result with
  | .error e => .error (env.engineError e)
  | .ok execution => .ok {
      output := execution.state
      pendingApprovals := execution.interrupts.map (·.id)
      cancelled := env.cancelled address }

/-- The outcome of a child run. The depth guard of the nodes ends the recursion well before `levels`
does when that is more than the cap. -/
def runSubWorkflow (env : Surroundings) : Nat → Address → ChildRun → Except EngineError RunOutcome
  | 0, _, _ => .error (.capability "sub_workflow node: maximum nesting depth exceeded")
  | levels + 1, address, child =>
    match prepare env child.graph child.input (some (overlayOf child)) with
    | .error e => .error e
    | .ok (trigger, g, state) =>
      let c := withChildren env address (runSubWorkflow env levels)
        fun step node index => (env.conducts address step node index).unhooked
      outcomeOf env address
        (run g (withActivations (env.runtime address) child.graph c) {} (some trigger.id) state)

def rootConducts (levels : Nat) : Conducts :=
  withChildren env [] (runSubWorkflow env levels) (env.conducts [])

def runWorkflow (levels : Nat) (w : WorkflowGraph) (input : RunInput) : Except EngineError RunOutcome :=
  match prepare env w input none with
  | .error e => .error e
  | .ok (trigger, g, state) =>
    outcomeOf env [] (run g (withActivations (env.runtime []) w (rootConducts env levels)) {}
      (some trigger.id) state)

/-! ## Runs that can be computed -/

/-- Graphs are read and validated, nothing is saved under an id, and nothing interferes with a run. -/
def alone : Surroundings where
  expressions := noExpressions
  hosting := {
    parse := fun v => (decodeGraph v).elim (.error "not a workflow") .ok
    resolver := fun _ => .error (.other "no workflow is saved")
    compile := fun w =>
      if Validate.validateAll (.sorted NodeId) (.sortedPairs NodeId) w = [] then .ok ()
      else .error (.other "not a valid workflow")
    resolveDir := fun _ dir => .ok dir }
  resolveInputs _ _ := .ok (.obj [])
  engineError _ := .other "the run failed"
  buildError _ := .other "the graph was refused"
  order := .sorted NodeId
  conducts _ := undisturbed
  runtime _ := runtimeOf {} undisturbed
  cancelled _ := false

/-- The JSON form of a workflow whose nodes follow one another, each with its kind and configuration. -/
def chainJson (nodes : List (NodeId × String × Json)) : Json :=
  .object [
    ("nodes", .arr (nodes.map fun n => .object [("id", .str n.1), ("kind", .str n.2.1),
      ("name", .str n.1), ("config", n.2.2)])),
    ("edges", .arr ((nodes.zip nodes.tail).map fun e => .object [("from_node", .str e.1.1),
      ("to_node", .str e.2.1)]))]

def chain (nodes : List (NodeId × String × Json)) : WorkflowGraph :=
  (decodeGraph (chainJson nodes)).getD {}

def embedding (child : Json) : Json :=
  .object [("workflow", child)]

def gated : Json :=
  .object [("requires_approval", .bool true)]

end Tinyflows.Engine
