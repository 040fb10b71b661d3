import Tinyflows.Engine.Activation
import Tinyflows.Graph.Builder

/-!
# Lowering a workflow to a graph

How the edges of each node are lowered, which barriers get a relief, and the limits under which the
compiled graph runs.
-/

namespace Tinyflows.Engine
open Lib Tinyflows.Graph Model Nodes

/-! ## The edges of one node -/

/-- What the builder is told about the edges that leave a node. -/
inductive Lowering where
  | finish
  /-- The handler drives all successors, which share one port. -/
  | fanOut (targets : List NodeId)
  /-- The handler drives the successors of the emitted port. -/
  | command (targets : List NodeId)
  /-- One edge on a port other than the default one: it is followed when that port was emitted. -/
  | onlyOn (port : String) (target : NodeId)
  | waiting (target : NodeId)
  | edge (target : NodeId)
  /-- The emitted port chooses among edges on different ports. -/
  | choice (routes : List (String × NodeId))
  deriving DecidableEq

variable (w : WorkflowGraph)

def isBackEdge (e : Edge) : Bool :=
  (e.fromNode, e.toNode) ∈ backEdges w

def incomingCount (id : NodeId) : Nat :=
  (w.edges.filter fun e => e.toNode = id ∧ !isBackEdge w e).length

def lowering (id : NodeId) : Lowering :=
  match w.outgoing id with
  | [] => .finish
  | outgoing =>
    match handlerRouting w id with
    | .fanOut targets => .fanOut targets
    | .portCommand groups => .command (groups.flatMap (·.2))
    | .plain =>
      match outgoing with
      | [e] =>
        if e.fromPort ≠ "main" then .onlyOn e.fromPort e.toNode
        else if !isBackEdge w e ∧ 1 < incomingCount w e.toNode then .waiting e.toNode
        else .edge e.toNode
      | _ => .choice (outgoing.map fun e => (e.fromPort, e.toNode))

def portOf (id : NodeId) (state : Json) : String :=
  emittedPort (slotOf state id)

abbrev Builder := GraphBuilder Json Json Json

def lower (b : Builder) (id : NodeId) : Lowering → Builder
  | .finish => b.addEdge id END
  | .fanOut targets => b.withUnconditionalFanout id targets
  | .command targets => b.withCommandDestinations id targets
  | .onlyOn port target =>
    b.addConditionalEdges id (fun state => if portOf id state = port then port else END)
      [(port, target), (END, END)]
  | .waiting target => b.addWaitingEdge id target
  | .edge target => b.addEdge id target
  | .choice routes => b.addConditionalEdges id (portOf id) routes

def reliefsOf (ord : IterOrder NodeId) (w : WorkflowGraph) (merge : NodeId) : List BarrierRelief :=
  if incomingCount w merge ≤ 1 then []
  else (ord.keys (conditionalPredecessors w merge (backEdges w))).filterMap fun predecessor =>
    (findConditionalBrancher w predecessor merge).map fun brancher =>
      { source := brancher, reliefNode := predecessor, barrierNode := merge }

def wireGraph (ord : IterOrder NodeId) (w : WorkflowGraph) (triggerId : NodeId) (b : Builder) :
    Builder :=
  let wired := w.nodes.foldl (fun b n => lower b n.id (lowering w n.id)) (b.setEntry triggerId)
  (w.nodes.flatMap fun n => reliefsOf ord w n.id).foldl
    (fun b r => b.addBarrierRelief r.source r.reliefNode r.barrierNode) wired

def registerHandlers (b : Builder) : Builder :=
  w.nodes.foldl (fun b n => b.addNode n.id) b

/-! ## Limits and the compiled graph -/

def positiveKnob (config : Json) (key : String) : Option Nat :=
  (((config.get key).bind Json.asU64).map (·.toNat)).filter (0 < ·)

def MAX_GRAPH_CONCURRENCY : Nat := 256

def saturate (n : Nat) : Nat :=
  min n (2 ^ 64 - 1)

def loopShare (n : Node) : Nat :=
  saturate (maxIterations n + 1)

def loopTotal : Nat :=
  ((w.nodes.filter (·.kind = .loop)).map loopShare).sum

/-- The total as the program adds it up: in 64 bits and, unlike the shares, without saturating. -/
def loopBudget : Nat :=
  loopTotal w % 2 ^ 64

def derivedLimit : Option Nat :=
  if 0 < loopBudget w then
    some (saturate (saturate (loopBudget w * w.nodes.length) + w.nodes.length))
  else none

def withLimits (trigger : Node) (b : Builder) : Builder :=
  { b with
    maxConcurrency := (positiveKnob trigger.config "max_concurrency").map (min · MAX_GRAPH_CONCURRENCY)
    recursionLimit := (positiveKnob trigger.config "recursion_limit").getD
      ((derivedLimit w).getD b.recursionLimit) }

def recursionPolicy (trigger : Node) (installed : RecursionPolicy) : RecursionPolicy :=
  match positiveKnob trigger.config "max_node_visits" with
  | none => installed
  | some maxVisits =>
    let defaults : RecursionPolicy := {}
    { defaults with
      maxVisitsPerNode := some maxVisits
      maxTotalSteps := ((positiveKnob trigger.config "recursion_limit").map
        (max defaults.maxTotalSteps)).getD defaults.maxTotalSteps }

inductive BuildError where
  | missingTrigger
  | compile (e : GraphError)
  deriving DecidableEq

def emptyBuilder : Builder :=
  { parallel := true, reducer := some fun state update => .ok (merge state update) }

def buildGraph (ord : IterOrder NodeId) (w : WorkflowGraph) :
    Except BuildError (CompiledGraph Json Json Json) :=
  match w.trigger with
  | none => .error .missingTrigger
  | some trigger =>
    let b := wireGraph ord w trigger.id (registerHandlers w (withLimits w trigger emptyBuilder))
    match b.compile ord with
    | .error e => .error (.compile e)
    | .ok g => .ok { g with recursionPolicy := recursionPolicy trigger g.recursionPolicy }

end Tinyflows.Engine
