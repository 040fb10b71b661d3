import Tinyflows.Lib.DepthFirst
import Tinyflows.Lib.Search
import Tinyflows.Model.Workflow

/-!
# Classifying the edges of a workflow

How a node drives its successors, which edges close a cycle, and which brancher decides whether a
predecessor of a fan-in runs.
-/

namespace Tinyflows.Engine
open Lib Tinyflows.Graph Model

/-- How a node's handler drives its successors once it has produced an update. -/
inductive HandlerRouting where
  | plain
  | fanOut (targets : List NodeId)
  | portCommand (groups : List (String × List NodeId))
  deriving DecidableEq

def addToGroup (groups : List (String × List NodeId)) (port : String) (target : NodeId) :
    List (String × List NodeId) :=
  match groups with
  | [] => [(port, [target])]
  | (p, targets) :: rest =>
    if p = port then (p, targets ++ [target]) :: rest
    else (p, targets) :: addToGroup rest port target

variable (w : WorkflowGraph)

def outgoingByPort (id : NodeId) : List (String × List NodeId) :=
  (w.outgoing id).foldl (fun groups e => addToGroup groups e.fromPort e.toNode) []

def handlerRouting (id : NodeId) : HandlerRouting :=
  let groups := outgoingByPort w id
  match groups with
  | [] => .plain
  | [(_, targets)] => if 2 ≤ targets.length then .fanOut targets else .plain
  | _ =>
    -- one target per port is lowered to conditional edges
    if (groups.map (·.2.length)).sum = groups.length then .plain else .portCommand groups

/-- Whether `goal` is reachable from `start` along `main` edges only, never expanding `stop`. -/
def hasUnconditionalPath (start goal stop : NodeId) : Bool :=
  start = goal || sought (w.targetsOn · "main") w.sources goal (· = stop) (w.targetsOn start "main")

/-- The predecessors of the fan-in `mergeId` that sit behind a branch port and may never run. -/
def conditionalPredecessors (mergeId : NodeId) (loopEdges : HashSet (NodeId × NodeId)) :
    HashSet NodeId :=
  match w.trigger with
  | none => ∅
  | some trigger =>
    let preds := (w.edges.filter fun e =>
      e.toNode = mergeId ∧ (e.fromNode, e.toNode) ∉ loopEdges).map (·.fromNode)
    (preds.filter fun p => !hasUnconditionalPath w trigger.id p mergeId).toFinset

/-! ## Back edges -/

def knownTargets (id : NodeId) : List NodeId :=
  (w.outgoing id).filterMap fun e => (w.node e.toNode).map (·.id)

/-- Where the walks start: at the trigger, then at everything it cannot reach. -/
def roots : List NodeId :=
  (w.trigger.map (·.id)).toList ++ w.ids

def walkFrom (starts : List NodeId) : Dfs NodeId :=
  starts.foldl (Dfs.visit (knownTargets w) w.ids.toFinset) {}

def backEdges : HashSet (NodeId × NodeId) :=
  (walkFrom w (roots w)).found

def reachesViaPort (brancher : NodeId) (port : String) (target stop : NodeId) : Bool :=
  sought w.targets w.sources target (· = stop) (w.targetsOn brancher port)

def findConditionalBrancher (predecessor stop : NodeId) : Option NodeId :=
  (w.nodes.find? fun brancher =>
    let ports := outgoingByPort w brancher.id
    2 ≤ ports.length ∧ ports.any fun p => reachesViaPort w brancher.id p.1 predecessor stop).map (·.id)

end Tinyflows.Engine
