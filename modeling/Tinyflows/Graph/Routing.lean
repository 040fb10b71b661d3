import Tinyflows.Graph.Types
import Tinyflows.Lib.Search

/-!
# Routing

How the completed branches of a super-step are resolved into the activations of the next one: command
`goto`s, static and conditional edges, barriers and their relief.
-/

namespace Tinyflows.Graph
open Lib

variable {S U V : Type}

def validateRouteTargets (g : CompiledGraph S U V) (node : NodeId) :
    List (RouteTarget V) → Except GraphError Unit
  | [] => .ok ()
  | t :: ts =>
    if t.nodeId = END then validateRouteTargets g node ts
    else if t.nodeId = START then
      .error (.graph s!"command goto from node `{node}` cannot target START")
    else if t.nodeId ∈ g.nodes then validateRouteTargets g node ts
    else .error (.missingNode t.nodeId)

variable (g : CompiledGraph S U V)

/-- The targets of one completed activation. An explicit `goto` wins over the edges; a node with no
routing at all is a sink. -/
def route (node : NodeId) (goto : Option (List (RouteTarget V))) (state : S) :
    Except GraphError (List (RouteTarget V)) :=
  match goto with
  | some targets => (validateRouteTargets g node targets).map fun _ => targets
  | none =>
    match g.edges.lookup node with
    | some target => .ok [.node target]
    | none =>
      match g.branches.lookup node with
      | some branch =>
        let label := branch.router state
        match branch.routes.lookup label with
        | some target => .ok [.node target]
        | none => .error (.missingRoute node label)
      | none => .ok []

/-- The successors a node has without any run-time decision: its static edge, and every destination
of an unconditional fan-out. -/
def deterministicSuccessors (node : NodeId) : List NodeId :=
  (g.edges.lookup node).toList ++
    match g.nodeMeta.lookup node with
    | some info => if info.commandFanout then info.commandDestinations else []
    | none => []

def reachesDeterministically (start goal stop : NodeId) : Bool :=
  reaches (deterministicSuccessors g) (g.edges.keys ∪ g.nodeMeta.keys) start goal stop

/-! ## Routing a set of completed branches -/

def arrive (barriers : Barriers) (required : HashSet NodeId) (b node : NodeId) : Barriers × Bool :=
  let arrived := insert node ((barriers.lookup b).getD ∅)
  if required ⊆ arrived then (barriers.erase b, true) else (barriers.insert b arrived, false)

/-- What happens at the nodes a routing pass leads to: a predecessor arrives at a barrier, really or by
relief; a barrier clears and is scheduled; a node is scheduled without having to wait. -/
inductive BarrierEvent where
  | arrived (barrier node : NodeId)
  | cleared (barrier : NodeId)
  | passed (source node : NodeId)
  deriving DecidableEq

/-- What a routing pass builds up: the next active set, the nodes it holds as plain activations, and
the barrier arrivals. `log` records what happened in order; nothing reads it. -/
structure Routed (V : Type) where
  next : List (Activation V) := []
  nextSeen : HashSet NodeId := ∅
  barriers : Barriers
  log : List BarrierEvent := []

def Routed.schedule (r : Routed V) (node : NodeId) (sendArg : Option V) : Routed V :=
  match sendArg with
  | some arg => { r with next := r.next ++ [{ node, sendArg := some arg }] }
  | none =>
    if node ∈ r.nextSeen then r
    else { r with next := r.next ++ [{ node }], nextSeen := insert node r.nextSeen }

def Routed.pass (r : Routed V) (source node : NodeId) (sendArg : Option V) : Routed V :=
  Routed.schedule { r with log := r.log ++ [.passed source node] } node sendArg

def Routed.await (r : Routed V) (required : HashSet NodeId) (b node : NodeId)
    (sendArg : Option V) : Routed V :=
  match arrive r.barriers required b node with
  | (barriers, false) => { r with barriers, log := r.log ++ [.arrived b node] }
  | (barriers, true) =>
    Routed.schedule { r with barriers, log := r.log ++ [.arrived b node, .cleared b] } b sendArg

def followTarget (node : NodeId) (r : Routed V) (target : RouteTarget V) : Routed V :=
  if target.nodeId = END then r
  else
    match g.waiting.lookup target.nodeId with
    | some required =>
      if node ∈ required then r.await required target.nodeId node target.sendArg
      else r.pass node target.nodeId target.sendArg
    | none => r.pass node target.nodeId target.sendArg

def routeActivations (g : CompiledGraph S U V)
    (gotoMap : HashMap Nat (List (RouteTarget V))) (state : S) :
    Nat → List (Activation V) → Routed V →
      Except GraphError (Routed V × List (List (RouteTarget V)))
  | _, [], r => .ok (r, [])
  | index, activation :: rest, r =>
    match route g activation.node (gotoMap.lookup index) state with
    | .error e => .error e
    | .ok targets =>
      match routeActivations g gotoMap state (index + 1) rest
          (targets.foldl (followTarget g activation.node) r) with
      | .error e => .error e
      | .ok (r, resolved) => .ok (r, targets :: resolved)

def leadsTo (sources : List (Activation V × List (RouteTarget V))) (goal stop : NodeId) : Bool :=
  sources.any fun s => s.2.any fun target => reachesDeterministically g target.nodeId goal stop

/-- One barrier relief. A phantom arrival is recorded for `reliefNode` when its branch was not taken
and the barrier takes part in the current pass at all. -/
def relieve (resolved : List (Activation V × List (RouteTarget V))) (r : Routed V)
    (relief : BarrierRelief) : Routed V :=
  let sources := resolved.filter fun s => s.1.node = relief.source
  if sources.isEmpty then r
  else if leadsTo g sources relief.reliefNode relief.barrierNode ∨ relief.reliefNode ∈ r.nextSeen
  then r
  else
    match g.waiting.lookup relief.barrierNode with
    | none => r
    | some required =>
      let alreadyArrived := (r.barriers.lookup relief.barrierNode).any (· ≠ ∅)
      let engaged := alreadyArrived ∨
        ∃ predecessor ∈ required, leadsTo g sources predecessor relief.barrierNode
      if engaged then r.await required relief.barrierNode relief.reliefNode none else r

def routePass (completed : List (Activation V)) (gotoMap : HashMap Nat (List (RouteTarget V)))
    (state : S) (barriers : Barriers) : Except GraphError (Routed V) :=
  match routeActivations g gotoMap state 0 completed { barriers } with
  | .error e => .error e
  | .ok (r, resolved) => .ok (g.barrierReliefs.foldl (relieve g (completed.zip resolved)) r)

def routeCompleted (completed : List (Activation V))
    (gotoMap : HashMap Nat (List (RouteTarget V))) (state : S) (barriers : Barriers) :
    Except GraphError (List (Activation V) × Barriers) :=
  match routePass g completed gotoMap state barriers with
  | .error e => .error e
  | .ok r => .ok (r.next, r.barriers)

def requireInterruptDurability (threadId : Option ThreadId) : Except GraphError Unit :=
  if g.checkpointer = false then
    .error (.resume "interrupt emitted without a configured checkpointer")
  else if threadId = none then .error (.resume "interrupt emitted without a thread id")
  else .ok ()

end Tinyflows.Graph
