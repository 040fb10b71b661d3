import Tinyflows.Validate.Structure

/-!
# Loop validation

Cycles are legal. What is refused is a loop node that cannot iterate, a join on a cycle that waits
for something off it, and a cycle that nothing bounds.
-/

namespace Tinyflows.Validate
open Lib Tinyflows.Graph Model Engine

variable (w : WorkflowGraph)

def pathExists (start target : NodeId) : Bool :=
  sought w.targets w.sources target (fun _ => false) [start]

/-- Whether `target` is reachable from `start` without passing through a node that `skip` matches.
`start` and `target` themselves are never skipped. -/
def pathAvoiding (start target : NodeId) (skip : NodeId → Bool) : Bool :=
  sought w.targets w.sources target (fun n => n ≠ start && skip n) [start]

def knownSources (id : NodeId) : List NodeId :=
  (w.edges.filter (·.toNode = id)).filterMap fun e => (w.node e.fromNode).map (·.id)

/-- The nodes reachable forward from `start` that can also still reach `last`. -/
def nodesOnCycle (start last : NodeId) : HashSet NodeId :=
  let side (succ : NodeId → List NodeId) (id : NodeId) : HashSet NodeId :=
    if (w.node id).isSome then flood succ (w.nodes.length + 1) ({id}, [id]) else ∅
  side (knownTargets w) start ∩ side (knownSources w) last

def hasKind (kind : NodeKind) (id : NodeId) : Bool :=
  w.nodes.any fun n => n.id = id ∧ n.kind = kind

/-! ## Loop nodes -/

def wired (id : NodeId) (port : String) : Bool :=
  w.edges.any fun e => e.fromNode = id ∧ e.fromPort = port

def positive (v : Json) : Bool :=
  v.asU64.any (0 < ·)

def loopMaxIterations (n : Node) : List ValidationError :=
  checkKey n "max_iterations" positive
    fun _ => [.text "loop `max_iterations` must be a positive integer"]

def loopState (n : Node) : List ValidationError :=
  checkKey n "state" Json.isObject
    fun _ => [.text "loop `state` must be an object with `init` and/or `update`"]

def loopEmit (n : Node) : List ValidationError :=
  checkKey n "emit" (fun v => v.asStr ∈ [some "items", some "state", some "both"])
    fun v => [.text "loop `emit` must be \"items\", \"state\" or \"both\", got ", .value v]

def loopOnExceeded (n : Node) : List ValidationError :=
  checkKey n "on_exceeded" (fun v => v.asStr ∈ [some "error", some "continue"])
    fun v => [.text "loop `on_exceeded` must be \"error\" or \"continue\", got ", .value v]

def loopSuccessPort (n : Node) : List ValidationError :=
  if ((n.config.get "success_port").bind Json.asBool).getD false && !wired w n.id "success" then
    [.invalidNodeConfig n.id [.text ("loop sets `success_port: true` but nothing is wired to its " ++
      "`success` port, so a converged loop would strand the run; wire `success` or drop the flag")]]
  else []

def loopBody (n : Node) : List ValidationError :=
  if (w.targetsOn n.id "body").any fun t => pathExists w t n.id then []
  else
    [.invalidNodeConfig n.id [.text ("loop node's `body` does not route back to the loop head, so " ++
      "it can never iterate; wire `body` to the first node of the loop body and wire that body's " ++
      "last node back to this loop")]]

def loopNodeErrors (n : Node) : List ValidationError :=
  loopMaxIterations n ++ loopState n ++ loopEmit n ++ loopSuccessPort w n ++ loopOnExceeded n ++
    loopBody w n

/-! ## Cycles -/

def nodesOnCycles : HashSet NodeId :=
  (backEdges w).biUnion fun e => nodesOnCycle w e.2 e.1

/-- A join on a cycle that also waits for a node off the cycle stops the loop at its second pass. -/
def joinErrors (id : NodeId) : List ValidationError :=
  let preds := (w.edges.filter fun e =>
    e.toNode = id ∧ (e.fromNode, e.toNode) ∉ backEdges w).map (·.fromNode)
  if hasKind w .merge id ∧ 1 < preds.length ∧ preds.any (· ∉ nodesOnCycles w) then
    [.illegalCycle id]
  else []

def hasRunLevelBound : Bool :=
  w.trigger.any fun t =>
    ["recursion_limit", "max_node_visits"].any fun key => (t.config.get key).any positive

/-- A loop node merely on the cycle is not enough: it has to sit on every way round. -/
def boundErrors (e : NodeId × NodeId) : List ValidationError :=
  if hasKind w .loop e.2 || hasKind w .loop e.1 || !pathAvoiding w e.2 e.1 (hasKind w .loop) then []
  else [.illegalCycle e.2]

def validateLoops (ids : IterOrder NodeId) (edges : IterOrder (NodeId × NodeId))
    (w : WorkflowGraph) : List ValidationError :=
  (w.nodes.filter (·.kind = .loop)).flatMap (loopNodeErrors w) ++
    if backEdges w = ∅ then []
    else
      (ids.keys (nodesOnCycles w)).flatMap (joinErrors w) ++
        if hasRunLevelBound w then [] else (edges.keys (backEdges w)).flatMap (boundErrors w)

/-!
## Scatter validation

A lane is created by routing, so the shape of a scatter's region has to keep every lane inside it
until a gather collects it.
-/

def idsOf (kind : NodeKind) : List NodeId :=
  (w.nodes.filter (·.kind = kind)).map (·.id)

/-- The walk that collects the members of a region, and whether it met a gather. -/
def collectMembers (w : WorkflowGraph) : Nat → HashSet NodeId × Bool → List NodeId →
    HashSet NodeId × Bool
  | 0, acc, _ => acc
  | _ + 1, acc, [] => acc
  | fuel + 1, (members, met), node :: stack =>
    if node ∈ idsOf w .gather then collectMembers w fuel (members, true) stack
    else if (w.node node).isNone ∨ node ∈ members then collectMembers w fuel (members, met) stack
    else collectMembers w fuel (insert node members, met) ((w.targets node).reverse ++ stack)

/-- The nodes strictly between `scatter` and the gathers it reaches; none when it reaches no
gather. -/
def regionMembers (scatter : NodeId) : HashSet NodeId :=
  let starts := w.targets scatter
  match collectMembers w (seekFuel w.targets w.sources starts) (∅, false) starts.reverse with
  | (members, true) => members
  | (_, false) => ∅

def gatherErrors (gather : NodeId) : List ValidationError :=
  if (idsOf w .scatter).any fun s => pathExists w s gather then []
  else
    [.invalidNodeConfig gather [.text ("gather is not downstream of any `scatter`, so no lane can " ++
      "ever reach it and the run would wait until its poll budget ran out")]]

def memberErrors (scatter member : NodeId) : List ValidationError :=
  (if member ∈ idsOf w .scatter then
    [.invalidNodeConfig member [.text "nested `scatter` inside the region opened by ",
      .quoted scatter, .text " is not supported"]]
  else []) ++
  (if hasKind w .loop member then
    [.invalidNodeConfig member [.text "`loop` inside the lane body of ", .quoted scatter,
      .text (" is not supported: loop re-entry is tracked in the node's own slot, which a lane does " ++
      "not write")]]
  else []) ++
  (if w.nodes.any fun n => n.id = member ∧ n.requiresApproval then
    [.invalidNodeConfig member [.text "`requires_approval` inside the lane body of ",
      .quoted scatter, .text (" is not supported: a resume is addressed by node id, so every lane " ++
      "would share one approval")]]
  else []) ++
  if (idsOf w .gather).any (pathExists w member) || (idsOf w .void).any (pathExists w member) then []
  else
    [.invalidNodeConfig member [.text "node is inside the lane region opened by ", .quoted scatter,
      .text (" but has no path onward to a `gather`, so its lane output would be stranded; route it " ++
      "through the gather")]]

def scatterErrors (order : IterOrder NodeId) (w : WorkflowGraph) (scatter : NodeId) :
    List ValidationError :=
  let members := regionMembers w scatter
  if members = ∅ then
    [.invalidNodeConfig scatter [.text ("scatter has no `gather` downstream; every lane it opens " ++
      "would run with nothing to collect it. Wire the end of the lane body to a `gather`")]]
  else (order.keys members).flatMap (memberErrors w scatter)

def validateScatterRegions (order : IterOrder NodeId) (w : WorkflowGraph) : List ValidationError :=
  (order.keys (idsOf w .gather).toFinset).flatMap (gatherErrors w) ++
    (idsOf w .scatter).flatMap (scatterErrors order w)

end Tinyflows.Validate
