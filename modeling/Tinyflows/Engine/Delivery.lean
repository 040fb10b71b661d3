import Tinyflows.Engine.Nesting

/-!
# Approvals on their way to nested gates

A host approves a gate by the id under which it was reported. This module says which gates a run with
nested children has, and which ids reach each of its runs.
-/

namespace Tinyflows.Engine
open Lib Tinyflows.Graph Model Nodes

/-! ## The gates of a run -/

/-- The id under which the outermost run reports a gate, by the sub_workflow nodes that lead to it. -/
def surfacedId (path : List NodeId) (gate : NodeId) : String :=
  path.foldr namespacedGate gate

section Gates

variable (ex : Expressions) (host : Hosting) (w : WorkflowGraph)

inductive GraphAt : List NodeId → WorkflowGraph → Prop
  | root : GraphAt [] w
  | child {path : List NodeId} {parent child : WorkflowGraph} {ctx : ExecContext} {scope : Json}
      (h : GraphAt path parent) (hnode : ctx.node ∈ parent.nodes) (hkind : ctx.node.kind = .subWorkflow)
      (hchild : childGraph ex host ctx scope = .ok child) : GraphAt (path ++ [ctx.node.id]) child

/-- A node of a run that can be pending: one that requires an approval before it runs, or a review. -/
def GateAt (path : List NodeId) (gate : NodeId) : Prop :=
  ∃ graph n, GraphAt ex host w path graph ∧ n ∈ graph.nodes ∧
    (n.requiresApproval ∨ n.kind = .approval) ∧ n.id = gate

end Gates

/-! ## What each run is told -/

/-- The ids a run is told are approved: by the host, and by the payload it was triggered with. -/
structure Approvals where
  explicit : List String
  inTrigger : List String

namespace Approvals

def ofInput (input : RunInput) : Approvals :=
  { explicit := input.approvals, inTrigger := triggerApprovals input.trigger }

/-- A child is told what its parent's trigger lists for it. The child's own trigger is its input and
lists nothing. -/
def forChild (a : Approvals) (node : NodeId) : Approvals :=
  { explicit := a.inTrigger.filterMap (Text.stripPrefix (node ++ GATE_NAMESPACE)), inTrigger := [] }

def ids (a : Approvals) : List String :=
  a.explicit ++ a.inTrigger

end Approvals

def approvalsAt (input : RunInput) (path : List NodeId) : Approvals :=
  path.foldl Approvals.forChild (.ofInput input)

/-- The host approves the gate of the run at `path`. -/
def Approves (input : RunInput) (path : List NodeId) (gate : NodeId) : Prop :=
  gate ∈ (approvalsAt input path).ids

/-- Whether a review finds itself approved: it reads what the host lists, and not what the payload does. -/
def reviewApproved (state : Json) (id : NodeId) : Bool :=
  namesNode ((state.get "run").bind (·.get "approvals")) id

/-! ## The runs of an execution -/

structure Conduct.Unhooked (c : Conduct) : Prop where
  before : ∀ ectx, c.before ectx = .continue_ none
  after : ∀ ectx output e, c.after ectx output e = .continue_ none

/-- A fresh run from `state`, without debugging hooks, gets to `l`. -/
inductive FreshRun (w : WorkflowGraph) (c : Conducts) (state : Json) (l : Loop Json Json) : Prop
  | intro {ord : IterOrder NodeId} {g : CompiledGraph Json Json Json} {rt : Runtime Json Json Json}
      {thread : ThreadId} {store : CheckpointStore Json Json} (hbuild : buildGraph ord w = .ok g)
      (hconf : Conforms w c rt) (hunhooked : ∀ step node index, (c step node index).Unhooked)
      (hsteps : Steps g rt thread (freshLoop store state [{ node := g.entry }]) l)

/-- The runs that one execution comprises, each with its workflow and the state it starts from, by the
sub_workflow nodes that lead to it. -/
inductive RunAt (ex : Expressions) (host : Hosting) (w : WorkflowGraph) (input : RunInput) :
    List NodeId → WorkflowGraph → Json → Prop
  | root (trigger : Node) (inputs : Json) : RunAt ex host w input [] w (seed trigger input inputs none)
  | child {path : List NodeId} {parent : WorkflowGraph} {state : Json} {c : Conducts}
      {l : Loop Json Json} {i : Nat} {n : Node} {ctx : NodeContext Json} {scope : Json}
      {items : List Item} {child : ChildRun} (h : RunAt ex host w input path parent state)
      (hrun : FreshRun parent c state l) (hstart : StartsAt parent l i n ctx)
      (hchild : childRun ex host (execContext (handlerData parent n) l.state ctx) scope items =
        .ok child) (trigger : Node) (inputs : Json) :
      RunAt ex host w input (path ++ [n.id]) child.graph
        (seed trigger child.input inputs (some (overlayOf child)))

end Tinyflows.Engine
