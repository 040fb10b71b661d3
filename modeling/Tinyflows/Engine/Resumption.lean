import Tinyflows.Engine.Delivery
import Tinyflows.Graph.Resume

/-!
# Resuming a checkpointed run again and again

A checkpointed resume continues from the latest checkpoint. It hands what the host decided in this
resume to the nodes that were interrupted, and to nothing else.
-/

namespace Tinyflows.Engine
open Lib Tinyflows.Graph Model Nodes

structure Decision where
  approved : List String
  rejected : List String := []
  deriving DecidableEq

def Decision.value (d : Decision) : Json :=
  .object [("approved", .arr (d.approved.map .str)), ("rejected", .arr (d.rejected.map .str))]

/-- One resume of a run: what it met and was told, the store it started from, everything approved up
to and in it, and what came of it. -/
structure Resumed where
  env : Surroundings
  decision : Decision
  store : CheckpointStore Json Json
  approved : List String
  result : RunResult Json Json

def Resumed.pending (r : Resumed) : List String :=
  match r.result.result with
  | .ok execution => execution.interrupts.map (·.id)
  | .error _ => []

section Resumes

variable (g : CompiledGraph Json Json Json) (w : WorkflowGraph) (levels : Nat) (thread : ThreadId)

def rootRuntime (env : Surroundings) : Runtime Json Json Json :=
  withActivations (env.runtime []) w (rootConducts env levels)

def resumeAll : CheckpointStore Json Json → List String → List (Surroundings × Decision) →
    List Resumed
  | _, _, [] => []
  | store, before, (env, decision) :: rest =>
    let approved := before ++ decision.approved
    let result := resumeFrom g (rootRuntime w levels env) store thread .latest (some decision.value)
    { env, decision, store, approved, result } :: resumeAll result.store approved rest

def Resumed.Reaches (r : Resumed) (l : Loop Json Json) : Prop :=
  ∃ c, r.store.getScoped thread none g.ns = some c ∧
    Steps g (rootRuntime w levels r.env) thread (resumed g thread r.store c (some r.decision.value)) l

end Resumes

/-! ## What an activation hears -/

/-- The ids that the host has approved as far as the activation is told. -/
def heard (ectx : ExecContext) : List String :=
  listedIds (ectx.resume.bind (·.get "approved")) ++ listedIds (ectx.run.get "approvals")

def heardInTrigger (ectx : ExecContext) : List String :=
  listedIds ((ectx.run.get "trigger").bind (·.get "approvals"))

/-- An attempt of a node that runs no child pauses the run under the node's own id only: a review that
nobody has settled, or a gate that waits for tasks. -/
def Waits (c : Conduct) : Prop :=
  ∀ ectx k output gate payload, ectx.node.kind ≠ .subWorkflow → c.executor ectx k = .ok output →
    output.control = some (.interrupt gate payload) → gate = ectx.node.id ∧
      (ectx.node.kind = .approval ∧ gate ∉ heard ectx ∨ ectx.node.kind = .gate)

/-- The activation hears of every approved id that concerns its node. An id of its child is heard by
the child too, unless it lies deeper; and no approved id names a gate that waits for tasks. -/
structure Informed (env : Surroundings) (approved : List String) (ectx : ExecContext) : Prop where
  gate : ectx.node.requiresApproval → ectx.node.id ∈ approved →
    ectx.node.id ∈ heard ectx ∨ ectx.node.id ∈ heardInTrigger ectx
  review : ectx.node.kind = .approval → ectx.node.id ∈ approved → ectx.node.id ∈ heard ectx
  wait : ectx.node.kind = .gate → ectx.node.id ∉ approved
  child : ectx.node.kind = .subWorkflow → ∀ gate, namespacedGate ectx.node.id gate ∈ approved →
    (namespacedGate ectx.node.id gate ∈ listedIds (ectx.resume.bind (·.get "approved")) ∨
      namespacedGate ectx.node.id gate ∈ heardInTrigger ectx) ∧
    ∀ scope graph, childGraph env.expressions env.hosting ectx scope = .ok graph →
      ∀ m ∈ graph.nodes, (m.kind = .subWorkflow → ∀ inner, gate ≠ namespacedGate m.id inner) ∧
        (m.kind = .gate → m.id ≠ gate)

/-- Every activation of the resume hears of the approved ids that concern it. -/
def Resumed.Informs (g : CompiledGraph Json Json Json) (w : WorkflowGraph) (levels : Nat)
    (thread : ThreadId) (r : Resumed) : Prop :=
  ∀ l i n ctx, r.Reaches g w levels thread l → StartsAt w l i n ctx →
    Informed r.env r.approved (execContext (handlerData w n) l.state ctx)

/-- What a host must be for the rest: hooks stay away from the outermost run, nodes wait as they do,
and a graph that compiles has no two nodes of one id. -/
structure Surroundings.Orderly (env : Surroundings) : Prop where
  unhooked : ∀ step node index, (env.conducts [] step node index).Unhooked
  waits : ∀ address step node index, Waits (env.conducts address step node index)
  compile : ∀ graph, env.hosting.compile graph = .ok () → graph.ids.Nodup

end Tinyflows.Engine
