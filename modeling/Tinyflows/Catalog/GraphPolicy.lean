import Tinyflows.Nodes.SubWorkflow

/-!
# Which workflows need an approval

A workflow that can act on the world must not run unattended. Whether it can is read off its nodes and
those of the children embedded in it.
-/

namespace Tinyflows.Catalog
open Lib Tinyflows.Graph Model Nodes

def variantName : Json → Option String
  | .str name => some name
  | .obj [(name, .null)] => some name
  | _ => none

def triggerIsAutomatic (w : WorkflowGraph) : Bool :=
  w.trigger.any fun trigger => ((trigger.config.get "trigger_kind").bind variantName).any
    (["schedule", "app_event", "webhook"].contains ·)

def nodeAgentHasToolGrant (w : WorkflowGraph) (n : Node) : Bool :=
  (((n.config.get "tools").bind Json.asArray).any (· ≠ [])) ||
    (((n.config.get "agent_ref").bind Json.asStr).any fun ref =>
      (w.agent ref).all fun definition => definition.tools ≠ [])

def actsOutward (kind : NodeKind) : Bool :=
  kind = .toolCall ∨ kind = .httpRequest ∨ kind = .code ∨ kind = .shell

/-- Whether a node acts on the world. `childActs` judges the workflow embedded in a sub_workflow node;
one that is only referred to cannot be seen and counts as one that does. -/
def nodeHasOutboundSideEffect (w : WorkflowGraph) (childActs : Json → Bool) (n : Node) : Bool :=
  if actsOutward n.kind || (n.kind = .agent && nodeAgentHasToolGrant w n) then true
  else if n.kind ≠ .subWorkflow then false
  else if (n.config.get "workflow_id").isSome then true
  else (n.config.get "workflow").any childActs

/-- Whether a node acts on the world, as far as can be seen in `depth` levels of embedded children. A
child beyond them, or one that cannot be read, counts as one that does. -/
def hasOutboundSideEffectToDepth (parse : Json → Except String WorkflowGraph) :
    Nat → WorkflowGraph → Bool
  | 0, w => w.nodes.any (nodeHasOutboundSideEffect w fun _ => true)
  | depth + 1, w => w.nodes.any (nodeHasOutboundSideEffect w fun inline =>
    match parse inline with
    | .ok child => hasOutboundSideEffectToDepth parse depth child
    | .error _ => true)

def graphHasOutboundSideEffect (parse : Json → Except String WorkflowGraph) (w : WorkflowGraph) : Bool :=
  hasOutboundSideEffectToDepth parse MAX_SUB_WORKFLOW_DEPTH w

/-- Whether an approval is required in effect, and whether that was forced on the caller. -/
def enforceSideEffectApproval (parse : Json → Except String WorkflowGraph) (w : WorkflowGraph)
    (callerRequiresApproval : Bool) : Bool × Bool :=
  let hasSideEffect := graphHasOutboundSideEffect parse w
  (callerRequiresApproval || hasSideEffect, hasSideEffect && !callerRequiresApproval)

end Tinyflows.Catalog
