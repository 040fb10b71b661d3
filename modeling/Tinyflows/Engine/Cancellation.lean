import Tinyflows.Engine.Lemmas.Targets
import Tinyflows.Engine.Runs

/-!
# Winding down

When a run is cancelled, every node that is still activated becomes a no-op on the default port. What
is left is to say which nodes have somewhere to go then.
-/

namespace Tinyflows.Engine
open Lib Tinyflows.Graph Model Nodes

/-- Every activation of the super-step finds the token set before it does anything. -/
def Stopped (c : Conducts) (step : Nat) : Prop :=
  ∀ node index, (c step node index).cancelled .boundary = true

/-- Whether a node that recorded the port has somewhere to go: where the port chooses among the node's
edges, one of them has to be on it. -/
def leavesOn (w : WorkflowGraph) (id : NodeId) (port : String) : Bool :=
  match lowering w id with
  | .choice routes => (routes.map Prod.fst).contains port
  | _ => true

/-- Outcomes that put nothing, or the error as an item, on the default port and leave the rest to the
edges of the node. -/
def OnDefault (w : WorkflowGraph) (n : Node) (lane : Option LaneContext) : Outcome → Prop
  | .stopped | .cancelled => True
  | .failed (some _) => onErrorPolicy n = "continue" ∧ lane = none ∧ handlerRouting w n.id = .plain
  | _ => False

/-- Every activation of the step comes out on its default port. -/
def Defaults (w : WorkflowGraph) (c : Conducts) (l : Loop Json Json) : Prop :=
  ∀ i n ctx, ActivationAt w l i n ctx → ∃ o, OnDefault w n (laneContext ctx.sendArg) o ∧
    outcome (handlerData w n) (c (l.steps + 1) n.id i) l.state ctx = (o, none)

/-- All activations of the step from `l` come out on the default port and can leave on it, or none of
them fails and the port recorded for a node that leaves its successors to its edges is that of one. -/
inductive WindsDown (w : WorkflowGraph) (c : Conducts) (g : CompiledGraph Json Json Json)
    (l : Loop Json Json) : Prop where
  | defaults (hdefaults : Defaults w c l) (hleaves : ∀ a ∈ l.active, leavesOn w a.node "main")
  | settles (horder : SlotsInOrder g l.active)
      (hunedited : ∀ i n ctx, ActivationAt w l i n ctx →
        (outcome (handlerData w n) (c (l.steps + 1) n.id i) l.state ctx).2 = none)
      (hcommits : ∀ i n ctx, ActivationAt w l i n ctx → ∃ r, committed w c l i n ctx = .ok r)
      (hleaves : ∀ n i ctx r, ActivationAt w l i n ctx → committed w c l i n ctx = .ok r →
        gotoOf r = [] → ∀ j ctx' r' u, ActivationAt w l j n ctx' → committed w c l j n ctx' = .ok r' →
        written r' = some u → leavesOn w n.id (portOf n.id (merge l.state u)))

end Tinyflows.Engine
