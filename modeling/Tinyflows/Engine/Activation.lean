import Tinyflows.Engine.Routing
import Tinyflows.Graph.NodeExecution
import Tinyflows.Nodes.Loop

/-!
# One activation of a node

The handler the engine registers for a node: the cancellation and approval gates, the input it
derives from the run state, the attempts of the executor, and the update and routing built from
whatever came out.
-/

namespace Tinyflows.Engine
open Lib Tinyflows.Graph Model Nodes

/-! ## What a handler is built from -/

structure HandlerData where
  node : Node
  incoming : List (NodeId × String)
  backIncoming : List (NodeId × String)
  routing : HandlerRouting
  plainTargetsByPort : List (String × List NodeId)
  gatherNodes : HashSet NodeId
  hasErrorEdge : Bool
  isTrigger : Bool

variable (h : HandlerData) (lane : Option LaneContext)

def HandlerData.plainTargets : List NodeId :=
  h.plainTargetsByPort.flatMap (·.2)

def incomingWhere (w : WorkflowGraph) (id : NodeId) (p : NodeId × NodeId → Bool) :
    List (NodeId × String) :=
  (w.edges.filter fun e => e.toNode = id ∧ p (e.fromNode, e.toNode)).map fun e =>
    (e.fromNode, e.fromPort)

def handlerData (w : WorkflowGraph) (n : Node) : HandlerData where
  node := n
  incoming := incomingWhere w n.id (· ∉ backEdges w)
  backIncoming := incomingWhere w n.id (· ∈ backEdges w)
  routing := handlerRouting w n.id
  plainTargetsByPort := outgoingByPort w n.id
  gatherNodes := ((w.nodes.filter (·.kind = .gather)).map (·.id)).toFinset
  hasErrorEdge := w.edges.any fun e => e.fromNode = n.id ∧ e.fromPort = "error"
  isTrigger := n.kind = .trigger

inductive CancelPoint where
  | boundary
  | attempt (k : Nat)
  | backoff (k : Nat)
  | reentry
  deriving DecidableEq

inductive StepAction where
  | continue_ (patch : Option Json)
  | replace (items : List Item) (port : Option String)
  | skip
  | fail (message : String)
  | interrupt (id : String) (payload : Json)
  deriving DecidableEq

/-- Everything an activation meets that its node does not decide: where the token is found cancelled,
what each attempt comes to once its timeout and the node's postcondition have been applied, and what a
step-debugging hook, if one is attached, answers before and after the execution. -/
structure Conduct where
  cancelled : CancelPoint → Bool
  executor : ExecContext → Nat → Except EngineError NodeOutput
  before : ExecContext → StepAction := fun _ => .continue_ none
  after : ExecContext → Option NodeOutput → Option EngineError → StepAction :=
    fun _ _ _ => .continue_ none

/-! ## Input -/

/-- A loop head that has written its slot before is being re-entered. -/
def reEntry (state : Json) : Bool :=
  !h.backIncoming.isEmpty && (slotOf state h.node.id).any (· ≠ .null)

def latestStep (state : Json) : Option Nat :=
  (h.backIncoming.filterMap fun e => activationStep (slotOf state e.1)).max?

def deriveInput (state : Json) (sendArg : Option Json) : List Item :=
  if (laneContext sendArg).isSome then laneInput sendArg
  else if reEntry h state then collectInputSince state h.backIncoming (latestStep h state)
  else collectInput state h.incoming

def execContext (state : Json) (ctx : NodeContext Json) : ExecContext where
  node := h.node
  input := deriveInput h state ctx.sendArg
  run := (state.get "run").getD .null
  nodes := (state.get "nodes").getD .null
  lane := laneContext ctx.sendArg
  resume := ctx.resume
  step := ctx.step

def targetsOfPort (groups : List (String × List NodeId)) (port : String) : List NodeId :=
  ((groups.find? (·.1 = port)).map (·.2)).getD []

def laneTargets (port : Option String) : List NodeId :=
  match h.routing with
  | .plain => targetsOfPort h.plainTargetsByPort (port.getD "main")
  | .fanOut targets => targets
  | .portCommand groups => targetsOfPort groups (port.getD "main")

/-- Wraps an update into a routing result. Inside a lane every successor is scheduled with the lane's
envelope, except a gather, where lanes end. -/
def emit (step : Nat) (update : Json) (port : Option String) (routed : List Item) :
    NodeResult Json Json :=
  match lane with
  | some lane =>
    let goto := (laneTargets h port).map fun target =>
      if target ∈ h.gatherNodes then RouteTarget.node target
      else .send target (laneEnvelope lane.origin lane.index lane.count routed)
    .command { update := some update, goto }
  | none =>
    let update := stampActivationStep update h.node.id step
    match h.routing with
    | .plain => .update update
    | .fanOut targets => .command { update := some update, goto := targets.map .node }
    | .portCommand groups => .command {
        update := some update, goto := (targetsOfPort groups (port.getD "main")).map .node }

/-! ## Gates -/

def namesNode (ids : Option Json) (id : NodeId) : Bool :=
  ((ids.bind Json.asArray).getD []).any fun v => v.asStr = some id

/-- A resume approves the gate when it is a bare `true` or lists the gate. -/
def approvedByResume (resume : Option Json) (id : NodeId) : Bool :=
  resume = some (.bool true) || namesNode (resume.bind (·.get "approved")) id

def deniedByResume (resume : Option Json) (id : NodeId) : Bool :=
  namesNode (resume.bind (·.get "rejected")) id

def approvedByRun (state : Json) (id : NodeId) : Bool :=
  (state.get "run").any fun run =>
    namesNode (run.get "approvals") id || namesNode ((run.get "trigger").bind (·.get "approvals")) id

def deniedItem (id : NodeId) : Item :=
  { json := .object [("error", .object [("message", .str "approval denied"), ("node", .str id),
      ("denied", .bool true)])] }

/-! ## Attempts -/

def onErrorPolicy (n : Node) : String :=
  ((n.config.get "on_error").bind Json.asStr).getD "stop"

def maxAttempts (n : Node) : Nat :=
  max ((((n.config.get "retry").bind (·.get "max_attempts")).bind Json.asU64).map (·.toNat) |>.getD 1) 1

def backsOff (n : Node) : Bool :=
  (((n.config.get "retry").bind (·.get "backoff_ms")).bind Json.asU64).any (0 < ·)

/-- How the attempts ended: the run was cancelled between them, or they settled with an output, or
the last error stands. -/
inductive Tried where
  | cancelled
  | settled (output : Option NodeOutput) (lastErr : Option EngineError)

def attempts (c : Conduct) (ectx : ExecContext) (backsOff : Bool) :
    Nat → Nat → Option EngineError → Tried
  | 0, _, lastErr => .settled none lastErr
  | left + 1, k, lastErr =>
    if c.cancelled (.attempt k) then .cancelled
    else
      match c.executor ectx k with
      | .ok output => .settled (some output) lastErr
      | .error e =>
        if backsOff && decide (0 < left) && c.cancelled (.backoff k) then .cancelled
        else attempts c ectx backsOff left (k + 1) (some e)

/-! ## Outcomes -/

inductive Outcome where
  | stopped
  | started
  | denied
  /-- The approval gate is pending, or the hook paused the run. -/
  | paused (i : Interrupt Json)
  /-- The token was found cancelled before an attempt or while backing off. -/
  | cancelled
  | produced (output : NodeOutput)
  | failed (e : Option EngineError)

/-- The checks before any work; `none` lets the activation proceed. -/
def gates (c : Conduct) (state : Json) (ctx : NodeContext Json) : Option Outcome :=
  let id := h.node.id
  if c.cancelled .boundary then some .stopped
  else if h.isTrigger then some .started
  else if h.node.requiresApproval then
    if deniedByResume ctx.resume id then some .denied
    else if approvedByRun state id || approvedByResume ctx.resume id then none
    else
      let payload := if h.node.config = .null then .obj [] else h.node.config
      some (.paused { id := id, node := id, payload := payload })
  else none

/-- A hook that decided on an output or an error leaves nothing to attempt. -/
def execution (c : Conduct) (ectx : ExecContext) (decided : Option NodeOutput)
    (injected : Option EngineError) : Tried :=
  match decided with
  | some output => .settled (some output) none
  | none => attempts c ectx (backsOff h.node) (if injected.isNone then maxAttempts h.node else 0) 0
      injected

def afterExecution (c : Conduct) (ectx : ExecContext) : Tried → Outcome
  | .cancelled => .cancelled
  | .settled output lastErr =>
    match c.after ectx output (if output.isNone then lastErr else none) with
    | .continue_ _ => output.elim (.failed lastErr) .produced
    | .replace items port => .produced { output.getD {} with items, port, control := none }
    | .skip => .produced { output.getD {} with items := [], control := none }
    | .fail message => .failed (some (.capability message))
    | .interrupt id payload => .paused { id := id, node := h.node.id, payload := payload }

/-- The outcome, and the edit of the state a hook made before the execution. -/
def outcome (c : Conduct) (state : Json) (ctx : NodeContext Json) : Outcome × Option Json :=
  match gates h c state ctx with
  | some gate => (gate, none)
  | none =>
    let ectx := execContext h state ctx
    let after (ectx : ExecContext) (decided : Option NodeOutput) (injected : Option EngineError) :=
      afterExecution h c ectx (execution h c ectx decided injected)
    match c.before ectx with
    | .continue_ none => (after ectx none none, none)
    | .continue_ (some patch) =>
      (after (execContext h (merge state patch) ctx) none none, some patch)
    | .replace items port => (after ectx (some { items, port }) none, none)
    | .skip => (after ectx (some {}) none, none)
    | .fail message => (after ectx none (some (.capability message)), none)
    | .interrupt id payload =>
      (.paused { id := id, node := h.node.id, payload := payload }, none)

/-! ## What is built from an outcome -/

def slotUpdate (id : NodeId) (lane : Option LaneContext) (items : List Item) (port : Option String)
    (recorded : Option Json) : Json :=
  match lane with
  | some lane => laneItemsUpdate id lane items port "ok" recorded
  | none => itemsUpdateWithMeta id items port recorded

def scatterTargets (lanes : List (List Item)) : List (RouteTarget Json) :=
  lanes.zipIdx.flatMap fun (items, index) =>
    h.plainTargets.map fun target =>
      .send target (laneEnvelope h.node.id index lanes.length items)

/-- What a node that produced an output commits. `waiting` says whether the token was found cancelled
while it waited to be re-entered. -/
def finishOutput (step : Nat) (waiting : Bool) (output : NodeOutput) : NodeResult Json Json :=
  let id := h.node.id
  match output.control with
  | some (.interrupt gate payload) => .interrupt { id := gate, node := id, payload := payload }
  | some (.reenter afterMs) =>
    if 0 < afterMs ∧ waiting then .update (itemsUpdate id [] none)
    else .command {
      update := some (itemsUpdateWithMeta id output.items output.port output.recorded)
      goto := [.node id] }
  | some (.scatter lanes) => .command {
      update := some (stampActivationStep
        (itemsUpdateWithMeta id output.items output.port output.recorded) id step)
      goto := scatterTargets h lanes }
  | none => emit h lane step (slotUpdate id lane output.items output.port output.recorded)
      output.port output.items

/-- What a failed node commits under its `on_error` policy. Inside a lane the failure belongs to the
gather. -/
def finishError (step : Nat) (lastErr : Option EngineError) : Except GraphError (NodeResult Json Json) :=
  let id := h.node.id
  match lastErr with
  | none => .ok (emit h lane step (itemsUpdate id [] none) none [])
  | some e =>
    let item := errorItem id e.message
    if onErrorPolicy h.node = "continue" then
      .ok (emit h lane step (slotUpdate id lane [item] none none) none [item])
    else if onErrorPolicy h.node = "route" then
      .ok (emit h lane step (slotUpdate id lane [item] (some "error") none) (some "error") [item])
    else
      match lane with
      | some l =>
        .ok (emit h lane step (laneItemsUpdate id l [] none "failed"
          (some (.object [("error", .str e.message)]))) none [])
      | none => .error (.graph e.message)

/-- A denial goes out on the `error` port, or fails the run when nothing is wired to it. -/
def finishDenied (step : Nat) : Except GraphError (NodeResult Json Json) :=
  let id := h.node.id
  if h.hasErrorEdge then
    .ok (emit h lane step (itemsUpdate id [deniedItem id] (some "error")) (some "error")
      [deniedItem id])
  else .error (.graph s!"approval gate '{id}' was denied and has no `error` port to route to")

def applyStatePatch (patch : Option Json) (result : NodeResult Json Json) : NodeResult Json Json :=
  match patch, result with
  | none, result => result
  | some p, .update u => .update (merge u p)
  | some p, .command c => .command { c with update := some (c.update.elim p (merge · p)) }
  | some _, .interrupt i => .interrupt i

/-- What an outcome commits. A cancelled activation writes an empty slot and does not fan out. -/
def commit (step : Nat) (waiting : Bool) (patch : Option Json) :
    Outcome → Except GraphError (NodeResult Json Json)
  | .stopped =>
    let update := itemsUpdate h.node.id [] none
    .ok (.update (if lane.isNone then stampActivationStep update h.node.id step else update))
  | .started => .ok (emit h lane step (.obj []) none [])
  | .denied => finishDenied h lane step
  | .paused i => .ok (.interrupt i)
  | .cancelled => .ok (.update (itemsUpdate h.node.id [] none))
  | .produced output => .ok (applyStatePatch patch (finishOutput h lane step waiting output))
  | .failed e => (finishError h lane step e).map (applyStatePatch patch)

def activate (c : Conduct) (state : Json) (ctx : NodeContext Json) :
    Except GraphError (NodeResult Json Json) :=
  let (o, patch) := outcome h c state ctx
  commit h (laneContext ctx.sendArg) ctx.step (c.cancelled .reentry) patch o

end Tinyflows.Engine
