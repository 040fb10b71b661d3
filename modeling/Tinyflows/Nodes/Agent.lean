import Tinyflows.Engine.Nesting
import Tinyflows.Nodes.Capabilities

/-!
# The agent node

An agent turn: a registered agent run to completion when the configuration names one and the host has
agents, and otherwise a bare completion that may elect one of the tools it was offered.
-/

namespace Tinyflows.Nodes
open Lib Tinyflows.Graph Model Engine

def agentRefOf (cfg : Json) : Option String :=
  ((cfg.get "agent_ref").bind Json.asStr).filter (· ≠ "")

/-- The parts of an agent turn that only look inward: resolving the declared context and working
directory, and the output parser with the envelope around its result. -/
structure AgentTurn where
  prepare : ExecContext → Json → InwardExecutor (Except EngineError Json)
  finish : ExecContext → Json → Json → InwardExecutor (Except EngineError Item)

section Turn

variable (ex : Expressions) (offered : Offered) (turn : AgentTurn) (agents : List AgentDefinition)
  (ctx : ExecContext) (cfg scope : Json)

/-- The graph's own registry first, then the host's, then the bare reference. -/
def resolveDefinition (agentRef : String) : Executor (Except EngineError AgentDefinition) :=
  match agents.find? (·.id = agentRef) with
  | some definition => return .ok definition
  | none => do
    let fromHost : Except EngineError (Option AgentDefinition) ← Call.ask (.resolveAgent agentRef)
    return fromHost.map (·.getD { id := agentRef })

def resolvedDefinition (definition : AgentDefinition) : Except EngineError AgentDefinition :=
  match definition.tools.mapM fun g => decodeGrant (ex.resolveAll scope g.toJson) with
  | some tools => .ok { definition with tools }
  | none => .error (.capability (s!"agent node {ctx.node.id}: agent definition `{definition.id}` did " ++
      "not survive expression resolution"))

/-- The grants of the definition that the node names, if it names any. -/
def narrowTools (granted requested : List ToolGrant) : List ToolGrant :=
  granted.filter fun g => requested.any fun want =>
    want.covers g.slug || g.covers want.slug

def mergeTools (definition : AgentDefinition) : Except EngineError AgentDefinition :=
  match (cfg.get "tools").filter (· ≠ .null) with
  | none => .ok definition
  | some raw =>
    match raw.asArray.bind (·.mapM decodeGrant) with
    | none => .error (.capability s!"agent node {ctx.node.id}: invalid `tools`")
    | some [] => .ok definition
    | some requested => .ok { definition with
        tools := if definition.tools = [] then requested
          else narrowTools definition.tools requested }

def runAgent (agentRef : String) : Executor (Except EngineError Item) := do
  match (← resolveDefinition agents agentRef).bind fun definition =>
      (resolvedDefinition ex ctx scope definition).bind (mergeTools ctx cfg) with
  | .error e => return .error e
  | .ok definition =>
    match ← (turn.prepare ctx cfg).val with
    | .error e => return .error e
    | .ok request =>
      let tools : Except EngineError Json ←
        Call.ask (.resolveTools definition.tools (connectionOf cfg))
      match tools with
      | .error e => return .error e
      | .ok _ =>
        let outcome : Except EngineError Json ← Call.ask (.agent definition request)
        match outcome with
        | .error e => return .error e
        | .ok value => (turn.finish ctx cfg value).val

/-- The tool a completion has elected, if it was offered, with what to call it with. The connection is
that of the offer or of the node, never one that the model names. -/
def electedTool (response : Json) : Option (String × Json × Option String) := do
  let toolCall ← response.get "tool_call"
  let slug ← (← toolCall.get "slug").asStr
  let offeredTools ← (← cfg.get "tools").asArray
  let tool ← offeredTools.find? fun t => (t.get "slug").bind Json.asStr = some slug
  return (slug, (toolCall.get "args").getD .null, (connectionOf tool).or (connectionOf cfg))

def withToolResult (response result : Json) : Json :=
  match response with
  | .obj fields => .obj (Json.insertField "tool_result" result fields)
  | other => other

def runCompletion : Executor (Except EngineError Item) := do
  match ← (turn.prepare ctx cfg).val with
  | .error e => return .error e
  | .ok request =>
    let response : Except EngineError Json ← Call.ask (.llm request (connectionOf cfg))
    match response with
    | .error e => return .error e
    | .ok value =>
      match electedTool cfg value with
      | none => (turn.finish ctx cfg value).val
      | some (slug, args, connection) =>
        let result : Except EngineError Json ← Call.ask (.tool slug args connection)
        match result with
        | .error e => return .error e
        | .ok result => (turn.finish ctx cfg (withToolResult value result)).val

def runTurn : Executor (Except EngineError Item) :=
  match agentRefOf cfg with
  | some agentRef =>
    if offered.agents then runAgent ex turn agents ctx cfg scope agentRef
    else runCompletion turn ctx cfg
  | none => runCompletion turn ctx cfg

end Turn

def agentExecute (ex : Expressions) (offered : Offered) (turn : AgentTurn)
    (agents : List AgentDefinition) (ctx : ExecContext) : Executor (Except EngineError NodeOutput) :=
  eachItem ctx .once fun scope =>
    runTurn ex offered turn agents ctx (ex.resolveAll scope ctx.node.config) scope

/-!
## Dispatch

The executor of every kind of node, and the calls that a run of a workflow makes through them.
-/

/-- What executors rely on beyond the calls they make: expressions, how children are read, the
capabilities on offer, how printed JSON is read, the inward parts of an agent turn, and the executors
of the kinds that only look inward. -/
structure NodeHost where
  expressions : Expressions
  hosting : Hosting
  offered : Offered
  parseJson : String → Json
  turn : AgentTurn
  plain : ExecContext → InwardExecutor (Except EngineError NodeOutput)
  windingDown : Bool

def startChild (child : ChildRun) : Executor (Except EngineError RunOutcome) :=
  Call.ask (.run {
    graph := child.graph
    input := child.input
    overlay := some (overlayOf child) })

def executorFor (host : NodeHost) (w : WorkflowGraph) (ctx : ExecContext) :
    Executor (Except EngineError NodeOutput) :=
  match ctx.node.kind with
  | .toolCall => toolCallExecute host.expressions ctx
  | .httpRequest => httpRequestExecute host.expressions ctx
  | .code => codeExecute ctx
  | .shell => shellExecute host.expressions host.offered host.parseJson ctx
  | .agent => agentExecute host.expressions host.offered host.turn w.agents ctx
  | .spawn => spawnExecute host.hosting host.offered ctx
  | .subWorkflow => subWorkflowExecute host.expressions host.hosting (fun _ child => startChild child)
      host.windingDown ctx
  | _ => (host.plain ctx).val

/-! ## The calls of a run -/

/-- A boundary of some run of the workflow, whether it was started afresh or resumed. -/
inductive ReachedIn (w : WorkflowGraph) (l : Loop Json Json) : Prop
  | intro {ord : IterOrder NodeId} {g : CompiledGraph Json Json Json} {c : Conducts}
      {rt : Runtime Json Json Json} {thread : ThreadId} {start : Loop Json Json}
      (hbuild : buildGraph ord w = .ok g) (hconf : Conforms w c rt)
      (hstart : (∃ store state, start = freshLoop store state [{ node := g.entry }]) ∨
        ∃ store checkpoint recorded value, start = resumeLoop store checkpoint recorded value)
      (hsteps : Steps g rt thread start l)

/-- A node of the workflow that a run activates makes the call. A step hook may have patched the state
that the executor sees. -/
def NodeMakes (host : NodeHost) (w : WorkflowGraph) (call : Call) : Prop :=
  ∃ l i n ctx, ∃ patch : Option Json, ReachedIn w l ∧ StartsAt w l i n ctx ∧
    (executorFor host w (execContext (handlerData w n) (patch.elim l.state (merge l.state)) ctx)).Makes
      call

/-- The calls that runs of the workflow make: those of its own nodes, and those of the workflows that
they run or have run in the background. -/
inductive Invokes (host : NodeHost) : WorkflowGraph → Call → Prop
  | own {w : WorkflowGraph} {call : Call} (h : NodeMakes host w call) : Invokes host w call
  | child {w : WorkflowGraph} {call : Call} (child : EngineRun) (h : NodeMakes host w (.run child))
      (hchild : Invokes host child.graph call) : Invokes host w call
  | background {w child : WorkflowGraph} {call : Call} (graph input : Json)
      (h : NodeMakes host w (.startTask (.workflow graph input)))
      (hparse : host.hosting.parse graph = .ok child) (hcompile : host.hosting.compile child = .ok ())
      (hchild : Invokes host child call) : Invokes host w call

end Tinyflows.Nodes
