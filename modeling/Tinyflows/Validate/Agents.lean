import Tinyflows.Validate.NodeConfig

/-!
# Agents

The reference fields of an agent, of its tools and of its context must be literal: an expression in their
place would let the data of a run choose the agent, and with it the tools.
-/

namespace Tinyflows.Validate
open Lib Tinyflows.Graph Model

def isExpression (s : String) : Bool :=
  s.toList.head? = some '='

def agentRefErrors (n : Node) : List ValidationError :=
  match n.config.get "agent_ref" with
  | some (.str ref) =>
    if isExpression ref then [.invalidNodeConfig n.id [.text ("`agent_ref` must be a literal, not " ++
      "the expression "), .quoted ref, .text (" — an expression resolves from run data, which would " ++
      "let upstream (possibly model-influenced) data select a differently-privileged agent type")]]
    else []
  | none | some .null => []
  | some _ => [.invalidNodeConfig n.id [.text "`agent_ref` must be a string"]]

def toolGrantProblem (g : ToolGrant) : Option Message :=
  if g.slug = "" then some [.text "tool grant requires a non-empty `slug`"]
  else if isExpression g.slug then some [.text "tool grant `slug` must be a literal, not the expression ",
    .quoted g.slug, .text (" — a tool chosen by run data is a tool chosen by whatever wrote that " ++
    "data")]
  else if g.slug = "*" ∨ '*' ∈ g.slug.toList ∧ !Text.endsWith g.slug ".*" then
    some [.text "tool grant slug ", .quoted g.slug, .text (" is not a valid pattern — only a trailing " ++
      "`.*` on a non-empty prefix is allowed (e.g. \"github.*\"); to use the harness's default " ++
      "tools, omit `tools` entirely")]
  else
    match g.connectionRef.filter isExpression with
    | some conn => some [.text "tool grant `connection_ref` must be a literal, not the expression ",
        .quoted conn, .text (" — a credential selected by run data is the prompt-injection shape " ++
        "this field exists to prevent")]
    | none => none

def wideningErrors (w : WorkflowGraph) (n : Node) (grants : List ToolGrant) : List ValidationError :=
  match ((n.config.get "agent_ref").bind Json.asStr).bind fun ref =>
      (w.agent ref).map fun definition => (ref, definition.tools) with
  | none | some (_, []) => []
  | some (ref, granted) => (grants.filter fun grant =>
    !granted.any fun g => g.covers grant.slug || grant.covers g.slug).map fun grant =>
      .invalidNodeConfig n.id [.text "tool ", .quoted grant.slug, .text " is not granted by agent ",
        .quoted ref, .text " — a node may narrow its agent's tools, never widen them"]

def toolsErrors (w : WorkflowGraph) (n : Node) : List ValidationError :=
  match (n.config.get "tools").filter (· ≠ .null) with
  | none => []
  | some raw =>
    match raw.asArray.bind (·.mapM decodeGrant) with
    | none => [.invalidNodeConfig n.id [.text "invalid `tools`"]]
    | some grants => (grants.filterMap toolGrantProblem).map (.invalidNodeConfig n.id) ++
        wideningErrors w n grants

def ContextSource.labelOrIndex (source : ContextSource) (index : Nat) : String :=
  source.label.getD <| match source.kind with
    | .host name => name
    | .flavour slug => slug
    | .memory scope _ => s!"memory:{scope}"
    | .text _ | .items => s!"context_{index}"

def contextSourceProblem (source : ContextSource) (index : Nat) : Option Message :=
  let label : Piece := .text s!"context source `{ContextSource.labelOrIndex source index}`"
  match source.kind with
  | .text text =>
    if text = .null ∨ text = .str "" then some [label, .text " has empty `text`"] else none
  | .memory scope query =>
    if scope ∉ ["user", "flow", "flows"] then
      some [label, .text " has unknown memory scope ", .quoted scope,
        .text " (expected a literal user|flow|flows)"]
    else if query = "" then some [label, .text " has an empty memory `query`"] else none
  | .flavour slug => if slug = "" then some [label, .text " has an empty flavour `slug`"] else none
  | .host name =>
    if name = "" then some [label, .text " has an empty host `source`"]
    else if isExpression name then
      some [label, .text " host `source` must be a literal, not the expression ", .quoted name,
        .text " — which corpus an agent reads from should not be chosen by run data"]
    else none
  | .items => none

def limitsProblem (limits : AgentLimits) : Option Message :=
  ([("max_steps", limits.maxSteps), ("max_tool_calls", limits.maxToolCalls),
    ("agent_timeout_secs", limits.agentTimeoutSecs), ("tool_timeout_secs", limits.toolTimeoutSecs)].find?
      (·.2 = some 0)).map fun (field, _) =>
    [.text (s!"`limits.{field}` must be greater than 0 (an agent that may take 0 steps cannot run); " ++
      "omit it for no bound")]

def agentDefinitionErrors : List String → List AgentDefinition → List ValidationError
  | _, [] => []
  | seen, agent :: rest =>
    (if agent.id = "" then
      [.invalidAgentDefinition "" [.text "agent definition requires a non-empty `id`"]]
    else if agent.id ∈ seen then [.duplicateAgentId agent.id] else []) ++
      (agent.tools.filterMap toolGrantProblem ++
        (agent.context.zipIdx.filterMap fun (source, index) => contextSourceProblem source index) ++
        (limitsProblem agent.limits).toList).map (.invalidAgentDefinition agent.id) ++
      agentDefinitionErrors (if agent.id = "" then seen else agent.id :: seen) rest

/-- A setting that is decoded first and then checked. -/
def decodedErrors {α : Type} (n : Node) (key : String) (decode : Json → Option α)
    (problems : α → List Message) : List ValidationError :=
  match (n.config.get key).filter (· ≠ .null) with
  | none => []
  | some raw =>
    match decode raw with
    | none => [.invalidNodeConfig n.id [.text s!"invalid `{key}`"]]
    | some value => (problems value).map (.invalidNodeConfig n.id)

def contextErrors (n : Node) : List ValidationError :=
  decodedErrors n "context" (fun raw => raw.asArray.bind (·.mapM decodeContext)) fun sources =>
    sources.zipIdx.filterMap fun (source, index) => contextSourceProblem source index

def limitsErrors (n : Node) : List ValidationError :=
  decodedErrors n "limits" decodeLimits fun limits => (limitsProblem limits).toList

def agentNodeErrors (w : WorkflowGraph) : List ValidationError :=
  (w.nodes.filter (·.kind = .agent)).flatMap fun n =>
    agentRefErrors n ++ toolsErrors w n ++ contextErrors n ++ limitsErrors n

def validateAgents (w : WorkflowGraph) : List ValidationError :=
  agentDefinitionErrors [] w.agents ++ agentNodeErrors w

end Tinyflows.Validate
