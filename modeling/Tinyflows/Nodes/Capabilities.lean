import Tinyflows.Lib.Interleaving
import Tinyflows.Nodes.SubWorkflow

/-!
# Capabilities

A node reaches the outside world through the capabilities its host has injected. An executor is a
program that calls them; what they reply is the host's business.
-/

namespace Tinyflows.Nodes
open Lib Tinyflows.Graph Model Engine Json

inductive CodeLanguage where
  | javaScript
  | python
  deriving DecidableEq

inductive ShellInterpreter where
  | sh
  | bash
  deriving DecidableEq

inductive ShellScript where
  | inline (source : String)
  | path (path : String)
  deriving DecidableEq

structure ShellRequest where
  interpreter : ShellInterpreter
  script : ShellScript
  cwd : Option String
  env : List (String × String)
  input : Json
  deriving DecidableEq

structure ShellOutcome where
  exitCode : Int
  stdout : String
  stderr : String
  deriving DecidableEq

inductive TaskSpec where
  | workflow (graph input : Json)
  | tool (slug : String) (args : Json)
  | http (request : Json)
  deriving DecidableEq

structure EngineRun where
  graph : WorkflowGraph
  input : RunInput
  overlay : Option (List (String × Json))

inductive Call where
  | tool (slug : String) (args : Json) (connection : Option String)
  | http (request : Json) (connection : Option String)
  | code (language : CodeLanguage) (source : String) (input : Json)
  | shell (request : ShellRequest)
  | agent (definition : AgentDefinition) (config : Json)
  | startTask (spec : TaskSpec)
  | run (child : EngineRun)
  | llm (request : Json) (connection : Option String)
  | resolveAgent (id : String)
  | resolveTools (grants : List ToolGrant) (connection : Option String)
  /-- Memory, the state store, reviews, tickets, directories and context. -/
  | inward (request : Json)

def Call.Reply : Call → Type
  | .run _ => Except EngineError RunOutcome
  | .shell _ => Except EngineError ShellOutcome
  | .resolveAgent _ => Except EngineError (Option AgentDefinition)
  | _ => Except EngineError Json

/-- The calls that act on the world: a tool, HTTP, code or a shell, an agent that was granted tools,
and a task that does any of the first two. -/
def Call.Outward : Call → Prop
  | .tool _ _ _ | .http _ _ | .code _ _ _ | .shell _ => True
  | .agent definition _ => definition.tools ≠ []
  | .startTask (.tool _ _) | .startTask (.http _) => True
  | _ => False

/-- The calls that neither act on the world nor start another workflow. -/
def Call.Inward : Call → Prop
  | .llm _ _ | .resolveAgent _ | .resolveTools _ _ | .inward _ => True
  | .agent definition _ => definition.tools = []
  | _ => False

abbrev Executor := Program Call Call.Reply

abbrev Call.ask (c : Call) : Executor c.Reply := Program.ask c

def InwardExecutor (α : Type) := { p : Executor α // p.Only Call.Inward }

structure Offered where
  agents : Bool
  tasks : Bool
  shell : Bool

/-! ## Tools and HTTP -/

def eachItem (ctx : ExecContext) (default : ExecutionMode) (f : Json → Executor (Except EngineError Item)) :
    Executor (Except EngineError NodeOutput) :=
  if mapsOver ctx default then do
    let results ← ctx.input.mapM fun item => f (exprScopeFor ctx item.json)
    return (collectItems (itemErrorPolicy ctx.node.config ctx.run) 0 results).map .main
  else do
    let result ← f (exprScope ctx)
    return result.map fun item => .main [item]

def envelope (value : Json) : Item :=
  let json := match value with
    | .obj _ | .arr _ => value
    | _ => .null
  let text := match value with
    | .str s => .str s
    | _ => (value.get "text").getD .null
  { json := .object [("json", json), ("text", text), ("raw", value)] }

def connectionOf (cfg : Json) : Option String :=
  (cfg.get "connection_ref").bind asStr

def toolCallExecute (ex : Expressions) (ctx : ExecContext) : Executor (Except EngineError NodeOutput) :=
  eachItem ctx .perItem fun scope => do
    let cfg := ex.resolveAll scope ctx.node.config
    match (cfg.get "slug").bind asStr with
    | none => return .error (.capability "tool_call node: missing `slug` in config")
    | some slug =>
      let result : Except EngineError Json ← Call.ask (.tool slug ((cfg.get "args").getD .null) (connectionOf cfg))
      return result.map envelope

def httpRequestExecute (ex : Expressions) (ctx : ExecContext) : Executor (Except EngineError NodeOutput) :=
  eachItem ctx .perItem fun scope => do
    let cfg := ex.resolveAll scope ctx.node.config
    let response : Except EngineError Json ← Call.ask (.http cfg (connectionOf cfg))
    return response.map envelope

/-! ## Code and shell -/

def codeExecute (ctx : ExecContext) : Executor (Except EngineError NodeOutput) := do
  let language := if (ctx.node.config.get "language").bind asStr = some "python" then
    CodeLanguage.python else .javaScript
  let source := ((ctx.node.config.get "source").bind asStr).getD ""
  let result : Except EngineError Json ← Call.ask (.code language source (itemsJson ctx.input))
  return result.map fun value => .main [{ json := value }]

def interpreterOf (config : Json) : Except EngineError ShellInterpreter :=
  match config.get "interpreter" with
  | none => .ok .sh
  | some (.str "sh") => .ok .sh
  | some (.str "bash") => .ok .bash
  | some (.str named) => .error (.capability
      s!"shell: unsupported interpreter '{named}'; expected 'sh' or 'bash'")
  | some _ => .error (.capability "shell: config.interpreter must be a string")

def nonBlankText (v : Json) (key empty : String) : Except EngineError String :=
  match v with
  | .str s =>
    if Text.trim s = "" then .error (.capability s!"shell: config.{key} must be a non-empty {empty}")
    else .ok s
  | _ => .error (.capability s!"shell: config.{key} must be a string")

def scriptOf (config : Json) : Except EngineError ShellScript :=
  match config.get "source", config.get "script_path" with
  | some _, some _ => .error (.capability "shell: set config.source or config.script_path, not both")
  | some source, none => (nonBlankText source "source" "script").map .inline
  | none, some path => (nonBlankText path "script_path" "path").map .path
  | none, none => .error (.capability ("shell: config.source (inline script) or config.script_path " ++
      "(script file) is required"))

def cwdOf (config : Json) : Except EngineError (Option String) :=
  match config.get "cwd" with
  | none => .ok none
  | some cwd => (nonBlankText cwd "cwd" "path when present").map some

def jsonKind : Json → String
  | .null => "null"
  | .bool _ => "a boolean"
  | .num _ => "a number"
  | .str _ => "a string"
  | .arr _ => "an array"
  | .obj _ => "an object"

def envOf (config : Json) : Except EngineError (List (String × String)) :=
  match config.get "env" with
  | none => .ok []
  | some (.obj fields) => fields.mapM fun (name, value) =>
    match value with
    | .str s => .ok (name, s)
    | _ => .error (.capability s!"shell: config.env.{name} must be a string, not {jsonKind value}")
  | some _ => .error (.capability "shell: config.env must be an object of strings")

def shellRequest (config : Json) (input : List Item) : Except EngineError ShellRequest := do
  return {
    interpreter := ← interpreterOf config
    script := ← scriptOf config
    cwd := ← cwdOf config
    env := ← envOf config
    input := itemsJson input }

def STDERR_TAIL_LIMIT : Nat := 2000

def textTail (text : String) (limit : Nat) : String :=
  let chars := (Text.trim text).toList
  if chars.length ≤ limit then .ofList chars else "…" ++ .ofList (chars.drop (chars.length - limit))

/-- What a script that ended leaves; `parse` reads the JSON it may have printed. -/
def shellOutput (parse : String → Json) (outcome : ShellOutcome) : Except EngineError NodeOutput :=
  if outcome.exitCode ≠ 0 then .error (.capability (s!"shell: script exited with status " ++
    s!"{outcome.exitCode}: {textTail outcome.stderr STDERR_TAIL_LIMIT}"))
  else .ok (.main [{ json := .object [
    ("exit_code", .num (.posInt 0)), ("stdout", .str outcome.stdout), ("stderr", .str outcome.stderr),
    ("stdout_json", parse (Text.trim outcome.stdout))] }])

def shellExecute (ex : Expressions) (offered : Offered) (parse : String → Json) (ctx : ExecContext) :
    Executor (Except EngineError NodeOutput) :=
  if offered.shell then
    match shellRequest (ex.resolveAll (exprScope ctx) ctx.node.config) ctx.input with
    | .error e => return .error e
    | .ok request => do
      let outcome : Except EngineError ShellOutcome ← Call.ask (.shell request)
      return outcome.bind (shellOutput parse)
  else return .error (.capability
    "shell: this host has no shell capability, so `shell` nodes cannot run")

/-! ## Background work -/

def specFromConfig (config : Json) (nodeId : NodeId) : Except EngineError TaskSpec :=
  let fails (what : String) := Except.error (EngineError.capability
    s!"spawn node {String.quote nodeId}: {what}")
  match (config.get "target").bind asStr with
  | some "workflow" =>
    match config.get "workflow" with
    | none => fails "`target: \"workflow\"` needs a `workflow` graph"
    | some graph => .ok (.workflow graph ((config.get "input").getD .null))
  | some "tool" =>
    match (config.get "slug").bind asStr with
    | none => fails "`target: \"tool\"` needs a `slug`"
    | some slug => .ok (.tool slug ((config.get "args").getD .null))
  | some "http" => .ok (.http ((config.get "request").getD .null))
  | some other => fails
      s!"unknown `target` {String.quote other}; expected workflow, tool or http"
  | none => fails "missing `target` (workflow, tool or http)"

def runInline (host : Hosting) : TaskSpec → Executor (Except EngineError Json)
  | .tool slug args => Call.ask (.tool slug args none)
  | .http request => Call.ask (.http request none)
  | .workflow graph input =>
    match host.parse graph with
    | .error e => return .error (.capability s!"spawn node: invalid workflow: {e}")
    | .ok child =>
      match host.compile child with
      | .error e => return .error e
      | .ok () => do
        let outcome : Except EngineError RunOutcome ←
          Call.ask (.run { graph := child, input := .new input, overlay := none })
        return outcome.map (·.output)

def ticketItem (ctx : ExecContext) (ticket : Json) (result : Option Json) : Item :=
  { json := .object ([("ticket", ticket), ("spawn", .str ctx.node.id),
      ("started_at_step", .nat ctx.step)] ++
      (result.map fun value => [("inline", .bool true), ("result", value)]).getD []) }

def spawnExecute (host : Hosting) (offered : Offered) (ctx : ExecContext) :
    Executor (Except EngineError NodeOutput) :=
  match specFromConfig ctx.node.config ctx.node.id with
  | .error e => return .error e
  | .ok spec =>
    if offered.tasks then do
      let ticket : Except EngineError Json ← Call.ask (.startTask spec)
      return ticket.map fun ticket => .main [ticketItem ctx ticket none]
    else do
      let result ← runInline host spec
      return result.map fun value => .main [ticketItem ctx .null (some value)]

end Tinyflows.Nodes
