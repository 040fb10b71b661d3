import Tinyflows.Model.Workflow

/-!
# Workflows as JSON

A workflow embedded in the configuration of a node is read back from its JSON form.
-/

namespace Tinyflows.Model
open Lib

/-- The kinds of nodes by the names that stand for them in JSON. -/
def NodeKind.names : List (String × NodeKind) :=
  [("trigger", .trigger), ("agent", .agent), ("tool_call", .toolCall), ("http_request", .httpRequest),
    ("code", .code), ("shell", .shell), ("condition", .condition), ("switch", .switch), ("merge", .merge),
    ("split_out", .splitOut), ("loop", .loop), ("transform", .transform), ("output_parser", .outputParser),
    ("sub_workflow", .subWorkflow), ("memory", .memory), ("dedup", .dedup), ("spawn", .spawn),
    ("scatter", .scatter), ("gather", .gather), ("approval", .approval), ("gate", .gate), ("void", .void)]

def NodeKind.ofName (name : String) : Option NodeKind :=
  names.lookup name

def kindName (kind : NodeKind) : String :=
  ((NodeKind.names.find? (·.2 = kind)).map (·.1)).getD ""

def InputType.asStr : InputType → String
  | .string => "string"
  | .number => "number"
  | .boolean => "boolean"
  | .json => "json"

def textField (j : Json) (key : String) (default : Option String) : Option String :=
  match j.get key with
  | some v => v.asStr
  | none => default

def listField {α : Type} (j : Json) (key : String) (decode : Json → Option α) : Option (List α) :=
  match j.get key with
  | some v => v.asArray.bind (·.mapM decode)
  | none => some []

/-- A field that may be absent or `null`. -/
def optionalField {α : Type} (j : Json) (key : String) (decode : Json → Option α) : Option (Option α) :=
  match (j.get key).filter (· ≠ .null) with
  | none => some none
  | some v => (decode v).map some

def asU32 (j : Json) : Option Nat :=
  (j.asU64.map (·.toNat)).filter (· < 2 ^ 32)

def decodeNode (j : Json) : Option Node := do
  let id ← textField j "id" none
  let kind ← (← textField j "kind" none) |> NodeKind.ofName
  let _ ← textField j "name" none
  return { id, kind, config := (j.get "config").getD .null }

def decodeEdge (j : Json) : Option Edge := do
  return {
    fromNode := ← textField j "from_node" none
    fromPort := ← textField j "from_port" (some "main")
    toNode := ← textField j "to_node" none
    toPort := ← textField j "to_port" (some "main") }

def decodeGrant (j : Json) : Option ToolGrant := do
  return { slug := ← textField j "slug" none, connectionRef := ← optionalField j "connection_ref" Json.asStr }

def ToolGrant.toJson (g : ToolGrant) : Json :=
  .object ([("slug", .str g.slug)] ++ (g.connectionRef.map fun c => ("connection_ref", .str c)).toList)

def decodeContextKind (j : Json) : Option ContextSourceKind := do
  match ← textField j "kind" none with
  | "text" => return .text (← j.get "text")
  | "items" => return .items
  | "memory" =>
    let _ ← optionalField j "limit" asU32
    return .memory (← textField j "scope" none) (← textField j "query" none)
  | "flavour" => return .flavour (← textField j "slug" none)
  | "host" => return .host (← textField j "source" none)
  | _ => none

def decodeContext (j : Json) : Option ContextSource := do
  let _ ← ((j.get "optional").getD (.bool false)).asBool
  return { label := ← optionalField j "label" Json.asStr, kind := ← decodeContextKind j }

def decodeLimits (j : Json) : Option AgentLimits := do
  guard j.isObject
  return {
    maxSteps := ← optionalField j "max_steps" asU32
    maxToolCalls := ← optionalField j "max_tool_calls" asU32
    agentTimeoutSecs := ← optionalField j "agent_timeout_secs" asU32
    toolTimeoutSecs := ← optionalField j "tool_timeout_secs" asU32 }

def decodeAgent (j : Json) : Option AgentDefinition := do
  return {
    id := ← textField j "id" none
    tools := ← listField j "tools" decodeGrant
    context := ← listField j "context" decodeContext
    limits := ← decodeLimits ((j.get "limits").getD (.obj [])) }

def InputType.ofName (name : String) : Option InputType :=
  [InputType.string, .number, .boolean, .json].find? (·.asStr = name)

def decodeInput (j : Json) : Option WorkflowInput := do
  let _ ← optionalField j "description" Json.asStr
  return {
    name := ← textField j "name" none
    ty := ← InputType.ofName (← textField j "type" (some "string"))
    required := ← ((j.get "required").getD (.bool false)).asBool
    default := (j.get "default").filter (· ≠ .null) }

def decodeGraph (j : Json) : Option WorkflowGraph := do
  guard j.isObject
  return {
    nodes := ← listField j "nodes" decodeNode
    edges := ← listField j "edges" decodeEdge
    agents := ← listField j "agents" decodeAgent
    inputs := ← listField j "inputs" decodeInput }

end Tinyflows.Model
