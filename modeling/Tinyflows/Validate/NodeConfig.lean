import Tinyflows.Lib.Text
import Tinyflows.Validate.Structure

/-!
# The configuration of single nodes

The checks that read what a node's configuration says and nothing of the graph around it.
-/

namespace Tinyflows.Validate
open Lib Model Tinyflows.Graph

variable (n : Node)

def textOf (key : String) : Option String := (n.config.get key).bind Json.asStr

def hasText (key : String) : Bool := (textOf n key).any (· ≠ "")

def refuseIf (p : Prop) [Decidable p] (reason : Message) : List ValidationError :=
  if p then [.invalidNodeConfig n.id reason] else []

/-! ## Postconditions -/

structure Postcondition where
  require : String
  field : Option String
  deriving DecidableEq

def REQUIREMENTS : List String := ["non_empty", "field_present", "non_empty_list"]

def Postcondition.fromConfig (config : Json) : Option (Except Message Postcondition) :=
  (config.get "postcondition").map fun declared =>
    if !declared.isObject then
      .error [.text ("the node's `postcondition` is malformed: expected an object like " ++
        "\x7b\"require\": \"non_empty\"\x7d, got "), .value declared]
    else
      match textField declared "require" (some ""), optionalField declared "field" Json.asStr with
      | some require, some field => .ok { require, field }
      | _, _ => .error [.text "the node's `postcondition` is malformed"]

def Postcondition.validate (p : Postcondition) : Except Message Unit :=
  let field := p.field.map Text.trim
  if p.require ∉ REQUIREMENTS then
    .error [.text "unknown `postcondition.require` `", .text p.require,
      .text "` — use one of non_empty, field_present, non_empty_list"]
  else if p.require = "field_present" ∧ field.all (· = "") then
    .error [.text ("`postcondition.require = \"field_present\"` needs a `field` naming what it must " ++
      "find")]
  else
    match field.filter fun f => f ≠ "" ∧ (f.toList.head? = some '=' ∨ [] ∈ f.toList.splitOn '.') with
    | none => .ok ()
    | some f => .error [.text "`postcondition.field` `", .text f, .text ("` must be a literal dotted path " ++
        "into the node's output (e.g. `json.items`); it is never expression-resolved")]

def postconditionErrors : List ValidationError :=
  match Postcondition.fromConfig n.config with
  | none => []
  | some read =>
    match read.bind Postcondition.validate with
    | .ok _ => []
    | .error reason => [.invalidNodeConfig n.id reason]

/-! ## Child workflows and items -/

def subWorkflowErrors : List ValidationError :=
  refuseIf n (n.kind = .subWorkflow ∧ (n.config.get "workflow").isSome = hasText n "workflow_id")
    [.text ("sub_workflow requires exactly one of `workflow` (inline) or `workflow_id` (reference)")]

def fansOut : NodeKind → Bool
  | .agent | .toolCall | .httpRequest | .memory | .subWorkflow => true
  | _ => false

def perItemByDefault : NodeKind → Bool
  | .toolCall | .httpRequest | .memory => true
  | _ => false

def executionErrors : List ValidationError :=
  match n.config.get "execution" with
  | none => []
  | some execution =>
    if execution.asStr ∈ [some "once", some "per_item"] then
      refuseIf n (!fansOut n.kind) [.text "`execution` is not supported on a ", .text (kindName n.kind),
        .text (" node (only agent, tool_call, http_request, memory, and sub_workflow map over their input)")]
    else [.invalidNodeConfig n.id [.text "unknown `execution` value ", .value execution,
      .text " (expected \"once\" or \"per_item\")"]]

def perItem : Bool :=
  match textOf n "execution" with
  | some "per_item" => true
  | some "once" => false
  | _ => perItemByDefault n.kind

/-- A setting of the map over the items, which says nothing where there is no such map. -/
def itemErrors (key expected : String) (ok : Json → Bool) : List ValidationError :=
  if perItem n then
    checkKey n key ok fun v => [.text s!"`{key}` must be {expected}, got ", .value v]
  else
    refuseIf n (n.config.get key).isSome
      [.text s!"`{key}` has no effect without `execution: \"per_item\"` on a ", .text (kindName n.kind),
        .text " node"]

def concurrencyErrors : List ValidationError :=
  itemErrors n "concurrency" "a non-negative integer or \"all\""
    fun v => v.asU64.isSome || v.asStr = some "all"

def onItemErrorErrors : List ValidationError :=
  itemErrors n "on_item_error" "\"collect\", \"fail_fast\", or \"skip\""
    fun v => v.asStr ∈ [some "collect", some "fail_fast", some "skip"]

def fanOutErrors : List ValidationError :=
  executionErrors n ++ concurrencyErrors n ++ onItemErrorErrors n

/-! ## Memory, dedup and approval nodes -/

/-- A workflow writes to the memory of its own flow only: the scopes of the user and of other flows are
refused for the operations that write. -/
def memoryOperationErrors (operation : String) : List ValidationError :=
  let scope := textOf n "scope"
  let requires (key : String) (ok : Bool) : List ValidationError :=
    refuseIf n (!ok) [.text "memory node operation ", .quoted operation, .text s!" requires `{key}`"]
  let writes : Bool := operation = "remember" || operation = "forget"
  refuseIf n (writes ∧ scope ∈ [some "user", some "flows"])
    [.text "memory node operation ", .quoted operation, .text " may not target scope ",
      .quoted (scope.getD ""), .text (" — remember/forget may only write scope \"flow\"; scopes " ++
      "\"user\" and \"flows\" are read-only from a workflow")] ++
  refuseIf n (scope.any (· ∉ ["user", "flow", "flows"]))
    [.text "memory node has unknown scope ", .quoted (scope.getD ""), .text " (expected user|flow|flows)"] ++
  requires "scope" (!(operation = "recall" || writes) || scope.isSome) ++
  requires "query" (!(operation = "recall" || operation = "search") || hasText n "query") ++
  refuseIf n (operation = "flavour" ∧ !hasText n "flavour")
    [.text "memory node operation \"flavour\" requires `flavour` (slug)"] ++
  requires "key" (!writes || hasText n "key") ++
  requires "value" (operation ≠ "remember" || (n.config.get "value").isSome)

def memoryErrors : List ValidationError :=
  if n.kind ≠ .memory then []
  else
    match textOf n "operation" with
    | none => [.invalidNodeConfig n.id [.text ("memory node requires `operation` " ++
        "(recall|search|flavour|people|remember|forget)")]]
    | some operation =>
      if operation ∈ ["recall", "search", "flavour", "people", "remember", "forget"] then
        memoryOperationErrors n operation
      else [.invalidNodeConfig n.id [.text "memory node has unknown operation ", .quoted operation,
        .text " (expected one of recall|search|flavour|people|remember|forget)"]]

def dedupErrors : List ValidationError :=
  refuseIf n (n.kind = .dedup ∧ !hasText n "key")
    [.text "dedup node requires `key` (an \"=expr\" resolved per item, e.g. \"=item.id\")"]

def approvalKeyErrors (key : String) (allowed : List String) : List ValidationError :=
  checkKey n key (fun v => v.asStr.any (· ∈ allowed)) fun v =>
    [.text s!"approval node has unknown `{key}` ", .value v, .text " (expected one of "] ++
      [Piece.text ", "].intercalate (allowed.map fun v => [.quoted v]) ++ [.text ")"]

def assigneesErrors : List ValidationError :=
  checkKey n "assignees" (fun v => v.asArray.any fun l => l ≠ [] ∧ l.all (·.asStr.isSome)) fun _ =>
    [.text ("approval node `assignees` must be a non-empty array of strings (a single reviewer is a " ++
      "one-element array)")]

def approvalErrors : List ValidationError :=
  if n.kind = .approval then
    approvalKeyErrors n "wait_mode" ["suspend", "poll"] ++
      approvalKeyErrors n "on_reject" ["route", "error", "drop"] ++
      approvalKeyErrors n "on_timeout" ["error", "reject", "route"] ++ assigneesErrors n
  else []

def validateNodeConfigs (w : WorkflowGraph) : List ValidationError :=
  w.nodes.flatMap postconditionErrors ++ w.nodes.flatMap subWorkflowErrors ++
    w.nodes.flatMap fanOutErrors ++ w.nodes.flatMap memoryErrors ++ w.nodes.flatMap dedupErrors ++
    w.nodes.flatMap approvalErrors

/-! ## Working directories -/

def DIRECTORY_KEYS : List String :=
  ["cwd", "workdir", "work_dir", "working_dir", "working_directory", "workspace", "directory"]

def honoredBy : NodeKind → List String
  | .agent => ["cwd", "working_dir"]
  | .shell => ["cwd"]
  | .subWorkflow => ["workspace"]
  | .trigger => ["workspace"]
  | _ => []

def advice (kind : NodeKind) (key : String) : String :=
  match kind with
  | .agent | .shell => s!"use `cwd` (this node reads `cwd`, not `{key}`)"
  | .subWorkflow => s!"use `workspace` to re-pin the child run's workspace, not `{key}`"
  | .trigger => s!"use `workspace` to pin the run's workspace, not `{key}`"
  | .toolCall => "a tool's working directory goes in `args.cwd`, which the tool itself reads — a " ++
      s!"top-level `{key}` on the node is never looked at"
  | kind => s!"a {kindName kind} node has no working directory; put the step that needs one in an " ++
      "`agent` or `shell` node, or re-pin the workspace on the `sub_workflow` node that runs it"

def workingDirErrors (key : String) : List ValidationError :=
  refuseIf n (key ∉ honoredBy n.kind ∧ (n.config.get key).isSome)
    [.text s!"`{key}` is not read by a {kindName n.kind} node and would be silently ignored — the step ",
      .text "would run in the run's workspace instead: ", .text (advice n.kind key)]

def validateWorkingDirs (w : WorkflowGraph) : List ValidationError :=
  w.nodes.flatMap fun n => DIRECTORY_KEYS.flatMap (workingDirErrors n)

end Tinyflows.Validate
