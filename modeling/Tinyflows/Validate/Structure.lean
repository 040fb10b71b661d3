import Mathlib.Data.List.Destutter
import Tinyflows.Engine.Routing
import Tinyflows.Model.Decode

/-!
# Structural validation

The checks of a workflow's shape: its ids, its trigger, its edges, the `on_error` policies, the
terminal sinks, the ports of its conditions and its declared inputs. Each check lists every error it finds.
-/

namespace Tinyflows.Validate
open Lib Tinyflows.Graph Model

/-- A piece of a message: literal text, a JSON value as it prints, or a quoted string or list. -/
inductive Piece where
  | text (s : String)
  | value (v : Json)
  | quoted (s : String)
  | quotedAll (l : List String)
  deriving DecidableEq

abbrev Message := List Piece

inductive ValidationError where
  | missingTrigger
  | multipleTriggers (ids : List NodeId)
  | unknownNode (id : NodeId)
  | duplicateNodeId (id : NodeId)
  | illegalCycle (id : NodeId)
  | invalidNodeConfig (node : NodeId) (reason : Message)
  | missingErrorRoute (node : NodeId)
  | duplicateEdge (fromNode : NodeId) (fromPort : String) (toNode : NodeId) (toPort : String)
  | invalidOnError (node : NodeId) (value : String)
  | invalidConditionRouting (node : NodeId) (fromPort : String)
  | invalidInputName (name : String)
  | duplicateInputName (name : String)
  | inputDefaultTypeMismatch (name expected : String)
  | requiredInputWithDefault (name : String)
  | invalidAgentDefinition (agent : String) (reason : Message)
  | duplicateAgentId (agent : String)
  deriving DecidableEq

def duplicateIds : List NodeId → List NodeId → List ValidationError
  | _, [] => []
  | seen, id :: rest =>
    if id ∈ seen then .duplicateNodeId id :: duplicateIds seen rest
    else duplicateIds (id :: seen) rest

def checkKey (n : Node) (key : String) (ok : Json → Bool) (reason : Json → Message) :
    List ValidationError :=
  match n.config.get key with
  | none => []
  | some v => if ok v then [] else [.invalidNodeConfig n.id (reason v)]

variable (w : WorkflowGraph)

def triggerErrors : List ValidationError :=
  match (w.nodes.filter (·.kind = .trigger)).map (·.id) with
  | [] => [.missingTrigger]
  | [_] => []
  | triggers => [.multipleTriggers triggers]

def unknownNode (w : WorkflowGraph) (id : NodeId) : List ValidationError :=
  if (w.node id).isNone then [.unknownNode id] else []

def edgeErrors (w : WorkflowGraph) : List Edge → List Edge → List ValidationError
  | _, [] => []
  | seen, e :: rest =>
    unknownNode w e.fromNode ++ unknownNode w e.toNode ++
      (if e ∈ seen then [.duplicateEdge e.fromNode e.fromPort e.toNode e.toPort] else []) ++
      edgeErrors w (e :: seen) rest

def onErrorErrors (n : Node) : List ValidationError :=
  match (n.config.get "on_error").bind Json.asStr with
  | none => []
  | some "stop" => []
  | some "continue" => []
  | some "route" =>
    if n.kind = .void then
      [.invalidNodeConfig n.id [.text ("`void` is a terminal sink, so on_error \"route\" has " ++
        "nowhere to route to (an `error` edge is an outgoing edge); use \"stop\" or \"continue\"")]]
    else if w.edges.any fun e => e.fromNode = n.id ∧ e.fromPort = "error" then []
    else [.missingErrorRoute n.id]
  | some other => [.invalidOnError n.id other]

def voidErrors (n : Node) : List ValidationError :=
  if n.kind = .void then
    let outgoing := ((w.targets n.id).insertionSort (· ≤ ·)).destutter (· ≠ ·)
    (if outgoing ≠ [] then
      [.invalidNodeConfig n.id [.text ("`void` is a terminal sink and may not have outgoing edges " ++
        "(found "), .quotedAll outgoing, .text ("); remove the edge, or use a different kind if the " ++
        "branch is meant to continue")]]
    else []) ++
    (if w.edges.any (·.toNode = n.id) then []
    else
      [.invalidNodeConfig n.id [.text ("`void` has no incoming edge, so it can never run and " ++
        "declares nothing; wire the branch it is meant to terminate, or delete it")]])
  else []

def conditionErrors (e : Edge) : List ValidationError :=
  if e.fromNode ∈ (w.nodes.filter (·.kind = .condition)).map (·.id) ∧
      e.fromPort ≠ "true" ∧ e.fromPort ≠ "false" then
    [.invalidConditionRouting e.fromNode e.fromPort]
  else []

def isValidInputName (name : String) : Bool :=
  match name.toList with
  | [] => false
  | c :: rest => (c.isAlpha || c = '_') && rest.all fun c => c.isAlphanum || c = '_'

def InputType.accepts (ty : InputType) (value : Json) : Bool :=
  match ty, value with
  | .string, .str _ => true
  | .number, .num _ => true
  | .boolean, .bool _ => true
  | .json, _ => true
  | _, _ => false

def inputErrors : List String → List WorkflowInput → List ValidationError
  | _, [] => []
  | seen, input :: rest =>
    (if isValidInputName input.name then [] else [.invalidInputName input.name]) ++
      (if input.name ∈ seen then [.duplicateInputName input.name] else []) ++
      (match input.default with
        | none => []
        | some value =>
          if !InputType.accepts input.ty value then [.inputDefaultTypeMismatch input.name input.ty.asStr]
          else if input.required then [.requiredInputWithDefault input.name] else []) ++
      inputErrors (input.name :: seen) rest

end Tinyflows.Validate
