import Tinyflows.Engine.State

/-!
# Node execution

What an executor is given and what it returns: items on a port, notes for the node's own slot, and
possibly a request to the engine.
-/

namespace Tinyflows.Nodes
open Lib Tinyflows.Graph Model Engine

inductive EngineError where
  | capability (message : String)
  | loopLimit (node : NodeId) (limit : Nat)
  | other (message : String)
  deriving DecidableEq

def EngineError.message : EngineError → String
  | .capability message => s!"capability error: {message}"
  | .loopLimit node limit => s!"loop node {node} exceeded its maximum of {limit} iterations"
  | .other message => message

/-- What a node asks the engine to do instead of emitting its items. -/
inductive NodeControl where
  | interrupt (id : String) (payload : Json)
  | reenter (afterMs : Nat)
  | scatter (lanes : List (List Item))
  deriving DecidableEq

structure NodeOutput where
  items : List Item := []
  port : Option String := none
  recorded : Option Json := none
  control : Option NodeControl := none
  deriving DecidableEq

namespace NodeOutput

def main (items : List Item) : NodeOutput :=
  { items }

def routed (items : List Item) (port : String) : NodeOutput :=
  { items, port := some port }

def withMeta (o : NodeOutput) (recorded : Json) : NodeOutput :=
  { o with recorded := some recorded }

def reenterAfter (afterMs : Nat) (recorded : Json) : NodeOutput :=
  { recorded := some recorded, control := some (.reenter afterMs) }

def scatter (lanes : List (List Item)) (recorded : Json) : NodeOutput :=
  { recorded := some recorded, control := some (.scatter lanes) }

end NodeOutput

structure ExecContext where
  node : Node
  input : List Item
  run : Json
  nodes : Json
  lane : Option LaneContext
  resume : Option Json
  step : Nat
  deriving DecidableEq

def ExecContext.recorded (ctx : ExecContext) (key : String) : Option Json :=
  (ctx.nodes.get ctx.node.id).bind (·.get key)

def ExecContext.recordedNat (ctx : ExecContext) (key : String) : Nat :=
  (((ctx.recorded key).bind Json.asU64).map (·.toNat)).getD 0

def configNat (config : Json) (key : String) : Option Nat :=
  ((config.get key).bind Json.asU64).map (·.toNat)

/-!
## Scatter

A scatter opens one lane per slice of its input.
-/

/-- Stands for the debug form, which writes control characters differently. -/
def quoted (s : String) : String :=
  s.quote

def MAX_LANES : Nat := 256

def split (items : List Item) (lanes : Option Nat) : List (List Item) :=
  if items = [] then []
  else
    let requested := min (max (lanes.getD items.length) 1) MAX_LANES
    if items.length ≤ requested then items.map ([·])
    else items.toChunks ((items.length + requested - 1) / requested)

def atPath (path : String) (v : Option Json) : Option Json :=
  (path.splitOn ".").foldl (fun v segment => v.bind (·.get segment)) v

def scatterItems (ctx : ExecContext) : List Item :=
  match (ctx.node.config.get "path").bind Json.asStr with
  | none => ctx.input
  | some path =>
    match (atPath path (ctx.input.head?.map (·.json))).bind Json.asArray with
    | some values => values.map fun v => { json := v }
    | none => ctx.input

def scatterExecute (ctx : ExecContext) : Except EngineError NodeOutput :=
  if ctx.lane.isSome then
    .error (.capability (s!"scatter node {quoted ctx.node.id}: nested scatter is not supported — " ++
      "this activation is already inside a lane"))
  else
    let lanes := split (scatterItems ctx) ((configNat ctx.node.config "lanes").filter (0 < ·))
    .ok (.scatter lanes (.object [("lane_count", .nat lanes.length)]))

end Tinyflows.Nodes
