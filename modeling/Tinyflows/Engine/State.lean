import Tinyflows.Model.Workflow

/-!
# Run state

The run state is one JSON object. Every activation contributes a partial update below `nodes`, and
the reducer merges the updates into the state key by key.
-/

namespace Tinyflows.Engine
open Lib Tinyflows.Graph Model Json

/-! ## Items -/

structure Item where
  json : Json
  binary : Option Json := none
  pairedItem : Option Nat := none
  deriving DecidableEq

def Item.toJson (i : Item) : Json :=
  .object ([("json", i.json)] ++ (i.binary.map fun b => ("binary", b)).toList ++
    (i.pairedItem.map fun n => ("paired_item", .nat n)).toList)

/-- An optional field: absent and `null` both read as nothing. -/
def optional (v : Option Json) : Option Json :=
  v.filter (· ≠ .null)

def Item.ofParts (json : Json) (binary paired : Option Json) : Option Item :=
  match optional paired with
  | none => some { json, binary := optional binary }
  | some p => p.asU64.map fun n => { json, binary := optional binary, pairedItem := some n.toNat }

/-- Reads an item back: from an object, or from the sequence of its fields. -/
def Item.ofJson : Json → Option Item
  | .obj fs => (fs.lookup "json").bind fun json =>
    Item.ofParts json (fs.lookup "binary") (fs.lookup "paired_item")
  | .arr [json] => Item.ofParts json none none
  | .arr [json, binary] => Item.ofParts json (some binary) none
  | .arr [json, binary, paired] => Item.ofParts json (some binary) (some paired)
  | _ => none

def itemsJson (items : List Item) : Json :=
  .arr (items.map Item.toJson)

def readItems (v : Option Json) : List Item :=
  ((v.bind asArray).getD []).filterMap Item.ofJson

/-! ## Merging -/

def REPLACE : String := "$replace"

def replace (v : Json) : Json :=
  .obj [(REPLACE, v)]

mutual

/-- Objects merge key by key, anything else overwrites, and an object whose only key is the sentinel
assigns its value wholesale. -/
def merge (base : Json) : Json → Json
  | .obj [(key, v)] =>
    if key = REPLACE then v else .obj (mergeFields base.fields [(key, v)])
  | .obj fs => .obj (mergeFields base.fields fs)
  | update => update

def mergeFields (base : List (String × Json)) : List (String × Json) → List (String × Json)
  | [] => base
  | (key, v) :: rest =>
    mergeFields (insertField key (merge ((base.lookup key).getD .null) v) base) rest

end

/-! ## Updates -/

def metaFields (recorded : Option Json) : List (String × Json) :=
  (recorded.bind asObject).getD []

def portJson (port : Option String) : Json :=
  match port with
  | some p => .str p
  | none => .null

def nodeUpdate (id : NodeId) (slot : Json) : Json :=
  .obj [("nodes", .obj [(id, slot)])]

def itemsUpdateWithMeta (id : NodeId) (items : List Item) (port : Option String)
    (recorded : Option Json) : Json :=
  nodeUpdate id (.obj (insertFields
    (insertFields [] [("items", itemsJson items), ("port", portJson port)]) (metaFields recorded)))

/-- A node that emits on the default route clears the port of its earlier activation. -/
def itemsUpdate (id : NodeId) (items : List Item) (port : Option String) : Json :=
  itemsUpdateWithMeta id items port none

structure LaneContext where
  id : String
  origin : NodeId
  index : Nat
  count : Nat
  deriving DecidableEq

def laneSlot (lane : LaneContext) (items : List Item) (port : Option String) (status : String)
    (recorded : Option Json) : Json :=
  .obj (insertFields (insertFields [] [("items", itemsJson items), ("port", portJson port),
    ("status", .str status), ("index", .nat lane.index)]) (metaFields recorded))

def laneItemsUpdate (id : NodeId) (lane : LaneContext) (items : List Item) (port : Option String)
    (status : String) (recorded : Option Json) : Json :=
  nodeUpdate id (.obj [("lanes", .obj [(lane.id, laneSlot lane items port status recorded)])])

def LANE_KEY : String := "_lane"

def laneId (origin : NodeId) (index : Nat) : String :=
  s!"{origin}#{index}"

def laneIdentity (origin : NodeId) (index count : Nat) : Json :=
  .object [("id", .str (laneId origin index)), ("origin", .str origin), ("index", .nat index),
    ("count", .nat count)]

def laneEnvelope (origin : NodeId) (index count : Nat) (items : List Item) : Json :=
  .object [(LANE_KEY, laneIdentity origin index count), ("items", itemsJson items)]

def laneInput (sendArg : Option Json) : List Item :=
  readItems (sendArg.bind (·.get "items"))

/-- The lane of an activation; a malformed envelope reads as none. -/
def laneContext (sendArg : Option Json) : Option LaneContext := do
  let lane ← (← sendArg).get LANE_KEY
  let id ← (← lane.get "id").asStr
  let origin ← (← lane.get "origin").asStr
  let index ← (← lane.get "index").asU64
  let count ← (← lane.get "count").asU64
  return { id, origin, index := index.toNat, count := count.toNat }

def errorItem (id : NodeId) (message : String) : Item :=
  { json := .object [("error", .object [("message", .str message), ("node", .str id)])] }

/-! ## Reading -/

def slotOf (state : Json) (id : NodeId) : Option Json :=
  (state.get "nodes").bind (·.get id)

def activationStep (slot : Option Json) : Option Nat :=
  ((slot.bind (·.get "_activation_step")).bind asU64).map (·.toNat)

def emittedPort (slot : Option Json) : String :=
  ((slot.bind (·.get "port")).bind asStr).getD "main"

/-- The items of the predecessors that emitted on the port their edge is wired to, ignoring slots
older than `minStep`. -/
def collectInputSince (state : Json) (incoming : List (NodeId × String)) (minStep : Option Nat) :
    List Item :=
  incoming.flatMap fun (pred, fromPort) =>
    let slot := slotOf state pred
    if minStep.any fun least => (activationStep slot).all (· < least) then []
    else if emittedPort slot ≠ fromPort then []
    else readItems (slot.bind (·.get "items"))

def collectInput (state : Json) (incoming : List (NodeId × String)) : List Item :=
  collectInputSince state incoming none

def adjust (key : String) (f : Json → Json) : Json → Json
  | .obj fs => .obj (fs.map fun e => if e.1 = key then (e.1, f e.2) else e)
  | j => j

def stampSlot (step : Nat) : Json → Json
  | .obj fs => .obj (insertField "_activation_step" (.nat step) fs)
  | j => j

def stampActivationStep (update : Json) (id : NodeId) (step : Nat) : Json :=
  adjust "nodes" (adjust id (stampSlot step)) update

end Tinyflows.Engine
