import Tinyflows.Lib.Crashes
import Tinyflows.Nodes.Execution

/-!
# The `dedup` node

The node drops the items whose key is committed and files the keys of the others as tentative, for its run.
When the run is over the host commits the tentative keys or releases them. All of this goes through a store
of JSON values, any call of which may fail.
-/

namespace Tinyflows.Nodes.Dedup
open Lib Engine

/-! ## The store -/

inductive KvCall where
  | get (key : String)
  | set (key : String) (value : Json)
  | delete (key : String)

abbrev KvCall.Reply : KvCall → Type
  | .get _ => Except String (Option Json)
  | .set _ _ => Except String Unit
  | .delete _ => Except String Unit

abbrev Kv := HashMap String Json

/-- A call is served, or fails. A write or a delete that fails may have been made all the same. -/
inductive Serves : Kv → (c : KvCall) → c.Reply → Kv → Prop
  | get {s : Kv} {key : String} : Serves s (.get key) (.ok (s.lookup key)) s
  | getFailed {s : Kv} {key : String} (error : String) : Serves s (.get key) (.error error) s
  | set {s : Kv} {key : String} {value : Json} : Serves s (.set key value) (.ok ()) (s.insert key value)
  | setFailed {s : Kv} {key : String} {value : Json} (error : String) :
      Serves s (.set key value) (.error error) s
  | setUnconfirmed {s : Kv} {key : String} {value : Json} (error : String) :
      Serves s (.set key value) (.error error) (s.insert key value)
  | delete {s : Kv} {key : String} : Serves s (.delete key) (.ok ()) (s.erase key)
  | deleteFailed {s : Kv} {key : String} (error : String) : Serves s (.delete key) (.error error) s
  | deleteUnconfirmed {s : Kv} {key : String} (error : String) :
      Serves s (.delete key) (.error error) (s.erase key)

abbrev Prog := Program KvCall KvCall.Reply

def kvGet (key : String) : Prog (Except String (Option Json)) :=
  .call (.get key) .done

def kvSet (key : String) (value : Json) : Prog (Except String Unit) :=
  .call (.set key value) .done

def kvDelete (key : String) : Prog (Except String Unit) :=
  .call (.delete key) .done

/-! ## The stored sets -/

def committedKey (nodeId : String) : String :=
  "dedup:" ++ nodeId ++ ":committed"

/-- Runs without an id share one set. -/
def tentativeKey (nodeId : String) : Option String → String
  | some runId => "dedup:" ++ nodeId ++ ":tentative:" ++ runId
  | none => "dedup:" ++ nodeId ++ ":tentative"

def carryoverKey (nodeId : String) : String :=
  "dedup:" ++ nodeId ++ ":uncommitted"

/-- The strings of a stored array. Anything else counts as nothing. -/
def keySet (stored : Option Json) : HashSet String :=
  (((stored.bind Json.asArray).getD []).filterMap Json.asStr).toFinset

def encodeKeys (keys : HashSet String) : Json :=
  .arr ((sortedKeys keys).map .str)

def loadKeySet (key : String) : Prog (Except String (HashSet String)) := do
  return (← kvGet key).map keySet

def storeKeySet (key : String) (keys : HashSet String) : Prog (Except String Unit) :=
  kvSet key (encodeKeys keys)

/-! ## The node -/

/-- The key of an item, from its resolved configuration. An item without one is never dropped. -/
def resolveKey (render : Json → String) (cfg : Json) : Option String :=
  match cfg.get "key" with
  | none | some .null => none
  | some (.str s) => if s.isEmpty then none else some s
  | some other => some (render other)

section Node

-- The node's configuration resolved for an item, and the compact text of a JSON value.
variable (resolve : Json → Json) (render : Json → String)

def keyOf (item : Item) : Option String :=
  resolveKey render (resolve item.json)

def filterItems (committed : HashSet String) (items : List Item) : List Item × HashSet String :=
  items.foldl (fun (passed, seen) item =>
    match keyOf resolve render item with
    | none => (passed ++ [item], seen)
    | some key =>
      if key ∈ committed ∨ key ∈ seen then (passed, seen) else (passed ++ [item], insert key seen))
    ([], ∅)

def execute (nodeId : String) (runId : Option String) (input : List Item) :
    Prog (Except String NodeOutput) := do
  match ← loadKeySet (committedKey nodeId) with
  | .error e => return .error e
  | .ok committed =>
    let (passed, seen) := filterItems resolve render committed input
    if seen = ∅ then return .ok (.main passed)
    else
      match ← loadKeySet (tentativeKey nodeId runId) with
      | .error e => return .error e
      | .ok tentative =>
        let stored ← storeKeySet (tentativeKey nodeId runId) (tentative ∪ seen)
        return stored.map fun _ => .main passed

end Node

/-! ## Settling a run -/

inductive CommitOutcome where
  | nothingTentative
  | commitFailed (error : String)
  | committed (added : Nat) (committedLen : Nat) (clearError : Option String)
  deriving DecidableEq

def errorOf : Except String Unit → Option String
  | .ok _ => none
  | .error e => some e

def parkForRetry (tentativeKey : String) (carryoverKey : Option String) (tentative : HashSet String)
    (carryover : Option (HashSet String)) (error : String) : Prog CommitOutcome := do
  match carryoverKey, carryover with
  | some key, some carryover =>
    if tentative ≠ ∅ then
      match ← storeKeySet key (carryover ∪ tentative) with
      | .ok () =>
        let _ ← kvDelete tentativeKey
        return .commitFailed error
      | .error _ => return .commitFailed error
    else return .commitFailed error
  | _, _ => return .commitFailed error

/-- The commit once the tentative keys are known, and the carryover if it could be read. A carryover that
could not stays where it is. -/
def commitKeys (nodeId : String) (runId : Option String) (tentative : HashSet String)
    (carryover : Option (HashSet String)) : Prog CommitOutcome := do
  let parkKey := runId.map fun _ => carryoverKey nodeId
  if tentative = ∅ ∧ carryover.getD ∅ = ∅ then return .nothingTentative
  else
    match ← loadKeySet (committedKey nodeId) with
    | .error e => parkForRetry (tentativeKey nodeId runId) parkKey tentative carryover e
    | .ok stored =>
      let promoted := tentative ∪ carryover.getD ∅
      match ← storeKeySet (committedKey nodeId) (stored ∪ promoted) with
      | .error e => parkForRetry (tentativeKey nodeId runId) parkKey tentative carryover e
      | .ok () =>
        let cleared ← kvDelete (tentativeKey nodeId runId)
        if carryover.getD ∅ = ∅ then
          return .committed (promoted \ stored).card (stored ∪ promoted).card (errorOf cleared)
        else
          let dropped ← kvDelete (carryoverKey nodeId)
          return .committed (promoted \ stored).card (stored ∪ promoted).card
            ((errorOf cleared).or (errorOf dropped))

/-- Adds the tentative keys of the run and the carryover to the committed set, and clears both. -/
def commit (nodeId : String) (runId : Option String) : Prog CommitOutcome := do
  match ← loadKeySet (tentativeKey nodeId runId) with
  | .error e => return .commitFailed e
  | .ok tentative =>
    let carryover ← loadKeySet (carryoverKey nodeId)
    commitKeys nodeId runId tentative carryover.toOption

def release (nodeId : String) (runId : Option String) : Prog (Except String Unit) :=
  kvDelete (tentativeKey nodeId runId)

inductive Settlement where
  | commit (outcome : CommitOutcome)
  | release (result : Except String Unit)

def settle (nodeId : String) (runId : Option String) (success : Bool) : Prog Settlement := do
  if success then return .commit (← commit nodeId runId)
  else return .release (← release nodeId runId)

end Tinyflows.Nodes.Dedup
