import Tinyflows.Graph.Types
import Tinyflows.Lib.Json

/-!
# State channels

A channel state is a map of named values, each with its own merge rule. It is its own reducer: an update
is a batch of writes, and the step an update is stamped with decides which writes count as concurrent.
-/

namespace Tinyflows.Graph
open Lib

/-- A merge rule, and whether several branches of a step may write under it, whether its value lasts for
one step only. -/
structure Channel where
  merge : Option Json → Json → Except GraphError Json
  allowsConcurrent : Bool := false
  isEphemeral : Bool := false

namespace Channel

def overwrite (_ : Option Json) (incoming : Json) : Except GraphError Json :=
  .ok incoming

def lastValue : Channel :=
  { merge := overwrite }

def ephemeral : Channel :=
  { merge := overwrite, isEphemeral := true }

def untracked : Channel :=
  { merge := overwrite }

/-- The elements of a write: an array is a batch of them. -/
def elements : Json → List Json
  | .arr items => items
  | other => [other]

def append (current : Option Json) (incoming : Json) : Except GraphError Json :=
  .ok (.arr ((current.map elements).getD [] ++ elements incoming))

def topic : Channel :=
  { merge := append, allowsConcurrent := true }

def barrier : Channel :=
  { merge := append, allowsConcurrent := true }

def namedBarrier : Channel where
  merge current incoming :=
    match current, incoming with
    | some (.obj fields), .obj more => .ok (.obj (Json.insertFields fields more))
    | none, .obj more => .ok (.obj (Json.insertFields [] more))
    | some (.obj _), _ | none, _ =>
      .error (.graph "NamedBarrier writes must be JSON objects of named arrivals")
    | some _, _ => .error (.graph "NamedBarrier channel value must be a JSON object")
  allowsConcurrent := true

/-- The first write is the value; later ones are folded into it. -/
def binaryAggregate (fold : Json → Json → Except GraphError Json) : Channel where
  merge current incoming :=
    match current with
    | some current => fold current incoming
    | none => .ok incoming
  allowsConcurrent := true

def asI64 : Number → Option Int
  | .posInt n => if n.toNat < 2 ^ 63 then some n.toNat else none
  | .negInt n => some n
  | .float _ => none

/-- A sum that leaves the range wraps around. -/
def ofI64 (n : Int) : Json :=
  let n := n.bmod (2 ^ 64)
  .num (if 0 ≤ n then .posInt (.ofNat n.toNat) else .negInt n)

/-- Adds the writes up, in integers while both are integers; `addFloats` is the sum in floating point,
not a number for a result that is not finite. -/
def delta (addFloats : Number → Number → Json) : Channel where
  merge current incoming :=
    match current, incoming with
    | none, .num n => .ok (.num n)
    | some (.num m), .num n =>
      match asI64 m, asI64 n with
      | some a, some b => .ok (ofI64 (a + b))
      | _, _ => .ok (addFloats m n)
    | _, _ => .error (.graph "Delta channel only accepts numeric writes")
  allowsConcurrent := true

/-! ## Messages -/

def messageId (message : Json) : Option String :=
  (message.get "id").bind Json.asStr

def messageIndex (list : List Json) : HashMap String Nat :=
  HashMap.collect (list.zipIdx.filterMap fun m => (messageId m.1).map fun id => (id, m.2))

/-- Replaces the message under the same id in place, or appends. -/
def writeMessage (s : List Json × HashMap String Nat) (message : Json) :
    List Json × HashMap String Nat :=
  match messageId message with
  | some id =>
    match s.2.lookup id with
    | some i => (s.1.set i message, s.2)
    | none => (s.1 ++ [message], s.2.insert id s.1.length)
  | none => (s.1 ++ [message], s.2)

def mergeMessages (list incoming : List Json) : List Json :=
  (incoming.foldl writeMessage (list, messageIndex list)).1

def messages : Channel where
  merge current incoming :=
    match current with
    | some (.arr items) => .ok (.arr (mergeMessages items (elements incoming)))
    | some _ => .error (.graph "Messages channel value must be a JSON array")
    | none => .ok (.arr (mergeMessages [] (elements incoming)))
  allowsConcurrent := true

end Channel

/-! ## Channel sets -/

structure ChannelSet where
  channels : HashMap String Channel := ∅
  values : HashMap String Json := ∅

namespace ChannelSet

def get (s : ChannelSet) (name : String) : Option Json :=
  s.values.lookup name

def unknownChannel (name : String) : GraphError :=
  .graph s!"unknown channel `{name}`"

def allowsConcurrent (s : ChannelSet) (name : String) : Except GraphError Bool :=
  match s.channels.lookup name with
  | some channel => .ok channel.allowsConcurrent
  | none => .error (unknownChannel name)

/-- Folds a value into a channel. A rule that rejects it leaves the channel unset, and the whole state
is dropped with it. -/
def applyUpdate (s : ChannelSet) (name : String) (value : Json) : Except GraphError ChannelSet :=
  match s.channels.lookup name with
  | none => .error (unknownChannel name)
  | some channel =>
    match channel.merge (s.values.lookup name) value with
    | .error e => .error e
    | .ok merged => .ok { s with values := s.values.insert name merged }

def applyUpdates (s : ChannelSet) : List (String × Json) → Except GraphError ChannelSet
  | [] => .ok s
  | (name, value) :: writes =>
    match s.applyUpdate name value with
    | .error e => .error e
    | .ok s => s.applyUpdates writes

def clearEphemeral (s : ChannelSet) : ChannelSet :=
  { s with values := s.values.retain fun name => !(s.channels.lookup name).any Channel.isEphemeral }

end ChannelSet

/-! ## Updates and states -/

structure ChannelUpdate where
  writes : List (String × Json) := []
  step : Option Nat := none

def ChannelUpdate.distinct (u : ChannelUpdate) : List String :=
  u.writes.foldl (fun names w => if w.1 ∈ names then names else names ++ [w.1]) []

/-- `currentStep` is the step of the writes counted in `stepWrites`, zero before the first one. -/
structure ChannelState where
  set : ChannelSet := {}
  currentStep : Nat := 0
  stepWrites : HashMap String Nat := ∅

namespace ChannelState

def get (s : ChannelState) (name : String) : Option Json :=
  s.set.get name

/-- Starts a step: its writes are counted from nothing and the values of the last one are cleared. An
update without a stamp stands on its own, and clears nothing. -/
def enter (s : ChannelState) : Option Nat → ChannelState
  | some step =>
    if step ≠ s.currentStep then
      { set := s.set.clearEphemeral, currentStep := step, stepWrites := ∅ }
    else s
  | none => { s with stepWrites := ∅ }

def concurrentWrites (name : String) (count : Nat) : GraphError :=
  .invalidConcurrentUpdate (s!"channel `{name}` received {count} concurrent writes in one step but " ++
    "is not an aggregate channel")

/-- Every channel is checked before any is written. -/
def validate (s : ChannelState) : List String → Except GraphError Unit
  | [] => .ok ()
  | name :: names =>
    match s.set.allowsConcurrent name with
    | .error e => .error e
    | .ok allows =>
      let count := (s.stepWrites.lookup name).getD 0 + 1
      if 1 < count ∧ allows = false then .error (concurrentWrites name count)
      else s.validate names

def countWrites (counts : HashMap String Nat) (names : List String) : HashMap String Nat :=
  names.foldl (fun counts name => counts.insert name ((counts.lookup name).getD 0 + 1)) counts

def merge (s : ChannelState) (u : ChannelUpdate) : Except GraphError ChannelState :=
  let s := s.enter u.step
  match s.validate u.distinct with
  | .error e => .error e
  | .ok () =>
    match s.set.applyUpdates u.writes with
    | .error e => .error e
    | .ok set => .ok { s with set, stepWrites := countWrites s.stepWrites u.distinct }

end ChannelState

end Tinyflows.Graph
