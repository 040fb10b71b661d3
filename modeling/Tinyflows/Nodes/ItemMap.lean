import Tinyflows.Lib.Buffered
import Tinyflows.Nodes.Binding

/-!
# Mapping a node over its items

The futures of a batch complete in any order a bounded buffer allows. Each result is filed in the slot
of its item; failing fast, the loop stops once no item before the lowest failure can still fail.
-/

namespace Tinyflows.Nodes
open Lib Engine

abbrev MappedItem (Diagnostic : Type) : Type := Item × List Diagnostic

structure MapOptions where
  concurrency : Nat
  onItemError : ItemErrorPolicy
  deriving DecidableEq

def mapOptions (config run : Json) : MapOptions where
  concurrency := itemConcurrency config run
  onItemError := itemErrorPolicy config run

/-- A buffer of none would never poll anything: no bound means as many as there are items. -/
def MapOptions.inFlight (opts : MapOptions) (total : Nat) : Nat :=
  if opts.concurrency = 0 then max total 1 else opts.concurrency

def pairedWith (item : Item) (index : Nat) : Item :=
  { item with pairedItem := some index }

structure Batch (Diagnostic : Type) where
  slots : List (Option (Except String (MappedItem Diagnostic)))
  failFastError : Option (Nat × EngineError) := none

variable {Diagnostic : Type}

/-- Files one completion; the flag says that the stream is dropped. -/
def Batch.settle (policy : ItemErrorPolicy) (b : Batch Diagnostic) (index : Nat) :
    Except EngineError (MappedItem Diagnostic) → Batch Diagnostic × Bool
  | .ok mapped => ({ b with slots := b.slots.set index (some (.ok mapped)) }, false)
  | .error err =>
    if policy = .failFast then
      let slots := b.slots.set index (some (.error ""))
      let lowest := match b.failFastError with
        | some seen => if index < seen.1 then (index, err) else seen
        | none => (index, err)
      ({ slots, failFastError := some lowest }, (slots.take lowest.1).all Option.isSome)
    else
      ({ b with slots := b.slots.set index (some (.error err.message)) }, false)

def Batch.drain (policy : ItemErrorPolicy)
    (f : Nat → Except EngineError (MappedItem Diagnostic)) :
    List Nat → Batch Diagnostic → Batch Diagnostic
  | [], b => b
  | index :: order, b =>
    match b.settle policy index (f index) with
    | (b, true) => b
    | (b, false) => b.drain policy f order

def emitSlots (policy : ItemErrorPolicy) :
    Nat → List (Option (Except String (MappedItem Diagnostic))) → List Item × List Diagnostic
  | _, [] => ([], [])
  | index, slot :: slots =>
    let rest := emitSlots policy (index + 1) slots
    match slot with
    | some (.ok mapped) => (pairedWith mapped.1 index :: rest.1, mapped.2 ++ rest.2)
    | some (.error message) =>
      if policy = .collect then (pairedWith (failedItem message) index :: rest.1, rest.2)
      else rest
    | none => rest

/-- Runs `f` over the input indices, its futures completing in the given order. -/
def mapItems (total : Nat) (opts : MapOptions)
    (f : Nat → Except EngineError (MappedItem Diagnostic)) (order : List Nat) :
    Except EngineError (List Item × List Diagnostic) :=
  let b := Batch.drain opts.onItemError f order { slots := List.replicate total none }
  match b.failFastError with
  | some lowest => .error lowest.2
  | none => .ok (emitSlots opts.onItemError 0 b.slots)

/-- What a node that runs its items one after the other, in input order, returns for `count` items
from `index` on. -/
def mapSequentially (policy : ItemErrorPolicy)
    (f : Nat → Except EngineError (MappedItem Diagnostic)) :
    Nat → Nat → Except EngineError (List Item × List Diagnostic)
  | _, 0 => .ok ([], [])
  | index, count + 1 =>
    let rest := mapSequentially policy f (index + 1) count
    match f index with
    | .ok mapped => rest.map fun r => (pairedWith mapped.1 index :: r.1, mapped.2 ++ r.2)
    | .error e =>
      match policy with
      | .failFast => .error e
      | .collect => rest.map fun r => (pairedWith (failedItem e.message) index :: r.1, r.2)
      | .skip => rest

end Tinyflows.Nodes
