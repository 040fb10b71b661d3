import Tinyflows.Nodes.Loop

/-!
# Binding a configuration

The configuration of a node may hold expressions. They are evaluated in a scope that shows the node
its input, the run and what the other nodes have emitted; a node that maps over its input evaluates
them once for every item.
-/

namespace Tinyflows.Nodes
open Lib Tinyflows.Graph Model Engine Json

/-! ## Scopes -/

/-- What a slot shows of itself: its items, and what the node recorded under names of its own. -/
def slotScope (slot : Json) (items : List Json) : Json :=
  let payloads := items.map fun item => (item.get "json").getD .null
  .obj (insertFields
    (insertFields [] [("item", payloads.head?.getD .null), ("items", .arr payloads)])
    (slot.fields.filter fun f => f.1 ≠ "items" ∧ f.1 ≠ "port" ∧ f.1.toList.head? ≠ some '_'))

def nodesScope (nodes : Json) : Json :=
  .object (nodes.fields.filterMap fun (id, slot) =>
    ((slot.get "items").bind asArray).map fun items => (id, slotScope slot items))

def exprScopeFor (ctx : ExecContext) (item : Json) : Json :=
  .object [("item", item), ("items", .arr (ctx.input.map (·.json))), ("run", ctx.run),
    ("nodes", nodesScope ctx.nodes), ("inputs", (ctx.run.get "inputs").getD .null)]

def exprScope (ctx : ExecContext) : Json :=
  exprScopeFor ctx ((ctx.input.head?.map (·.json)).getD .null)

namespace Expressions

variable (ex : Expressions)

mutual

def resolveAll (scope : Json) : Json → Json
  | .obj fs => .obj (resolveFields scope fs)
  | .arr items => .arr (resolveItems scope items)
  | .str s => if ex.isExpression s then ex.evaluate (.str s) scope else .str s
  | v => v

def resolveItems (scope : Json) : List Json → List Json
  | [] => []
  | v :: rest => resolveAll scope v :: resolveItems scope rest

def resolveFields (scope : Json) : List (String × Json) → List (String × Json)
  | [] => []
  | (key, v) :: rest => (key, resolveAll scope v) :: resolveFields scope rest

end

end Expressions

/-! ## Mapping over the input -/

inductive ExecutionMode where
  | once
  | perItem
  deriving DecidableEq

def executionMode (config : Json) (default : ExecutionMode) : ExecutionMode :=
  match (config.get "execution").bind asStr with
  | some "per_item" => .perItem
  | some "once" => .once
  | _ => default

def mapsOver (ctx : ExecContext) (default : ExecutionMode) : Bool :=
  executionMode ctx.node.config default = .perItem && !ctx.input.isEmpty

inductive ItemErrorPolicy where
  | collect
  | failFast
  | skip
  deriving DecidableEq

def MAX_CONCURRENCY : Nat := 64

/-- How many items may be in flight, none meaning all of them. -/
def itemConcurrency (config run : Json) : Nat :=
  let requested := match config.get "concurrency" with
    | some (.num n) => (((num n).asU64).map (·.toNat)).getD 1
    | some (.str "all") => 0
    | _ => 1
  let requested := min requested MAX_CONCURRENCY
  let cap := (((run.get "trigger").bind (·.get "max_item_concurrency")).bind asU64).map (·.toNat)
  match cap.filter (0 < ·) with
  | some cap =>
    let cap := min cap MAX_CONCURRENCY
    if requested = 0 ∨ cap < requested then cap else requested
  | none => requested

/-- Unless the configuration says otherwise, a batch that fans out collects its failures. -/
def itemErrorPolicy (config run : Json) : ItemErrorPolicy :=
  match (config.get "on_item_error").bind asStr with
  | some "fail_fast" => .failFast
  | some "skip" => .skip
  | some "collect" => .collect
  | _ => if itemConcurrency config run = 1 then .failFast else .collect

def failedItem (message : String) : Item :=
  { json := .object [("json", .object [("error", .str message), ("failed", .bool true)]),
      ("text", .str message), ("raw", .null)] }

/-- The items of a batch in the order of the input. Failing fast, the first failure in that order is
the failure of the batch. -/
def collectItems (policy : ItemErrorPolicy) : Nat → List (Except EngineError Item) →
    Except EngineError (List Item)
  | _, [] => .ok []
  | index, .ok item :: rest =>
    (collectItems policy (index + 1) rest).map ({ item with pairedItem := some index } :: ·)
  | index, .error e :: rest =>
    match policy with
    | .failFast => .error e
    | .collect => (collectItems policy (index + 1) rest).map
        ({ failedItem e.message with pairedItem := some index } :: ·)
    | .skip => collectItems policy (index + 1) rest

end Tinyflows.Nodes
