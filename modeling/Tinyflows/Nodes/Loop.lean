import Tinyflows.Nodes.Execution

/-!
# The loop node

A bounded loop head. It counts its passes in its own slot of the run state and decides on each
activation whether the input goes round the body again or leaves.
-/

namespace Tinyflows.Nodes
open Lib Tinyflows.Graph Model Engine Json

def DEFAULT_MAX_ITERATIONS : Nat := 25

inductive OnExceeded where
  | error
  | continue_
  deriving DecidableEq

def OnExceeded.fromConfig (config : Json) : OnExceeded :=
  match (config.get "on_exceeded").bind asStr with
  | some "continue" => .continue_
  | _ => .error

inductive EmitMode where
  | items
  | state
  | both
  deriving DecidableEq

def EmitMode.fromConfig (config : Json) : EmitMode :=
  match (config.get "emit").bind asStr with
  | some "state" => .state
  | some "both" => .both
  | _ => .items

def EmitMode.apply (m : EmitMode) (items : List Item) (state : Json) : List Item :=
  match m with
  | .items => items
  | .state => [{ json := state }]
  | .both => items ++ [{ json := state }]

def successPort (config : Json) : Bool :=
  ((config.get "success_port").bind asBool).getD false

/-- The evaluation of expressions: which strings are expressions, what they evaluate to in a scope,
and the scope of an execution. A number is zero or not as its floating point value is. -/
structure Expressions where
  isExpression : String → Bool
  evaluate : Json → Json → Json
  scope : ExecContext → Json
  isZero : UInt64 → Bool

namespace Expressions

variable (ex : Expressions)

def resolve (raw scope : Json) : Json :=
  if raw.asStr.any ex.isExpression then ex.evaluate raw scope else raw

def isTruthy : Json → Bool
  | .null => false
  | .bool b => b
  | .num (.posInt n) => n ≠ 0
  | .num (.negInt _) => true
  | .num (.float bits) => !ex.isZero bits
  | .str s => s ≠ ""
  | .arr items => items ≠ []
  | .obj fs => fs ≠ []

def scopeWith (ctx : ExecContext) (state : Json) : Json :=
  match ex.scope ctx with
  | .obj fs => .obj (insertField "state" state fs)
  | scope => scope

end Expressions

variable (ex : Expressions)

variable (ctx : ExecContext)

def currentIteration : Nat :=
  ctx.recordedNat "iteration"

def maxIterations (n : Node) : Nat :=
  (configNat n.config "max_iterations").getD DEFAULT_MAX_ITERATIONS

def initialState : Json :=
  match (ctx.node.config.get "state").bind (·.get "init") with
  | none => .null
  | some init => ex.resolve init (ex.scope ctx)

def foldState : Json :=
  let previous := (ctx.recorded "state").getD (initialState ex ctx)
  match (ctx.node.config.get "state").bind (·.get "update") with
  | none => previous
  | some (.obj fields) =>
    let scope := ex.scopeWith ctx previous
    .obj (insertFields previous.fields (fields.map fun f => (f.1, ex.resolve f.2 scope)))
  | some raw => ex.resolve raw (ex.scopeWith ctx previous)

def untilHolds (state : Json) : Bool :=
  match ctx.node.config.get "until" with
  | none => false
  | some raw => ex.isTruthy (ex.resolve raw (ex.scopeWith ctx state))

def conditionHolds : Bool :=
  match ctx.node.config.get "condition" with
  | none => true
  | some raw => ex.isTruthy (ex.resolve raw (ex.scope ctx))

/-- Leaving the loop records the count and the accumulator. -/
def loopExit (state : Json) (reason port : String) : NodeOutput :=
  (NodeOutput.routed ((EmitMode.fromConfig ctx.node.config).apply ctx.input state) port).withMeta
    (.object [("iteration", .nat (currentIteration ctx)), ("state", replace state),
      ("exit_reason", .str reason)])

def loopBody (state : Json) : NodeOutput :=
  (NodeOutput.routed ctx.input "body").withMeta
    (.object [("iteration", .nat (currentIteration ctx + 1)), ("state", replace state)])

def loopExecute : Except EngineError NodeOutput :=
  let iteration := currentIteration ctx
  let state := if 0 < iteration then foldState ex ctx else initialState ex ctx
  if untilHolds ex ctx state then
    .ok (loopExit ctx state "until" (if successPort ctx.node.config then "success" else "done"))
  else if !conditionHolds ex ctx then .ok (loopExit ctx state "condition" "done")
  else if maxIterations ctx.node ≤ iteration then
    match OnExceeded.fromConfig ctx.node.config with
    | .error => .error (.loopLimit ctx.node.id (maxIterations ctx.node))
    | .continue_ => .ok (loopExit ctx state "max_iterations" "done")
  else .ok (loopBody ctx state)

end Tinyflows.Nodes
