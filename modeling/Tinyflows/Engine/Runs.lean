import Tinyflows.Engine.Wiring
import Tinyflows.Graph.Api
import Tinyflows.Graph.Lemmas.Contexts
import Tinyflows.Graph.View

/-!
# Runs of a workflow

The runtime of a workflow's graph: every handler is the activation of its node.
-/

namespace Tinyflows.Engine
open Lib Tinyflows.Graph Model Nodes

/-- What the activations of a run meet, by super-step, node and position in the active set. -/
abbrev Conducts := Nat → NodeId → Nat → Conduct

variable (w : WorkflowGraph)

/-- The handlers are the activations of the nodes. -/
def Conforms (c : Conducts) (rt : Runtime Json Json Json) : Prop :=
  ∀ n ∈ w.nodes, ∀ index state ctx,
    rt.handler n.id index state ctx = activate (handlerData w n) (c ctx.step n.id index) state ctx

/-- Every activation is of a node of the workflow. -/
abbrev Within (l : Loop Json Json) : Prop :=
  ∀ a ∈ l.active, a.node ∈ w.ids

structure ActivationAt (w : WorkflowGraph) (l : Loop Json Json) (i : Nat) (n : Node)
    (ctx : NodeContext Json) : Prop where
  mem : n ∈ w.nodes
  active : ∃ a, l.active[i]? = some a ∧ n.id = a.node ∧ ContextOf (l.steps + 1) a ctx

/-- The activation is started in this context, with the resume value the step has for it. -/
structure StartsAt (w : WorkflowGraph) (l : Loop Json Json) (i : Nat) (n : Node)
    (ctx : NodeContext Json) : Prop extends ActivationAt w l i n ctx where
  resume : (resumeValues l.active l.resumeMap)[i]? = some ctx.resume

abbrev committed (w : WorkflowGraph) (c : Conducts) (l : Loop Json Json) (i : Nat) (n : Node)
    (ctx : NodeContext Json) : Except GraphError (NodeResult Json Json) :=
  activate (handlerData w n) (c (l.steps + 1) n.id i) l.state ctx

abbrev Steps (g : CompiledGraph Json Json Json) (rt : Runtime Json Json Json) (thread : ThreadId) :
    Loop Json Json → Loop Json Json → Prop :=
  Relation.ReflTransGen fun l m => superStep g rt (some thread) l = .next m

def runtimeOf (c : Conducts) : Runtime Json Json Json where
  handler id index state ctx :=
    match w.node id with
    | some n => activate (handlerData w n) (c ctx.step id index) state ctx
    | none => .error (.missingNode id)

theorem reliable_runtimeOf (c) : (runtimeOf w c).Reliable :=
  fun _ => ⟨rfl, rfl⟩

theorem conforms_runtimeOf {w} (h : w.ids.Nodup) (c) : Conforms w c (runtimeOf w c) := by
  intro n hn index state ctx
  simp only [runtimeOf, WorkflowGraph.node_of_mem h hn]

/-! ## Runs that can be computed -/

def graphOf (h : (buildGraph (.sorted NodeId) w).toOption.isSome) : CompiledGraph Json Json Json :=
  (buildGraph (.sorted NodeId) w).toOption.get h

theorem buildGraph_graphOf {w} (h : (buildGraph (.sorted NodeId) w).toOption.isSome) :
    buildGraph (.sorted NodeId) w = .ok (graphOf w h) := by
  cases hb : buildGraph (.sorted NodeId) w with
  | error e =>
    rw [hb] at h
    cases h
  | ok g =>
    simp only [graphOf, hb]
    rfl

def noExpressions : Expressions where
  isExpression _ := false
  evaluate v _ := v
  scope _ := .null
  isZero _ := false

/-- Nothing interferes; loops do what they do, and other nodes emit nothing. -/
def undisturbed : Conducts := fun _ _ _ => {
  cancelled := fun _ => false
  executor := fun ectx _ =>
    if ectx.node.kind = .loop then loopExecute noExpressions ectx else .ok (.main []) }

def failureOf {α : Type} : Except GraphError α → Option GraphError
  | .error e => some e
  | .ok _ => none

theorem eq_error_of_failureOf {α} {r : Except GraphError α} {e}
    (h : failureOf r = some e) : r = .error e := by
  cases r with
  | error e' => rw [Option.some.inj h]
  | ok a => cases h

/-!
## Failed runs

A run that fails at a node leaves a checkpoint with what had completed. Before that it may have paused
or failed and been taken up again any number of times.
-/

def failureBoundary? (store : CheckpointStore Json Json) (thread : ThreadId) :
    Option (NodeId × Checkpoint Json Json) := do
  let checkpoint ← store.get thread none
  return (← checkpoint.metadata.failedNode, checkpoint)

/-- A run comes to `l` once these nodes have completed, in order. -/
inductive Comes (g : CompiledGraph Json Json Json) (rt : Runtime Json Json Json) (thread : ThreadId) :
    List NodeId → Loop Json Json → Prop
  | fresh (state : Json) : Comes g rt thread [] (freshLoop {} state [{ node := g.entry }])
  | step {done : List NodeId} {l m : Loop Json Json} (h : Comes g rt thread done l)
      (hstep : superStep g rt (some thread) l = .next m) :
      Comes g rt thread (done ++ activationNodes l.active) m
  | resumed {done : List NodeId} {l : Loop Json Json} {r : RunResult Json Json}
      {checkpoint : Checkpoint Json Json} (h : Comes g rt thread done l)
      (hstep : superStep g rt (some thread) l = .done r)
      (hstored : r.store.get thread none = some checkpoint) (recorded : List (PendingWrite Json))
      (resume : Option Json) :
      Comes g rt thread (done ++ checkpoint.completedTasks) (resumeLoop r.store checkpoint recorded resume)

structure FailedRun (w : WorkflowGraph) (f : NodeId) where
  graph : CompiledGraph Json Json Json
  built : buildGraph (.sorted NodeId) w = .ok graph
  conducts : Conducts
  runtime : Runtime Json Json Json
  conforms : Conforms w conducts runtime
  thread : ThreadId
  done : List NodeId
  last : Loop Json Json
  comes : Comes graph runtime thread done last
  result : RunResult Json Json
  ends : superStep graph runtime (some thread) last = .done result
  checkpoint : Checkpoint Json Json
  failed : failureBoundary? result.store thread = some (f, checkpoint)

def FailedRun.completed {w : WorkflowGraph} {f : NodeId} (r : FailedRun w f) : List NodeId :=
  r.done ++ r.checkpoint.completedTasks

end Tinyflows.Engine
