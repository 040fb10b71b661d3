import Tinyflows.Engine.Cancellation
import Tinyflows.Engine.Lemmas.Outcomes
import Tinyflows.Engine.Lemmas.Steps
import Tinyflows.Graph.Lemmas.Progress

/-!
# Super-steps and the passes of loops

What a run costs in super-steps: between two passes of loops it only moves forward.
-/

namespace Tinyflows.Engine
open Lib Tinyflows.Graph Model Nodes Prod

/-- The step ends the run at the recursion limit. -/
def EndsAtLimit : StepOutcome Json Json → Prop
  | .done r => ∃ e, r.result = .error e ∧ e.isRecursionLimit
  | .next _ => False

variable (w : WorkflowGraph)

/-- An edge out of a loop's `body` port, followed only when the loop emits on that port. A loop whose
edges all share one port drives its successors whatever it emits on. -/
def bodyEdge (e : Edge) : Bool :=
  w.nodes.any (fun n => n.id = e.fromNode ∧ n.kind = .loop) && decide (e.fromPort = "body") &&
    !fansOut w e.fromNode

/-- Heights that fall along every edge followed without a loop going round its body, and along every
relief. Where these have no cycle, the length of the longest chain from a node is such a height. -/
structure Falls (g : CompiledGraph Json Json Json) (height : NodeId → Nat) : Prop where
  low : ∀ id, height id < w.nodes.length
  edge : ∀ e ∈ w.edges, bodyEdge w e = false → height e.toNode < height e.fromNode
  relief : ∀ r ∈ g.barrierReliefs, height r.barrierNode < height r.source

/-- The loop runs in the step from `l` to `m` and goes round its body. -/
def Passes (id : NodeId) (l m : Loop Json Json) : Prop :=
  id ∈ activationNodes l.active ∧ portOf id m.state = "body"

instance (id : NodeId) (l m : Loop Json Json) : Decidable (Passes id l m) :=
  inferInstanceAs (Decidable (_ ∧ _))

/-- How often a loop goes round its body along a run. -/
def passesOf (id : NodeId) : List (Loop Json Json) → Nat
  | l :: m :: rest => (if Passes id l m then 1 else 0) + passesOf id (m :: rest)
  | _ => 0

def loopsOf : List Node :=
  w.nodes.filter (·.kind = .loop)

/-- The nodes that a pass of a loop leads to. -/
def bodyTargets (id : NodeId) : List NodeId :=
  (w.edges.filter fun e => e.fromNode = id ∧ bodyEdge w e).map (·.toNode)

/-- The super-steps a run can take from some of the nodes before it ends or a loop passes. -/
def stepsFrom (height : NodeId → Nat) (ids : List NodeId) : Nat :=
  (ids.map height).max?.getD 0 + 1

/-- What the passes of the loops along a run add. -/
def spent (height : NodeId → Nat) (ls : List (Loop Json Json)) : Nat :=
  ((loopsOf w).map fun n => passesOf n.id ls * stepsFrom height (bodyTargets w n.id)).sum

/-- What a run costs in super-steps when every loop passes as often as it may. -/
def loopCost (height : NodeId → Nat) : Nat :=
  stepsFrom height w.ids +
    ((loopsOf w).map fun n => maxIterations n * stepsFrom height (bodyTargets w n.id)).sum

/-- A loop node runs its own executor, or fails. -/
def LoopsExecute (ex : Expressions) (w : WorkflowGraph) (c : Conducts) : Prop :=
  ∀ n ∈ w.nodes, n.kind = .loop → ∀ step index ectx k, ectx.node = n →
    (c step n.id index).executor ectx k = loopExecute ex ectx ∨
      ∃ e, (c step n.id index).executor ectx k = .error e

/-- No activation of the step from `l` asks to be re-entered or has the state edited by a hook, and
every loop is activated at most once and outside lanes. -/
structure Ordinary (w : WorkflowGraph) (c : Conducts) (l : Loop Json Json) : Prop where
  unedited : ∀ i n ctx, ActivationAt w l i n ctx →
    (outcome (handlerData w n) (c (l.steps + 1) n.id i) l.state ctx).2 = none
  once : ∀ n ∈ loopsOf w, (activationNodes l.active).count n.id ≤ 1
  unlaned : ∀ i n ctx, ActivationAt w l i n ctx → n.kind = .loop → laneContext ctx.sendArg = none
  unpolled : ∀ i n ctx, ActivationAt w l i n ctx → ∀ output ms,
    (outcome (handlerData w n) (c (l.steps + 1) n.id i) l.state ctx).1 = .produced output →
    output.control ≠ some (.reenter ms)

/-! ## What loop nodes emit -/

variable {ec : ExecContext} {ex : Expressions} {o : NodeOutput}

theorem loopExecute_cases (h : loopExecute ex ec = .ok o) :
    (∃ st re po, o = loopExit ec st re po ∧ (po = "done" ∨ po = "success")) ∨
      ∃ st, o = Nodes.loopBody ec st ∧ currentIteration ec < maxIterations ec.node := by
  unfold loopExecute at h
  dsimp only at h
  generalize (if 0 < currentIteration ec then foldState ex ec else initialState ex ec) = st at h
  split_ifs at h with hu hs hc hm
  · cases h
    exact .inl ⟨_, _, _, rfl, .inr rfl⟩
  · cases h
    exact .inl ⟨_, _, _, rfl, .inl rfl⟩
  · cases h
    exact .inl ⟨_, _, _, rfl, .inl rfl⟩
  · split at h
    · cases h
    · cases h
      exact .inl ⟨_, _, _, rfl, .inl rfl⟩
  · cases h
    exact .inr ⟨_, rfl, by omega⟩

theorem loopExecute_plain (h : loopExecute ex ec = .ok o) :
    o.control = none ∧ "port" ∉ (metaFields o.recorded).map fst := by
  have hk : ∀ fs : List (String × Json), "port" ∉ fs.map fst →
      "port" ∉ (metaFields (some (Json.object fs))).map fst := by
    intro fs hs hm
    obtain ⟨f, hf, he⟩ := List.mem_map.mp hm
    rcases Json.mem_insertFields hf with hf | hf
    · cases hf
    · exact hs (he ▸ List.mem_map.mpr ⟨f, hf, rfl⟩)
  rcases loopExecute_cases h with ⟨st, reason, port, rfl, -⟩ | ⟨st, rfl, -⟩
  · exact ⟨rfl, hk _ (by simp)⟩
  · exact ⟨rfl, hk _ (by simp)⟩

theorem loop_produced {w c} (hl : LoopsExecute ex w c) {n}
    (hn : n ∈ w.nodes) (hk : n.kind = .loop) {sp i st ctx ou}
    (h : (outcome (handlerData w n) (c sp n.id i) st ctx).1 = .produced ou) :
    ou.control = none ∧ "port" ∉ (metaFields ou.recorded).map fst := by
  obtain ⟨ba, hb, hR, ho⟩ := outcome_produced h
  have hp : ba.control = none ∧ "port" ∉ (metaFields ba.recorded).map fst := by
    rcases hb with ⟨hr, hc⟩ | ⟨ec, k, hN, hx⟩
    · exact ⟨hc, by rw [hr]; simp [metaFields]⟩
    · rcases hl n hn hk sp i ec k hN with he | ⟨e, he⟩
      · exact loopExecute_plain (he.symm.trans hx)
      · rw [he] at hx
        cases hx
  refine ⟨?_, by rw [hR]; exact hp.2⟩
  rcases ho with hc | hc
  · rw [hc]
    exact hp.1
  · exact hc

end Tinyflows.Engine
