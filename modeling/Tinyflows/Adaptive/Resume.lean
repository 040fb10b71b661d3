import Tinyflows.Lib.Search
import Tinyflows.Model.GraphOps

/-!
# Continuing after a repair

A repaired workflow may take over the run its parent broke, or has to start over. Which of the two is
decided from the nodes the edits name and the nodes upstream of the one that failed.
-/

namespace Tinyflows.Adaptive
open Lib Tinyflows.Graph Model Relation Finset List

/-- The batch of a repair. Renames are refused: expressions in other nodes would still read the old
name. -/
def readOps (ops : List GraphOp) : Except String (List GraphOp) :=
  if ops.any GraphOp.isRename then
    .error ("a repair may not rename a node: edges are rewired but `=nodes.<id>` expressions in other " ++
      "nodes are not, and the graph would validate and run wrong")
  else .ok ops

def incoming (w : WorkflowGraph) (id : NodeId) : List NodeId :=
  (w.edges.filter (·.toNode = id)).map (·.fromNode)

def ancestors (w : WorkflowGraph) (target : NodeId) : HashSet NodeId :=
  flood (incoming w) (w.sources.card + 1) (∅, [target])

/-- The nodes an operation names, or nothing when it reaches all of them. -/
def touchedBy : GraphOp → Option (HashSet NodeId)
  | .addNode node => some {node.id}
  | .updateNodeConfig id _ => some {id}
  | .setNodeName id => some {id}
  | .removeNode id => some {id}
  | .setNodePosition id => some {id}
  | .renameNode id newId => some {id, newId}
  | .addEdge edge => some {edge.fromNode, edge.toNode}
  | .removeEdge edge => some {edge.fromNode, edge.toNode}
  | .setWorkflowInputs _ => none

def touched : List GraphOp → Option (HashSet NodeId)
  | [] => some ∅
  | op :: rest => do return (← touchedBy op) ∪ (← touched rest)

def mayContinue (parent child : WorkflowGraph) (failedNode : NodeId) (ops : List GraphOp) : Bool :=
  if failedNode = "" then false
  else if ¬ parent.nodes.any (·.id = failedNode) then false
  else
    let upstream := ancestors parent failedNode ∪ ancestors child failedNode
    match touched ops with
    | none => upstream = ∅
    | some edited => Disjoint upstream edited

/-! ## What the check decides -/

variable {w : WorkflowGraph}

theorem mem_incoming {a b} : a ∈ incoming w b ↔ w.Leads a b := by
  simp only [incoming, List.mem_map, List.mem_filter, decide_eq_true_eq, WorkflowGraph.Leads]
  constructor
  · rintro ⟨e, ⟨he, ht⟩, hf⟩
    exact ⟨e, he, hf, ht⟩
  · rintro ⟨e, he, hf, ht⟩
    exact ⟨e, ⟨he, ht⟩, hf⟩

theorem mem_ancestors {a target} : a ∈ ancestors w target ↔ TransGen w.Leads a target := by
  have hs : ∀ v, ∀ t ∈ incoming w v, t ∈ w.sources := by
    intro v t ht
    obtain ⟨e, he, rfl, -⟩ := mem_incoming.mp ht
    exact mem_toFinset.mpr (mem_map_of_mem he)
  have hf : [target].length + (w.sources \ (∅ : HashSet NodeId)).card ≤ w.sources.card + 1 := by
    rw [sdiff_empty, length_singleton, Nat.add_comm]
  rw [ancestors, mem_flood hs hf fun v hv => absurd hv (notMem_empty v)]
  simp only [notMem_empty, List.mem_singleton, exists_eq_left, false_or, mem_incoming]
  exact transGen_swap

variable {named : HashSet NodeId} {op : GraphOp} {ops : List GraphOp}

theorem mem_touched {edited} (h : touched ops = some edited) (ho : op ∈ ops)
    (hn : touchedBy op = some named) : named ⊆ edited := by
  induction ops generalizing edited with
  | nil => cases ho
  | cons op' rest ih =>
    simp only [touched, Option.bind_eq_bind, Option.bind_eq_some_iff, Option.pure_def,
      Option.some.injEq] at h
    obtain ⟨fi, hf, others, ht, rfl⟩ := h
    rcases mem_cons.mp ho with rfl | ho
    · rw [hf] at hn
      cases hn
      exact subset_union_left
    · exact (ih ht ho).trans subset_union_right

theorem untouched_of_mayContinue {pa ch f n}
    (h : mayContinue pa ch f ops = true) (hn : TransGen pa.Leads n f) (ho : op ∈ ops)
    (ha : touchedBy op = some named) : n ∉ named := by
  have hu : n ∈ ancestors pa f ∪ ancestors ch f :=
    mem_union_left _ (mem_ancestors.mpr hn)
  unfold mayContinue at h
  split_ifs at h
  dsimp only at h
  split at h
  · rw [decide_eq_true_eq] at h
    rw [h] at hu
    exact absurd hu (notMem_empty n)
  · next edited he =>
      rw [decide_eq_true_eq] at h
      exact fun hm => disjoint_left.mp h hu (mem_touched he ho ha hm)

end Tinyflows.Adaptive
