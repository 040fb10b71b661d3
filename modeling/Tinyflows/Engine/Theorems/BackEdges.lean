import Tinyflows.Engine.Routing

/-!
# Back edges

The walk over a workflow ends, reports edges of cycles only, and leaves no cycle uncut among the
nodes of the workflow.
-/

namespace Tinyflows.Engine
open Lib Tinyflows.Graph Model Relation WorkflowGraph List

/-!
## The walk over a workflow

What the depth-first walk says about the edges between the nodes of a workflow.
-/

variable {w : WorkflowGraph}

/-- An edge between two nodes of the workflow. -/
def Joins (w : WorkflowGraph) (a b : NodeId) : Prop :=
  a ∈ w.ids ∧ b ∈ w.ids ∧ w.Leads a b

variable {a b : NodeId}

theorem mem_knownTargets : b ∈ knownTargets w a ↔ b ∈ w.ids ∧ w.Leads a b := by
  simp only [knownTargets, mem_filterMap, mem_outgoing, Option.map_eq_some_iff]
  constructor
  · rintro ⟨e, ⟨he, rfl⟩, n, hn, rfl⟩
    have hi := node_id hn
    exact ⟨hi ▸ node_isSome_iff.mp (by rw [hn]; rfl), e, he, rfl, hi.symm⟩
  · rintro ⟨hb, e, he, rfl, rfl⟩
    obtain ⟨n, hn⟩ := Option.isSome_iff_exists.mp (node_isSome_iff.mpr hb)
    exact ⟨e, ⟨he, rfl⟩, n, hn, node_id hn⟩

theorem mem_roots : a ∈ roots w ↔ a ∈ w.ids.toFinset := by
  rw [roots, mem_append, mem_toFinset, or_iff_right_iff_imp]
  intro h
  obtain ⟨t, ht, rfl⟩ := Option.map_eq_some_iff.mp (Option.mem_toList.mp h)
  exact mem_map_of_mem (trigger_mem ht).1

theorem knownTargets_dom (a b) (h : b ∈ knownTargets w a) : b ∈ w.ids.toFinset :=
  mem_toFinset.mpr (mem_knownTargets.mp h).1

theorem searched_walkFrom {st} (h : ∀ r ∈ st, r ∈ roots w) :
    Dfs.Searched (knownTargets w) w.ids.toFinset st (walkFrom w st) :=
  Dfs.searched knownTargets_dom fun r hr => mem_roots.mp (h r hr)

theorem joins_of_known (ha : a ∈ w.ids) (h : ReflTransGen (fun a b => b ∈ knownTargets w a) a b) :
    ReflTransGen (Joins w) a b := by
  induction h with
  | refl => exact .refl
  | @tail b c hab hc ih =>
    have hb : b ∈ w.ids := by
      rcases hab.cases_tail with rfl | ⟨d, -, hd⟩
      · exact ha
      · exact (mem_knownTargets.mp hd).1
    exact ih.tail ⟨hb, mem_knownTargets.mp hc⟩

theorem backEdges_cycle (h : (a, b) ∈ backEdges w) : Joins w a b ∧ ReflTransGen (Joins w) b a := by
  obtain ⟨hb, hB⟩ := Dfs.closingEdges_cycle (knownTargets_dom (w := w)) (fun r hr => mem_roots.mp hr) h
  have hb' := mem_knownTargets.mp hb
  have hp := joins_of_known hb'.1 hB
  have ha : a ∈ w.ids := by
    rcases hp.cases_tail with he | ⟨c, -, hc⟩
    · rw [show a = b from he]
      exact hb'.1
    · exact hc.2.1
  exact ⟨⟨ha, hb'⟩, hp⟩

theorem backEdges_cut (a) : ¬ TransGen (fun a b => Joins w a b ∧ (a, b) ∉ backEdges w) a a := by
  intro h
  refine Dfs.closingEdges_acyclic (knownTargets_dom (w := w)) (fun _ => mem_roots) a ?_
  refine TransGen.mono (fun b c hb => ?_) a a h
  exact ⟨mem_knownTargets.mpr hb.1.2, hb.2⟩

/-- For every workflow: each walk ends with nothing left to expand, every reported edge joins two
nodes of the workflow and its target leads back to its source, no cycle of the workflow's own nodes
is left once the reported edges are deleted, and nothing is reported exactly when there is no such
cycle. -/
theorem backEdges_correct (w : WorkflowGraph) :
    (∀ starts, starts <+: roots w → (walkFrom w starts).stack = []) ∧
      (∀ a b, (a, b) ∈ backEdges w → Joins w a b ∧ ReflTransGen (Joins w) b a) ∧
      (∀ a, ¬ TransGen (fun a b => Joins w a b ∧ (a, b) ∉ backEdges w) a a) ∧
      (backEdges w = ∅ ↔ ∀ a, ¬ TransGen (Joins w) a a) := by
  refine ⟨fun starts h => ?_, fun a b => backEdges_cycle, backEdges_cut, fun h a ha => ?_, fun h => ?_⟩
  · exact (searched_walkFrom fun r hr => h.subset hr).ended
  · refine backEdges_cut a (TransGen.mono (fun b c hbc => ⟨hbc, ?_⟩) a a ha)
    rw [h]
    exact Finset.notMem_empty _
  · rw [Finset.eq_empty_iff_forall_notMem]
    rintro ⟨a, b⟩ hab
    obtain ⟨hjoin, hback⟩ := backEdges_cycle hab
    exact h a (TransGen.head' hjoin hback)

def danglingLoop : WorkflowGraph where
  edges := [{ fromNode := "x", toNode := "x" }]

/-- A cycle through an id that is no node is not reported. -/
theorem danglingLoop_unreported : backEdges danglingLoop = ∅ ∧ TransGen danglingLoop.Leads "x" "x" :=
  ⟨by decide, .single ⟨_, mem_cons_self, rfl, rfl⟩⟩

end Tinyflows.Engine
