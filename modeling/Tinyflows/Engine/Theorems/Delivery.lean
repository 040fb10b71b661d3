import Tinyflows.Engine.Lemmas.Delivery

/-!
# Approving a gate by its reported id
-/

namespace Tinyflows.Engine
open Lib Tinyflows.Graph Model Nodes List

section Resumed

variable {input : RunInput} {id : String}

variable {gate : NodeId} {pa : List NodeId}

/-- The gates a resume with one id approves: those within one level that were approved before, and
those that are reported under the id. -/
theorem approves_resumed_iff (hb : surfacedId pa gate ∉ (Approvals.ofInput input).ids) :
    Approves (mergeApprovals input [id]) pa gate ↔ pa.length ≤ 1 ∧ surfacedId pa gate = id := by
  simp only [Approvals.ids, Approvals.ofInput, mem_append, not_or] at hb
  obtain ⟨he, ht⟩ := hb
  rcases pa with _ | ⟨node, _ | ⟨_, _⟩⟩
  · rw [approves_nil, mem_mergeApprovals, mem_triggerApprovals_mergeApprovals, mem_singleton]
    simp only [surfacedId, foldr_nil] at he ht ⊢
    simp [he, ht]
  · rw [approves_child, mem_triggerApprovals_mergeApprovals, mem_singleton]
    simp only [surfacedId, foldr_cons, foldr_nil] at he ht ⊢
    simp [he, ht]
  · refine iff_of_false (not_approves_nested (by simp)) fun h => ?_
    simp at h

theorem approves_named_iff :
    Approves (mergeApprovals input [surfacedId pa gate]) pa gate ↔ pa.length ≤ 1 := by
  match pa with
  | [] =>
    refine iff_of_true (approves_nil.mpr (.inl (mem_mergeApprovals.mpr (.inl ?_)))) (by simp)
    exact mem_singleton_self gate
  | [node] =>
    refine iff_of_true (approves_child.mpr ?_) (by simp)
    exact mem_triggerApprovals_mergeApprovals.mpr (.inr (.inl (mem_singleton_self _)))
  | _ :: _ :: _ => exact iff_of_false (not_approves_nested (by simp)) (by simp)

end Resumed

/-- Resuming with the id under which a gate is reported approves the gate, and no other gate of the
run that was not approved before. -/
def Delivers (ex : Expressions) (host : Hosting) (w : WorkflowGraph) (input : RunInput)
    (path : List NodeId) (gate : NodeId) : Prop :=
  let resumed := mergeApprovals input [surfacedId path gate]
  Approves resumed path gate ∧ ∀ other name, GateAt ex host w other name →
    surfacedId other name ∉ (Approvals.ofInput input).ids → Approves resumed other name →
    other = path ∧ name = gate

/-- Two levels below the outermost run stands a gate. -/
def twiceNested : WorkflowGraph :=
  chain [("t", "trigger", .null), ("a", "sub_workflow", embedding (chainJson [("t", "trigger", .null),
    ("b", "sub_workflow", embedding (chainJson [("t", "trigger", .null), ("g", "transform", gated)]))]))]

/-- Two children have gates that are reported under one id. -/
def sameId : WorkflowGraph :=
  chain [("t", "trigger", .null),
    ("a", "sub_workflow", embedding (chainJson [("t", "trigger", .null), ("b::g", "transform", gated)])),
    ("a::b", "sub_workflow", embedding (chainJson [("t", "trigger", .null), ("g", "transform", gated)]))]

end Tinyflows.Engine
