import Tinyflows.Engine.Theorems.BackEdges
import Tinyflows.Validate.Agents
import Tinyflows.Validate.Loops

/-!
# Accepted workflows

A workflow is accepted when no check finds an error. The orders in which the checks list their hash
sets decide the order of the errors and nothing else.
-/

namespace Tinyflows.Validate
open Lib Tinyflows.Graph Model Engine Relation List

def validateAll (ids : IterOrder NodeId) (edges : IterOrder (NodeId × NodeId)) (w : WorkflowGraph) :
    List ValidationError :=
  duplicateIds [] w.ids ++ triggerErrors w ++ edgeErrors w [] w.edges ++
    w.nodes.flatMap (onErrorErrors w) ++ validateNodeConfigs w ++ w.nodes.flatMap (voidErrors w) ++
    w.edges.flatMap (conditionErrors w) ++ validateLoops ids edges w ++ validateScatterRegions ids w ++
    validateWorkingDirs w ++ inputErrors [] w.inputs ++ validateAgents w

def validate (ids : IterOrder NodeId) (edges : IterOrder (NodeId × NodeId)) (w : WorkflowGraph) :
    Except ValidationError Unit :=
  match validateAll ids edges w with
  | [] => .ok ()
  | e :: _ => .error e

structure Accepted (w : WorkflowGraph) : Prop where
  duplicateIds : duplicateIds [] w.ids = []
  triggers : triggerErrors w = []
  edges : edgeErrors w [] w.edges = []
  onError : ∀ n ∈ w.nodes, onErrorErrors w n = []
  configs : validateNodeConfigs w = []
  void : ∀ n ∈ w.nodes, voidErrors w n = []
  condition : ∀ e ∈ w.edges, conditionErrors w e = []
  loopNodes : ∀ n ∈ w.nodes, n.kind = .loop → loopNodeErrors w n = []
  joins : ∀ id ∈ nodesOnCycles w, joinErrors w id = []
  bounds : hasRunLevelBound w = false → ∀ e ∈ backEdges w, boundErrors w e = []
  gathers : ∀ id ∈ idsOf w .gather, gatherErrors w id = []
  regions : ∀ id ∈ idsOf w .scatter, regionMembers w id ≠ ∅
  members : ∀ id ∈ idsOf w .scatter, ∀ m ∈ regionMembers w id, memberErrors w id m = []
  workingDirs : validateWorkingDirs w = []
  inputs : inputErrors [] w.inputs = []
  agents : validateAgents w = []

variable {ids : IterOrder NodeId} {edges : IterOrder (NodeId × NodeId)} {w : WorkflowGraph}

theorem validateLoops_nil_iff : validateLoops ids edges w = [] ↔
    (∀ n ∈ w.nodes, n.kind = .loop → loopNodeErrors w n = []) ∧
      (∀ id ∈ nodesOnCycles w, joinErrors w id = []) ∧
      (hasRunLevelBound w = false → ∀ e ∈ backEdges w, boundErrors w e = []) := by
  have hc : backEdges w = ∅ → nodesOnCycles w = ∅ := by
    intro h
    rw [nodesOnCycles, h, Finset.biUnion_empty]
  rw [validateLoops, List.append_eq_nil_iff, List.flatMap_eq_nil_iff]
  refine and_congr (by simp) ?_
  split_ifs with hn hb
  · simp [hc hn, hn]
  · simp [ids.mem_keys, hb]
  · simp [ids.mem_keys, edges.mem_keys, hb]

theorem scatterErrors_nil_iff {id} : scatterErrors ids w id = [] ↔
    regionMembers w id ≠ ∅ ∧ ∀ m ∈ regionMembers w id, memberErrors w id m = [] := by
  rw [scatterErrors]
  split_ifs with h
  · simp [h]
  · simp [h, ids.mem_keys]

theorem validateAll_nil_iff : validateAll ids edges w = [] ↔ Accepted w := by
  simp only [validateAll, validateScatterRegions, List.append_eq_nil_iff, validateLoops_nil_iff,
    List.flatMap_eq_nil_iff, ids.mem_keys, List.mem_toFinset, scatterErrors_nil_iff]
  constructor
  · rintro ⟨⟨⟨⟨⟨⟨⟨⟨⟨⟨⟨h1, h2⟩, h3⟩, h4⟩, hcfg⟩, h5⟩, h6⟩, h7, h8, h9⟩, h10, h11⟩, hdirs⟩, hin⟩, hag⟩
    exact ⟨h1, h2, h3, h4, hcfg, h5, h6, h7, h8, h9, h10, fun id hi => (h11 id hi).1,
      fun id hi => (h11 id hi).2, hdirs, hin, hag⟩
  · intro h
    exact ⟨⟨⟨⟨⟨⟨⟨⟨⟨⟨⟨h.duplicateIds, h.triggers⟩, h.edges⟩, h.onError⟩, h.configs⟩, h.void⟩, h.condition⟩,
      h.loopNodes, h.joins, h.bounds⟩, h.gathers, fun id hi => ⟨h.regions id hi, h.members id hi⟩⟩,
      h.workingDirs⟩, h.inputs⟩, h.agents⟩

/-! ## The shape of accepted workflows -/

theorem duplicateIds_nil {seen l} (h : duplicateIds seen l = []) :
    l.Nodup ∧ ∀ id ∈ l, id ∉ seen := by
  induction l generalizing seen with
  | nil => exact ⟨.nil, fun id hi => nomatch hi⟩
  | cons id rest ih =>
    simp only [duplicateIds] at h
    split_ifs at h with he
    obtain ⟨hn, hf⟩ := ih h
    refine ⟨nodup_cons.mpr ⟨fun hi => hf id hi mem_cons_self, hn⟩, ?_⟩
    intro x hx
    rcases mem_cons.mp hx with rfl | hx
    · exact he
    · exact fun hs => hf x hx (mem_cons_of_mem _ hs)

theorem edgeErrors_nil {seen l} (h : edgeErrors w seen l = []) :
    (l.Nodup ∧ ∀ e ∈ l, e ∉ seen) ∧ ∀ e ∈ l, e.fromNode ∈ w.ids ∧ e.toNode ∈ w.ids := by
  have hk : ∀ id, unknownNode w id = [] → id ∈ w.ids := by
    intro id hi
    rw [unknownNode] at hi
    split_ifs at hi with hn
    rw [← WorkflowGraph.node_isSome_iff, Option.isSome_iff_ne_none]
    simpa using hn
  induction l generalizing seen with
  | nil => exact ⟨⟨.nil, fun e he => nomatch he⟩, fun e he => nomatch he⟩
  | cons e rest ih =>
    simp only [edgeErrors, append_eq_nil_iff] at h
    obtain ⟨⟨⟨hm, ht⟩, hd⟩, hr⟩ := h
    obtain ⟨⟨hN, hf⟩, hE⟩ := ih hr
    have hS : e ∉ seen := by
      intro hs
      rw [if_pos hs] at hd
      cases hd
    refine ⟨⟨nodup_cons.mpr ⟨fun he => hf e he mem_cons_self, hN⟩, ?_⟩, ?_⟩
    · intro x hx
      rcases mem_cons.mp hx with rfl | hx
      · exact hS
      · exact fun hs => hf x hx (mem_cons_of_mem _ hs)
    · intro x hx
      rcases mem_cons.mp hx with rfl | hx
      · exact ⟨hk _ hm, hk _ ht⟩
      · exact hE x hx

theorem Accepted.ids_nodup (h : Accepted w) : w.ids.Nodup :=
  (duplicateIds_nil h.duplicateIds).1

theorem Accepted.node_inj (h : Accepted w) {n n'} (hn : n ∈ w.nodes) (hn' : n' ∈ w.nodes)
    (he : n.id = n'.id) : n = n' :=
  inj_on_of_nodup_map h.ids_nodup hn hn' he

theorem Accepted.joins_of_leads (h : Accepted w) {a b} (ha : w.Leads a b) : Joins w a b := by
  obtain ⟨e, he, rfl, rfl⟩ := ha
  obtain ⟨hf, ht⟩ := (edgeErrors_nil h.edges).2 e he
  exact ⟨hf, ht, e, he, rfl, rfl⟩

end Tinyflows.Validate
