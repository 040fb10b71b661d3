import Tinyflows.Graph.Types

/-!
# Building a graph

The builder accumulates nodes, edges and settings, and compiles them into a graph once the topology
has passed its checks. The handlers themselves belong to the runtime, so a node is only its id here.
-/

namespace Tinyflows.Graph
open Lib Finmap

variable {S U V : Type}

/-- A barrier is always added together with a predecessor. -/
structure GraphBuilder (S U V : Type) where
  nodes : HashSet NodeId := ∅
  edges : HashMap NodeId NodeId := ∅
  branches : HashMap NodeId (Branch S) := ∅
  commandNodes : HashSet NodeId := ∅
  waiting : HashMap NodeId (HashSet NodeId) := ∅
  barrierReliefs : List BarrierRelief := []
  reducer : Option (S → U → Except GraphError S) := none
  recursionLimit : Nat := 50
  parallel : Bool := false
  maxConcurrency : Option Nat := none
  nodeMeta : HashMap NodeId NodeMeta := ∅
  waiting_nonempty : ∀ b ∈ waiting.keys, waiting.lookup b ≠ some ∅ := by
    first | exact noBarriers | decide

namespace GraphBuilder

variable (b : GraphBuilder S U V)

/-! ## Accumulating -/

def addNode (id : NodeId) : GraphBuilder S U V :=
  { b with nodes := insert id b.nodes }

def addEdge (source target : NodeId) : GraphBuilder S U V :=
  { b with edges := b.edges.insert source target }

def addWaitingEdge (source target : NodeId) : GraphBuilder S U V :=
  { b with
    edges := b.edges.insert source target
    waiting := b.waiting.insert target (insert source ((b.waiting.lookup target).getD ∅))
    waiting_nonempty := by
      intro t ht
      by_cases h : t = target
      · rw [h, lookup_insert]
        exact fun he => Finset.insert_ne_empty _ _ (Option.some.inj he)
      · rw [lookup_insert_of_ne _ h]
        rw [mem_keys, mem_insert] at ht
        exact b.waiting_nonempty t (mem_keys.mpr (ht.resolve_left h)) }

def addBarrierRelief (source reliefNode barrierNode : NodeId) : GraphBuilder S U V :=
  { b with barrierReliefs := b.barrierReliefs ++ [{ source, reliefNode, barrierNode }] }

def setEntry (node : NodeId) : GraphBuilder S U V :=
  b.addEdge START node

/-- A router whose label is looked up in a table; a later route replaces an earlier one of its
label. -/
def addConditionalEdges (source : NodeId)
    (router : S → String) (routes : List (String × NodeId)) : GraphBuilder S U V :=
  { b with branches := b.branches.insert source { router, routes := HashMap.collect routes } }

def withCommandDestinations (node : NodeId) (destinations : List NodeId) : GraphBuilder S U V :=
  let info := (b.nodeMeta.lookup node).getD {}
  { b with
    commandNodes := insert node b.commandNodes
    nodeMeta := b.nodeMeta.insert node { info with commandDestinations := destinations } }

def withUnconditionalFanout (node : NodeId) (destinations : List NodeId) : GraphBuilder S U V :=
  let b := b.withCommandDestinations node destinations
  let info := (b.nodeMeta.lookup node).getD {}
  { b with nodeMeta := b.nodeMeta.insert node { info with commandFanout := true } }

/-! ## Compiling -/

def nodeErrors (id : NodeId) : List GraphError :=
  if id ∈ b.nodes then [] else [.missingNode id]

def entryErrors : List GraphError :=
  match b.edges.lookup START with
  | none => [.missingStart]
  | some entry =>
    (if entry = END then [.validation "START cannot route directly to END"] else []) ++
      b.nodeErrors entry

def edgeErrors (e : NodeId × NodeId) : List GraphError :=
  (if e.2 = START then [.validation "START cannot be an edge target"] else []) ++
    (if e.1 = END then [.validation "END cannot be an edge source"] else []) ++
    (if e.1 = START then [] else b.nodeErrors e.1) ++
    if e.2 = END then [] else b.nodeErrors e.2

def branchErrors (ord : IterOrder NodeId) (b : GraphBuilder S U V)
    (e : NodeId × Branch S) : List GraphError :=
  b.nodeErrors e.1 ++
    (if e.1 ∈ b.edges.keys then
      [.validation s!"node `{e.1}` has both a static edge and conditional edges"] else []) ++
    (e.2.routes.iter ord).flatMap fun route => if route.2 = END then [] else b.nodeErrors route.2

def waitingErrors (ord : IterOrder NodeId) (b : GraphBuilder S U V)
    (e : NodeId × HashSet NodeId) : List GraphError :=
  b.nodeErrors e.1 ++ (ord.keys e.2).flatMap b.nodeErrors

def commandErrors (node : NodeId) : List GraphError :=
  b.nodeErrors node ++
    if node ∈ b.edges.keys ∨ node ∈ b.branches.keys then
      [.validation
        s!"node `{node}` declares command routing but also has static/conditional edges"]
    else []

def compileErrors (ord : IterOrder NodeId) (b : GraphBuilder S U V) : List GraphError :=
  (if b.reducer.isNone then
    [.validation "no state reducer set; call set_reducer (or GraphBuilder::overwrite)"] else []) ++
    b.entryErrors ++ (b.edges.iter ord).flatMap b.edgeErrors ++
    (b.branches.iter ord).flatMap (b.branchErrors ord) ++
    (b.waiting.iter ord).flatMap (b.waitingErrors ord) ++
    (ord.keys b.commandNodes).flatMap b.commandErrors

structure Compiles : Prop where
  reducer : b.reducer.isSome
  entry : ∃ entry, b.edges.lookup START = some entry ∧ entry ≠ END ∧ entry ∈ b.nodes
  edges : ∀ n t, b.edges.lookup n = some t →
    t ≠ START ∧ n ≠ END ∧ (n = START ∨ n ∈ b.nodes) ∧ (t = END ∨ t ∈ b.nodes)
  branches : ∀ n br, b.branches.lookup n = some br → n ∈ b.nodes ∧ n ∉ b.edges.keys ∧
    ∀ label t, br.routes.lookup label = some t → t = END ∨ t ∈ b.nodes
  waiting : ∀ n froms, b.waiting.lookup n = some froms → n ∈ b.nodes ∧ froms ⊆ b.nodes
  commands : ∀ n ∈ b.commandNodes, n ∈ b.nodes ∧ n ∉ b.edges.keys ∧ n ∉ b.branches.keys

variable {b} {n : NodeId} {ord : IterOrder NodeId}

theorem nodeErrors_nil {id} : b.nodeErrors id = [] ↔ id ∈ b.nodes := by
  simp [nodeErrors]

theorem entryErrors_nil : b.entryErrors = [] ↔
    ∃ en, b.edges.lookup START = some en ∧ en ≠ END ∧ en ∈ b.nodes := by
  unfold entryErrors
  split
  · rename_i h
    simp [h]
  · rename_i en h
    simp [h, nodeErrors_nil]

theorem edgeErrors_nil {t} : b.edgeErrors (n, t) = [] ↔
      t ≠ START ∧ n ≠ END ∧ (n = START ∨ n ∈ b.nodes) ∧ (t = END ∨ t ∈ b.nodes) := by
  simp [edgeErrors, nodeErrors_nil, or_iff_not_imp_left]

theorem branchErrors_nil {br} :
    b.branchErrors ord (n, br) = [] ↔ n ∈ b.nodes ∧ n ∉ b.edges.keys ∧
      ∀ la t, br.routes.lookup la = some t → t = END ∨ t ∈ b.nodes := by
  simp [branchErrors, nodeErrors_nil, or_iff_not_imp_left, HashMap.mem_iter]

theorem waitingErrors_nil {fr} : b.waitingErrors ord (n, fr) = [] ↔ n ∈ b.nodes ∧ fr ⊆ b.nodes := by
  simp [waitingErrors, nodeErrors_nil, ord.mem_keys, Finset.subset_iff]

theorem commandErrors_nil :
    b.commandErrors n = [] ↔ n ∈ b.nodes ∧ n ∉ b.edges.keys ∧ n ∉ b.branches.keys := by
  simp [commandErrors, nodeErrors_nil]

theorem compileErrors_nil : b.compileErrors ord = [] ↔ b.Compiles := by
  simp only [compileErrors, List.append_eq_nil_iff, List.flatMap_eq_nil_iff, Prod.forall,
    HashMap.mem_iter, entryErrors_nil, edgeErrors_nil, branchErrors_nil, waitingErrors_nil,
    ord.mem_keys, commandErrors_nil]
  constructor
  · rintro ⟨⟨⟨⟨⟨he, hn⟩, hd⟩, hb⟩, hw⟩, hc⟩
    refine ⟨?_, hn, hd, hb, hw, hc⟩
    cases hr : b.reducer with
    | none => simp [hr] at he
    | some r => rfl
  · rintro ⟨he, hn, hd, hb, hw, hc⟩
    refine ⟨⟨⟨⟨⟨?_, hn⟩, hd⟩, hb⟩, hw⟩, hc⟩
    rw [Option.isSome_iff_ne_none] at he
    simp [he]

def freeze (b : GraphBuilder S U V) (h : b.Compiles) : CompiledGraph S U V where
  entry := (b.edges.lookup START).get (by obtain ⟨entry, he, -⟩ := h.entry; rw [he]; rfl)
  nodes := b.nodes
  edges := b.edges
  branches := b.branches
  commandNodes := b.commandNodes
  waiting := b.waiting
  barrierReliefs := b.barrierReliefs
  nodeMeta := b.nodeMeta
  reducer := b.reducer.get h.reducer
  recursionLimit := b.recursionLimit
  parallel := b.parallel
  maxConcurrency := b.maxConcurrency
  waiting_nonempty := b.waiting_nonempty
  entry_known := by
    obtain ⟨entry, he, -, hn⟩ := h.entry
    simpa [he] using hn
  edges_known := fun n _ t ht => (h.edges n t ht).2.2.2
  branches_known := fun n _ br hbr label _ t ht => (h.branches n br hbr).2.2 label t ht
  waiting_known := fun n hn => by
    obtain ⟨froms, hf⟩ := mem_iff.mp (mem_keys.mp hn)
    exact (h.waiting n froms hf).1

def compile (ord : IterOrder NodeId) (b : GraphBuilder S U V) :
    Except GraphError (CompiledGraph S U V) :=
  match h : b.compileErrors ord with
  | [] => .ok (b.freeze (compileErrors_nil.mp h))
  | e :: _ => .error e

theorem compile_ok {g} (h : b.compile ord = .ok g) : ∃ hb : b.Compiles, g = b.freeze hb := by
  unfold compile at h
  split at h
  · rename_i hn
    exact ⟨compileErrors_nil.mp hn, (Except.ok.inj h).symm⟩
  · cases h

end GraphBuilder

end Tinyflows.Graph
