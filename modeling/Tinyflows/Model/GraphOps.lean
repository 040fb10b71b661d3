import Tinyflows.Model.Workflow

/-!
# Edits of a workflow

A batch of operations is applied to a copy of a workflow, in order, up to the first that cannot be
applied. What an operation does is settled node by node and edge by edge.
-/

namespace Tinyflows.Model
open Lib Tinyflows.Graph List

/-- An operation. Display names and canvas positions are no part of the model, so the operations that set
them carry only the node they name. -/
inductive GraphOp where
  | addNode (node : Node)
  | updateNodeConfig (id : NodeId) (config : Json)
  | setNodeName (id : NodeId)
  | renameNode (id newId : NodeId)
  | removeNode (id : NodeId)
  | addEdge (edge : Edge)
  | removeEdge (edge : Edge)
  | setNodePosition (id : NodeId)
  | setWorkflowInputs (inputs : List WorkflowInput)
  deriving DecidableEq

def GraphOp.name : GraphOp → String
  | .addNode _ => "add_node"
  | .updateNodeConfig _ _ => "update_node_config"
  | .setNodeName _ => "set_node_name"
  | .renameNode _ _ => "rename_node"
  | .removeNode _ => "remove_node"
  | .addEdge _ => "add_edge"
  | .removeEdge _ => "remove_edge"
  | .setNodePosition _ => "set_node_position"
  | .setWorkflowInputs _ => "set_workflow_inputs"

inductive GraphOpErrorKind where
  | nodeNotFound (id : NodeId)
  | nodeIdExists (id : NodeId)
  | emptyNodeId
  | edgeEndpointMissing (id : NodeId)
  | edgeExists (edge : Edge)
  | edgeNotFound (edge : Edge)
  deriving DecidableEq

structure GraphOpError where
  index : Nat
  op : String
  kind : GraphOpErrorKind
  deriving DecidableEq

mutual

/-- Objects merge key by key, `null` deletes a key, and anything else replaces the target. -/
def jsonMergePatch (target : Json) : Json → Json
  | .obj patch => .obj (mergePatchFields target.fields patch)
  | patch => patch

def mergePatchFields (target : List (String × Json)) : List (String × Json) → List (String × Json)
  | [] => target
  | (key, .null) :: rest => mergePatchFields (target.filter (·.1 ≠ key)) rest
  | (key, v) :: rest =>
    mergePatchFields (Json.insertField key (jsonMergePatch ((target.lookup key).getD .null) v) target)
      rest

end

/-! ## Application -/

def WorkflowGraph.nodeIndex (w : WorkflowGraph) (id : NodeId) : Option Nat :=
  w.nodes.findIdx? (·.id = id)

def Node.patch (config : Json) (n : Node) : Node :=
  { n with config := jsonMergePatch n.config config }

def Edge.rename (id newId : NodeId) (e : Edge) : Edge :=
  { e with
    fromNode := if e.fromNode = id then newId else e.fromNode
    toNode := if e.toNode = id then newId else e.toNode }

def Edge.touches (e : Edge) (id : NodeId) : Bool :=
  e.fromNode = id ∨ e.toNode = id

def requireNode (w : WorkflowGraph) (id : NodeId) : Except GraphOpErrorKind WorkflowGraph :=
  if (w.nodeIndex id).isSome then .ok w else .error (.nodeNotFound id)

def applyOne (w : WorkflowGraph) : GraphOp → Except GraphOpErrorKind WorkflowGraph
  | .addNode node =>
    if node.id = "" then .error .emptyNodeId
    else if (w.nodeIndex node.id).isSome then .error (.nodeIdExists node.id)
    else .ok { w with nodes := w.nodes ++ [node] }
  | .updateNodeConfig id config =>
    match w.nodeIndex id with
    | none => .error (.nodeNotFound id)
    | some index => .ok { w with nodes := w.nodes.modify index (Node.patch config) }
  | .setNodeName id => requireNode w id
  | .renameNode id newId =>
    if newId = "" then .error .emptyNodeId
    else if (w.nodeIndex id).isNone then .error (.nodeNotFound id)
    else if newId ≠ id ∧ (w.nodeIndex newId).isSome then .error (.nodeIdExists newId)
    else .ok { w with
      nodes := w.nodes.map fun n => if n.id = id then { n with id := newId } else n
      edges := w.edges.map (Edge.rename id newId) }
  | .removeNode id =>
    if (w.nodeIndex id).isNone then .error (.nodeNotFound id)
    else .ok { w with
      nodes := w.nodes.filter (·.id ≠ id)
      edges := w.edges.filter fun e => ¬ e.touches id }
  | .addEdge edge =>
    if (w.nodeIndex edge.fromNode).isNone then .error (.edgeEndpointMissing edge.fromNode)
    else if (w.nodeIndex edge.toNode).isNone then .error (.edgeEndpointMissing edge.toNode)
    else if edge ∈ w.edges then .error (.edgeExists edge)
    else .ok { w with edges := w.edges ++ [edge] }
  | .removeEdge edge =>
    let kept := w.edges.filter (· ≠ edge)
    if kept.length = w.edges.length then .error (.edgeNotFound edge)
    else .ok { w with edges := kept }
  | .setNodePosition id => requireNode w id
  | .setWorkflowInputs inputs => .ok { w with inputs }

def applyFrom (w : WorkflowGraph) : Nat → List GraphOp → Except GraphOpError WorkflowGraph
  | _, [] => .ok w
  | index, op :: rest =>
    match applyOne w op with
    | .error kind => .error { index, op := op.name, kind }
    | .ok w => applyFrom w (index + 1) rest

def applyOps (base : WorkflowGraph) (ops : List GraphOp) : Except GraphOpError WorkflowGraph :=
  applyFrom base 0 ops

/-! ## Node by node, edge by edge -/

def GraphOp.isRename : GraphOp → Bool
  | .renameNode _ _ => true
  | _ => false

def GraphOp.onNode (id : NodeId) (found : Option Node) : GraphOp → Option Node
  | .addNode node => if node.id = id then some node else found
  | .updateNodeConfig id' config => if id' = id then found.map (Node.patch config) else found
  | .removeNode id' => if id' = id then none else found
  | _ => found

/-- Whether the operation puts the edge in or takes it out. -/
def GraphOp.onEdge (edge : Edge) : GraphOp → Option Bool
  | .addEdge edge' => if edge' = edge then some true else none
  | .removeEdge edge' => if edge' = edge then some false else none
  | .removeNode id => if edge.touches id then some false else none
  | _ => none

def nodeAfter (ops : List GraphOp) (id : NodeId) (found : Option Node) : Option Node :=
  ops.foldl (fun found op => op.onNode id found) found

def lastOnEdge (ops : List GraphOp) (edge : Edge) : Option Bool :=
  (ops.filterMap (GraphOp.onEdge edge)).getLast?

variable {w w' : WorkflowGraph} {op : GraphOp}

variable {ix : Nat} {id : NodeId}

theorem find?_modify_self {α : Type} {p} (f) (hf : ∀ a, p (f a) = p a) {l : List α}
    (hi : l.findIdx? p = some ix) : (l.modify ix f).find? p = (l.find? p).map f := by
  induction l generalizing ix with
  | nil => cases hi
  | cons a re ih =>
    rw [findIdx?_cons] at hi
    cases hp : p a with
    | true =>
      rw [hp] at hi
      cases hi
      simp [hf, hp]
    | false =>
      rw [hp] at hi
      obtain ⟨k, hk, rfl⟩ := Option.map_eq_some_iff.mp hi
      simp [hp, ih hk]

theorem find?_modify_other {α : Type} {p q} (f) (hf : ∀ a, q (f a) = q a)
    (hP : ∀ a, p a = true → q a = false) {l : List α} (hi : l.findIdx? p = some ix) :
    (l.modify ix f).find? q = l.find? q := by
  induction l generalizing ix with
  | nil => cases hi
  | cons a re ih =>
    rw [findIdx?_cons] at hi
    cases hp : p a with
    | true =>
      rw [hp] at hi
      cases hi
      simp [hf, hP a hp]
    | false =>
      rw [hp] at hi
      obtain ⟨k, hk, rfl⟩ := Option.map_eq_some_iff.mp hi
      cases hq : q a <;> simp [hq, ih hk]

theorem nodeIndex_eq_none : w.nodeIndex id = none ↔ w.node id = none := by
  simp [WorkflowGraph.nodeIndex, WorkflowGraph.node]

theorem requireNode_ok (h : requireNode w id = .ok w') : w' = w := by
  unfold requireNode at h
  split_ifs at h
  exact (Except.ok.inj h).symm

theorem find?_filter_ne {id'} {nd : List Node} :
    (nd.filter (·.id ≠ id')).find? (·.id = id) =
      if id' = id then none else nd.find? (·.id = id) := by
  rw [find?_filter]
  split_ifs with hi
  · rw [find?_eq_none]
    intro n _
    simp only [hi, decide_eq_true_eq]
    tauto
  · congr 1
    funext n
    by_cases hn : n.id = id
    · simp [hn, Ne.symm hi]
    · simp [hn]

theorem node_applyOne (ho : op.isRename = false) (h : applyOne w op = .ok w') (id) :
    w'.node id = op.onNode id (w.node id) := by
  cases op with
  | addNode nd =>
    simp only [applyOne] at h
    split_ifs at h with hm he
    cases h
    rw [Option.not_isSome_iff_eq_none, nodeIndex_eq_none] at he
    simp only [WorkflowGraph.node, GraphOp.onNode, find?_append] at he ⊢
    split_ifs with hi
    · subst hi
      simp [he]
    · simp [hi]
  | updateNodeConfig id' co =>
    simp only [applyOne] at h
    split at h
    · cases h
    · next ix hin =>
        cases h
        simp only [WorkflowGraph.node, GraphOp.onNode]
        split_ifs with hi
        · subst hi
          exact find?_modify_self (Node.patch co) (fun _ => rfl) hin
        · refine find?_modify_other (Node.patch co) (fun _ => rfl) (fun n hn => ?_) hin
          rw [decide_eq_true_eq] at hn
          simp [hn, hi]
  | setNodeName id' => rw [requireNode_ok h]; rfl
  | renameNode id' ni => cases ho
  | removeNode id' =>
    simp only [applyOne] at h
    split_ifs at h
    cases h
    exact find?_filter_ne
  | addEdge ed =>
    simp only [applyOne] at h
    split_ifs at h
    cases h
    rfl
  | removeEdge ed =>
    simp only [applyOne] at h
    split_ifs at h
    cases h
    rfl
  | setNodePosition id' => rw [requireNode_ok h]; rfl
  | setWorkflowInputs is => cases h; rfl

theorem mem_edges_applyOne (ho : op.isRename = false) (h : applyOne w op = .ok w') (ed) :
    ed ∈ w'.edges ↔ (op.onEdge ed).getD (ed ∈ w.edges) = true := by
  cases op with
  | addNode nd =>
    simp only [applyOne] at h
    split_ifs at h
    cases h
    simp [GraphOp.onEdge]
  | updateNodeConfig id' co =>
    simp only [applyOne] at h
    split at h <;> cases h
    simp [GraphOp.onEdge]
  | setNodeName id' => simp [requireNode_ok h, GraphOp.onEdge]
  | renameNode id' ni => cases ho
  | removeNode id' =>
    simp only [applyOne] at h
    split_ifs at h
    cases h
    by_cases ht : ed.touches id' <;> simp [GraphOp.onEdge, ht]
  | addEdge ed' =>
    simp only [applyOne] at h
    split_ifs at h
    cases h
    by_cases he : ed' = ed
    · simp [GraphOp.onEdge, he]
    · simp [GraphOp.onEdge, he, Ne.symm he]
  | removeEdge ed' =>
    simp only [applyOne] at h
    split_ifs at h
    cases h
    by_cases he : ed' = ed
    · simp [GraphOp.onEdge, he]
    · simp [GraphOp.onEdge, he, Ne.symm he]
  | setNodePosition id' => simp [requireNode_ok h, GraphOp.onEdge]
  | setWorkflowInputs is => cases h; simp [GraphOp.onEdge]

section Batches

variable {ops : List GraphOp}

theorem node_applyFrom (hops : ∀ op ∈ ops, op.isRename = false) {ix}
    (h : applyFrom w ix ops = .ok w') (id) : w'.node id = nodeAfter ops id (w.node id) := by
  induction ops generalizing w ix with
  | nil => cases h; rfl
  | cons op re ih =>
    obtain ⟨ho, hr⟩ := forall_mem_cons.mp hops
    simp only [applyFrom] at h
    split at h
    · cases h
    · next u hu => rw [ih hr h, node_applyOne ho hu, nodeAfter, nodeAfter, foldl_cons]

theorem node_applyOps (hops : ∀ op ∈ ops, op.isRename = false) (h : applyOps w ops = .ok w')
    (id) : w'.node id = nodeAfter ops id (w.node id) :=
  node_applyFrom hops h id

theorem lastOnEdge_cons (op ops) (ed) :
    lastOnEdge (op :: ops) ed = (lastOnEdge ops ed).or (op.onEdge ed) := by
  rw [lastOnEdge, lastOnEdge, filterMap_cons]
  cases ho : op.onEdge ed with
  | none => simp
  | some b => simp [getLast?_cons]

theorem mem_edges_applyOps (hops : ∀ op ∈ ops, op.isRename = false) (h : applyOps w ops = .ok w')
    (ed) : ed ∈ w'.edges ↔ (lastOnEdge ops ed).getD (ed ∈ w.edges) = true := by
  unfold applyOps at h
  generalize 0 = ix at h
  induction ops generalizing w ix with
  | nil => cases h; simp [lastOnEdge]
  | cons op re ih =>
    obtain ⟨ho, hr⟩ := forall_mem_cons.mp hops
    simp only [applyFrom] at h
    split at h
    · cases h
    · next u hu =>
        rw [ih hr _ h, lastOnEdge_cons]
        cases hl : lastOnEdge re ed with
        | none => simp [mem_edges_applyOne ho hu]
        | some b => simp

end Batches

end Tinyflows.Model
