import Tinyflows.Lib.Json
import Tinyflows.Graph.Types

/-!
# Workflow definitions

A workflow is a directed graph of typed nodes. Edges join named ports; a port is nothing but a name
that the edges leaving it carry.
-/

namespace Tinyflows.Model
open Lib Tinyflows.Graph List

inductive NodeKind where
  | trigger
  | agent
  | toolCall
  | httpRequest
  | code
  | shell
  | condition
  | switch
  | merge
  | splitOut
  | loop
  | transform
  | outputParser
  | subWorkflow
  | memory
  | dedup
  | spawn
  | scatter
  | gather
  | approval
  | gate
  | void
  deriving DecidableEq

structure Node where
  id : NodeId
  kind : NodeKind
  config : Json := .null
  deriving DecidableEq

def Node.requiresApproval (n : Node) : Bool :=
  ((n.config.get "requires_approval").bind Json.asBool).getD false

structure Edge where
  fromNode : NodeId
  fromPort : String := "main"
  toNode : NodeId
  toPort : String := "main"
  deriving DecidableEq

/-- A tool an agent may call: one, or all those whose names start as a pattern does. -/
structure ToolGrant where
  slug : String
  connectionRef : Option String := none
  deriving DecidableEq

def ToolGrant.covers (g : ToolGrant) (slug : String) : Bool :=
  match g.slug.toList.getLast? with
  | some '*' => g.slug.toList.dropLast.isPrefixOf slug.toList
  | _ => g.slug = slug

/-- Where a block of an agent's context comes from. -/
inductive ContextSourceKind where
  | text (text : Json)
  | items
  | memory (scope query : String)
  | flavour (slug : String)
  | host (source : String)
  deriving DecidableEq

structure ContextSource where
  label : Option String := none
  kind : ContextSourceKind
  deriving DecidableEq

structure AgentLimits where
  maxSteps : Option Nat := none
  maxToolCalls : Option Nat := none
  agentTimeoutSecs : Option Nat := none
  toolTimeoutSecs : Option Nat := none
  deriving DecidableEq

structure AgentDefinition where
  id : String
  tools : List ToolGrant := []
  context : List ContextSource := []
  limits : AgentLimits := {}
  deriving DecidableEq

inductive InputType where
  | string
  | number
  | boolean
  | json
  deriving DecidableEq

/-- A declared parameter of a workflow. -/
structure WorkflowInput where
  name : String
  ty : InputType := .string
  required : Bool := false
  default : Option Json := none
  deriving DecidableEq

structure WorkflowGraph where
  nodes : List Node := []
  edges : List Edge := []
  agents : List AgentDefinition := []
  inputs : List WorkflowInput := []
  deriving DecidableEq

namespace WorkflowGraph

variable (w : WorkflowGraph)

def trigger : Option Node :=
  match w.nodes.filter (·.kind = .trigger) with
  | [t] => some t
  | _ => none

def node (id : NodeId) : Option Node :=
  w.nodes.find? (·.id = id)

def agent (id : String) : Option AgentDefinition :=
  w.agents.find? (·.id = id)

def ids : List NodeId :=
  w.nodes.map (·.id)

def outgoing (id : NodeId) : List Edge :=
  w.edges.filter (·.fromNode = id)

def targets (id : NodeId) : List NodeId :=
  (w.outgoing id).map (·.toNode)

def targetsOn (id : NodeId) (port : String) : List NodeId :=
  ((w.outgoing id).filter (·.fromPort = port)).map (·.toNode)

def sources : HashSet NodeId :=
  (w.edges.map (·.fromNode)).toFinset

/-- There is an edge from `a` to `b`. -/
def Leads (a b : NodeId) : Prop :=
  ∃ e ∈ w.edges, e.fromNode = a ∧ e.toNode = b

variable {w}

theorem mem_outgoing {id e} : e ∈ w.outgoing id ↔ e ∈ w.edges ∧ e.fromNode = id := by
  simp [outgoing]

theorem mem_targets {a b} : b ∈ w.targets a ↔ w.Leads a b := by
  simp [targets, Leads, mem_outgoing, and_assoc]

theorem mem_sources_of_targets (a) (h : w.targets a ≠ []) : a ∈ w.sources := by
  obtain ⟨b, hb⟩ := exists_mem_of_ne_nil _ h
  obtain ⟨e, he, rfl, -⟩ := mem_targets.mp hb
  exact mem_toFinset.mpr (mem_map_of_mem he)

theorem node_isSome_iff {id} : (w.node id).isSome ↔ id ∈ w.ids := by
  simp [node, ids]

theorem node_id {id n} (h : w.node id = some n) : n.id = id := by
  simpa using find?_some h

theorem node_of_mem (h : w.ids.Nodup) {n} (hn : n ∈ w.nodes) : w.node n.id = some n := by
  cases hf : w.node n.id with
  | none =>
    have hs := node_isSome_iff.mpr (mem_map.mpr ⟨n, hn, rfl⟩)
    rw [hf] at hs
    cases hs
  | some m => rw [inj_on_of_nodup_map h (mem_of_find?_eq_some hf) hn (node_id hf)]

theorem trigger_mem {t} (h : w.trigger = some t) : t ∈ w.nodes ∧ t.kind = .trigger := by
  unfold trigger at h
  split at h
  · rename_i t' he
    obtain rfl := Option.some.inj h
    simpa using (he ▸ mem_cons_self : t' ∈ w.nodes.filter (·.kind = .trigger))
  · cases h

end WorkflowGraph

end Tinyflows.Model
