import Tinyflows.Catalog.GraphPolicy
import Tinyflows.Engine.Lemmas.Delivery
import Tinyflows.Nodes.Agent

/-!
# What a cleared workflow may call

A node of a workflow that the scan clears makes no outward call, as long as its configuration says
what it does: an agent's is no expression, and a spawn node starts nothing but a cleared workflow.
-/

namespace Tinyflows.Catalog
open Lib Tinyflows.Graph Model Nodes Engine Validate Option Expressions List Json Program

/-! ## Clearance -/

/-- The scan finds nothing in the workflow, in some number of levels. -/
def Cleared (parse : Json → Except String WorkflowGraph) (w : WorkflowGraph) : Prop :=
  ∃ depth, hasOutboundSideEffectToDepth parse depth w = false

/-- The workflow `u` stands in the configuration of a node of `w` that may run it. -/
def Embedded (parse : Json → Except String WorkflowGraph) (w u : WorkflowGraph) : Prop :=
  ∃ n ∈ w.nodes, (n.kind = .subWorkflow ∨ n.kind = .spawn) ∧
    ∃ inline, n.config.get "workflow" = some inline ∧ parse inline = .ok u

/-- The configurations say what their nodes do: that of an agent is not computed as a whole, and a
spawn node starts at most a workflow, which the scan clears too. -/
structure Overt (ex : Expressions) (parse : Json → Except String WorkflowGraph) (w : WorkflowGraph) :
    Prop where
  agents : ∀ n ∈ w.nodes, n.kind = .agent → ∀ s, n.config = .str s → ex.isExpression s = false
  spawns : ∀ n ∈ w.nodes, n.kind = .spawn → ∀ spec, specFromConfig n.config n.id = .ok spec →
    ∃ graph input, spec = .workflow graph input ∧
      ∀ u, parse graph = .ok u → graphHasOutboundSideEffect parse u = false

section Clearance

variable {pa : Json → Except String WorkflowGraph} {w u : WorkflowGraph} {n : Node}

section

variable (h : Cleared pa w) (hn : n ∈ w.nodes)
include h hn

theorem Cleared.node : ∃ ca, nodeHasOutboundSideEffect w ca n = false ∧
      ∀ il u, ca il = false → pa il = .ok u → Cleared pa u := by
  obtain ⟨de, h⟩ := h
  cases de with
  | zero =>
    rw [hasOutboundSideEffectToDepth, List.any_eq_false] at h
    exact ⟨_, Bool.eq_false_iff.mpr (h n hn), fun _ _ ha => nomatch ha⟩
  | succ de =>
    rw [hasOutboundSideEffectToDepth, List.any_eq_false] at h
    refine ⟨_, Bool.eq_false_iff.mpr (h n hn), fun il u ha hp => ⟨de, ?_⟩⟩
    simpa only [hp] using ha

theorem Cleared.kind : actsOutward n.kind = false := by
  obtain ⟨ca, ho, -⟩ := h.node hn
  unfold nodeHasOutboundSideEffect at ho
  split_ifs at ho with hu
  all_goals
    rw [Bool.or_eq_true, not_or] at hu
    exact Bool.eq_false_iff.mpr hu.1

theorem Cleared.agent (hk : n.kind = .agent) : nodeAgentHasToolGrant w n = false := by
  obtain ⟨ca, ho, -⟩ := h.node hn
  simp only [nodeHasOutboundSideEffect, hk, decide_true, Bool.true_and] at ho
  split_ifs at ho with hu
  all_goals
    rw [Bool.or_eq_true, not_or] at hu
    exact Bool.eq_false_iff.mpr hu.2

theorem Cleared.child (hk : n.kind = .subWorkflow) : n.config.get "workflow_id" = none ∧
      ∀ il u, n.config.get "workflow" = some il → pa il = .ok u → Cleared pa u := by
  obtain ⟨ca, ho, hc⟩ := h.node hn
  simp only [nodeHasOutboundSideEffect, hk, actsOutward] at ho
  by_cases hi : (n.config.get "workflow_id").isSome
  · simp [hi] at ho
  · refine ⟨not_isSome_iff_eq_none.mp hi, fun il u hin hp => ?_⟩
    simp only [hi, hin, any_some] at ho
    exact hc il u (by simpa using ho) hp

end

end Clearance

theorem lookup_resolveFields (ex : Expressions) (sc key fs) :
    (ex.resolveFields sc fs).lookup key = (fs.lookup key).map (ex.resolveAll sc) := by
  induction fs with
  | nil => rfl
  | cons f rest ih =>
    obtain ⟨k, v⟩ := f
    rw [resolveFields, lookup_cons_eq, lookup_cons_eq, ih]
    split_ifs <;> rfl

variable {ex : Expressions} {n : Node} {w : WorkflowGraph} {call : Call} {hosting : Hosting}

theorem get_resolveAll {co} (h : ∀ s, co = .str s → ex.isExpression s = false) (sc : Json) (key) :
    (ex.resolveAll sc co).get key = (co.get key).map (ex.resolveAll sc) := by
  cases co with
  | obj fs =>
    rw [resolveAll, get_obj, get_obj]
    exact lookup_resolveFields ex sc key fs
  | str s =>
    rw [resolveAll, if_neg (by rw [h s rfl]; decide)]
    rfl
  | _ => simp [resolveAll, Json.get, Json.fields]

/-! ## Agents -/

/-- What an accepted agent node's configuration has in its reference fields, once it is resolved: no
tool, and the agent it names in so many words. -/
structure Referring (w : WorkflowGraph) (cfg : Json) : Prop where
  tools : ∀ raw, cfg.get "tools" = some raw → raw = .null ∨ raw = .arr []
  agent : ∀ ref, agentRefOf cfg = some ref → ∃ definition, w.agent ref = some definition ∧
    definition.tools = []

theorem agentRef_literal (h : agentRefErrors n = []) :
    n.config.get "agent_ref" = none ∨ n.config.get "agent_ref" = some .null ∨
      ∃ ref, n.config.get "agent_ref" = some (.str ref) ∧ isExpression ref = false := by
  unfold agentRefErrors at h
  split at h
  · rename_i ref hr
    split_ifs at h with he
    exact .inr (.inr ⟨ref, hr, Bool.eq_false_iff.mpr he⟩)
  · exact .inl ‹_›
  · exact .inr (.inl ‹_›)
  · cases h

theorem tools_literal (h : toolsErrors w n = []) (hg : nodeAgentHasToolGrant w n = false) :
    ∀ raw, n.config.get "tools" = some raw → raw = .null ∨ raw = .arr [] := by
  intro raw hr
  by_cases hn : raw = .null
  · exact .inl hn
  · simp only [toolsErrors, hr, filter_some, ne_eq, hn, not_false_eq_true, decide_true, if_true] at h
    simp only [nodeAgentHasToolGrant, hr, bind_some, Bool.or_eq_false_iff] at hg
    cases raw with
    | arr it =>
      have hi : it = [] := by simpa [asArray] using hg.1
      exact .inr (congrArg arr hi)
    | _ => simp [asArray] at h

theorem referring_resolved (he : ∀ s, ex.isExpression s = isExpression s)
    (hc : ∀ s, n.config = .str s → ex.isExpression s = false)
    (hv : agentRefErrors n ++ toolsErrors w n = []) (hg : nodeAgentHasToolGrant w n = false)
    (sc) : Referring w (ex.resolveAll sc n.config) := by
  obtain ⟨hf, ht⟩ := append_eq_nil_iff.mp hv
  constructor
  · intro raw hr
    rw [get_resolveAll hc] at hr
    obtain ⟨li, hl, rfl⟩ := map_eq_some_iff.mp hr
    rcases tools_literal ht hg li hl with rfl | rfl
    · exact .inl (by simp [resolveAll])
    · exact .inr (by simp [resolveAll, resolveItems])
  · intro ref ha
    rw [agentRefOf, get_resolveAll hc] at ha
    rcases agentRef_literal hf with hn | hu | ⟨li, hl, hp⟩
    · simp [hn] at ha
    · simp [hu, resolveAll, asStr] at ha
    · have hs : ex.resolveAll sc (.str li) = .str li := by
        rw [resolveAll, he, hp]
        rfl
      simp only [hl, map_some, hs, bind_some, asStr, filter_eq_some_iff, Option.some.injEq] at ha
      obtain ⟨rfl, -⟩ := ha
      simp only [nodeAgentHasToolGrant, hl, bind_some, asStr, any_some, Bool.or_eq_false_iff] at hg
      cases hd : w.agent li with
      | none =>
        rw [hd] at hg
        exact absurd hg.2 (by simp)
      | some de =>
        rw [hd] at hg
        exact ⟨de, rfl, by simpa using hg.2⟩

section Turn

variable {ex : Expressions} {tu : AgentTurn} {w : WorkflowGraph} {ctx : ExecContext}
  {cfg sc : Json} {od : Offered}

section

variable (h : Referring w cfg)
include h

theorem Referring.electedTool (re) : electedTool cfg re = none := by
  unfold Nodes.electedTool
  cases ht : cfg.get "tools" with
  | none => cases re.get "tool_call" <;> simp
  | some raw =>
    rcases h.tools raw ht with rfl | rfl
    · simp [asArray]
    · simp [asArray]

theorem Referring.runCompletion : (runCompletion tu ctx cfg).Only Call.Inward := by
  unfold Nodes.runCompletion
  refine Program.Only.bind (tu.prepare ctx cfg).property fun re => ?_
  cases re with
  | error e => exact only_done _
  | ok re =>
    refine Program.Only.bind (only_ask trivial) fun rs => ?_
    cases rs with
    | error e => exact only_done _
    | ok va =>
      simp only [h.electedTool]
      exact (tu.finish ctx cfg va).property

theorem Referring.definition {definition} (ht : definition.tools = []) :
    (resolvedDefinition ex ctx sc definition).bind (mergeTools ctx cfg) = .ok definition := by
  have hr : resolvedDefinition ex ctx sc definition = .ok definition := by
    simp only [resolvedDefinition, ht, mapM_nil]
    rw [← ht]
    rfl
  rw [hr]
  change mergeTools ctx cfg definition = .ok definition
  unfold mergeTools
  cases ha : cfg.get "tools" with
  | none => rfl
  | some raw =>
    rcases h.tools raw ha with rfl | rfl
    · rfl
    · rfl

theorem Referring.runAgent {ref} (hr : agentRefOf cfg = some ref) :
    (runAgent ex tu w.agents ctx cfg sc ref).Only Call.Inward := by
  obtain ⟨de, hd, ht⟩ := h.agent ref hr
  unfold Nodes.runAgent resolveDefinition
  rw [show w.agents.find? (·.id = ref) = some de from hd]
  simp only [pure_eq, done_bind]
  rw [show (Except.ok de : Except EngineError AgentDefinition).bind (fun de =>
    (resolvedDefinition ex ctx sc de).bind (mergeTools ctx cfg)) = .ok de from
      h.definition ht]
  refine Program.Only.bind (tu.prepare ctx cfg).property fun re => ?_
  cases re with
  | error e => exact only_done _
  | ok re =>
    refine Program.Only.bind (only_ask trivial) fun tl => ?_
    cases tl with
    | error e => exact only_done _
    | ok _ =>
      refine Program.Only.bind (only_ask ht) fun ou => ?_
      cases ou with
      | error e => exact only_done _
      | ok va => exact (tu.finish ctx cfg va).property

theorem Referring.runTurn : (runTurn ex od tu w.agents ctx cfg sc).Only Call.Inward := by
  unfold Nodes.runTurn
  split
  · rename_i ref hr
    split_ifs
    · exact h.runAgent hr
    · exact h.runCompletion
  · exact h.runCompletion

end

end Turn

theorem eachItem_only {P ctx de f} (hf : ∀ sc, (f sc).Only P) : (eachItem ctx de f).Only P := by
  unfold eachItem
  split_ifs
  · exact Program.Only.bind (Program.Only.mapM fun item _ => hf _) fun _ => only_done _
  · exact Program.Only.bind (hf _) fun _ => only_done _

/-! ## Executors -/

/-- What a node of a cleared workflow may call: nothing outward, and no workflow that is not embedded
in its own and cleared like it. -/
def Permitted (hosting : Hosting) (w : WorkflowGraph) : Call → Prop
  | .run child => Embedded hosting.parse w child.graph ∧ Cleared hosting.parse child.graph ∧
      hosting.compile child.graph = .ok ()
  | .startTask spec => ∃ graph input, spec = .workflow graph input ∧
      ∀ u, hosting.parse graph = .ok u → Embedded hosting.parse w u ∧ Cleared hosting.parse u
  | call => call.Inward

theorem permitted_of_inward (h : call.Inward) : Permitted hosting w call := by
  cases call with
  | run ch => cases h
  | startTask spec => cases h
  | _ => exact h

theorem Permitted.not_outward (h : Permitted hosting w call) : ¬ call.Outward := by
  cases call with
  | agent definition config => exact not_not.mpr h
  | startTask spec =>
    obtain ⟨gr, input, rfl, -⟩ := h
    exact id
  | _ => first | exact id | exact fun _ => h

section Executors

variable {host : NodeHost} {w : WorkflowGraph} {ec : ExecContext}

theorem agentExecute_only (he : ∀ s, host.expressions.isExpression s = isExpression s)
    (hc : Cleared host.hosting.parse w) (hv : agentNodeErrors w = [])
    (ho : Overt host.expressions host.hosting.parse w) (hn : ec.node ∈ w.nodes)
    (hk : ec.node.kind = .agent) :
    (agentExecute host.expressions host.offered host.turn w.agents ec).Only Call.Inward := by
  refine eachItem_only fun sc => Referring.runTurn (referring_resolved he ?_ ?_ ?_ sc)
  · exact ho.agents ec.node hn hk
  · rw [agentNodeErrors, flatMap_eq_nil_iff] at hv
    exact (append_eq_nil_iff.mp (append_eq_nil_iff.mp
      (hv ec.node (mem_filter.mpr ⟨hn, decide_eq_true hk⟩))).1).1
  · exact hc.agent hn hk

section

variable (hc : Cleared host.hosting.parse w) (hn : ec.node ∈ w.nodes) (hk : ec.node.kind = .subWorkflow)
include hc hn hk

theorem runChild_only (ix sc ip) :
    (runChild host.expressions host.hosting (fun _ ch => startChild ch) host.windingDown ec
      ix sc ip).Only (Permitted host.hosting w) := by
  unfold runChild
  split
  · exact only_done _
  · rename_i ch hh
    obtain ⟨hg, ho, -, -⟩ := childRun_ok hh
    obtain ⟨hd, hr⟩ := hc.child hn hk
    obtain ⟨inline, hi, hp⟩ := childGraph_inline hd hg
    refine Program.Only.bind (only_ask ?_) fun _ => only_done _
    exact ⟨⟨ec.node, hn, .inl hk, inline, hi, hp⟩, hr inline _ hi hp, ho⟩

theorem subWorkflowExecute_only :
    (subWorkflowExecute host.expressions host.hosting (fun _ ch => startChild ch)
      host.windingDown ec).Only (Permitted host.hosting w) := by
  unfold subWorkflowExecute
  split_ifs
  · refine Program.Only.bind (Program.Only.mapM fun item _ => ?_) fun _ => only_done _
    exact Program.Only.bind (runChild_only hc hn hk _ _ _) fun _ => only_done _
  · exact Program.Only.bind (runChild_only hc hn hk _ _ _) fun _ => only_done _

end

theorem specFromConfig_workflow {co id gr ip} (h : specFromConfig co id = .ok (.workflow gr ip)) :
    co.get "workflow" = some gr := by
  unfold specFromConfig at h
  split at h
  · split at h
    · cases h
    · cases h
      assumption
  · split at h
    · cases h
    · cases h
  all_goals cases h

theorem spawnExecute_only (ho : Overt host.expressions host.hosting.parse w)
    (hn : ec.node ∈ w.nodes) (hk : ec.node.kind = .spawn) :
    (spawnExecute host.hosting host.offered ec).Only (Permitted host.hosting w) := by
  unfold spawnExecute
  split
  · exact only_done _
  · rename_i spec hs
    obtain ⟨gr, input, rfl, hl⟩ := ho.spawns ec.node hn hk spec hs
    have hi := specFromConfig_workflow hs
    have hc : ∀ u, host.hosting.parse gr = .ok u →
        Embedded host.hosting.parse w u ∧ Cleared host.hosting.parse u :=
      fun u hp => ⟨⟨ec.node, hn, .inr hk, gr, hi, hp⟩, _, hl u hp⟩
    split_ifs
    · exact Program.Only.bind (only_ask ⟨gr, input, rfl, hc⟩) fun _ =>
        only_done _
    · refine Program.Only.bind ?_ fun _ => only_done _
      rw [runInline]
      split
      · exact only_done _
      · rename_i child hp
        split
        · exact only_done _
        · rename_i hC
          refine Program.Only.bind (only_ask ?_) fun _ => only_done _
          exact ⟨(hc child hp).1, (hc child hp).2, hC⟩

theorem executorFor_only (he : ∀ s, host.expressions.isExpression s = isExpression s)
    (hc : Cleared host.hosting.parse w) (hv : agentNodeErrors w = [])
    (ho : Overt host.expressions host.hosting.parse w) (hn : ec.node ∈ w.nodes) :
    (executorFor host w ec).Only (Permitted host.hosting w) := by
  have hi := hc.kind hn
  unfold executorFor
  cases hk : ec.node.kind with
  | agent =>
    exact (agentExecute_only he hc hv ho hn hk).mono fun _ => permitted_of_inward
  | spawn => exact spawnExecute_only ho hn hk
  | subWorkflow => exact subWorkflowExecute_only hc hn hk
  | toolCall | httpRequest | code | shell => simp [hk, actsOutward] at hi
  | _ => exact (host.plain ec).property.mono fun _ => permitted_of_inward

end Executors

end Tinyflows.Catalog
