import Tinyflows.Catalog.Lemmas.GraphPolicy

/-!
# Completeness of the side-effect scan

What a workflow may do once no approval is required for it.
-/

namespace Tinyflows.Catalog
open Lib Tinyflows.Graph Model Nodes Engine Validate

section Runs

variable {host : NodeHost} {w : WorkflowGraph} {call : Call}

theorem nodeMakes_permitted (he : ∀ s, host.expressions.isExpression s = isExpression s)
    (hc : Cleared host.hosting.parse w) (hv : agentNodeErrors w = [])
    (ho : Overt host.expressions host.hosting.parse w) (h : NodeMakes host w call) :
    Permitted host.hosting w call := by
  obtain ⟨l, i, n, ctx, patch, -, hs, hm⟩ := h
  exact executorFor_only he hc hv ho hs.mem call hm

/-- By induction on how the call comes about: each workflow that is started is embedded in the one that
starts it, cleared, and compiled. -/
theorem invokes_not_outward (he : ∀ s, host.expressions.isExpression s = isExpression s)
    (hm : ∀ v, host.hosting.compile v = .ok () → agentNodeErrors v = [])
    (h : Invokes host w call) (hc : Cleared host.hosting.parse w) (ha : agentNodeErrors w = [])
    (ho : ∀ v, Relation.ReflTransGen (Embedded host.hosting.parse) w v →
      Overt host.expressions host.hosting.parse v) : ¬ call.Outward := by
  induction h with
  | own h => exact (nodeMakes_permitted he hc ha (ho _ .refl) h).not_outward
  | child child h _ ih =>
    obtain ⟨hh, hc', hC⟩ := nodeMakes_permitted he hc ha (ho _ .refl) h
    exact ih hc' (hm _ hC) fun v hv => ho v (.head hh hv)
  | background graph input h hp hC _ ih =>
    obtain ⟨_, _, hs, hh⟩ := nodeMakes_permitted he hc ha (ho _ .refl) h
    obtain ⟨rfl, rfl⟩ := TaskSpec.workflow.inj hs
    obtain ⟨hh, hc'⟩ := hh _ hp
    exact ih hc' (hm _ hC) fun v hv => ho v (.head hh hv)

end Runs

/-- No run of a workflow for which no approval is required acts on the world, as long as the
configurations of the workflow and of those embedded in it say what their nodes do. -/
theorem unapproved_runs_inward (host : NodeHost)
    (hex : ∀ s, host.expressions.isExpression s = isExpression s)
    (hcompile : ∀ v, host.hosting.compile v = .ok () → agentNodeErrors v = [])
    (w : WorkflowGraph) (hw : host.hosting.compile w = .ok ())
    (hoff : (enforceSideEffectApproval host.hosting.parse w false).1 = false)
    (hovert : ∀ v, Relation.ReflTransGen (Embedded host.hosting.parse) w v →
      Overt host.expressions host.hosting.parse v) :
    ∀ call, Invokes host w call → ¬ call.Outward := by
  intro call h
  refine invokes_not_outward hex hcompile h ⟨MAX_SUB_WORKFLOW_DEPTH, ?_⟩ (hcompile w hw) hovert
  simpa [enforceSideEffectApproval, graphHasOutboundSideEffect] using hoff

/-! ## A host -/

def plainHost : NodeHost where
  expressions := { noExpressions with isExpression := isExpression }
  hosting := { alone.hosting with
    compile := fun w =>
      if validateAll (.sorted NodeId) (.sortedPairs NodeId) w = [] then .ok ()
      else .error (.other "not a valid workflow") }
  offered := { agents := true, tasks := false, shell := true }
  parseJson _ := .null
  turn := {
    prepare := fun _ cfg => ⟨.done (.ok cfg), Program.only_done _⟩
    finish := fun _ _ value => ⟨.done (.ok { json := value }), Program.only_done _⟩ }
  plain ctx := ⟨.done (.ok (.main ctx.input)), Program.only_done _⟩
  windingDown := false

theorem plainHost_compile (v) (h : plainHost.hosting.compile v = .ok ()) :
    agentNodeErrors v = [] := by
  simp only [plainHost] at h
  split_ifs at h with hv
  exact (List.append_eq_nil_iff.mp (validateAll_nil_iff.mp hv).agents).2

def embeddedIn (parse : Json → Except String WorkflowGraph) (w : WorkflowGraph) : List WorkflowGraph :=
  w.nodes.flatMap fun n => (n.config.get "workflow").toList.flatMap fun inline =>
    (parse inline).toOption.toList

variable {parse : Json → Except String WorkflowGraph} {w : WorkflowGraph}

theorem Embedded.mem {u} (h : Embedded parse w u) : u ∈ embeddedIn parse w := by
  obtain ⟨n, hn, -, inline, hi, hp⟩ := h
  simp only [embeddedIn, List.mem_flatMap, Option.mem_toList]
  exact ⟨n, hn, inline, hi, by rw [hp]; rfl⟩

def idle : Json :=
  chainJson [("t", "trigger", .null)]

/-- Runs an idle workflow in the background and another as a child, after an agent without tools. -/
def harmless : WorkflowGraph :=
  chain [("t", "trigger", .null), ("a", "agent", .object [("prompt", .str "greet")]),
    ("s", "spawn", .object [("target", .str "workflow"), ("workflow", idle)]),
    ("c", "sub_workflow", embedding idle)]

theorem overt_of_config {ex} (ha : ∀ n ∈ w.nodes, n.config.asStr = none)
    (hp : ∀ n ∈ w.nodes, n.kind = .spawn → ∃ graph ∈ n.config.get "workflow",
      (specFromConfig n.config n.id).toOption = some (.workflow graph .null) ∧
      ∀ u ∈ (parse graph).toOption, graphHasOutboundSideEffect parse u = false) : Overt ex parse w := by
  refine ⟨fun n hn _ s hs => ?_, fun n hn hk spec hc => ?_⟩
  · have ho := ha n hn
    rw [hs] at ho
    cases ho
  · obtain ⟨graph, -, hS, hl⟩ := hp n hn hk
    rw [hc] at hS
    cases hS
    exact ⟨graph, .null, rfl, fun u hu => hl u (by rw [hu]; rfl)⟩

theorem harmless_overt (v)
    (h : Relation.ReflTransGen (Embedded plainHost.hosting.parse) harmless v) :
    Overt plainHost.expressions plainHost.hosting.parse v := by
  have hi : embeddedIn plainHost.hosting.parse (chain [("t", "trigger", .null)]) = [] := by
    decide +kernel
  have hh : ∀ u ∈ embeddedIn plainHost.hosting.parse harmless, u = chain [("t", "trigger", .null)] := by
    decide +kernel
  have hr : v = harmless ∨ v = chain [("t", "trigger", .null)] := by
    induction h with
    | refl => exact .inl rfl
    | tail _ hl ih =>
      rcases ih with rfl | rfl
      · exact .inr (hh _ hl.mem)
      · have hm := hl.mem
        rw [hi] at hm
        cases hm
  rcases hr with rfl | rfl
  · exact overt_of_config (by decide +kernel) (by decide +kernel)
  · exact overt_of_config (by decide +kernel) (by decide +kernel)

theorem harmless_inward :
    plainHost.hosting.compile harmless = .ok () ∧
      ∀ call, Invokes plainHost harmless call → ¬ call.Outward :=
  ⟨by decide +kernel, unapproved_runs_inward plainHost (fun _ => rfl) plainHost_compile harmless
    (by decide +kernel) (by decide +kernel) harmless_overt⟩

def mailing : WorkflowGraph :=
  chain [("t", "trigger", .null),
    ("m", "spawn", .object [("target", .str "tool"), ("slug", .str "mail.send")])]

def mailingBoundaries : List (Loop Json Json) :=
  let g := graphOf mailing (by decide +kernel)
  boundaries g (runtimeOf mailing undisturbed) (some "thread") 1
    (freshLoop {} (.obj []) [{ node := g.entry }])

theorem reachedIn_of_boundaries {c state budget th}
    (h : (buildGraph (.sorted NodeId) w).toOption.isSome) (hi : w.ids.Nodup) :
    ∀ l ∈ boundaries (graphOf w h) (runtimeOf w c) (some th) budget
      (freshLoop {} state [{ node := (graphOf w h).entry }]), ReachedIn w l := by
  intro l hl
  have hs : Steps (graphOf w h) (runtimeOf w c) th
      (freshLoop {} state [{ node := (graphOf w h).entry }]) l :=
    boundaries_ind (fun _ _ hr hp => hr.tail hp) .refl l hl
  exact .intro (buildGraph_graphOf h) (conforms_runtimeOf hi c) (.inl ⟨{}, state, rfl⟩) hs

theorem executorFor_spawned_tool {host ectx slug args}
    (hk : ectx.node.kind = .spawn) (ht : host.offered.tasks = false)
    (hs : specFromConfig ectx.node.config ectx.node.id = .ok (.tool slug args)) :
    (executorFor host w ectx).Makes (.tool slug args none) := by
  rw [executorFor, hk]
  simp only [spawnExecute, hs, ht, runInline]
  exact .inl rfl

/-- No approval is required for a workflow that calls a tool from a spawn node. -/
theorem spawned_tool_unapproved :
    plainHost.hosting.compile mailing = .ok () ∧
      (enforceSideEffectApproval plainHost.hosting.parse mailing false).1 = false ∧
      ∃ call, Invokes plainHost mailing call ∧ call.Outward := by
  refine ⟨by decide +kernel, by decide +kernel, .tool "mail.send" .null none, .own ?_, trivial⟩
  obtain ⟨l, hl, hactive, hresume⟩ : ∃ l ∈ mailingBoundaries,
      l.active = [{ node := "m" }] ∧ resumeValues l.active l.resumeMap = [none] := by
    decide +kernel
  obtain ⟨n, hn, hid, hkind, hspec⟩ : ∃ n ∈ mailing.nodes, n.id = "m" ∧ n.kind = .spawn ∧
      (specFromConfig n.config n.id).toOption = some (.tool "mail.send" .null) := by
    decide +kernel
  have hstart : StartsAt mailing l 0 n
      { nodeId := "m", runId := "run", threadId := some "thread", step := l.steps + 1, resume := none,
        fork := none, sendArg := none } :=
    { mem := hn
      active := ⟨{ node := "m" }, by rw [hactive]; rfl, hid, rfl, rfl, rfl⟩
      resume := by rw [hresume]; rfl }
  refine ⟨l, 0, n, _, none, reachedIn_of_boundaries _ (by decide +kernel) l hl, hstart, ?_⟩
  refine executorFor_spawned_tool hkind rfl ?_
  change specFromConfig n.config n.id = _
  cases hok : specFromConfig n.config n.id with
  | error e =>
    rw [hok] at hspec
    cases hspec
  | ok spec =>
    rw [hok] at hspec
    cases hspec
    rfl

end Tinyflows.Catalog
