import Tinyflows.Engine.Wiring
import Tinyflows.Graph.Routing

/-!
# What a workflow is lowered to

The compiled graph, node by node: what the lowering of a node says about its edges, branches,
destinations and barriers, and how the node therefore routes.
-/

namespace Tinyflows.Engine
open Lib Tinyflows.Graph Model Nodes List GraphBuilder Lowering Except HashMap

/-! ## One node -/

namespace Lowering

def staticTarget : Lowering → Option NodeId
  | .finish => some END
  | .waiting target => some target
  | .edge target => some target
  | _ => none

def branch (id : NodeId) : Lowering → Option (Branch Json)
  | .onlyOn port target => some {
      router := fun state => if portOf id state = port then port else END
      routes := collect [(port, target), (END, END)] }
  | .choice routes => some { router := portOf id, routes := collect routes }
  | _ => none

def destinations : Lowering → Option NodeMeta
  | .fanOut targets => some { commandDestinations := targets, commandFanout := true }
  | .command targets => some { commandDestinations := targets, commandFanout := false }
  | _ => none

end Lowering

theorem lower_edges (b id l k) :
    (lower b id l).edges.lookup k =
      if k = id then l.staticTarget.or (b.edges.lookup k) else b.edges.lookup k := by
  by_cases h : k = id
  · subst h
    rw [if_pos rfl]
    cases l <;> simp [lower, staticTarget, addEdge, addWaitingEdge,
      addConditionalEdges, withCommandDestinations,
      withUnconditionalFanout]
  · rw [if_neg h]
    cases l <;> simp [lower, addEdge, addWaitingEdge, h, addConditionalEdges, withCommandDestinations,
      withUnconditionalFanout]

theorem lower_branches (b id l k) :
    (lower b id l).branches.lookup k =
      if k = id then (l.branch id).or (b.branches.lookup k) else b.branches.lookup k := by
  by_cases h : k = id
  · subst h
    rw [if_pos rfl]
    cases l <;> simp [lower, branch, addEdge, addWaitingEdge,
      addConditionalEdges, withCommandDestinations,
      withUnconditionalFanout]
  · rw [if_neg h]
    cases l <;> simp [lower, addEdge, addWaitingEdge, h, addConditionalEdges, withCommandDestinations,
      withUnconditionalFanout]

theorem lower_nodeMeta (b id l k)
    (h : b.nodeMeta.lookup id = none ∨ b.nodeMeta.lookup id = l.destinations) :
    (lower b id l).nodeMeta.lookup k =
      if k = id then l.destinations.or (b.nodeMeta.lookup k) else b.nodeMeta.lookup k := by
  by_cases hk : k = id
  · subst hk
    rw [if_pos rfl]
    rcases h with h | h
    · cases l <;> simp [lower, destinations, addEdge, addWaitingEdge,
        addConditionalEdges, withCommandDestinations,
        withUnconditionalFanout, h]
    · cases l <;> simp [lower, destinations, addEdge, addWaitingEdge,
        addConditionalEdges, withCommandDestinations,
        withUnconditionalFanout, h]
  · rw [if_neg hk]
    cases l <;> simp [lower, addEdge, addWaitingEdge, hk, addConditionalEdges, withCommandDestinations,
      withUnconditionalFanout]

theorem lower_waiting (b id l t) :
    ((lower b id l).waiting.lookup t).getD ∅ =
      if l = .waiting t then insert id ((b.waiting.lookup t).getD ∅)
      else (b.waiting.lookup t).getD ∅ := by
  cases l with
  | waiting ta =>
    by_cases h : ta = t
    · subst h
      simp [lower, addWaitingEdge]
    · rw [if_neg (by simpa using h)]
      simp [lower, addWaitingEdge, Finmap.lookup_insert_of_ne _ (Ne.symm h)]
  | _ => simp [lower, addEdge, addConditionalEdges, withCommandDestinations, withUnconditionalFanout]

theorem lower_commandNodes (b id l k) :
    k ∈ (lower b id l).commandNodes ↔ k = id ∧ l.destinations.isSome ∨ k ∈ b.commandNodes := by
  cases l <;> simp [lower, destinations, addEdge, addWaitingEdge,
    addConditionalEdges, withCommandDestinations,
    withUnconditionalFanout]

structure SameSettings (b b' : Builder) : Prop where
  nodes : b'.nodes = b.nodes
  reducer : b'.reducer = b.reducer
  recursionLimit : b'.recursionLimit = b.recursionLimit
  parallel : b'.parallel = b.parallel
  maxConcurrency : b'.maxConcurrency = b.maxConcurrency

theorem SameSettings.refl (b) : SameSettings b b := ⟨rfl, rfl, rfl, rfl, rfl⟩

theorem SameSettings.trans {a b c} (h : SameSettings a b) (h' : SameSettings b c) :
    SameSettings a c :=
  ⟨h'.nodes.trans h.nodes, h'.reducer.trans h.reducer, h'.recursionLimit.trans h.recursionLimit,
    h'.parallel.trans h.parallel, h'.maxConcurrency.trans h.maxConcurrency⟩

theorem lower_settings (b id l) : SameSettings b (lower b id l) := by
  cases l <;> exact ⟨rfl, rfl, rfl, rfl, rfl⟩

theorem lower_reliefs (b id l) : (lower b id l).barrierReliefs = b.barrierReliefs := by
  cases l <;> rfl

/-! ## All nodes -/

variable (w : WorkflowGraph)

def lowerAll (b : Builder) (ids : List NodeId) : Builder :=
  ids.foldl (fun b id => lower b id (lowering w id)) b

theorem lowerAll_lookup {β : Type} (lo : Builder → NodeId → Option β) (val : NodeId → Option β)
    (P : Builder → Prop) (hP : ∀ b id, P b → P (lower b id (lowering w id)))
    (hs : ∀ b id k, P b → lo (lower b id (lowering w id)) k =
      if k = id then (val id).or (lo b k) else lo b k) {b}
    (hb : P b) (ids k) : lo (lowerAll w b ids) k = if k ∈ ids then (val k).or (lo b k) else lo b k := by
  induction ids generalizing b with
  | nil => rfl
  | cons id ids ih =>
    rw [lowerAll, foldl_cons, ← lowerAll, ih (hP b id hb), hs b id k hb]
    by_cases hk : k = id
    · subst hk
      rw [if_pos rfl, if_pos mem_cons_self]
      by_cases hm : k ∈ ids
      · rw [if_pos hm]
        cases val k with
        | none => rfl
        | some v => rfl
      · rw [if_neg hm]
    · rw [if_neg hk]
      simp only [mem_cons, hk, false_or]

theorem lowerAll_edges (b) (ids : List NodeId) (k : NodeId) :
    (lowerAll w b ids).edges.lookup k =
      if k ∈ ids then (lowering w k).staticTarget.or (b.edges.lookup k) else b.edges.lookup k :=
  lowerAll_lookup w (fun b k => b.edges.lookup k) (fun k => (lowering w k).staticTarget)
    (fun _ => True) (fun _ _ _ => trivial) (fun b id k _ => lower_edges b id (lowering w id) k)
    trivial ids k

theorem lowerAll_branches (b) (ids : List NodeId) (k : NodeId) :
    (lowerAll w b ids).branches.lookup k =
      if k ∈ ids then ((lowering w k).branch k).or (b.branches.lookup k) else b.branches.lookup k :=
  lowerAll_lookup w (fun b k => b.branches.lookup k) (fun k => (lowering w k).branch k)
    (fun _ => True) (fun _ _ _ => trivial) (fun b id k _ => lower_branches b id (lowering w id) k)
    trivial ids k

theorem lowerAll_nodeMeta {b} (hb : b.nodeMeta = ∅) (ids) (k : NodeId) :
    (lowerAll w b ids).nodeMeta.lookup k =
      if k ∈ ids then (lowering w k).destinations else none := by
  rw [lowerAll_lookup w (fun b k => b.nodeMeta.lookup k) (fun k => (lowering w k).destinations)
    (fun b => ∀ k, b.nodeMeta.lookup k = none ∨ b.nodeMeta.lookup k = (lowering w k).destinations)
    ?_ (fun b id k hb => lower_nodeMeta b id _ k (hb id)) (fun k => .inl (by rw [hb]; rfl)) ids k, hb]
  · simp
  · intro b id hb k
    rw [lower_nodeMeta b id _ k (hb id)]
    split_ifs with hk
    · subst hk
      rcases hb k with h | h
      · exact .inr (by rw [h, Option.or_none])
      · exact .inr (by rw [h, Option.or_self])
    · exact hb k

theorem lowerAll_waiting (b ids t) :
    ((lowerAll w b ids).waiting.lookup t).getD ∅ =
      (b.waiting.lookup t).getD ∅ ∪ (ids.filter fun id => lowering w id = .waiting t).toFinset := by
  induction ids generalizing b with
  | nil => simp [lowerAll]
  | cons id ids ih =>
    rw [lowerAll, foldl_cons, ← lowerAll, ih, lower_waiting, filter_cons]
    split_ifs with h h' h'
    · ext x
      simp only [Finset.mem_union, Finset.mem_insert, mem_toFinset, mem_cons]
      tauto
    · simp [h] at h'
    · simp [h] at h'
    · rfl

theorem lowerAll_commandNodes (b ids k) :
    k ∈ (lowerAll w b ids).commandNodes ↔
      k ∈ ids ∧ (lowering w k).destinations.isSome ∨ k ∈ b.commandNodes := by
  induction ids generalizing b with
  | nil => simp [lowerAll]
  | cons id ids ih =>
    rw [lowerAll, foldl_cons, ← lowerAll, ih, lower_commandNodes, mem_cons]
    constructor
    · rintro (⟨hk, hd⟩ | ⟨rfl, hd⟩ | hk)
      · exact .inl ⟨.inr hk, hd⟩
      · exact .inl ⟨.inl rfl, hd⟩
      · exact .inr hk
    · rintro (⟨rfl | hk, hd⟩ | hk)
      · exact .inr (.inl ⟨rfl, hd⟩)
      · exact .inl ⟨hk, hd⟩
      · exact .inr (.inr hk)

theorem lowerAll_settings (b ids) :
    SameSettings b (lowerAll w b ids) ∧ (lowerAll w b ids).barrierReliefs = b.barrierReliefs := by
  induction ids generalizing b with
  | nil => exact ⟨.refl b, rfl⟩
  | cons id ids ih =>
    rw [lowerAll, foldl_cons, ← lowerAll]
    obtain ⟨hs, hr⟩ := ih (lower b id (lowering w id))
    exact ⟨(lower_settings b id _).trans hs, hr.trans (lower_reliefs b id _)⟩

theorem registerHandlers_nodes (b k) :
    k ∈ (registerHandlers w b).nodes ↔ k ∈ w.ids ∨ k ∈ b.nodes := by
  unfold registerHandlers WorkflowGraph.ids
  induction w.nodes generalizing b with
  | nil => simp
  | cons n nd ih =>
    rw [foldl_cons, ih, map_cons, mem_cons]
    simp only [addNode, Finset.mem_insert]
    tauto

theorem registerHandlers_eq (b) :
    registerHandlers w b = { b with nodes := (registerHandlers w b).nodes } := by
  unfold registerHandlers
  induction w.nodes generalizing b with
  | nil => rfl
  | cons n nodes ih =>
    rw [foldl_cons, ih (b.addNode n.id)]
    rfl

theorem addReliefs_eq (re : List BarrierRelief) (b : Builder) :
    re.foldl (fun b r => b.addBarrierRelief r.source r.reliefNode r.barrierNode) b =
      { b with barrierReliefs := b.barrierReliefs ++ re } := by
  induction re generalizing b with
  | nil => simp
  | cons r re ih =>
    rw [foldl_cons, ih]
    simp [addBarrierRelief]

structure Lowered (ord : IterOrder NodeId) (w : WorkflowGraph) (g : CompiledGraph Json Json Json) :
    Prop where
  nodes : ∀ id, id ∈ g.nodes ↔ id ∈ w.ids
  entry : START ∉ w.ids → ∃ t, w.trigger = some t ∧ g.entry = t.id
  edges : ∀ id ∈ w.ids, g.edges.lookup id = (lowering w id).staticTarget
  branches : ∀ id ∈ w.ids, g.branches.lookup id = (lowering w id).branch id
  nodeMeta : ∀ id, g.nodeMeta.lookup id = if id ∈ w.ids then (lowering w id).destinations else none
  waiting : ∀ t, (g.waiting.lookup t).getD ∅ =
    (w.ids.filter fun id => lowering w id = .waiting t).toFinset
  reliefs : g.barrierReliefs = w.nodes.flatMap fun n => reliefsOf ord w n.id
  reducer : ∀ s u, g.reducer s u = .ok (merge s u)
  parallel : g.parallel = true
  checkpointer : g.checkpointer = true
  runDeadline : g.runDeadline = none
  recursionFrames : g.recursionFrames = 0
  durability : g.durability = .sync
  limits : ∃ t, w.trigger = some t ∧ g.recursionPolicy = recursionPolicy t {} ∧
    g.recursionLimit = (positiveKnob t.config "recursion_limit").getD ((derivedLimit w).getD 50)

theorem Lowered.depth {ord w g}
    (h : Lowered ord w g) : ¬ g.recursionPolicy.maxDepth < g.recursionFrames + 1 := by
  obtain ⟨t, -, hp, -⟩ := h.limits
  rw [h.recursionFrames, hp, recursionPolicy]
  split <;> simp

theorem wireGraph_eq (ord) (w : WorkflowGraph) (ti b) :
    wireGraph ord w ti b =
      { lowerAll w (b.setEntry ti) w.ids with
        barrierReliefs := (lowerAll w (b.setEntry ti) w.ids).barrierReliefs ++
          w.nodes.flatMap fun n => reliefsOf ord w n.id } := by
  rw [wireGraph, addReliefs_eq, lowerAll, WorkflowGraph.ids, foldl_map]

/-- A node whose edges are not static has its own entry elsewhere, which the checks of the topology
do not allow beside a static one. -/
theorem edges_of_compiles {w} {b : Builder} (hb : b.Compiles) {id}
    (hs : ∀ ta, (lowering w id).staticTarget = some ta → b.edges.lookup id = some ta)
    (hr : b.branches.lookup id = (lowering w id).branch id)
    (hc : (lowering w id).destinations.isSome → id ∈ b.commandNodes) :
    b.edges.lookup id = (lowering w id).staticTarget := by
  cases hl : (lowering w id).staticTarget with
  | some ta => exact hs ta hl
  | none =>
    rw [Finmap.lookup_eq_none, ← Finmap.mem_keys]
    cases ho : lowering w id with
    | fanOut tr => exact (hb.commands id (hc (by rw [ho]; rfl))).2.1
    | command tr => exact (hb.commands id (hc (by rw [ho]; rfl))).2.1
    | onlyOn po ta =>
      rw [ho] at hr
      exact (hb.branches id _ hr).2.1
    | choice ro =>
      rw [ho] at hr
      exact (hb.branches id _ hr).2.1
    | _ =>
      rw [ho] at hl
      cases hl

theorem lowered_of_buildGraph {ord} {w : WorkflowGraph}
    {g} (h : buildGraph ord w = .ok g) : Lowered ord w g := by
  unfold buildGraph at h
  split at h
  · cases h
  · rename_i t ht
    dsimp only at h
    split at h
    · cases h
    · rename_i g₀ hc
      obtain rfl := ok.inj h
      rw [wireGraph_eq] at hc
      obtain ⟨hb, rfl⟩ := compile_ok hc
      clear hc h
      revert hb
      generalize hS : (registerHandlers w (withLimits w t emptyBuilder)).setEntry t.id = b
      intro hb
      have hb₀ : b = { registerHandlers w (withLimits w t emptyBuilder) with
          edges := (∅ : HashMap NodeId NodeId).insert START t.id } := by
        rw [← hS, registerHandlers_eq]
        rfl
      have hn : ∀ id, b.branches.lookup id = none := by
        intro id
        rw [hb₀, registerHandlers_eq]
        rfl
      obtain ⟨hs, he⟩ := lowerAll_settings w b w.ids
      have hB : ∀ id ∈ w.ids, (lowerAll w b w.ids).branches.lookup id = (lowering w id).branch id := by
        intro id hi
        rw [lowerAll_branches, if_pos hi, hn, Option.or_none]
      refine {
        nodes := fun id => ?_
        entry := fun hS => ⟨t, ht, ?_⟩
        edges := fun id hi => ?_
        branches := hB
        nodeMeta := fun id => ?_
        waiting := fun ta => ?_
        reliefs := ?_
        reducer := fun s u => ?_
        parallel := ?_
        checkpointer := rfl
        runDeadline := rfl
        recursionFrames := rfl
        durability := rfl
        limits := ⟨t, ht, rfl, ?_⟩ }
      · show id ∈ (lowerAll w b w.ids).nodes ↔ _
        rw [hs.nodes, hb₀]
        exact (registerHandlers_nodes w _ id).trans (by simp [withLimits, emptyBuilder])
      · show ((lowerAll w b w.ids).edges.lookup START).get _ = t.id
        simp only [lowerAll_edges, if_neg hS, hb₀, Finmap.lookup_insert, Option.get_some]
      · refine edges_of_compiles hb (fun ta ha => ?_) (hB id hi) fun hd => ?_
        · show (lowerAll w b w.ids).edges.lookup id = _
          rw [lowerAll_edges, if_pos hi, ha, Option.some_or]
        · exact (lowerAll_commandNodes w b w.ids id).mpr (.inl ⟨hi, hd⟩)
      · refine lowerAll_nodeMeta w ?_ w.ids id
        rw [hb₀, registerHandlers_eq]
        rfl
      · refine (lowerAll_waiting w b w.ids ta).trans ?_
        rw [hb₀, registerHandlers_eq]
        simp [withLimits, emptyBuilder]
      · show (lowerAll w b w.ids).barrierReliefs ++ _ = _
        rw [he, hb₀, registerHandlers_eq]
        rfl
      · have hr : (lowerAll w b w.ids).reducer = some fun st up => .ok (merge st up) := by
          rw [hs.reducer, hb₀, registerHandlers_eq]
          rfl
        exact congrFun (congrFun (Option.get_of_eq_some _ hr) s) u
      · show (lowerAll w b w.ids).parallel = true
        rw [hs.parallel, hb₀, registerHandlers_eq]
        rfl
      · show (lowerAll w b w.ids).recursionLimit = _
        rw [hs.recursionLimit, hb₀, registerHandlers_eq]
        rfl

/-! ## Routing by the edges -/

def followed (id : NodeId) (state : Json) : Except GraphError (List NodeId) :=
  match lowering w id with
  | .finish => .ok [END]
  | .fanOut _ | .command _ => .ok []
  | .onlyOn port target => .ok [if portOf id state = port ∧ port ≠ END then target else END]
  | .waiting target | .edge target => .ok [target]
  | .choice routes =>
    match (collect routes).lookup (portOf id state) with
    | some target => .ok [target]
    | none => .error (.missingRoute id (portOf id state))

def Lowering.Describes (id : NodeId) : Lowering → Prop
  | .finish => w.outgoing id = []
  | .fanOut targets => handlerRouting w id = .fanOut targets
  | .command targets => ∃ groups, handlerRouting w id = .portCommand groups ∧
      targets = groups.flatMap (·.2)
  | .onlyOn port target => handlerRouting w id = .plain ∧ ∃ e, w.outgoing id = [e] ∧
      e.fromPort = port ∧ e.toNode = target ∧ port ≠ "main"
  | .waiting target => handlerRouting w id = .plain ∧ ∃ e, w.outgoing id = [e] ∧
      e.fromPort = "main" ∧ e.toNode = target ∧ isBackEdge w e = false ∧ 1 < incomingCount w target
  | .edge target => handlerRouting w id = .plain ∧ ∃ e, w.outgoing id = [e] ∧
      e.fromPort = "main" ∧ e.toNode = target ∧ (isBackEdge w e ∨ incomingCount w target ≤ 1)
  | .choice routes => handlerRouting w id = .plain ∧
      routes = (w.outgoing id).map (fun e => (e.fromPort, e.toNode)) ∧ 2 ≤ (w.outgoing id).length

theorem lowering_describes (id) : (lowering w id).Describes w id := by
  unfold lowering
  split
  · assumption
  · rename_i outgoing ho
    split
    · assumption
    · rename_i groups hg
      exact ⟨groups, hg, rfl⟩
    · rename_i hl
      split
      · rename_i e he
        split_ifs with hp ha
        · exact ⟨hl, e, he, rfl, rfl, hp⟩
        · simp only [Bool.not_eq_true', not_not] at hp ha
          exact ⟨hl, e, he, hp, rfl, ha⟩
        · simp only [Bool.not_eq_true', not_not, not_and, not_lt] at hp ha
          refine ⟨hl, e, he, hp, rfl, ?_⟩
          cases hb : isBackEdge w e with
          | true => exact .inl rfl
          | false => exact .inr (ha hb)
      · rename_i hm
        refine ⟨hl, rfl, ?_⟩
        rcases hi : w.outgoing id with _ | ⟨e, _ | ⟨e', re⟩⟩
        · exact absurd hi ho
        · exact absurd hi (hm e)
        · simp

theorem route_lowered {ord w g} (h : Lowered ord w g) {id} (hi : id ∈ w.ids) (st) :
    route g id none st = (followed w id st).map (·.map .node) := by
  simp only [route, h.edges id hi, h.branches id hi, followed]
  cases lowering w id with
  | onlyOn po tg =>
    simp only [staticTarget, branch]
    by_cases hp : portOf id st = po
    · rw [if_pos hp]
      by_cases he : po = END
      · subst he
        simp [collect, Except.map]
      · have hl : (collect [(po, tg), (END, END)]).lookup po = some tg := by
          simp [collect, Finmap.lookup_insert_of_ne _ he]
        simp [hl, hp, he, Except.map]
    · rw [if_neg hp]
      simp [collect, hp, Except.map]
  | choice ro =>
    simp only [staticTarget, branch]
    cases (collect ro).lookup (portOf id st) with
    | some tg => rfl
    | none => rfl
  | _ => rfl

/-- A node that leaves its successors to its edges follows one on the port it recorded, or its only
edge on the default port. -/
theorem followed_edge {w id t state targets}
    (h : followed w id state = .ok targets) (ht : t ∈ targets) (hd : t ≠ END) :
    ∃ e ∈ w.edges, e.fromNode = id ∧ e.toNode = t ∧
      (e.fromPort = portOf id state ∨ e.fromPort = "main") := by
  have hn : ∀ e, w.outgoing id = [e] → e ∈ w.edges ∧ e.fromNode = id := fun e he =>
    WorkflowGraph.mem_outgoing.mp (he ▸ mem_singleton_self e)
  have hs := lowering_describes w id
  unfold followed at h
  cases hl : lowering w id with
  | finish =>
    simp only [hl, ok.injEq] at h
    subst h
    exact absurd (mem_singleton.mp ht) hd
  | fanOut _ | command _ =>
    simp only [hl, ok.injEq] at h
    subst h
    cases ht
  | onlyOn port tg =>
    simp only [hl, ok.injEq] at h hs
    subst h
    obtain ⟨-, e, he, ho, hto, -⟩ := hs
    rw [mem_singleton] at ht
    split_ifs at ht with hp
    · exact ⟨e, (hn e he).1, (hn e he).2, hto.trans ht.symm, .inl (ho.trans hp.1.symm)⟩
    · exact absurd ht hd
  | waiting tg | edge tg =>
    simp only [hl, ok.injEq] at h hs
    subst h
    obtain ⟨-, e, he, ho, hto, -⟩ := hs
    obtain rfl := mem_singleton.mp ht
    exact ⟨e, (hn e he).1, (hn e he).2, hto, .inr ho⟩
  | choice routes =>
    simp only [hl] at h hs
    obtain ⟨-, rfl, -⟩ := hs
    split at h
    · rename_i tg hk
      cases h
      obtain rfl := mem_singleton.mp ht
      obtain ⟨e, he, hq⟩ := mem_map.mp (mem_of_lookup_collect hk)
      obtain ⟨ho, hto⟩ := Prod.mk.inj hq
      obtain ⟨he, hf⟩ := WorkflowGraph.mem_outgoing.mp he
      exact ⟨e, he, hf, hto, .inl ho⟩
    · cases h

end Tinyflows.Engine
