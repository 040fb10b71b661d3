import Tinyflows.Engine.Lemmas.Writes
import Tinyflows.Graph.Fates

/-!
# Where activations go

Every successor an activation names is the target of one of its node's edges, or the node itself.
-/

namespace Tinyflows.Engine
open Lib Tinyflows.Graph Model Nodes List

theorem targetsOfPort_addToGroup (gr po ta p) : targetsOfPort (addToGroup gr po ta) p =
      targetsOfPort gr p ++ if po = p then [ta] else [] := by
  induction gr with
  | nil =>
    by_cases h : po = p
    · simp [addToGroup, targetsOfPort, h]
    · simp [addToGroup, targetsOfPort, h]
  | cons g gr ih =>
    obtain ⟨q, tr⟩ := g
    simp only [addToGroup]
    by_cases hq : q = po
    · subst hq
      by_cases h : q = p
      · simp [targetsOfPort, h]
      · simp [targetsOfPort, h]
    · rw [if_neg hq]
      by_cases h : q = p
      · subst h
        simp [targetsOfPort, Ne.symm hq]
      · simpa [targetsOfPort, h] using ih

theorem targetsOfPort_outgoingByPort (w id port) :
    targetsOfPort (outgoingByPort w id) port = w.targetsOn id port := by
  have hf : ∀ (es : List Edge) (gr : List (String × List NodeId)),
      targetsOfPort (es.foldl (fun gr e => addToGroup gr e.fromPort e.toNode) gr) port =
        targetsOfPort gr port ++ (es.filter (·.fromPort = port)).map (·.toNode) := by
    intro es
    induction es with
    | nil => simp
    | cons e es ih =>
      intro gr
      rw [foldl_cons, ih, targetsOfPort_addToGroup, filter_cons, append_assoc]
      by_cases h : e.fromPort = port
      · simp [h]
      · simp [h]
  exact hf _ []

theorem mem_addToGroup {gr po ta g t} (hg : g ∈ addToGroup gr po ta) (ht : t ∈ g.2) :
    t = ta ∨ ∃ g ∈ gr, t ∈ g.2 := by
  induction gr with
  | nil =>
    obtain rfl := mem_singleton.mp hg
    exact .inl (mem_singleton.mp ht)
  | cons q gr ih =>
    obtain ⟨p, tr⟩ := q
    simp only [addToGroup] at hg
    split_ifs at hg
    · rcases mem_cons.mp hg with rfl | hg
      · rcases mem_append.mp ht with ht | ht
        · exact .inr ⟨_, mem_cons_self, ht⟩
        · exact .inl (mem_singleton.mp ht)
      · exact .inr ⟨g, mem_cons_of_mem _ hg, ht⟩
    · rcases mem_cons.mp hg with rfl | hg
      · exact .inr ⟨_, mem_cons_self, ht⟩
      · exact (ih hg).imp_right fun ⟨g, hg, ht⟩ => ⟨g, mem_cons_of_mem _ hg, ht⟩

theorem leads_of_mem_outgoingByPort {w id g t} (hg : g ∈ outgoingByPort w id) (ht : t ∈ g.2) :
    w.Leads id t := by
  have hf : ∀ (es : List Edge) (gr : List (String × List NodeId)),
      g ∈ es.foldl (fun gr e => addToGroup gr e.fromPort e.toNode) gr →
      (∃ e ∈ es, e.toNode = t) ∨ ∃ g ∈ gr, t ∈ g.2 := by
    intro es
    induction es with
    | nil => exact fun gr hg => .inr ⟨g, hg, ht⟩
    | cons e es ih =>
      intro gr hg
      rcases ih _ hg with ⟨e', he', rfl⟩ | ⟨g', hg', ht'⟩
      · exact .inl ⟨e', mem_cons_of_mem _ he', rfl⟩
      · rcases mem_addToGroup hg' ht' with rfl | hr
        · exact .inl ⟨e, mem_cons_self, rfl⟩
        · exact .inr hr
  rcases hf _ _ hg with ⟨e, he, rfl⟩ | ⟨g, hg, -⟩
  · obtain ⟨he, hF⟩ := WorkflowGraph.mem_outgoing.mp he
    exact ⟨e, he, hF, rfl⟩
  · cases hg

theorem handlerRouting_fanOut {w id t ta}
    (h : handlerRouting w id = .fanOut ta) (ht : t ∈ ta) : w.Leads id t := by
  unfold handlerRouting at h
  simp only at h
  split at h
  · cases h
  · rename_i p ts hg
    split_ifs at h
    cases h
    exact leads_of_mem_outgoingByPort (hg ▸ mem_cons_self) ht
  · split_ifs at h

theorem handlerRouting_portCommand {w id gr} (h : handlerRouting w id = .portCommand gr) :
    gr = outgoingByPort w id := by
  unfold handlerRouting at h
  simp only at h
  split at h
  · cases h
  · split_ifs at h
  · split_ifs at h
    cases h
    rfl

/-! ## The targets of an activation -/

def gotoOf : NodeResult Json Json → List (RouteTarget Json)
  | .command c => c.goto
  | _ => []

@[simp] theorem gotoOf_applyStatePatch (pa r) : gotoOf (applyStatePatch pa r) = gotoOf r := by
  cases pa <;> cases r <;> rfl

/-- Whether the handler drives all successors of the node, whatever port it emits on. -/
def fansOut (w : WorkflowGraph) (id : NodeId) : Bool :=
  match handlerRouting w id with
  | .fanOut _ => true
  | _ => false

def EdgeOn (w : WorkflowGraph) (id : NodeId) (port : Option String) (t : NodeId) : Prop :=
  ∃ e ∈ w.edges, e.fromNode = id ∧ e.toNode = t ∧ (e.fromPort = port.getD "main" ∨ fansOut w id)

theorem EdgeOn.leads {w id t po} (h : EdgeOn w id po t) : w.Leads id t := by
  obtain ⟨e, he, hf, ht, -⟩ := h
  exact ⟨e, he, hf, ht⟩

theorem edgeOn_of_targetsOfPort {w id t po}
    (h : t ∈ targetsOfPort (outgoingByPort w id) (po.getD "main")) : EdgeOn w id po t := by
  rw [targetsOfPort_outgoingByPort] at h
  obtain ⟨e, he, rfl⟩ := mem_map.mp h
  obtain ⟨he, hp⟩ := mem_filter.mp he
  obtain ⟨he, hf⟩ := WorkflowGraph.mem_outgoing.mp he
  exact ⟨e, he, hf, rfl, .inl (by simpa using hp)⟩

theorem edgeOn_of_fanOut {w id t ta} (h : handlerRouting w id = .fanOut ta) (ht : t ∈ ta) (po) :
    EdgeOn w id po t := by
  obtain ⟨e, he, hf, ho⟩ := handlerRouting_fanOut h ht
  exact ⟨e, he, hf, ho, .inr (by rw [fansOut, h])⟩

theorem laneTargets_edgeOn {w n po t}
    (h : t ∈ laneTargets (handlerData w n) po) : EdgeOn w n.id po t := by
  unfold laneTargets at h
  split at h
  · exact edgeOn_of_targetsOfPort h
  · rename_i targets hr
    exact edgeOn_of_fanOut hr h po
  · rename_i groups hr
    rw [handlerRouting_portCommand hr] at h
    exact edgeOn_of_targetsOfPort h

theorem emit_edgeOn {w n la st u po ro t} (h : t ∈ gotoOf (emit (handlerData w n) la st u po ro)) :
    EdgeOn w n.id po t.nodeId := by
  cases la with
  | some la =>
    obtain ⟨ta, ht, rfl⟩ := mem_map.mp h
    have he := laneTargets_edgeOn ht
    split_ifs
    · exact he
    · exact he
  | none =>
    simp only [emit] at h
    cases hr : (handlerData w n).routing with
    | plain =>
      rw [hr] at h
      cases h
    | fanOut tr =>
      rw [hr] at h
      obtain ⟨ta, ht, rfl⟩ := mem_map.mp h
      exact edgeOn_of_fanOut hr ht po
    | portCommand gr =>
      rw [hr] at h
      obtain ⟨ta, ht, rfl⟩ := mem_map.mp h
      rw [handlerRouting_portCommand hr] at ht
      exact edgeOn_of_targetsOfPort ht

theorem scatterTargets_leads {w n la t} (h : t ∈ scatterTargets (handlerData w n) la) :
    w.Leads n.id t.nodeId := by
  obtain ⟨x, -, ht⟩ := mem_flatMap.mp h
  obtain ⟨ta, ha, rfl⟩ := mem_map.mp ht
  obtain ⟨g, hg, hm⟩ := mem_flatMap.mp ha
  exact leads_of_mem_outgoingByPort hg hm

/-- Where an outcome sends an activation of `n`: along an edge on its port, back to its node, or into
lanes along any edge. -/
inductive SentTo (w : WorkflowGraph) (n : Node) (o : Outcome) (t : NodeId) : Prop where
  | edge (h : EdgeOn w n.id (o.port n) t)
  | again (output : NodeOutput) (ms : Nat) (ho : o = .produced output)
      (hc : output.control = some (.reenter ms)) (h : t = n.id)
  | lane (output : NodeOutput) (lanes : List (List Item)) (ho : o = .produced output)
      (hc : output.control = some (.scatter lanes)) (h : w.Leads n.id t)

theorem commit_sentTo {w n la st wa pa o r t} (hr : commit (handlerData w n) la st wa pa o = .ok r)
    (h : t ∈ gotoOf r) : SentTo w n o t.nodeId := by
  obtain ⟨r₀, hr₀, he⟩ := commit_patched hr
  replace h : t ∈ gotoOf r₀ := by
    obtain rfl | rfl := he
    · exact h
    · rwa [gotoOf_applyStatePatch] at h
  cases commits hr₀ with
  | pause | stop => cases h
  | again ho hc =>
    cases mem_singleton.mp h
    exact .again _ _ ho hc rfl
  | scatter ho hc => exact .lane _ _ ho hc (scatterTargets_leads h)
  | start ho =>
    subst ho
    exact .edge (emit_edgeOn h)
  | emit _ hp =>
    subst hp
    exact .edge (emit_edgeOn h)

theorem SentTo.leads {w n o t} (h : SentTo w n o t) : t = n.id ∨ w.Leads n.id t := by
  cases h with
  | edge h => exact .inr h.leads
  | again ou ms ho hc h => exact .inl h
  | lane ou la ho hc h => exact .inr h

theorem activate_sentTo {w n c st ctx r t}
    (hr : activate (handlerData w n) c st ctx = .ok r) (h : t ∈ gotoOf r) :
    SentTo w n (outcome (handlerData w n) c st ctx).1 t.nodeId :=
  commit_sentTo hr h

end Tinyflows.Engine
