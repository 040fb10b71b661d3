import Tinyflows.Engine.Delivery
import Tinyflows.Engine.Lemmas.Outcomes
import Tinyflows.Engine.Lemmas.Steps
import Tinyflows.Graph.Lemmas.Starts

/-!
# What a run is told

The metadata a run starts with says which gates are approved, every super-step keeps it, and a child
is told what its parent's trigger lists for it.
-/

namespace Tinyflows.Engine
open Lib Tinyflows.Graph Model Nodes List Approvals Json Prod

/-! ## The metadata of a run -/

def metaOf (key : String) (state : Json) : Option Json :=
  (state.get "run").bind (·.get key)

variable {key : String} {ctx : NodeContext Json} {state sc : Json} {l : Loop Json Json}
  {w gr : WorkflowGraph} {ids : Option Json} {a : Approvals} {ec : ExecContext} {ex : Expressions}
  {host : Hosting} {nd ga : NodeId} {inp : RunInput} {pa : List NodeId}

theorem metaOf_runMeta {fl} (hk : key ∉ fl.map fst) (hr : REPLACE ∉ fl.map fst) (state) :
    metaOf key (merge state (runMeta fl)) = metaOf key state := by
  have hm : ∀ v, insertFields [] fl ≠ [(REPLACE, v)] := by
    intro v h
    have hv : (REPLACE, v) ∈ insertFields [] fl := by
      rw [h]
      exact mem_singleton_self _
    rcases mem_insertFields hv with hv | hv
    · cases hv
    · exact hr (mem_map_of_mem hv)
  have ho : Json.Ordered (insertFields [] fl) :=
    Json.Ordered.insertFields List.Pairwise.nil fl
  rw [metaOf, runMeta, get_merge_single (by decide), Option.bind_some, object, merge_obj hm,
    get_obj, lookup_mergeFields ho.nodup_keys, lookup_insertFields_of_notMem hk]
  cases h : state.get "run" with
  | none => simp only [metaOf, h]; rfl
  | some run => simp only [metaOf, h]; rfl

theorem metaOf_mergeMeta {fi}
    (hk : ∀ fs ∈ fi, key ∉ fs.map fst ∧ REPLACE ∉ fs.map fst) (state) :
    metaOf key (mergeMeta state fi) = metaOf key state := by
  cases fi with
  | none => rfl
  | some fs => exact metaOf_runMeta (hk fs rfl).1 (hk fs rfl).2 state

theorem run_merge_nodeUpdate (id sl state) :
    (merge state (nodeUpdate id sl)).get "run" = state.get "run" :=
  get_merge_single_ne (by decide) (by decide) state _

theorem metaOf_seed (hk : key ∉ ["id", "max_sub_workflow_depth", "workspace"]) (tr inp ip) {ov}
    (ho : ∀ fs ∈ ov, key ∉ fs.map fst ∧ REPLACE ∉ fs.map fst) :
    metaOf key (seed tr inp ip ov) =
      [("trigger", inp.trigger), ("inputs", ip),
        ("approvals", arr (inp.approvals.map .str))].lookup key := by
  simp only [mem_cons, not_mem_nil, or_false, not_or] at hk
  obtain ⟨hi, hd, hw⟩ := hk
  simp only [seed, triggerKnobs]
  rw [metaOf_mergeMeta ho, metaOf_mergeMeta, metaOf_mergeMeta, metaOf, itemsUpdate,
    itemsUpdateWithMeta, run_merge_nodeUpdate, ← metaOf, metaOf_mergeMeta]
  · rw [metaOf, get_obj, lookup_cons_eq, if_pos rfl, Option.bind_some,
      get_object (by simp)]
  · intro fs hf
    obtain ⟨id, -, rfl⟩ := Option.map_eq_some_iff.mp hf
    exact ⟨by simpa using hi, by simp [REPLACE]⟩
  · intro fs hf
    obtain ⟨n, -, rfl⟩ := Option.map_eq_some_iff.mp hf
    exact ⟨by simpa using hd, by simp [REPLACE]⟩
  · intro fs hf
    obtain ⟨dir, -, rfl⟩ := Option.map_eq_some_iff.mp hf
    exact ⟨by simpa using hw, by simp [REPLACE]⟩

/-! ## Super-steps -/

theorem get_merge_committed {h c r u} (hk : key ≠ "nodes") (hn : (outcome h c state ctx).2 = none)
    (hr : activate h c state ctx = .ok r) (hu : written r = some u) (s) :
    (merge s u).get key = s.get key := by
  rw [activate_eq, hn] at hr
  rcases written_commit hr hu with ⟨-, rfl⟩ | ⟨-, ho⟩
  · cases s <;> rfl
  · obtain ⟨sl, rfl⟩ := ho.eq_nodeUpdate
    exact get_merge_single_ne (by decide) hk s _

section Steps

variable {w : WorkflowGraph} {c : Conducts} {g : CompiledGraph Json Json Json} {ord : IterOrder NodeId}
  {rt : Runtime Json Json Json} {th : ThreadId} {l m en : Loop Json Json}

variable {p : Progress Json Json} {state : Json} {key : String}

theorem ran_known (hl : Lowered ord w g) (hr : Ran g rt (some th) l en p state) :
    ∀ a ∈ l.active, a.node ∈ w.ids := by
  intro a ha
  obtain ⟨i, hi⟩ := mem_iff_getElem?.mp ha
  have hj := congrArg (·[i]?) (entered_jobs hr.enter)
  simp only [getElem?_map, hi, Option.map_some] at hj
  obtain ⟨b, hb, he⟩ := Option.map_eq_some_iff.mp hj
  have hn : b.node = a.node := congrArg fst he
  rw [← hn, ← hl.nodes]
  exact runActive_nodes hl.parallel hr.run b (mem_of_getElem? hb)

theorem ran_get (hk : key ≠ "nodes") (hl : Lowered ord w g) (hc : Conforms w c rt)
    (hn : ∀ st nd ix, (c st nd ix).Unhooked)
    (ha : Ran g rt (some th) l en p state) : state.get key = l.state.get key := by
  obtain ⟨fa, hR, hF⟩ := ran_fates hc (ran_known hl ha) ha
  have ho := ha.fold
  rw [applyUpdates_merge hl, (entered_steps ha.enter).2, hR, ofFates_updates] at ho
  rw [← Except.ok.inj ho]
  refine observed_foldl (f := (·.get key)) (P := (· = l.state.get key)) (fun u hu => .inl ?_) (.inl rfl)
  obtain ⟨f, hf, hu⟩ := mem_filterMap.mp hu
  rcases hF f hf with rfl | ⟨i, n, ctx, -, rfl⟩
  · cases hu
  · cases hr : committed w c l i n ctx with
    | error e =>
      rw [hr] at hu
      cases hu
    | ok r =>
      rw [hr, fate_update_eq] at hu
      exact get_merge_committed hk (outcome_unedited (hn _ _ _).before _ _) hr hu

theorem superStep_get (hk : key ≠ "nodes") (hl : Lowered ord w g) (hc : Conforms w c rt)
    (hu : ∀ st nd ix, (c st nd ix).Unhooked)
    (h : superStep g rt (some th) l = .next m) : m.state.get key = l.state.get key := by
  obtain ⟨en, p, state, hr, -, -, hb⟩ := superStep_next h
  obtain ⟨nx, barriers, writes, d, id, -, -, -, rfl⟩ := loopBoundary_next hb
  exact ran_get hk hl hc hu hr

theorem superStep_resumeMap (hm : l.resumeMap = ∅) (h : superStep g rt (some th) l = .next m) :
    m.resumeMap = ∅ := by
  obtain ⟨en, p, state, hr, -⟩ := superStep_next h
  have he : en.resumeMap = ∅ := by
    obtain ⟨vi, rfl, -⟩ := enterStep_ok hr.enter
    exact hm
  rw [(superStep_takes hr.enter h).2, he]
  exact takeValues_empty fun n _ => Finmap.lookup_empty n

end Steps

theorem FreshRun.kept {w c state l}
    (h : FreshRun w c state l) : l.state.get "run" = state.get "run" ∧ l.resumeMap = ∅ := by
  obtain @⟨ord, g, rt, th, store, hb, hc, hu, hp⟩ := h
  have hl := lowered_of_buildGraph hb
  induction hp with
  | refl => exact ⟨rfl, rfl⟩
  | tail _ hs ih =>
    exact ⟨(superStep_get (by decide) hl hc hu hs).trans ih.1, superStep_resumeMap ih.2 hs⟩

theorem StartsAt.resume_none {i n} (h : StartsAt w l i n ctx) (hm : l.resumeMap = ∅) :
    ctx.resume = none := by
  have hr := h.resume
  rw [resumeValues_getElem?, h.node, hm, Option.map_some, Finmap.lookup_empty, ite_self] at hr
  exact (Option.some.inj hr).symm

/-! ## Which gates are approved -/

theorem namesNode_iff {id} : namesNode ids id = true ↔ id ∈ listedIds ids := by
  simp only [namesNode, listedIds, any_eq_true, decide_eq_true_eq, mem_filterMap]

/-- The metadata in the state says that exactly these ids are approved. -/
structure Told (state : Json) (a : Approvals) : Prop where
  explicit : ∀ id, id ∈ listedIds (metaOf "approvals" state) ↔ id ∈ a.explicit
  inTrigger : ∀ id, id ∈ listedIds ((metaOf "trigger" state).bind (·.get "approvals")) ↔
    id ∈ a.inTrigger

theorem told_seed (tr inp ip) {ov} (ho : ∀ fs ∈ ov,
      fs.map fst ⊆ ["sub_workflow_depth", "max_sub_workflow_depth", "workspace"]) :
    Told (seed tr inp ip ov) (.ofInput inp) := by
  have hs : ∀ key ∈ ["trigger", "approvals"], metaOf key (seed tr inp ip ov) =
      [("trigger", inp.trigger), ("inputs", ip),
        ("approvals", arr (inp.approvals.map .str))].lookup key := by
    intro key hk
    have ht : key ∉ ["sub_workflow_depth", "max_sub_workflow_depth", "workspace"] := by
      rcases mem_pair.mp hk with rfl | rfl <;> decide
    refine metaOf_seed ?_ tr inp ip fun fs hf =>
      ⟨fun h => ht (ho fs hf h), fun h => absurd (ho fs hf h) (by decide)⟩
    rcases mem_pair.mp hk with rfl | rfl <;> decide
  constructor
  · intro id
    rw [hs "approvals" (by simp)]
    exact iff_of_eq (congrArg (id ∈ ·) (listedIds_strs inp.approvals))
  · intro id
    rw [hs "trigger" (by simp)]
    rfl

theorem overlayOf_keys (ch) : (overlayOf ch).map fst ⊆
    ["sub_workflow_depth", "max_sub_workflow_depth", "workspace"] := by
  rw [overlayOf, map_append]
  cases ch.workspace <;> simp

theorem Told.congr {s t} (h : Told s a) (hr : t.get "run" = s.get "run") : Told t a := by
  have hm : ∀ key, metaOf key t = metaOf key s := fun key => by rw [metaOf, metaOf, hr]
  exact ⟨by rw [hm]; exact h.explicit, by rw [hm]; exact h.inTrigger⟩

theorem Told.approvedByRun_iff {state a} (h : Told state a) {id} :
    approvedByRun state id = true ↔ id ∈ a.ids := by
  rw [ids, mem_append, ← h.explicit, ← h.inTrigger, approvedByRun]
  cases hr : state.get "run" with
  | none => simp [metaOf, hr, listedIds]
  | some run =>
    simp only [Option.any_some, Bool.or_eq_true, namesNode_iff, metaOf, hr, Option.bind_some]

/-! ## Children -/

theorem childGraph_inline (hw : ec.node.config.get "workflow_id" = none)
    (h : childGraph ex host ec sc = .ok gr) :
    ∃ il, ec.node.config.get "workflow" = some il ∧ host.parse il = .ok gr := by
  simp only [childGraph, hw] at h
  cases hi : ec.node.config.get "workflow" with
  | none =>
    rw [hi] at h
    cases h
  | some il =>
    rw [hi] at h
    refine ⟨il, rfl, ?_⟩
    change (host.parse il).mapError invalidWorkflow = .ok gr at h
    cases hp : host.parse il with
    | error e =>
      rw [hp] at h
      cases h
    | ok w =>
      rw [hp] at h
      cases h
      rfl

theorem childRun_ok {it ch} (h : childRun ex host ec sc it = .ok ch) :
    childGraph ex host ec sc = .ok ch.graph ∧ host.compile ch.graph = .ok () ∧
      ch.input.trigger = itemsJson it ∧ ch.input.approvals = approvalsForChild ec := by
  simp only [childRun, bind, Except.bind, throw, throwThe, MonadExceptOf.throw, pure, Except.pure] at h
  split at h
  · cases h
  · rename_i gr hg
    split at h
    · cases h
    · split at h
      · cases h
      · rename_i hc
        repeat' split at h
        all_goals cases h
        exact ⟨hg, hc, rfl, rfl⟩

theorem mem_approvalsForChild {id} : id ∈ approvalsForChild ec ↔
      id ∈ gatesFor ec.node.id ((ec.run.get "trigger").bind (·.get "approvals")) ∨
        id ∈ gatesFor ec.node.id (ec.resume.bind (·.get "approved")) := by
  rw [approvalsForChild, mem_dedup, mem_insertionSort, mem_append]

theorem mem_gatesFor {ga} : ga ∈ gatesFor nd ids ↔ namespacedGate nd ga ∈ listedIds ids := by
  rw [gatesFor, Text.mem_filterMap_stripPrefix, namespacedGate]

theorem Approvals.mem_forChild {ga} :
    ga ∈ (a.forChild nd).ids ↔ namespacedGate nd ga ∈ a.inTrigger := by
  rw [ids, forChild, append_nil, Text.mem_filterMap_stripPrefix, namespacedGate]

theorem get_runOf (key state) : ((state.get "run").getD .null).get key = metaOf key state := by
  cases h : state.get "run" with
  | none => simp only [metaOf, h]; rfl
  | some run => simp only [metaOf, h]; rfl

theorem Told.child {ex host state a h ctx sc it ch} (ht : Told state a) (hr : ctx.resume = none)
    (hc : childRun ex host (execContext h state ctx) sc it = .ok ch) (tr ip) :
    Told (seed tr ch.input ip (some (overlayOf ch))) (a.forChild h.node.id) := by
  obtain ⟨-, -, htr, ha⟩ := childRun_ok hc
  have hs := @told_seed tr ch.input ip (some (overlayOf ch))
    fun fs hf => Option.some.inj hf ▸ overlayOf_keys ch
  constructor
  · intro id
    have hi : (a.forChild h.node.id).ids = (a.forChild h.node.id).explicit := append_nil _
    rw [hs.explicit, ← hi, mem_forChild, ← ht.inTrigger]
    simp only [ofInput, ha, mem_approvalsForChild, mem_gatesFor, execContext, hr, get_runOf]
    exact or_iff_left not_mem_nil
  · intro id
    rw [hs.inTrigger, ofInput, htr]
    exact Iff.rfl

theorem approvalsAt_concat (inp pa nd) :
    approvalsAt inp (pa ++ [nd]) = (approvalsAt inp pa).forChild nd := by
  rw [approvalsAt, foldl_append]
  rfl

theorem RunAt.told {ex host w gr inp pa state} (h : RunAt ex host w inp pa gr state) :
    Told state (approvalsAt inp pa) := by
  induction h with
  | root tr ip => exact told_seed tr inp ip fun fs hf => nomatch hf
  | child h hr hs hc tr ip ih =>
    obtain ⟨hk, hm⟩ := hr.kept
    rw [approvalsAt_concat]
    exact (ih.congr hk).child (hs.resume_none hm) hc tr ip

theorem RunAt.gate_iff {c i n} (h : RunAt ex host w inp pa gr state)
    (hr : FreshRun gr c state l) (hs : StartsAt gr l i n ctx) (hg : n.requiresApproval)
    (ht : n.kind ≠ .trigger) (hc : (c (l.steps + 1) n.id i).cancelled .boundary = false) :
    gates (handlerData gr n) (c (l.steps + 1) n.id i) l.state ctx = none ↔ Approves inp pa n.id := by
  obtain ⟨hk, hm⟩ := hr.kept
  have ha := @Told.approvedByRun_iff _ _ (h.told.congr hk) n.id
  have he := hs.resume_none hm
  rw [Approves, ← ha]
  simp [gates, handlerData, hc, ht, hg, he, deniedByResume, approvedByResume, namesNode]

/-- What is listed for a review is what is approved, as long as the payload did not approve it before. -/
theorem RunAt.review_iff {id c} {n : Node}
    (h : RunAt ex host w (mergeApprovals inp [id]) pa gr state) (hr : FreshRun gr c state l)
    (hb : surfacedId pa n.id ∉ (ofInput inp).ids) :
    reviewApproved l.state n.id = true ↔ Approves (mergeApprovals inp [id]) pa n.id := by
  rw [reviewApproved, namesNode_iff, Approves, Approvals.ids, mem_append]
  change n.id ∈ listedIds (metaOf "approvals" l.state) ↔ _
  rw [(h.told.congr hr.kept.1).explicit]
  refine ⟨.inl, fun ha => ha.elim (fun he => he) fun ht => ?_⟩
  rcases eq_nil_or_concat pa with rfl | ⟨pa, nd, rfl⟩
  · rw [approvalsAt, foldl_nil, ofInput] at ht ⊢
    rcases mem_triggerApprovals_mergeApprovals.mp ht with ht | ht
    · exact absurd (mem_append_right _ ht) hb
    · exact mem_mergeApprovals.mpr ht
  · rw [concat_eq_append, approvalsAt_concat] at ht
    exact absurd ht not_mem_nil

theorem approves_nil :
    Approves inp [] ga ↔ ga ∈ inp.approvals ∨ ga ∈ triggerApprovals inp.trigger :=
  mem_append

theorem approves_child :
    Approves inp [nd] ga ↔ namespacedGate nd ga ∈ triggerApprovals inp.trigger :=
  mem_forChild

theorem not_approves_nested (h : 2 ≤ pa.length) : ¬ Approves inp pa ga := by
  induction pa using List.reverseRecOn with
  | nil => simp at h
  | append_singleton pa la ih =>
    induction pa using List.reverseRecOn with
    | nil => simp at h
    | append_singleton pa nd _ =>
      rw [Approves, approvalsAt_concat, mem_forChild, approvalsAt_concat]
      exact not_mem_nil

end Tinyflows.Engine
