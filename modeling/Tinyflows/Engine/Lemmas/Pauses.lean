import Tinyflows.Engine.Lemmas.Delivery
import Tinyflows.Engine.Resumption

/-!
# Where interrupts come from

A run pauses at an approval gate that is not approved, or because an attempt asked for it. A node that
runs a child asks for it when the child paused.
-/

namespace Tinyflows.Graph
open Lib

variable {S U V : Type} {g : CompiledGraph S U V}
  {rt : Runtime S U V} {ti : Option ThreadId} {l : Loop S V}

variable {e : GraphExecution S V}

theorem superStep_ok {r} (h : superStep g rt ti l = .done r)
    (hr : r.result = .ok e) : ∃ en p state, Ran g rt ti l en p state ∧ e.state = state ∧
      e.interrupts = p.run.interrupts.map (·.2) := by
  rcases superStep_cases g rt ti l with
    ⟨err, he⟩ | ⟨en, p, state, ha, ⟨f, -, hs⟩ | ⟨-, -, hs⟩ | ⟨-, -, hs⟩⟩
  · rw [he] at h
    cases h
    cases hr
  · rw [hs] at h
    cases h
    unfold finishFailure at hr
    split at hr <;> cases hr
  · rw [hs] at h
    cases h
    refine ⟨en, p, state, ha, ?_⟩
    unfold finishInterrupt at hr
    split at hr
    · cases hr
    · split at hr
      · cases hr
      · rename_i boundary hb
        split at hr
        · cases hr
        · dsimp only at hr
          split at hr
          · cases hr
          · cases hr
            refine ⟨rfl, ?_⟩
            simp only [interruptBoundary] at hb
            split at hb
            · cases hb
            · cases hb
              rfl
  · rw [hs] at h
    unfold loopBoundary at h
    split at h
    · cases h
      cases hr
    · split at h
      · cases h
        cases hr
      · simp only [Loop.advance] at h
        split at h
        · cases h
          cases hr
        · cases h

theorem executeRun_ok {P : Loop S V → Prop}
    (hn : ∀ l m, P l → superStep g rt ti l = .next m → P m) (hl : P l)
    (h : (executeRun g rt ti l).result = .ok e) :
    ∃ m, P m ∧ (e.state = m.state ∧ e.interrupts = [] ∨
      ∃ en p state, Ran g rt ti m en p state ∧ e.state = state ∧
        e.interrupts = p.run.interrupts.map (·.2)) := by
  unfold executeRun at h
  split at h
  · cases h
  · refine runLoop_ind (P := P) (Q := fun r => r.result = .ok e → _) hn ?_ ?_ ?_ hl h
    · intro m r hm hs hr
      exact ⟨m, hm, .inr (superStep_ok hs hr)⟩
    · intro m hm _ hr
      cases hr
      exact ⟨m, hm, .inl ⟨rfl, rfl⟩⟩
    · intro m err _ hr
      cases hr

end Tinyflows.Graph

namespace Tinyflows.Engine
open Lib Tinyflows.Graph Model Nodes

/-! ## One activation -/

theorem emit_ne_interrupt (h : HandlerData) (la sp u po ro i) :
    emit h la sp u po ro ≠ .interrupt i := by
  unfold emit
  split
  · exact fun he => nomatch he
  · dsimp only
    split <;> exact fun he => nomatch he

variable {h : HandlerData} {i : Interrupt Json} {ctx : NodeContext Json} {state : Json}
  {ad : Address} {c : Conducts} {env : Surroundings} {ch : ChildRun} {lv : Nat}
  {outcome : RunOutcome}

theorem commit_interrupt {la sp wa o} (hc : commit h la sp wa none o = .ok (.interrupt i)) :
    o = .paused i ∨ ∃ ou pa, o = .produced ou ∧ ou.control = some (.interrupt i.id pa) := by
  generalize hr : NodeResult.interrupt i = r at hc
  cases commits hc with
  | pause ho =>
    cases hr
    exact ho
  | stop | again | scatter => cases hr
  | start | emit => exact absurd hr.symm (emit_ne_interrupt _ _ _ _ _ _ _)

inductive PausedBy (h : HandlerData) (c : Conduct) (state : Json) (ctx : NodeContext Json)
    (id : String) : Prop where
  | gate (hgate : h.node.requiresApproval) (hid : id = h.node.id)
      (hrun : approvedByRun state id = false) (hresume : approvedByResume ctx.resume id = false)
  | attempt (k : Nat) (output : NodeOutput) (payload : Json)
      (hexec : c.executor (execContext h state ctx) k = .ok output)
      (hcontrol : output.control = some (.interrupt id payload))

theorem gates_paused {c} (hg : gates h c state ctx = some (.paused i)) :
    PausedBy h c state ctx i.id := by
  unfold gates at hg
  dsimp only at hg
  split_ifs at hg with hc ht hG hd ha
  all_goals cases hg
  -- the payload is the configuration, or empty when there is none
  all_goals
    rw [Bool.or_eq_true, not_or] at ha
    exact .gate hG rfl (Bool.eq_false_iff.mpr ha.1) (Bool.eq_false_iff.mpr ha.2)

theorem activate_interrupt {c} (hu : c.Unhooked)
    (ha : activate h c state ctx = .ok (.interrupt i)) : PausedBy h c state ctx i.id := by
  rw [activate_eq, outcome_unedited hu.before] at ha
  have hc := commit_interrupt ha
  unfold outcome at hc
  split at hc
  · rename_i gate hg
    rcases hc with rfl | ⟨op, payload, hp, -⟩
    · exact gates_paused hg
    · exact absurd (hg.trans (congrArg some hp)) (gates_ne_produced _ _ _ _ _)
  · dsimp only at hc
    rw [hu.before] at hc
    dsimp only at hc
    cases ht : execution h c (execContext h state ctx) none none with
    | cancelled =>
      rw [ht] at hc
      rcases hc with hc | ⟨_, _, hc, -⟩ <;> cases hc
    | settled op lastErr =>
      rw [ht] at hc
      simp only [afterExecution, hu.after] at hc
      cases op with
      | none => rcases hc with hc | ⟨_, _, hc, -⟩ <;> cases hc
      | some op =>
        rcases hc with hc | ⟨op', payload, hp, ho⟩
        · cases hc
        · obtain rfl := Outcome.produced.inj hp
          obtain ⟨k, hk⟩ := attempts_output ht
          exact .attempt k op payload hk ho

/-! ## Children -/

section Children

variable {ex : Expressions} {host : Hosting} {st : Nat → ChildRun → Except EngineError RunOutcome}
  {wd : Bool} {ctx : ExecContext}

def ChildPaused (ex : Expressions) (host : Hosting)
    (start : Nat → ChildRun → Except EngineError RunOutcome) (ctx : ExecContext) (id : String) : Prop :=
  ∃ index scope items child outcome gate, childRun ex host ctx scope items = .ok child ∧
    start index child = .ok outcome ∧ gate ∈ outcome.pendingApprovals ∧
    id = namespacedGate ctx.node.id gate

variable {gates : List String} {ix : Nat} {items : List Item} {sc : Json} {im : Item}
  {id : String}

theorem childOutcome_paused {nd outcome} (h : childOutcome nd wd outcome = .ok (.paused gates)) :
    gates ≠ [] ∧ gates = outcome.pendingApprovals.map (namespacedGate nd) := by
  unfold childOutcome at h
  split_ifs at h with hp
  · cases h
    exact ⟨by simpa using hp, rfl⟩
  all_goals cases h

theorem runChild_ok {o} (h : Id.run (runChild ex host st wd ctx ix sc items) = .ok o) :
    ∃ ch outcome, childRun ex host ctx sc items = .ok ch ∧ st ix ch = .ok outcome ∧
      childOutcome ctx.node.id wd outcome = .ok o := by
  unfold runChild at h
  cases hc : childRun ex host ctx sc items with
  | error e =>
    rw [hc] at h
    cases h
  | ok ch =>
    rw [hc] at h
    change (st ix ch).bind (childOutcome ctx.node.id wd) = _ at h
    cases hs : st ix ch with
    | error e =>
      rw [hs] at h
      cases h
    | ok outcome =>
      rw [hs] at h
      exact ⟨ch, outcome, rfl, hs, h⟩

theorem runChild_paused
    (h : Id.run (runChild ex host st wd ctx ix sc items) = .ok (.paused gates)) :
    gates ≠ [] ∧ ∀ id ∈ gates, ChildPaused ex host st ctx id := by
  obtain ⟨ch, outcome, hc, hs, ho⟩ := runChild_ok h
  obtain ⟨hn, rfl⟩ := childOutcome_paused ho
  refine ⟨hn, fun id hi => ?_⟩
  obtain ⟨gate, hg, rfl⟩ := List.mem_map.mp hi
  exact ⟨ix, sc, items, ch, outcome, gate, hc, hs, hg, rfl⟩

theorem runChild_finished
    (h : Id.run (runChild ex host st wd ctx ix sc items) = .ok (.finished im)) :
    ∃ ch outcome, childRun ex host ctx sc items = .ok ch ∧ st ix ch = .ok outcome ∧
      im = { json := outcome.output } := by
  obtain ⟨ch, outcome, hc, hs, ho⟩ := runChild_ok h
  refine ⟨ch, outcome, hc, hs, ?_⟩
  unfold childOutcome at ho
  split_ifs at ho
  all_goals cases ho
  rfl

theorem mem_collectItems {po re} (h : collectItems po ix re = .ok items) (hi : im ∈ items) :
    (∃ so, .ok so ∈ re ∧ im.json = so.json) ∨ ∃ me, im.json = (failedItem me).json := by
  induction re generalizing ix items with
  | nil =>
    cases h
    cases hi
  | cons r rs ih =>
    have hc : ∀ {fi : Item}, (collectItems po (ix + 1) rs).map (fi :: ·) = .ok items →
        im = fi ∨ ∃ tail, collectItems po (ix + 1) rs = .ok tail ∧ im ∈ tail := by
      intro fi hm
      cases hr : collectItems po (ix + 1) rs with
      | error e =>
        rw [hr] at hm
        cases hm
      | ok tail =>
        rw [hr] at hm
        cases hm
        exact (List.mem_cons.mp hi).imp_right fun hM => ⟨tail, rfl, hM⟩
    have ht : (∃ tail, collectItems po (ix + 1) rs = .ok tail ∧ im ∈ tail) →
        (∃ so, .ok so ∈ r :: rs ∧ im.json = so.json) ∨ ∃ me, im.json = (failedItem me).json := by
      rintro ⟨tail, hr, hM⟩
      exact (ih hr hM).imp_left fun ⟨so, hs, he⟩ => ⟨so, List.mem_cons_of_mem _ hs, he⟩
    cases r with
    | ok fi =>
      rcases hc h with rfl | hr
      · exact .inl ⟨fi, List.mem_cons_self, rfl⟩
      · exact ht hr
    | error e =>
      cases po with
      | failFast => cases h
      | collect =>
        rcases hc h with rfl | hr
        · exact .inr ⟨e.message, rfl⟩
        · exact ht hr
      | skip => exact ht ⟨items, h, hi⟩

theorem mem_pausedGates (wd)
    (hm : ∀ ix sc input ch outcome, childRun ex host ctx sc input = .ok ch →
      st ix ch = .ok outcome → outcome.output.get PAUSED_MARKER = none)
    (ht : ∀ im ∈ items, (∃ ix sc input outcome, im.json = (ChildOutcome.item outcome).json ∧
      Id.run (runChild ex host st wd ctx ix sc input) = .ok outcome) ∨
      ∃ me, im.json = (failedItem me).json) (hi : id ∈ pausedGates items) :
    ChildPaused ex host st ctx id := by
  obtain ⟨im, him, hi⟩ := List.mem_flatMap.mp hi
  rcases ht im him with ⟨ix, sc, input, outcome, hj, hr⟩ | ⟨me, hj⟩
  · rw [hj] at hi
    cases outcome with
    | finished im =>
      obtain ⟨ch, outcome, hc, hs, rfl⟩ := runChild_finished hr
      rw [ChildOutcome.item, hm ix sc input ch outcome hc hs] at hi
      cases hi
    | cancelled => cases hi
    | paused gates =>
      rw [ChildOutcome.item, Json.get_obj, Json.lookup_cons_eq, if_pos rfl, listedIds_strs] at hi
      exact (runChild_paused hr).2 id hi
  · have hn : (failedItem me).json.get PAUSED_MARKER = none := by
      rw [failedItem, Json.get_object (by simp)]
      rfl
    rw [hj, hn] at hi
    cases hi

theorem subWorkflowExecute_interrupt {ou pa}
    (hm : ∀ ix sc ip ch outcome, childRun ex host ctx sc ip = .ok ch →
      st ix ch = .ok outcome → outcome.output.get PAUSED_MARKER = none)
    (h : Id.run (subWorkflowExecute ex host st wd ctx) = .ok ou)
    (hc : ou.control = some (.interrupt id pa)) : ChildPaused ex host st ctx id := by
  have hh : ∀ {gates : List String}, gates ≠ [] → (∀ id ∈ gates, ChildPaused ex host st ctx id) →
      ou = pauseForChildGates ctx.node.id gates → ChildPaused ex host st ctx id := by
    rintro gates hn ha rfl
    obtain ⟨ga, rest, rfl⟩ := List.exists_cons_of_ne_nil hn
    cases hc
    exact ha ga List.mem_cons_self
  unfold subWorkflowExecute at h
  split at h
  · change (collectItems _ 0 (Id.run (ctx.input.zipIdx.mapM _))).map _ = _ at h
    rw [List.idRun_mapM] at h
    cases hi : collectItems (itemErrorPolicy ctx.node.config ctx.run) 0 (ctx.input.zipIdx.map _) with
    | error e =>
      rw [hi] at h
      cases h
    | ok items =>
      rw [hi] at h
      have hu := (Except.ok.inj h).symm
      unfold batchOutput at hu
      split_ifs at hu with hD hg
      · rw [hu] at hc
        cases hc
      · refine hh hg (fun id hd => mem_pausedGates wd hm
          (fun im him => (mem_collectItems hi him).imp_left ?_) hd) hu
        rintro ⟨so, hs, hj⟩
        obtain ⟨⟨ip, ix⟩, -, hr⟩ := List.mem_map.mp hs
        change (Id.run (runChild ex host st wd ctx ix _ [ip])).map _ = _ at hr
        cases ho : Id.run (runChild ex host st wd ctx ix (exprScopeFor ctx ip.json) [ip]) with
        | error e =>
          rw [ho] at hr
          cases hr
        | ok outcome =>
          rw [ho] at hr
          cases hr
          exact ⟨ix, _, [ip], outcome, hj, ho⟩
      · rw [hu] at hc
        cases hc
  · change (Id.run (runChild ex host st wd ctx 0 (exprScope ctx) ctx.input)).map _ = _ at h
    cases hr : Id.run (runChild ex host st wd ctx 0 (exprScope ctx) ctx.input) with
    | error e =>
      rw [hr] at h
      cases h
    | ok outcome =>
      rw [hr] at h
      have hu := (Except.ok.inj h).symm
      cases outcome with
      | finished im => rw [hu] at hc; cases hc
      | cancelled => rw [hu] at hc; cases hc
      | paused gates =>
        obtain ⟨hn, ha⟩ := runChild_paused hr
        exact hh hn ha hu

end Children

/-- An interrupt of the run has an activation behind it that was paused. -/
def PausesAt (w : WorkflowGraph) (c : Conducts) (l : Loop Json Json) (id : String) : Prop :=
  ∃ i n ctx, StartsAt w l i n ctx ∧
    PausedBy (handlerData w n) (c (l.steps + 1) n.id i) l.state ctx id

section Runs

variable {ord : IterOrder NodeId} {w : WorkflowGraph} {c : Conducts} {g : CompiledGraph Json Json Json}
  {rt : Runtime Json Json Json} {th : ThreadId} {l en : Loop Json Json}

variable {i : Interrupt Json}

theorem interrupted_of_ofResult {r : Except GraphError (NodeResult Json Json)}
    (h : (Fate.ofResult r).interrupt = some i) : r = .ok (.interrupt i) := by
  cases r with
  | error e => cases h
  | ok r =>
    cases r with
    | interrupt j => rw [Option.some.inj h]
    | update u => cases h
    | command c =>
      simp only [Fate.ofResult] at h
      cases h

section

variable (hl : Lowered ord w g) (hc : Conforms w c rt) (hu : ∀ sp nd ix, (c sp nd ix).Unhooked)
include hl hc hu

theorem ran_pauses {p : Progress Json Json} {state} (hr : Ran g rt (some th) l en p state)
    (hi : i ∈ p.run.interrupts.map (·.2)) : PausesAt w c l i.id := by
  obtain ⟨fates, hR, ha⟩ := ran_fates hc (ran_known hl hr) hr
  rw [hR, ofFates_interrupts] at hi
  obtain ⟨⟨k, j⟩, hj, rfl⟩ := List.mem_map.mp hi
  obtain ⟨⟨f, k'⟩, hf, hF⟩ := List.mem_filterMap.mp hj
  obtain ⟨j', hn, he⟩ := Option.map_eq_some_iff.mp hF
  obtain ⟨rfl, rfl⟩ := Prod.mk.inj he
  have hm : f ∈ fates := List.mem_of_getElem? (List.mem_zipIdx_iff_getElem?.mp hf)
  rcases ha f hm with rfl | ⟨ix, n, ctx, hs, rfl⟩
  · cases hn
  · exact ⟨ix, n, ctx, hs, activate_interrupt (hu _ _ _) (interrupted_of_ofResult hn)⟩

/-- A run that ended well has only touched what lies below `nodes`, and each of its interrupts belongs
to an activation it reached. -/
theorem executeRun_pauses {st e} (h : (executeRun g rt (some th) st).result = .ok e) :
    (∀ key, key ≠ "nodes" → e.state.get key = st.state.get key) ∧
      ∀ i ∈ e.interrupts, ∃ l, Steps g rt th st l ∧
        (∀ key, key ≠ "nodes" → l.state.get key = st.state.get key) ∧ PausesAt w c l i.id := by
  obtain ⟨l, ⟨hp, hg⟩, ⟨ht, hn⟩ | ⟨en, p, state, hr, ht, hin⟩⟩ :=
    executeRun_ok (P := fun l => Steps g rt th st l ∧
      ∀ key, key ≠ "nodes" → l.state.get key = st.state.get key)
      (fun l m hl' hs => ⟨hl'.1.tail hs, fun key hk =>
        (superStep_get hk hl hc hu hs).trans (hl'.2 key hk)⟩)
      ⟨.refl, fun _ _ => rfl⟩ h
  · refine ⟨fun key hk => ht ▸ hg key hk, fun i hi => ?_⟩
    rw [hn] at hi
    cases hi
  · refine ⟨fun key hk => ?_, fun i hi => ⟨l, hp, hg, ?_⟩⟩
    · rw [ht]
      exact (ran_get hk hl hc hu hr).trans (hg key hk)
    · rw [hin] at hi
      exact ran_pauses hl hc hu hr hi

end

end Runs

/-! ## Child runs -/

theorem get_seed {key} (hr : key ≠ "run") (hn : key ≠ "nodes") (tr it ip ov) :
    (seed tr it ip ov).get key = none := by
  have hm : ∀ state fi, (mergeMeta state fi).get key = state.get key := by
    intro state fi
    cases fi with
    | none => rfl
    | some fs => exact get_merge_single_ne (by decide) hr state _
  simp only [seed, hm]
  rw [itemsUpdate, itemsUpdateWithMeta, nodeUpdate, get_merge_single_ne (by decide) hn, hm,
    Json.get_obj, Json.lookup_cons_eq, if_neg hr, List.lookup_nil]

theorem unhooked_withChildren {st} (h : ∀ sp nd ix, (c sp nd ix).Unhooked) (sp nd ix) :
    (withChildren env ad st c sp nd ix).Unhooked :=
  ⟨(h sp nd ix).before, (h sp nd ix).after⟩

theorem Conduct.unhooked_unhooked (c : Conduct) : c.unhooked.Unhooked :=
  ⟨fun _ => rfl, fun _ _ _ => rfl⟩

theorem runSubWorkflow_ok (h : runSubWorkflow env (lv + 1) ad ch = .ok outcome) :
    ∃ tg g inputs e, buildGraph env.order ch.graph = .ok g ∧
      (executeRun g (withActivations (env.runtime ad) ch.graph (withChildren env ad
        (runSubWorkflow env lv)
        fun sp node ix => (env.conducts ad sp node ix).unhooked)) (some tg.id)
        (freshLoop {} (seed tg ch.input inputs (some (overlayOf ch)))
          [{ node := g.entry }])).result = .ok e ∧
      outcome.output = e.state ∧ outcome.pendingApprovals = e.interrupts.map (·.id) := by
  rw [runSubWorkflow] at h
  split at h
  · cases h
  · rename_i tg g state hp
    unfold prepare at hp
    split at hp
    · cases hp
    · cases hp
    · rename_i inputs tg' hi ht
      split at hp
      · cases hp
      · rename_i g' hb
        cases hp
        dsimp only at h
        unfold outcomeOf at h
        split at h
        · cases h
        · rename_i e he
          cases h
          exact ⟨tg, g, inputs, e, hb, he, rfl, rfl⟩

def ChildGate (child : ChildRun) (gate : String) : Prop :=
  ∃ m ∈ child.graph.nodes, gate = m.id ∧ (gate ∉ child.input.approvals ∨ m.kind = .gate) ∨
    m.kind = .subWorkflow ∧ ∃ inner, gate = namespacedGate m.id inner

theorem runSubWorkflow_marker (hn : ch.graph.ids.Nodup)
    (h : runSubWorkflow env lv ad ch = .ok outcome) : outcome.output.get PAUSED_MARKER = none := by
  cases lv with
  | zero => cases h
  | succ lv =>
    obtain ⟨tr, g, inputs, e, hb, he, ho, -⟩ := runSubWorkflow_ok h
    have hp := executeRun_pauses (lowered_of_buildGraph hb) (conforms_withActivations hn _ _)
      (unhooked_withChildren fun _ _ _ => Conduct.unhooked_unhooked _) he
    rw [ho, hp.1 _ (by decide)]
    change (seed tr ch.input inputs (some (overlayOf ch))).get PAUSED_MARKER = none
    refine get_seed ?_ ?_ tr ch.input inputs _ <;> decide

/-- The attempts of a run whose sub_workflow nodes start children ask for an interrupt under the id of
a gate of a child, or as nodes that run no child do. -/
theorem withChildren_interrupt (he : env.Orderly)
    (hw : ∀ sp nd ix, Waits (c sp nd ix)) {sp nd ix k ec ou id pa}
    (h : (withChildren env ad (runSubWorkflow env lv) c sp nd ix).executor ec k =
      .ok ou) (hc : ou.control = some (.interrupt id pa)) :
    (ec.node.kind = .subWorkflow ∧ ∃ ad' : Nat → Address, ChildPaused env.expressions env.hosting
      (fun im ch => runSubWorkflow env lv (ad' im) ch) ec id) ∨
    (id = ec.node.id ∧ (ec.node.kind = .approval ∧ id ∉ heard ec ∨ ec.node.kind = .gate)) := by
  simp only [withChildren] at h
  split_ifs at h with hk
  · split at h
    · cases h
    · refine .inl ⟨hk, _, subWorkflowExecute_interrupt ?_ h hc⟩
      intro im sc ip ch outcome hh hs
      exact runSubWorkflow_marker (he.compile _ (childRun_ok hh).2.1) hs
  · exact .inr (hw sp nd ix ec k ou id pa hk h hc)

theorem runSubWorkflow_pending (hn : env.Orderly) (ho : ch.graph.ids.Nodup)
    (h : runSubWorkflow env lv ad ch = .ok outcome) :
    ∀ gate ∈ outcome.pendingApprovals, ChildGate ch gate := by
  intro gate hg
  cases lv with
  | zero => cases h
  | succ lv =>
    obtain ⟨tr, g, inputs, e, hb, he, -, hp⟩ := runSubWorkflow_ok h
    rw [hp] at hg
    obtain ⟨i, hi, rfl⟩ := List.mem_map.mp hg
    obtain ⟨l, -, hG, ix, n, ctx, hs, ha⟩ := (executeRun_pauses
      (lowered_of_buildGraph hb) (conforms_withActivations ho _ _)
      (unhooked_withChildren fun _ _ _ => Conduct.unhooked_unhooked _) he).2 i hi
    have ht : Told l.state (.ofInput ch.input) :=
      (told_seed tr ch.input inputs fun fs hf =>
        Option.some.inj hf ▸ overlayOf_keys ch).congr (hG "run" (by decide))
    cases ha with
    | gate _ hd hr _ =>
      refine ⟨n, hs.mem, .inl ⟨hd, .inl fun hm => ?_⟩⟩
      rw [ht.approvedByRun_iff.mpr (List.mem_append_left _ hm)] at hr
      cases hr
    | attempt k ou pa hx hc =>
      rcases withChildren_interrupt hn (fun sp nd ix => hn.waits ad sp nd ix)
        hx hc with ⟨hk, ad', hh⟩ | ⟨hd, hw⟩
      · obtain ⟨_, _, _, _, _, inner, -, -, -, hd⟩ := hh
        exact ⟨n, hs.mem, .inr ⟨hk, inner, hd⟩⟩
      · refine ⟨n, hs.mem, .inl ⟨hd, hw.imp (fun ⟨_, hH⟩ hm => hH ?_) id⟩⟩
        refine List.mem_append_right _ ?_
        rw [execContext, get_runOf]
        exact (ht.explicit _).mpr hm

end Tinyflows.Engine
