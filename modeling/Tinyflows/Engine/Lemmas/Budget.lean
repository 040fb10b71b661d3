import Tinyflows.Engine.Budget
import Tinyflows.Graph.Lemmas.Resume
import Tinyflows.Validate.All

/-!
# Moving forward between passes

Every activation is scheduled by an edge that leads forward, or by a loop that went round its body.
-/

namespace Tinyflows.Engine
open Lib Tinyflows.Graph Model Nodes Validate List Option

variable {ord : IterOrder NodeId} {w : WorkflowGraph} {g : CompiledGraph Json Json Json}
  {ex : Expressions} {c : Conducts} {rt : Runtime Json Json Json} {th : ThreadId}
  {l m : Loop Json Json}

variable {n : Node} {acts : List (Node × NodeContext Json)} {fa : List (Fate Json Json)}
  {r : NodeResult Json Json} {x : Node × NodeContext Json} {bu : Nat} {e : GraphError}
  {st : Json} {height : NodeId → Nat}

theorem mem_loopsOf : n ∈ loopsOf w ↔ n ∈ w.nodes ∧ n.kind = .loop := by
  simp [loopsOf]

theorem bodyEdge_iff {e} : bodyEdge w e ↔
    (∃ n ∈ loopsOf w, n.id = e.fromNode) ∧ e.fromPort = "body" ∧ fansOut w e.fromNode = false := by
  simp [bodyEdge, mem_loopsOf, and_assoc, and_comm, and_left_comm]

theorem produced_of_port_body {o : Outcome} (h : o.port n = some "body") :
    ∃ ou, o = .produced ou ∧ ou.port = some "body" := by
  cases o with
  | produced ou => exact ⟨ou, rfl, h⟩
  | failed e =>
    cases e with
    | none => cases h
    | some e =>
      simp only [Outcome.port] at h
      split_ifs at h
      exact absurd (some.inj h) (by decide)
  | denied => exact absurd (some.inj h) (by decide)
  | _ => cases h

theorem passes_of_body (hR : REPLACE ∉ w.ids) (hl : LoopsExecute ex w c)
    (hd : Ordinary w c l) (hs : StepTo w c g l m acts fa) {i : Nat} (hx : acts[i]? = some x)
    (hk : x.1.kind = .loop) (hr : committed w c l i x.1 x.2 = .ok r)
    (hp : (outcome (handlerData w x.1) (c (l.steps + 1) x.1.id i) l.state x.2).1.port x.1 =
      some "body") : Passes x.1.id l m := by
  have ha := hs.at_ i x hx
  obtain ⟨ou, ho, hb⟩ := produced_of_port_body hp
  obtain ⟨hc, hm⟩ := loop_produced hl ha.mem hk ho
  have hi : x.1.id ≠ REPLACE := fun he =>
    hR (he ▸ mem_map.mpr ⟨x.1, ha.mem, rfl⟩)
  have hw : written r = some (stampActivationStep
      (itemsUpdateWithMeta x.1.id ou.items ou.port ou.recorded) x.1.id x.2.step) := by
    rw [committed, activate_eq, hd.unedited i _ _ ha, ho, hd.unlaned i _ _ ha hk] at hr
    simp only [commit, applyStatePatch, finishOutput, hc, Except.ok.injEq] at hr
    rw [← hr]
    exact written_emit_plain _ _ _ _ _
  refine ⟨mem_of_getElem? ha.node, ?_⟩
  refine hs.portOf_once hR hd.unedited hx hr hw (hd.once x.1 (mem_loopsOf.mpr ⟨ha.mem, hk⟩)) fun s => ?_
  rw [portOf_merge_stampedItems hi _ _ hm, hb]
  rfl

/-- The step from `l` to `m` leads down from `a` to `b`, or by a pass of the loop `a`. -/
abbrev Leads (w : WorkflowGraph) (height : NodeId → Nat) (l m : Loop Json Json) (a b : NodeId) : Prop :=
  height b < height a ∨ b ∈ bodyTargets w a ∧ Passes a l m

theorem leads_of_edge (hf : Falls w g height) {e} (he : e ∈ w.edges)
    (h : ∀ n ∈ loopsOf w, n.id = e.fromNode → bodyEdge w e → Passes n.id l m) :
    Leads w height l m e.fromNode e.toNode := by
  cases hb : bodyEdge w e with
  | false => exact .inl (hf.edge e he hb)
  | true =>
    obtain ⟨⟨n, hn, hi⟩, -⟩ := bodyEdge_iff.mp hb
    exact .inr ⟨mem_map.mpr ⟨e, by simp [he, hb], rfl⟩, hi ▸ h n hn hi hb⟩

theorem followed_leads (hf : Falls w g height) {id t ta} (hi : id ∈ activationNodes l.active)
    (h : followed w id m.state = .ok ta) (ht : t ∈ ta) (hd : t ≠ END) : Leads w height l m id t := by
  obtain ⟨e, he, rfl, rfl, hp⟩ := followed_edge h ht hd
  refine leads_of_edge hf he fun n hn hf hb => ?_
  obtain ⟨-, ho, -⟩ := bodyEdge_iff.mp hb
  rw [ho] at hp
  refine ⟨hf ▸ hi, hf ▸ (hp.resolve_right (by decide)).symm⟩

theorem sentTo_leads (hfa : Falls w g height) (hw : Accepted w) (hR : REPLACE ∉ w.ids) (hl : LoopsExecute ex w c)
    (hd : Ordinary w c l) (hs : StepTo w c g l m acts fa) {i} (hx : acts[i]? = some x)
    (hr : committed w c l i x.1 x.2 = .ok r) {t} (ht : t ∈ gotoOf r) :
    Leads w height l m x.1.id t.nodeId := by
  have ha := hs.at_ i x hx
  have hS : ∀ n ∈ loopsOf w, n.id = x.1.id → n = x.1 := fun n hn hi =>
    hw.node_inj (mem_loopsOf.mp hn).1 ha.mem hi
  cases activate_sentTo hr ht with
  | edge h =>
    obtain ⟨e, he, hf, hto, hp⟩ := h
    rw [← hto, ← hf]
    refine leads_of_edge hfa he fun n hn hi hb => ?_
    obtain ⟨-, hB, hF⟩ := bodyEdge_iff.mp hb
    obtain rfl := hS n hn (hi.trans hf)
    rw [hf] at hF
    rw [hB, hF] at hp
    refine passes_of_body hR hl hd hs hx (mem_loopsOf.mp hn).2 hr ?_
    have hg := hp.resolve_right (by decide)
    cases ho : Outcome.port x.1
      (outcome (handlerData w x.1) (c (l.steps + 1) x.1.id i) l.state x.2).1 with
    | none =>
      rw [ho] at hg
      exact absurd hg (by decide)
    | some po =>
      rw [ho] at hg
      exact congrArg some hg.symm
  | again ou ms ho hc h => exact absurd hc (hd.unpolled i _ _ ha ou ms ho)
  | lane ou la ho hc h =>
    obtain ⟨e, he, hf, hto⟩ := h
    rw [← hto, ← hf]
    refine leads_of_edge hfa he fun n hn hi hb => ?_
    obtain rfl := hS n hn (hi.trans hf)
    obtain ⟨hN, -⟩ := loop_produced hl ha.mem (mem_loopsOf.mp hn).2 ho
    rw [hN] at hc
    cases hc

/-- Every activation of the next step is scheduled by one of this step, from a greater height or by a
loop that passed. -/
theorem stepTo_leads (hf : Falls w g height) (hl : Lowered ord w g) (hw : Accepted w) (hp : REPLACE ∉ w.ids)
    (hlo : LoopsExecute ex w c)
    (hk : Within w l) (hd : Ordinary w c l)
    (hS : StepTo w c g l m acts fa) {b} (hb : b ∈ m.active) :
    ∃ a ∈ l.active, Leads w height l m a.node b.node := by
  obtain ⟨active, gotoMap, hj, hg, hro⟩ := hS.routed
  have hc : ∀ (i : Nat) (a : Activation Json), active[i]? = some a → ∃ a' ∈ l.active, a'.node = a.node := by
    intro i a ha
    have ho := congrArg (·[i]?) hj
    simp only [getElem?_map, ha, map_some] at ho
    obtain ⟨a', ha', he⟩ := map_eq_some_iff.mp ho.symm
    exact ⟨a', mem_of_getElem? ha', congrArg Prod.fst he⟩
  cases routeCompleted_caused hro b hb with
  | relief r hr a ha hso hb =>
    obtain ⟨i, hi⟩ := mem_iff_getElem?.mp ha
    obtain ⟨a', ha', hn⟩ := hc i a hi
    refine ⟨a', ha', .inl ?_⟩
    rw [hn, hso, hb]
    exact hf.relief r hr
  | target s t hs ht hE hb =>
    obtain ⟨i, hi, hR⟩ := hs
    obtain ⟨a', ha', hn⟩ := hc i s.1 hi
    have hL : i < fa.length := by
      rw [hS.filed.length_eq, ownFates, length_mapIdx, hS.length]
      have := congrArg List.length hj
      simp only [length_map] at this
      rw [← this]
      exact (List.getElem?_eq_some_iff.mp hi).1
    have hF := getElem?_eq_getElem hL
    obtain ⟨j, x, r, hx, hat, hr, he⟩ := hS.each (getElem_mem hL)
    rw [hg, hF, bind_some, he] at hR
    have hta : b.node = t.nodeId := by rw [hb]
    rw [hta]
    by_cases hN : gotoOf r = []
    · rw [fate_goto_nil hN, ← hn, route_lowered hl (hk a' ha')] at hR
      cases hF : followed w a'.node m.state with
      | error e =>
        rw [hF] at hR
        cases hR
      | ok targets =>
        rw [hF] at hR
        rw [← Except.ok.inj hR] at ht
        obtain ⟨target, hm, rfl⟩ := mem_map.mp ht
        have hM : a'.node ∈ activationNodes l.active := mem_map.mpr ⟨a', ha', rfl⟩
        exact ⟨a', ha', followed_leads hf hM hF hm hE⟩
    · rw [fate_goto_cons hN] at hR
      obtain ⟨b', hb', hid⟩ := hat.mem_active
      refine ⟨b', hb', ?_⟩
      rw [hid]
      refine sentTo_leads hf hw hp hlo hd hS hx hr ?_
      simp only [route] at hR
      cases hv : validateRouteTargets g s.1.node (gotoOf r) with
      | error e =>
        rw [hv] at hR
        cases hR
      | ok u =>
        rw [hv] at hR
        rwa [← Except.ok.inj hR] at ht

theorem lt_stepsFrom {id ids} (h : id ∈ ids) : height id < stepsFrom height ids :=
  Nat.lt_succ_of_le (le_max?_getD_of_mem (mem_map_of_mem h))

theorem spent_cons (l m re) :
    spent w height (l :: m :: re) = spent w height [l, m] + spent w height (m :: re) := by
  simp only [spent, passesOf, Nat.add_zero, Nat.add_mul, sum_map_add]

theorem lt_spent {id} (hp : Passes id l m) {t} (ht : t ∈ bodyTargets w id) :
    height t < spent w height [l, m] := by
  obtain ⟨e, he, rfl⟩ := mem_map.mp ht
  obtain ⟨-, he⟩ := mem_filter.mp he
  simp only [decide_eq_true_eq] at he
  obtain ⟨⟨n, hn, hi⟩, -⟩ := bodyEdge_iff.mp he.2
  obtain rfl : n.id = id := hi.trans he.1
  refine (lt_stepsFrom ht).trans_le (le_sum_of_mem (mem_map.mpr ⟨n, hn, ?_⟩))
  simp [passesOf, hp]

theorem run_steps (hf : Falls w g height) (hl : Lowered ord w g) (hw : Accepted w)
    (hr : REPLACE ∉ w.ids) (hL : LoopsExecute ex w c) (hcn : Conforms w c rt) (hk : Within w l)
    (ho : ∀ m ∈ l :: boundaries g rt (some th) bu l, m.active ≠ [] → Ordinary w c m) {top}
    (ht : ∀ a ∈ l.active, l.steps + height a.node < top) :
    ∀ m ∈ l :: boundaries g rt (some th) bu l, ∀ a ∈ m.active,
      m.steps + height a.node < top + spent w height (l :: boundaries g rt (some th) bu l) := by
  have hh : ∀ ls, ∀ a ∈ l.active, l.steps + height a.node < top + spent w height ls :=
    fun ls a ha => Nat.lt_add_right _ (ht a ha)
  induction bu generalizing l top with
  | zero =>
    intro m hm
    obtain rfl := mem_singleton.mp hm
    exact hh _
  | succ bu ih =>
    rw [boundaries] at ho ⊢
    by_cases hi : l.active = []
    · rw [if_pos hi]
      intro m hm
      obtain rfl := mem_singleton.mp hm
      exact hh _
    · rw [if_neg hi] at ho ⊢
      cases hs : superStep g rt (some th) l with
      | done r =>
        intro m hm
        obtain rfl := mem_singleton.mp hm
        exact hh _
      | next m =>
        rw [hs] at ho
        obtain ⟨acts, fa, hp⟩ := stepTo_of_next hl hcn hk hs
        have hmk : Within w m := fun a ha =>
          (hl.nodes _).mp (superStep_known hs a ha)
        have he : ∀ b ∈ m.active, m.steps + height b.node < top + spent w height [l, m] := by
          intro b hb
          obtain ⟨a, ha, hle⟩ := stepTo_leads hf hl hw hr hL hk (ho l mem_cons_self hi) hp hb
          have hold := ht a ha
          rw [hp.steps]
          rcases hle with hlow | ⟨htar, hpa⟩
          · omega
          · have : height b.node < _ := lt_spent hpa htar
            omega
        have hrs := ih hmk (fun m' hm' => ho m' (mem_cons_of_mem _ hm')) he
          (fun ls a ha => Nat.lt_add_right _ (he a ha))
        intro m' hm'
        rcases mem_cons.mp hm' with rfl | hm'
        · exact hh _
        · rw [spent_cons, ← Nat.add_assoc]
          exact hrs m' hm'

/-! ## Where the limit is reported -/

theorem activate_error {h co ctx}
    (hr : activate h co st ctx = .error e) : e.isRecursionLimit = false := by
  rw [activate_eq] at hr
  cases ho : (outcome h co st ctx).1 with
  | denied =>
    rw [ho] at hr
    simp only [commit, finishDenied] at hr
    split_ifs at hr
    cases hr
    rfl
  | failed la =>
    rw [ho] at hr
    cases la with
    | none => cases hr
    | some err =>
      simp only [commit, finishError] at hr
      split_ifs at hr
      · cases hr
      · cases hr
      · cases hl : laneContext ctx.sendArg with
        | some ln =>
          rw [hl] at hr
          cases hr
        | none =>
          rw [hl] at hr
          cases hr
          rfl
  | _ =>
    rw [ho] at hr
    cases hr

theorem step_failure (ho : Conforms w c rt) {en p}
    (ha : Ran g rt (some th) l en p st) (hk : Within w l)
    {f} (hf : p.run.failure = some f) : f.error.isRecursionLimit = false := by
  obtain ⟨fa, hp, hn⟩ := runActive_perm ha.run
  rw [show p.run = StepRun.ofFates fa from hn, ofFates_failure] at hf
  obtain ⟨x, hx, he⟩ := exists_of_findSome?_eq_some hf
  obtain ⟨e, hE, rfl⟩ := map_eq_some_iff.mp he
  have hm := hp.mem_iff.mp (mem_of_getElem? (mem_zipIdx_iff_getElem?.mp hx))
  obtain ⟨i, hi⟩ := mem_iff_getElem?.mp hm
  rcases branchFates_committed ho hk ha.enter hi with hu | ⟨n, ctx, -, hc⟩
  · rw [hu] at hE
    cases hE
  · cases hr : committed w c l i n ctx with
    | error e' =>
      rw [hc, hr] at hE
      cases hE
      exact activate_error hr
    | ok r =>
      rw [hc, hr] at hE
      cases r <;> cases hE

theorem endsAtLimit_iff (hl : Lowered ord w g) (hc : Conforms w c rt) (hR : rt.Reliable)
    (hC : l.Clean) (hk : Within w l) :
    EndsAtLimit (superStep g rt (some th) l) ↔ stepLimit g ≤ l.steps := by
  constructor
  · intro h
    cases hn : enterStep g rt l with
    | error e =>
      rw [superStep, hn] at h
      obtain ⟨e', he, hi⟩ := h
      cases he
      exact enterStep_recursionLimit hn hi
    | ok en =>
      obtain ⟨p, hr⟩ := @ran_of_known _ _ _ _ th _ _ hl hn hk
      cases hs : superStep g rt (some th) l with
      | next m =>
        rw [hs] at h
        cases h
      | done r =>
        rw [hs] at h
        obtain ⟨e, he, hi⟩ := h
        rw [superStep_ran_error hR hl.checkpointer hC hr
          (fun f => step_failure hc hr hk) hs he] at hi
        cases hi
  · intro h
    rw [superStep_at_limit h]
    exact ⟨_, rfl, rfl⟩

theorem runLoop_below_limit (hl : Lowered ord w g) (ho : Conforms w c rt) (hr : rt.Reliable)
    (hc : l.Clean) (hk : Within w l)
    (hu : stepLimit g ≤ bu + l.steps)
    (hb : ∀ m ∈ l :: boundaries g rt (some th) bu l, m.active ≠ [] → m.steps < stepLimit g)
    (he : (runLoop g rt (some th) bu l).result = .error e) : e.isRecursionLimit = false := by
  induction bu generalizing l with
  | zero =>
    rw [runLoop] at he
    split_ifs at he with hi
    · cases he
    · have := hb l mem_cons_self hi
      omega
  | succ bu ih =>
    rw [runLoop] at he
    split_ifs at he with hi
    · cases he
    · have ht := hb l mem_cons_self hi
      cases hs : superStep g rt (some th) l with
      | done r =>
        rw [hs] at he
        by_contra hL
        have hn : EndsAtLimit (superStep g rt (some th) l) := by
          rw [hs]
          exact ⟨e, he, by simpa using hL⟩
        have := (endsAtLimit_iff hl ho hr hc hk).mp hn
        omega
      | next m =>
        rw [hs] at he
        refine ih (superStep_clean hl.checkpointer hr hc hs)
          (fun a ha => (hl.nodes _).mp (superStep_known hs a ha))
          (by rw [superStep_steps hs]; omega) (fun x hx => hb x ?_) he
        rw [boundaries, if_neg hi, hs]
        exact mem_cons_of_mem _ hx

end Tinyflows.Engine
