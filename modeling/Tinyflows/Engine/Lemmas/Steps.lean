import Tinyflows.Engine.Lemmas.Ports
import Tinyflows.Engine.Lemmas.Targets
import Tinyflows.Engine.Lemmas.Wiring
import Tinyflows.Engine.Runs
import Tinyflows.Graph.Lemmas.View
import Mathlib.Data.List.NodupEquivFin

/-!
# The super-steps of a workflow

What a super-step of a compiled workflow comes to: every fate is what an activation of one of its
nodes committed, and the state is folded from what those wrote.
-/

namespace Tinyflows.Engine
open Lib Tinyflows.Graph Model Nodes List Fate Option

theorem applyUpdates_merge {ord w g} (h : Lowered ord w g) (s up) :
    applyUpdates g s up = .ok (up.foldl merge s) := by
  induction up generalizing s with
  | nil => rfl
  | cons u us ih =>
    rw [applyUpdates, h.reducer]
    exact ih _

/-- A property of what is observed of the state that every update of the step keeps or establishes, and
that held before or is established at least once, holds after the step. -/
theorem observed_foldl {α : Type} {f : Json → α} {P : α → Prop} {up : List Json} {s}
    (hk : ∀ u ∈ up, (∀ s, f (merge s u) = f s) ∨ ∀ s, P (f (merge s u)))
    (h : P (f s) ∨ ∃ u ∈ up, ∀ s, P (f (merge s u))) : P (f (up.foldl merge s)) := by
  induction up generalizing s with
  | nil => exact h.resolve_right fun ⟨u, hu, _⟩ => nomatch hu
  | cons u us ih =>
    rw [foldl_cons]
    refine ih (fun v hv => hk v (mem_cons_of_mem _ hv)) ?_
    rcases hk u mem_cons_self with hu | hu
    · rcases h with h | ⟨v, hv, hP⟩
      · exact .inl (by rw [hu]; exact h)
      · rcases mem_cons.mp hv with rfl | hv
        · exact .inl (hP s)
        · exact .inr ⟨v, hv, hP⟩
    · exact .inl (hu s)

variable {r : NodeResult Json Json}

theorem fate_goto_nil (h : gotoOf r = []) : (ofResult (.ok r)).goto = none := by
  cases r with
  | command c =>
    simp only [gotoOf] at h
    simp only [ofResult, h, goto]
  | _ => rfl

theorem fate_goto_cons (h : gotoOf r ≠ []) : (ofResult (.ok r)).goto = some (gotoOf r) := by
  cases r with
  | command c =>
    simp only [gotoOf] at h ⊢
    obtain ⟨t, ts, hg⟩ := exists_cons_of_ne_nil h
    simp only [ofResult, hg, goto]
  | _ => exact absurd rfl h

theorem fate_update_eq (r) : (ofResult (.ok r)).update = written r := by
  cases r <;> rfl

section Step

variable {ord : IterOrder NodeId} {w : WorkflowGraph} {g : CompiledGraph Json Json Json}
  {c : Conducts} {rt : Runtime Json Json Json} {th : ThreadId} {l en m : Loop Json Json}

variable {ctx : NodeContext Json} {n : Node} {r : NodeResult Json Json} {state : Json}
  {a : Activation Json} {i : Nat} {f : Fate Json Json} {ac : List (Node × NodeContext Json)}
  {fa : List (Fate Json Json)} {x : Node × NodeContext Json}

/-- What an activation writes leaves the port of any other node alone, and keeps or decides that of its
own. -/
theorem committed_port (hi : n.id ≠ REPLACE) {co u}
    (hn : (outcome (handlerData w n) co state ctx).2 = none)
    (hr : activate (handlerData w n) co state ctx = .ok r) (hu : written r = some u) (id) :
    (∀ s, portOf id (merge s u) = portOf id s) ∨
      n.id = id ∧ ∀ s s', portOf id (merge s u) = portOf id (merge s' u) := by
  rw [activate_eq, hn] at hr
  rcases written_commit hr hu with ⟨-, rfl⟩ | ⟨-, ho⟩
  · exact .inl fun s => portOf_merge_empty id s
  · by_cases he : n.id = id
    · subst he
      exact (ho.port hi).imp_right fun h => ⟨rfl, h⟩
    · obtain ⟨sl, rfl⟩ := ho.eq_nodeUpdate
      exact .inl fun s => portOf_merge_other hi (Ne.symm he) s sl

/-! ## Entering a step -/

section

variable (h : enterStep g rt l = .ok en)
include h

theorem entered_jobs : en.active.map Activation.job = l.active.map Activation.job := by
  obtain ⟨vi, rfl, -⟩ := enterStep_ok h
  exact assignTaskIds_jobs _ _

theorem entered_steps : en.steps = l.steps + 1 ∧ en.state = l.state := by
  obtain ⟨vi, rfl, -⟩ := enterStep_ok h
  exact ⟨rfl, rfl⟩

theorem entered_getElem? (ha : en.active[i]? = some a) :
    ∃ b, l.active[i]? = some b ∧ b.node = a.node ∧ b.sendArg = a.sendArg := by
  have hj := congrArg (·[i]?) (entered_jobs h)
  simp only [getElem?_map, ha, map_some] at hj
  obtain ⟨b, hb, he⟩ := map_eq_some_iff.mp hj.symm
  exact ⟨b, hb, congrArg Prod.fst he, congrArg Prod.snd he⟩

theorem entered_known (hk : Within w l) : Within w en := by
  intro a ha
  obtain ⟨i, hi⟩ := mem_iff_getElem?.mp ha
  obtain ⟨b, hb, hn, -⟩ := entered_getElem? h hi
  rw [← hn]
  exact hk b (mem_of_getElem? hb)

theorem entered_resumeValues :
    resumeValues en.active en.resumeMap = resumeValues l.active l.resumeMap := by
  have hn : activationNodes en.active = activationNodes l.active :=
    nodes_of_jobs (entered_jobs h)
  have hm : en.resumeMap = l.resumeMap := by
    obtain ⟨vi, rfl, -⟩ := enterStep_ok h
    rfl
  refine ext_getElem? fun i => ?_
  rw [resumeValues_getElem?, resumeValues_getElem?, hn, hm]

end

theorem ran_of_known (hl : Lowered ord w g) (he : enterStep g rt l = .ok en)
    (hk : Within w l) :
    ∃ p, Ran g rt (some th) l en p (p.run.updates.foldl merge l.state) := by
  obtain ⟨p, hp⟩ := @runActive_known _ _ _ g rt (some th) en.steps en.state en.active
    (fun a ha => (hl.nodes _).mpr (entered_known he hk a ha))
    { resumeMap := en.resumeMap, visited := en.visited }
  refine ⟨p, he, hp, ?_⟩
  rw [(entered_steps he).2]
  exact applyUpdates_merge hl _ _

theorem activationAt_entered (he : enterStep g rt l = .ok en) (ha : en.active[i]? = some a)
    (hn : n ∈ w.nodes) (hi : n.id = a.node) (hc : ContextOf en.steps a ctx) :
    ActivationAt w l i n ctx := by
  obtain ⟨b, hb, ho, hr⟩ := entered_getElem? he ha
  refine ⟨hn, b, hb, by rw [hi, ho], by rw [hc.nodeId, ho], by rw [hc.sendArg, hr], ?_⟩
  rw [hc.step, (entered_steps he).1]

/-! ## Running a step -/

theorem branchFates_starts (ho : Conforms w c rt) (hk : Within w l)
    (he : enterStep g rt l = .ok en)
    (hf : (branchFates g rt (some th) en.steps en.state en.active en.resumeMap)[i]? = some f) :
    f = .unstarted ∨ ∃ n ctx, StartsAt w l i n ctx ∧ f = ofResult (committed w c l i n ctx) := by
  have hl : i < en.active.length := by
    have := (List.getElem?_eq_some_iff.mp hf).1
    rwa [branchFates_length] at this
  obtain ⟨f', hf', hs⟩ := @branchFates_started _ _ _ g rt (some th) en.steps en.state
    en.active en.resumeMap i hl
  cases hf.symm.trans hf'
  refine hs.imp_right ?_
  rintro ⟨a, value, ctx, ha, hv, hc, rfl⟩
  obtain ⟨n, hn, hi⟩ := mem_map.mp (entered_known he hk a (mem_of_getElem? ha))
  refine ⟨n, ctx, ⟨activationAt_entered he ha hn hi hc.toContextOf, ?_⟩, ?_⟩
  · rw [← entered_resumeValues he, hv, hc.resume]
  · rw [← hi, ho n hn, hc.step, (entered_steps he).1, (entered_steps he).2]

theorem branchFates_committed (hc : Conforms w c rt) (hk : Within w l)
    (he : enterStep g rt l = .ok en)
    (hf : (branchFates g rt (some th) en.steps en.state en.active en.resumeMap)[i]? = some f) :
    f = .unstarted ∨ ∃ n ctx, ActivationAt w l i n ctx ∧ f = ofResult (committed w c l i n ctx) := by
  refine (branchFates_starts hc hk he hf).imp_right ?_
  rintro ⟨n, ctx, hs, hm⟩
  exact ⟨n, ctx, hs.toActivationAt, hm⟩

theorem ran_fates {p} (hc : Conforms w c rt)
    (hk : Within w l) (hr : Ran g rt (some th) l en p state) :
    ∃ fa : List (Fate Json Json), p.run = StepRun.ofFates fa ∧ ∀ f ∈ fa, f = .unstarted ∨
      ∃ i n ctx, StartsAt w l i n ctx ∧ f = ofResult (committed w c l i n ctx) := by
  obtain ⟨fa, hp, hu⟩ := runActive_perm hr.run
  refine ⟨fa, hu, fun f hf => ?_⟩
  obtain ⟨i, hi⟩ := mem_iff_getElem?.mp (hp.mem_iff.mp hf)
  refine (branchFates_starts hc hk hr.enter hi).imp_right ?_
  rintro ⟨n, ctx, hs, hm⟩
  exact ⟨i, n, ctx, hs, hm⟩

/-- The fates of the activations of the step from `l`, in the contexts they were given. -/
def ownFates (w : WorkflowGraph) (c : Conducts) (l : Loop Json Json)
    (acts : List (Node × NodeContext Json)) : List (Fate Json Json) :=
  acts.mapIdx fun i x => ofResult (committed w c l i x.1 x.2)

/-- What a super-step that goes on to `m` has done: every branch completed, the state is folded from
what they wrote, and the next active set is routed from the fates as they were filed. -/
structure StepTo (w : WorkflowGraph) (c : Conducts) (g : CompiledGraph Json Json Json)
    (l m : Loop Json Json) (acts : List (Node × NodeContext Json)) (fates : List (Fate Json Json)) :
    Prop where
  length : acts.length = l.active.length
  at_ : ∀ i x, acts[i]? = some x → ActivationAt w l i x.1 x.2
  filed : fates.Perm (ownFates w c l acts)
  inOrder : SlotsInOrder g l.active → fates = ownFates w c l acts
  completed : ∀ f ∈ fates, f.isCompleted
  steps : m.steps = l.steps + 1
  state : m.state = (fates.filterMap update).foldl merge l.state
  routed : ∃ active gotoMap, active.map Activation.job = l.active.map Activation.job ∧
    (∀ i, gotoMap.lookup i = (fates[i]?).bind goto) ∧
    routeCompleted g active gotoMap m.state l.barriers = .ok (m.active, m.barriers)

theorem mem_ownFates : f ∈ ownFates w c l ac ↔
      ∃ i x, ac[i]? = some x ∧ f = ofResult (committed w c l i x.1 x.2) := by
  rw [ownFates, mem_iff_getElem?]
  simp only [getElem?_mapIdx, map_eq_some_iff]
  constructor
  · rintro ⟨i, x, hx, rfl⟩
    exact ⟨i, x, hx, rfl⟩
  · rintro ⟨i, x, hx, rfl⟩
    exact ⟨i, x, hx, rfl⟩

theorem StepTo.each (h : StepTo w c g l m ac fa) (hf : f ∈ fa) :
    ∃ i x r, ac[i]? = some x ∧ ActivationAt w l i x.1 x.2 ∧ committed w c l i x.1 x.2 = .ok r ∧
      f = ofResult (.ok r) := by
  obtain ⟨i, x, hx, rfl⟩ := mem_ownFates.mp (h.filed.mem_iff.mp hf)
  have hc := h.completed _ hf
  cases hr : committed w c l i x.1 x.2 with
  | ok r => exact ⟨i, x, r, hx, h.at_ i x hx, hr, rfl⟩
  | error e =>
    rw [hr] at hc
    cases hc

theorem StepTo.own (h : StepTo w c g l m ac fa) (hx : ac[i]? = some x) :
    ∃ r, committed w c l i x.1 x.2 = .ok r ∧ ofResult (.ok r) ∈ fa := by
  have hf : ofResult (committed w c l i x.1 x.2) ∈ fa :=
    h.filed.mem_iff.mpr (mem_ownFates.mpr ⟨i, x, hx, rfl⟩)
  have hc := h.completed _ hf
  cases hr : committed w c l i x.1 x.2 with
  | ok r => exact ⟨r, rfl, hr ▸ hf⟩
  | error e =>
    rw [hr] at hc
    cases hc

theorem fates_completed (ha : (StepRun.ofFates fa).failure = none)
    (hin : (StepRun.ofFates fa).interrupts = [])
    (hu : .unstarted ∈ fa → ∃ f ∈ fa, f ≠ .unstarted ∧ f.isCompleted = false) :
    ∀ f ∈ fa, f.isCompleted := by
  rw [ofFates_failure, findSome?_eq_none_iff] at ha
  rw [ofFates_interrupts, filterMap_eq_nil_iff] at hin
  have ho : ∀ f ∈ fa, f ≠ .unstarted → f.isCompleted := by
    intro f hf hn
    obtain ⟨i, hi⟩ := mem_iff_getElem?.mp hf
    have hr := ha (f, i) (mem_zipIdx_iff_getElem?.mpr hi)
    have ht := hin (f, i) (mem_zipIdx_iff_getElem?.mpr hi)
    cases f with
    | completed u go => rfl
    | interrupted i => cases ht
    | failed e => cases hr
    | unstarted => exact absurd rfl hn
  intro f hf
  refine ho f hf fun he => ?_
  obtain ⟨f', hf', hn, hc⟩ := hu (he ▸ hf)
  rw [ho f' hf' hn] at hc
  cases hc

theorem exists_list {α : Type} {P : Nat → α → Prop} (n) (h : ∀ i, i < n → ∃ x, P i x) :
    ∃ xs : List α, xs.length = n ∧ ∀ i x, xs[i]? = some x → P i x := by
  induction n with
  | zero => exact ⟨[], rfl, fun i x hx => nomatch hx⟩
  | succ n ih =>
    obtain ⟨xs, hl, hs⟩ := ih fun i hi => h i (by omega)
    obtain ⟨x, hx⟩ := h n (by omega)
    refine ⟨xs ++ [x], by simp [hl], fun i y hy => ?_⟩
    rcases Nat.lt_or_ge i n with hi | hi
    · rw [getElem?_append_left (by omega)] at hy
      exact hs i y hy
    · obtain rfl : i = n := by
        have := (List.getElem?_eq_some_iff.mp hy).1
        simp only [length_append, length_singleton] at this
        omega
      rw [getElem?_append_right (by omega)] at hy
      simp only [hl, Nat.sub_self, getElem?_cons_zero, some.injEq] at hy
      exact hy ▸ hx

theorem stepTo_of_next (hl : Lowered ord w g) (hcn : Conforms w c rt)
    (hk : Within w l) (h : superStep g rt (some th) l = .next m) :
    ∃ ac fa, StepTo w c g l m ac fa := by
  obtain ⟨en, p, state, ha, hfa, hin, hb⟩ := superStep_next h
  obtain ⟨nx, barriers, writes, d, id, hR, -, -, rfl⟩ := loopBoundary_next hb
  have hn := ha.enter
  have hj := entered_jobs hn
  have hL : en.active.length = l.active.length := by
    simpa using congrArg List.length hj
  let own := branchFates g rt (some th) en.steps en.state en.active en.resumeMap
  have ho : own.length = l.active.length := by
    rw [← hL]
    exact branchFates_length
  -- the results are filed in order when they must be, and in some order otherwise
  obtain ⟨fa, hp, hO, hr⟩ : ∃ fa : List (Fate Json Json), fa.Perm own ∧
      (SlotsInOrder g l.active → fa = own) ∧ p.run = StepRun.ofFates fa := by
    by_cases hs : SlotsInOrder g l.active
    · exact ⟨own, .refl _, fun _ => rfl, runActive_inOrder (hs.congr (nodes_of_jobs hj).symm) ha.run⟩
    · obtain ⟨fa, hp, hr⟩ := runActive_perm ha.run
      exact ⟨fa, hp, fun h => absurd h hs, hr⟩
  have hC : ∀ f ∈ fa, f.isCompleted := by
    refine fates_completed (hr ▸ hfa) (hr ▸ hin) fun hm => ?_
    obtain ⟨f, hf, hre⟩ := branchFates_unstarted (hp.mem_iff.mp hm)
    exact ⟨f, hp.mem_iff.mpr hf, hre⟩
  obtain ⟨ac, hac, has⟩ := exists_list (α := Node × NodeContext Json)
    (P := fun i x => ActivationAt w l i x.1 x.2 ∧
      own[i]? = some (ofResult (committed w c l i x.1 x.2))) l.active.length fun i hi => by
    have hf := getElem?_eq_getElem (ho ▸ hi : i < own.length)
    rcases branchFates_committed hcn hk hn hf with he | ⟨n, ctx, ht, he⟩
    · have hc := hC _ (hp.mem_iff.mpr (getElem_mem (ho ▸ hi : i < own.length)))
      rw [he] at hc
      cases hc
    · exact ⟨(n, ctx), ht, he ▸ hf⟩
  have hw : own = ownFates w c l ac := by
    refine ext_getElem? fun i => ?_
    rw [ownFates, getElem?_mapIdx]
    cases hx : ac[i]? with
    | none =>
      rw [map_none, getElem?_eq_none_iff, ho, ← hac]
      exact getElem?_eq_none_iff.mp hx
    | some x => exact (has i x hx).2
  refine ⟨ac, fa, hac, fun i x hx => (has i x hx).1, hw ▸ hp, fun h => hw ▸ hO h,
    hC, (entered_steps hn).1, ?_, en.active, p.run.gotoMap, hj, fun i => ?_, ?_⟩
  · have hF := ha.fold
    rw [applyUpdates_merge hl, (entered_steps hn).2, hr, ofFates_updates] at hF
    exact (Except.ok.inj hF).symm
  · rw [hr, ofFates_gotoMap]
  · have hB : en.barriers = l.barriers := by
      obtain ⟨_, rfl, -⟩ := enterStep_ok hn
      rfl
    rw [← hB]
    exact hR

theorem index_unique {α : Type} [DecidableEq α] {xs : List α} {a} (h : xs.count a ≤ 1) {j}
    (hi : xs[i]? = some a) (hj : xs[j]? = some a) : i = j := by
  obtain ⟨ht, hi⟩ := List.getElem?_eq_some_iff.mp hi
  obtain ⟨hJ, hj⟩ := List.getElem?_eq_some_iff.mp hj
  by_contra hn
  have hd : List.Duplicate a xs := by
    rw [duplicate_iff_exists_distinct_get]
    rcases Nat.lt_or_gt_of_ne hn with hl | hl
    · exact ⟨⟨i, ht⟩, ⟨j, hJ⟩, hl, hi.symm, hj.symm⟩
    · exact ⟨⟨j, hJ⟩, ⟨i, ht⟩, hl, hj.symm, hi.symm⟩
  rw [duplicate_iff_two_le_count] at hd
  omega

theorem ActivationAt.node (h : ActivationAt w l i n ctx) :
    (activationNodes l.active)[i]? = some n.id := by
  obtain ⟨a, ha, hi, -⟩ := h.active
  rw [activationNodes, getElem?_map, ha, hi]
  rfl

theorem ActivationAt.mem_active (h : ActivationAt w l i n ctx) : ∃ a ∈ l.active, a.node = n.id := by
  obtain ⟨a, ha, hi, -⟩ := h.active
  exact ⟨a, mem_of_getElem? ha, hi.symm⟩

theorem StepTo.portOf_once (hR : REPLACE ∉ w.ids) (h : StepTo w c g l m ac fa)
    (hn : ∀ i n ctx, ActivationAt w l i n ctx →
      (outcome (handlerData w n) (c (l.steps + 1) n.id i) l.state ctx).2 = none)
    {u port} (hx : ac[i]? = some x) (hr : committed w c l i x.1 x.2 = .ok r)
    (hu : written r = some u) (ho : (activationNodes l.active).count x.1.id ≤ 1)
    (hp : ∀ s, portOf x.1.id (merge s u) = port) : portOf x.1.id m.state = port := by
  rw [h.state]
  refine observed_foldl (f := portOf x.1.id) (P := (· = port)) (fun v hv => ?_) (.inr ⟨u, ?_, hp⟩)
  · obtain ⟨f, hf, hv⟩ := mem_filterMap.mp hv
    obtain ⟨j, y, r', hy, ha, hr', rfl⟩ := h.each hf
    rw [fate_update_eq] at hv
    have hl : y.1.id ≠ REPLACE := fun he =>
      hR (he ▸ mem_map.mpr ⟨y.1, ha.mem, rfl⟩)
    refine (committed_port hl (hn j y.1 y.2 ha) hr' hv x.1.id).imp_right ?_
    rintro ⟨hi, -⟩ s
    -- both activations stand at the same position
    obtain rfl : j = i := index_unique ho (hi ▸ ha.node) (h.at_ i x hx).node
    cases hx.symm.trans hy
    cases hr.symm.trans hr'
    cases hu.symm.trans hv
    exact hp s
  · obtain ⟨r', hr', hf⟩ := h.own hx
    cases hr.symm.trans hr'
    exact mem_filterMap.mpr ⟨_, hf, (fate_update_eq r).trans hu⟩

end Step

end Tinyflows.Engine
