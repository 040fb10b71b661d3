import Tinyflows.Engine.Cancellation
import Tinyflows.Engine.Lemmas.Steps
import Tinyflows.Graph.Lemmas.Progress
import Tinyflows.Validate.All

/-!
# What a cancelled super-step leaves
-/

namespace Tinyflows.Engine
open Lib Tinyflows.Graph Model Nodes Validate List

/-! ## Stopped activations -/

theorem outcome_stopped {h c} (hc : c.cancelled .boundary = true)
    (st ctx) : outcome h c st ctx = (.stopped, none) := by
  have hg : gates h c st ctx = some .stopped := by
    simp only [gates, hc, if_true]
  simp only [outcome, hg]

def Emptied (id : NodeId) (f : Fate Json Json) : Prop :=
  ∃ slot, f = .completed (some (nodeUpdate id slot)) [] ∧
    (id ≠ REPLACE → ∀ s, portOf id (merge s (nodeUpdate id slot)) = "main")

theorem stamped_nodeUpdate (id it po sp) :
    ∃ slot, stampActivationStep (itemsUpdate id it po) id sp = nodeUpdate id slot := by
  rw [itemsUpdate, itemsUpdateWithMeta, stamp_nodeUpdate]
  exact ⟨_, rfl⟩

theorem emptied_onDefault {w n la o} (h : OnDefault w n la o) (sp wa) :
    Emptied n.id (Fate.ofResult (commit (handlerData w n) la sp wa none o)) := by
  have hs : ∀ it, Emptied n.id (Fate.ofResult (.ok (.update
      (stampActivationStep (itemsUpdate n.id it none) n.id sp)))) := by
    intro it
    obtain ⟨sl, hl⟩ := stamped_nodeUpdate n.id it none sp
    refine ⟨sl, by rw [hl]; rfl, fun hi s => ?_⟩
    rw [← hl]
    exact @portOf_merge_stampedItems _ hi it none none (by simp [metaFields]) sp s
  have he : Emptied n.id (Fate.ofResult (.ok (.update (itemsUpdate n.id [] none)))) :=
    ⟨_, rfl, fun hi s => portOf_merge_items hi [] none (by simp [metaFields]) s⟩
  cases o with
  | stopped =>
    simp only [commit]
    split_ifs
    · exact hs []
    · exact he
  | cancelled => exact he
  | failed e =>
    cases e with
    | none => exact h.elim
    | some e =>
      obtain ⟨hp, rfl, hP⟩ := h
      have ht : commit (handlerData w n) none sp wa none (.failed (some e)) =
          .ok (.update (stampActivationStep (itemsUpdate n.id [errorItem n.id e.message] none)
            n.id sp)) := by
        simp only [commit, finishError, handlerData, hp, if_true, emit, hP]
        rfl
      rw [ht]
      exact hs _
  | _ => exact h.elim

theorem followed_ok_iff (w id st) :
    (∃ ta, followed w id st = .ok ta) ↔ leavesOn w id (portOf id st) := by
  unfold followed leavesOn
  cases lowering w id with
  | choice ro =>
    simp only [contains_iff_mem]
    rw [← HashMap.lookup_collect_isSome]
    cases (HashMap.collect ro).lookup (portOf id st) with
    | none => simp
    | some tr => simp
  | _ => simp

theorem validateRouteTargets_total {g : CompiledGraph Json Json Json} {nd ta}
    (h : ∀ t ∈ ta, t.nodeId ∈ g.nodes ∧ t.nodeId ≠ START) :
    validateRouteTargets g nd ta = .ok () := by
  induction ta with
  | nil => rfl
  | cons t ts ih =>
    obtain ⟨hk, hs⟩ := h t mem_cons_self
    simp only [validateRouteTargets, hk, hs, if_false, if_true,
      ih fun t ht => h t (mem_cons_of_mem _ ht), ite_self]

section Step

variable {ord : IterOrder NodeId} {w : WorkflowGraph} {g : CompiledGraph Json Json Json}
  {c : Conducts} {rt : Runtime Json Json Json} {th : ThreadId} {l en : Loop Json Json}

variable {id : NodeId} {st : Json}

theorem route_none_ok_iff (hl : Lowered ord w g) (hi : id ∈ w.ids) (st) :
    (∃ ta, route g id none st = .ok ta) ↔ leavesOn w id (portOf id st) := by
  rw [← followed_ok_iff, route_lowered hl hi]
  cases followed w id st with
  | error e => simp [Except.map]
  | ok ta => simp [Except.map]

/-! ## Steps on the default port -/

theorem Emptied.isCompleted {f} (h : Emptied id f) : f.isCompleted := by
  obtain ⟨sl, rfl, -⟩ := h
  rfl

theorem defaults_fates (hC : Conforms w c rt) (hk : Within w l)
    (hd : Defaults w c l) {p} (hr : Ran g rt (some th) l en p st) :
    ∃ fa : List (Fate Json Json), fa.length = en.active.length ∧
      p.run = StepRun.ofFates fa ∧ (∀ f ∈ fa, ∃ id ∈ w.ids, Emptied id f) ∧
      ∀ a ∈ en.active, ∃ f ∈ fa, Emptied a.node f := by
  let own := branchFates g rt (some th) en.steps en.state en.active en.resumeMap
  have hs : ∀ (i : Nat) (f : Fate Json Json), own[i]? = some f →
      f = .unstarted ∨ ∃ a : Activation Json, l.active[i]? = some a ∧ Emptied a.node f := by
    intro i f hf
    refine (branchFates_committed hC hk hr.enter hf).imp_right ?_
    rintro ⟨n, ctx, ht, rfl⟩
    obtain ⟨a, ha, hid, -⟩ := ht.active
    obtain ⟨o, ho, hu⟩ := hd i n ctx ht
    refine ⟨a, ha, ?_⟩
    rw [← hid, committed, activate_eq, hu]
    exact emptied_onDefault ho _ _
  -- a branch is left out only behind one that did not complete, and these all do
  have hm : ∀ (i : Nat) (f : Fate Json Json), own[i]? = some f →
      ∃ a : Activation Json, l.active[i]? = some a ∧ Emptied a.node f := by
    intro i f hf
    rcases hs i f hf with rfl | h
    · obtain ⟨f, hM, hn, hc⟩ := branchFates_unstarted (mem_of_getElem? hf)
      obtain ⟨j, hj⟩ := mem_iff_getElem?.mp hM
      obtain ⟨a, -, he⟩ := (hs j f hj).resolve_left hn
      rw [he.isCompleted] at hc
      cases hc
    · exact h
  obtain ⟨fa, hp, hR⟩ := runActive_perm hr.run
  refine ⟨fa, by rw [hp.length_eq, branchFates_length], hR, fun f hf => ?_, fun a ha => ?_⟩
  · obtain ⟨i, hi⟩ := mem_iff_getElem?.mp (hp.mem_iff.mp hf)
    obtain ⟨a, ha, he⟩ := hm i f hi
    exact ⟨a.node, hk a (mem_of_getElem? ha), he⟩
  · obtain ⟨i, hi⟩ := mem_iff_getElem?.mp ha
    have hl : i < own.length := by
      rw [branchFates_length]
      exact (List.getElem?_eq_some_iff.mp hi).1
    have hf := getElem?_eq_getElem hl
    obtain ⟨b, hb, he⟩ := hm i _ hf
    obtain ⟨b', hb', hN, -⟩ := entered_getElem? hr.enter hi
    cases hb.symm.trans hb'
    exact ⟨_, hp.mem_iff.mpr (mem_of_getElem? hf), hN ▸ he⟩

theorem portOf_emptied (hr : REPLACE ∉ w.ids) {fa}
    (ha : ∀ f ∈ fa, ∃ id ∈ w.ids, Emptied id f) (hi : id ∈ w.ids) (h : ∃ f ∈ fa, Emptied id f)
    (s) : portOf id ((StepRun.ofFates fa).updates.foldl merge s) = "main" := by
  have hp : ∀ id ∈ w.ids, id ≠ REPLACE := fun id hi he => hr (he ▸ hi)
  rw [ofFates_updates]
  refine observed_foldl (f := portOf _) (P := (· = "main")) (fun u hu => ?_) (.inr ?_)
  · obtain ⟨f, hf, hu⟩ := mem_filterMap.mp hu
    obtain ⟨id', hi', slot, rfl, ho⟩ := ha f hf
    cases hu
    by_cases he : id = id'
    · subst he
      exact .inr (ho (hp _ hi))
    · exact .inl fun s => portOf_merge_other (hp _ hi') he s slot
  · obtain ⟨f, hf, slot, rfl, ho⟩ := h
    exact ⟨_, mem_filterMap.mpr ⟨_, hf, rfl⟩, ho (hp _ hi)⟩

theorem defaults_goesThrough_iff (hl : Lowered ord w g) (hre : REPLACE ∉ w.ids)
    (hC : Conforms w c rt) (hw : rt.Reliable) (hcl : l.Clean)
    (hk : Within w l) (hn : enterStep g rt l = .ok en) (hd : Defaults w c l) :
    GoesThrough (superStep g rt (some th) l) ↔ ∀ a ∈ l.active, leavesOn w a.node "main" := by
  have hk' := entered_known hn hk
  obtain ⟨p, hR⟩ := @ran_of_known ord w g rt th l en hl hn hk
  obtain ⟨fa, hln, hF, hal, how⟩ := defaults_fates hC hk hd hR
  have hp : ∀ a ∈ en.active,
      portOf a.node (p.run.updates.foldl merge l.state) = "main" := fun a ha => by
    rw [hF]
    exact portOf_emptied hre hal (hk' a ha) (how a ha) _
  have hg : ∀ f ∈ fa, f.goto = none ∧ f.error = none ∧ f.isCompleted := fun f hf => by
    obtain ⟨id, -, slot, rfl, -⟩ := hal f hf
    exact ⟨rfl, rfl, rfl⟩
  constructor
  · intro h a ha
    by_contra hL
    obtain ⟨i, hi⟩ := mem_iff_getElem?.mp ha
    obtain ⟨b, hb, ho⟩ : ∃ b, en.active[i]? = some b ∧ b.node = a.node := by
      have hj := congrArg (·[i]?) (entered_jobs hn)
      simp only [getElem?_map, hi, Option.map_some] at hj
      obtain ⟨b, hb, he⟩ := Option.map_eq_some_iff.mp hj
      exact ⟨b, hb, congrArg Prod.fst he⟩
    have ht : i < fa.length := by
      rw [hln]
      exact (List.getElem?_eq_some_iff.mp hb).1
    have hf := getElem?_eq_getElem ht
    obtain ⟨hN, -, -⟩ := hg _ (getElem_mem ht)
    have hb' := mem_of_getElem? hb
    have hro := (route_none_ok_iff hl (hk' b hb') (p.run.updates.foldl merge l.state)).not
    rw [hp b hb', ho] at hro
    cases hr : route g a.node none (p.run.updates.foldl merge l.state) with
    | ok ta => exact hro.mpr hL ⟨ta, hr⟩
    | error e =>
      obtain ⟨r, e, hD, he⟩ := superStep_stuck hR hF (fun f hf => (hg f hf).2.2) hb hf
        (by rw [hN, ho]; exact hr)
      rw [hD] at h
      obtain ⟨_, hO⟩ := h
      rw [he] at hO
      cases hO
  · intro hL
    refine superStep_goesThrough hw hl.checkpointer hcl hR hln hF
      (fun f hf => (hg f hf).2.1) (fun hm => ?_) fun i a f ha hf _ => ?_
    · have hc := (hg _ hm).2.2
      cases hc
    · rw [(hg f (mem_of_getElem? hf)).1, route_none_ok_iff hl (hk' a (mem_of_getElem? ha)),
        hp a (mem_of_getElem? ha)]
      obtain ⟨b, hb, ho, -⟩ := entered_getElem? hn ha
      rw [← ho]
      exact hL b (mem_of_getElem? hb)

theorem goto_valid (hl : Lowered ord w g) (hw : Accepted w) (hs : START ∉ w.ids) {n : Node}
    (hn : n ∈ w.nodes) {co ctx r} (hr : activate (handlerData w n) co st ctx = .ok r) (id) :
    validateRouteTargets g id (gotoOf r) = .ok () := by
  refine validateRouteTargets_total fun t ht => ?_
  have hi : t.nodeId ∈ w.ids := by
    rcases (activate_sentTo hr ht).leads with he | hL
    · rw [he]
      exact mem_map.mpr ⟨n, hn, rfl⟩
    · exact (hw.joins_of_leads hL).2.1
  exact ⟨(hl.nodes _).mpr hi, fun he => hs (he ▸ hi)⟩

theorem settles_goesThrough (hl : Lowered ord w g) (hw : Accepted w) (hre : REPLACE ∉ w.ids)
    (hs : START ∉ w.ids) (ho : Conforms w c rt) (hW : rt.Reliable)
    (hC : l.Clean) (hk : Within w l)
    (hE : enterStep g rt l = .ok en) (hO : SlotsInOrder g l.active)
    (hU : ∀ i n ctx, ActivationAt w l i n ctx →
      (outcome (handlerData w n) (c (l.steps + 1) n.id i) l.state ctx).2 = none)
    (hm : ∀ i n ctx, ActivationAt w l i n ctx → ∃ r, committed w c l i n ctx = .ok r)
    (hL : ∀ n i ctx r, ActivationAt w l i n ctx → committed w c l i n ctx = .ok r →
      gotoOf r = [] → ∀ j ctx' r' u, ActivationAt w l j n ctx' → committed w c l j n ctx' = .ok r' →
      written r' = some u → leavesOn w n.id (portOf n.id (merge l.state u))) :
    GoesThrough (superStep g rt (some th) l) := by
  have hk' := entered_known hE hk
  have hp : ∀ id ∈ w.ids, id ≠ REPLACE := fun id hd he => hre (he ▸ hd)
  obtain ⟨hS, hsta⟩ := entered_steps hE
  obtain ⟨p, hR⟩ := @ran_of_known ord w g rt th l en hl hE hk
  have hru := runActive_inOrder (hO.congr (nodes_of_jobs (entered_jobs hE)).symm) hR.run
  -- a branch that was started committed something
  have hF : ∀ i f, (branchFates g rt (some th) en.steps en.state en.active
      en.resumeMap)[i]? = some f → f = .unstarted ∨ ∃ n ctx r, ActivationAt w l i n ctx ∧
        committed w c l i n ctx = .ok r ∧ f = Fate.ofResult (.ok r) := by
    intro i f hf
    refine (branchFates_committed ho hk hE hf).imp_right ?_
    rintro ⟨n, ctx, ht, rfl⟩
    obtain ⟨r, hr⟩ := hm i n ctx ht
    exact ⟨n, ctx, r, ht, hr, by rw [hr]⟩
  refine superStep_goesThrough hW hl.checkpointer hC hR branchFates_length
    hru (fun f hf => ?_) (fun hM => ?_) fun i a f ha hf hc => ?_
  · obtain ⟨i, hi⟩ := mem_iff_getElem?.mp hf
    rcases hF i f hi with rfl | ⟨n, ctx, r, -, -, rfl⟩
    · rfl
    · cases r <;> rfl
  · obtain ⟨f, hf, hN, hc⟩ := branchFates_unstarted hM
    obtain ⟨i, hi⟩ := mem_iff_getElem?.mp hf
    rcases hF i f hi with rfl | ⟨n, ctx, r, -, -, rfl⟩
    · exact absurd rfl hN
    · refine ⟨_, hf, ?_⟩
      cases r with
      | interrupt i => rfl
      | _ => cases hc
  · rcases hF i f hf with rfl | ⟨n, ctx, r, ht, hr, rfl⟩
    · cases hc
    obtain ⟨b, hb, hno, -⟩ := entered_getElem? hE ha
    have hd : n.id = a.node := by
      obtain ⟨b', hb', hd, -⟩ := ht.active
      cases hb.symm.trans hb'
      rw [hd, hno]
    by_cases hg : gotoOf r = []
    · rw [fate_goto_nil hg, route_none_ok_iff hl (hk' a (mem_of_getElem? ha)), ← hd]
      have hp' : ∀ n ∈ w.nodes, n.id ≠ REPLACE := fun n hn =>
        hp _ (mem_map.mpr ⟨n, hn, rfl⟩)
      have hL' := hL n i ctx r ht hr hg
      have hup : p.run.updates = (branchFates g rt (some th) en.steps en.state
          en.active en.resumeMap).filterMap Fate.update := by
        rw [hru]
        exact ofFates_updates
      refine observed_foldl (f := portOf n.id) (P := fun port => leavesOn w n.id port) (fun u hu => ?_) ?_
      · rw [hup] at hu
        obtain ⟨f, hf, hu⟩ := mem_filterMap.mp hu
        obtain ⟨j, hj⟩ := mem_iff_getElem?.mp hf
        rcases hF j f hj with rfl | ⟨n', ctx', r', ht', hr', rfl⟩
        · cases hu
        rw [fate_update_eq] at hu
        refine (committed_port (hp' n' ht'.mem) (hU j n' ctx' ht') hr' hu n.id).imp_right ?_
        rintro ⟨he, hD⟩ s
        obtain rfl := hw.node_inj ht'.mem ht.mem he
        rw [hD s l.state]
        exact hL' j ctx' r' u ht' hr' hu
      · obtain ⟨u, hu⟩ : ∃ u, written r = some u := by
          rw [committed, activate_eq, hU i n ctx ht] at hr
          refine (commit_writes hr).resolve_left ?_
          rintro ⟨i, rfl⟩
          cases hc
        have hi := hL' i ctx r u ht hr hu
        rcases committed_port (hp' n ht.mem) (hU i n ctx ht) hr hu n.id with
          hK | ⟨-, hD⟩
        · rw [hK] at hi
          exact .inl hi
        · refine .inr ⟨u, ?_, fun s => by rw [hD s l.state]; exact hi⟩
          rw [hup]
          exact mem_filterMap.mpr ⟨_, mem_of_getElem? hf, (fate_update_eq r).trans hu⟩
    · rw [fate_goto_cons hg]
      exact ⟨gotoOf r, by rw [route, goto_valid hl hw hs ht.mem hr]; rfl⟩

end Step

end Tinyflows.Engine
