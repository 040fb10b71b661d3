import Tinyflows.Graph.Lemmas.Updates

/-!
# Writes attributed to a node
-/

namespace Tinyflows.Graph
open Lib List HashMap

variable {S U V : Type} {g : CompiledGraph S U V} {node : NodeId}
  {st : S} {targets : List (RouteTarget V)}

/-! ## What a write leaves -/

theorem getScoped_put (store : CheckpointStore S V) (c) :
    (store.put c).getScoped c.threadId none c.ns = some c := by
  have ht : (store.put c).getThread c.threadId = store.getThread c.threadId ++ [c] := by
    rw [getThread_put, if_pos rfl]
  simp only [CheckpointStore.getScoped, CheckpointStore.get, ht, reverse_append,
    reverse_cons, reverse_nil, nil_append, cons_append, find?_cons,
    decide_true]

theorem pendingOf_updated (w th asNode st bs r) :
    pendingOf (updatedCheckpoint g w th asNode st bs (.ofMerged r)) = r.next := by
  cases hn : r.next with
  | nil => simp [pendingOf, updatedCheckpoint, Schedule.ofMerged, hn, activationNodes]
  | cons a rest =>
    simp only [pendingOf, updatedCheckpoint, Schedule.ofMerged, hn, cons_ne_nil, if_false,
      map_cons, map_map, Activation.ofPending_ofActivation]
    exact congrArg _ ((map_congr_left fun b _ => Activation.ofPending_ofActivation b).trans (map_id _))

theorem schedule_next {r r' : Routed V} (hn : r.next = r'.next)
    (hs : r.nextSeen = r'.nextSeen) (n sa) : (r.schedule n sa).next = (r'.schedule n sa).next := by
  unfold Routed.schedule
  split
  · simp only [hn]
  · rw [hs]
    split_ifs
    · exact hn
    · simp only [hn]

theorem mergePass_eq (ho : route g node none st = .ok targets) (hg : Gated g node targets)
    (bs : Checkpoint S V) : ∃ r, mergePass g node st bs = .ok r ∧
      r.next = joinPending (retainedPending node bs)
        (followed g node targets (barriersFromPersisted bs.barrierArrivals)).next ∧
      r.barriers = (followed g node targets (barriersFromPersisted bs.barrierArrivals)).barriers := by
  simp only [mergePass, ho]
  refine ⟨_, rfl, ?_⟩
  generalize barriersFromPersisted bs.barrierArrivals = barriers
  generalize retainedPending node bs = pending
  have joined : ∀ {r : Routed V} {r' : Routed V} (t : NodeId), r.next = pending →
      r.nextSeen = plainNodes pending → r'.next = [] → r'.nextSeen = ∅ →
      (r.schedule t none).next = joinPending pending (r'.schedule t none).next := by
    intro r r' t hn hs hn' hs'
    rw [show (r'.schedule t none).next = [{ node := t }] by simp [Routed.schedule, hn', hs']]
    exact schedule_next hn hs t none
  rcases route_static ho with rfl | ⟨t, rfl⟩
  · exact ⟨rfl, rfl⟩
  · by_cases he : t = END
    · subst he
      exact ⟨rfl, rfl⟩
    · cases hr : g.waiting.lookup t with
      | none =>
        simp only [followed, foldl_cons, foldl_nil, mergeTarget, followTarget,
          RouteTarget.nodeId, RouteTarget.sendArg, he, hr, if_false, Routed.pass,
          schedule_barriers, and_true]
        exact joined t rfl rfl rfl rfl
      | some required =>
        have hm : node ∈ required := hg _ mem_cons_self he _ hr
        rw [followed_barrier he hr hm]
        simp only [foldl_cons, foldl_nil, mergeTarget, RouteTarget.nodeId,
          RouteTarget.sendArg, he, hr, if_false, Routed.await]
        -- both passes see the same arrivals
        cases ha : arrive barriers required t node with
        | mk br' cleared =>
          cases cleared with
          | false => exact ⟨rfl, rfl⟩
          | true => exact ⟨joined t rfl rfl rfl rfl, by rw [schedule_barriers, schedule_barriers]⟩

theorem mergePass_error {e}
    (hr : (route g node none st : Except GraphError (List (RouteTarget V))) = .error e)
    (bs) : mergePass g node st bs = .error e := by
  simp only [mergePass, hr]

variable {next pending : List (Activation V)}

theorem mem_joinPending {n} (h : n ∈ activationNodes next) :
    n ∈ activationNodes (joinPending pending next) := by
  have hf : ∀ (next : List (Activation V)) (r : Routed V), r.SeenScheduled →
      n ∈ activationNodes next ∨ n ∈ activationNodes r.next →
      n ∈ activationNodes (next.foldl (fun r a => r.schedule a.node a.sendArg) r).next := by
    intro next
    induction next with
    | nil => exact fun r _ h => h.resolve_left not_mem_nil
    | cons a rest ih =>
      intro r hr h
      obtain ⟨hs, he⟩ := hr.schedule a.node a.sendArg
      refine ih _ hs ?_
      rcases h with h | h
      · rcases mem_cons.mp h with rfl | h
        · exact .inr he
        · exact .inl h
      · obtain ⟨b, hb, rfl⟩ := mem_map.mp h
        exact .inr (mem_map_of_mem (schedule_mono hb _ _))
  refine hf next _ (fun m hm => ?_) (.inl h)
  obtain ⟨a, ha, rfl⟩ := mem_map.mp (mem_toFinset.mp hm)
  exact mem_map_of_mem (mem_filter.mp ha).1

theorem of_mem_joinPending {n} (h : n ∈ activationNodes (joinPending pending next)) :
    n ∈ activationNodes pending ∨ n ∈ activationNodes next := by
  obtain ⟨a, ha, rfl⟩ := mem_map.mp h
  refine List.foldlRecOn next _ (motive := fun r : Routed V => ∀ a ∈ r.next,
    a.node ∈ activationNodes pending ∨ a.node ∈ activationNodes next) (fun a ha => ?_)
    (fun r hr b hb => ?_) a ha
  · exact .inl (mem_map_of_mem ha)
  · exact Routed.forall_schedule hr (.inr (mem_map.mpr ⟨b, hb, rfl⟩))

section Write

variable {w : Writer} {store : CheckpointStore S V} {th : ThreadId} {update : U}
  {bs : Checkpoint S V}

section

variable (hc : g.checkpointer = true) (hn : node ∈ g.nodes) (ho : node ∉ g.commandNodes)
  (hb : store.getScoped th none g.ns = some bs)
  (hs : g.reducer bs.state update = .ok st) (hp : w.put = none)
include hc hn ho hb hs hp

theorem updateState_attributed : updateState g w store th update (some node) =
      match mergePass g node st bs with
      | .error e => (.error e, store)
      | .ok r => (.ok { threadId := th, checkpointId := some w.id, ns := g.ns },
          store.put (updatedCheckpoint g w th (some node) st bs (.ofMerged r))) := by
  simp only [updateState, hc, checkAttribution, hn, ho, hb, hs,
    updateSchedule, not_true_eq_false, Bool.true_eq_false, if_false]
  cases mergePass g node st bs with
  | error e => rfl
  | ok r => simp only [putCheckpoint, hp]; rfl

theorem schedulesAsCompleted_iff {r} (hm : mergePass g node st bs = .ok r) {next barriers}
    (hS : completedSchedule g node st bs = .ok (next, barriers)) :
    SchedulesAsCompleted g w store th update node st bs ↔
      r.next = next ∧ r.barriers = barriers := by
  have hu := updateState_attributed hc hn ho hb hs hp
  simp only [hm] at hu
  have hf : (store.put (updatedCheckpoint g w th (some node) st bs (.ofMerged r))).getScoped
      th none g.ns = some (updatedCheckpoint g w th (some node) st bs (.ofMerged r)) :=
    getScoped_put store _
  simp only [SchedulesAsCompleted, hS, hu, hf, Option.some.injEq, exists_eq_left', pendingOf_updated]
  simp only [updatedCheckpoint, Schedule.ofMerged, barriers_roundtrip, true_and]

end

end Write

/-! ## Writes as completions -/

theorem completedSchedule_eq (hr : route g node none st = .ok targets)
    (bs) : completedSchedule g node st bs =
      .ok (joinPending (retainedPending node bs)
          (g.barrierReliefs.foldl (relieve g [({ node }, targets)]) (followed g node targets
            (barriersFromPersisted bs.barrierArrivals))).next,
        (g.barrierReliefs.foldl (relieve g [({ node }, targets)]) (followed g node targets
          (barriersFromPersisted bs.barrierArrivals))).barriers) := by
  simp only [completedSchedule, routeCompleted, routePass_single hr]

theorem UpdatesAlike.schedules (h : UpdatesAlike g node st) {w store th update bs}
    (hc : g.checkpointer = true) (hn : node ∈ g.nodes) (ho : node ∉ g.commandNodes)
    (hb : store.getScoped th none g.ns = some bs) (hs : g.reducer bs.state update = .ok st)
    (hp : w.put = none) : SchedulesAsCompleted g w store th update node st bs := by
  cases hr : (route g node none st : Except GraphError (List (RouteTarget V))) with
  | error e =>
    have hS : completedSchedule g node st bs = .error e := by
      simp only [completedSchedule, routeCompleted, routePass_single_error hr]
    have hu := updateState_attributed hc hn ho hb hs hp
    simp only [mergePass_error hr] at hu
    simp only [SchedulesAsCompleted, hS, hu]
  | ok targets =>
    obtain ⟨hg, hd⟩ := h targets hr
    obtain ⟨r, hm, he, hB⟩ := mergePass_eq hr hg bs
    have ha := relieve_disarmed hd hg (barriersFromPersisted bs.barrierArrivals)
    rw [schedulesAsCompleted_iff hc hn ho hb hs hp hm
      (completedSchedule_eq hr bs), ha.next, ha.barriers]
    exact ⟨he, hB⟩

def idleCheckpoint (ns : List String) (state : S) (barriers : Barriers) :
    Checkpoint S V where
  threadId := "thread"
  checkpointId := "base"
  runId := none
  parentCheckpointId := none
  ns
  state
  nextNodes := []
  completedTasks := []
  pendingWrites := []
  interrupts := []
  pendingActivations := none
  barrierArrivals := barriersToPersisted (.sorted NodeId) barriers
  metadata := { source := "input", step := 0 }

section Idle

variable {start : S} {update : U}

theorem schedules_idle (hc : g.checkpointer = true) (hn : node ∈ g.nodes)
    (ho : node ∉ g.commandNodes) (ht : g.reducer start update = .ok st)
    (h : ∀ (w : Writer) store th (bs : Checkpoint S V), w.put = none →
      store.getScoped th none g.ns = some bs → bs.state = start →
      SchedulesAsCompleted g w store th update node st bs)
    (hr : route g node none st = .ok targets) (barriers : Barriers) {r}
    (hm : mergePass g node st (idleCheckpoint g.ns start barriers) = .ok r) :
    r.next = joinPending [] (g.barrierReliefs.foldl (relieve g [({ node }, targets)])
        (followed g node targets barriers)).next ∧
      r.barriers = (g.barrierReliefs.foldl (relieve g [({ node }, targets)])
        (followed g node targets barriers)).barriers := by
  have hb := getScoped_put {} (idleCheckpoint g.ns start barriers : Checkpoint S V)
  have hs := completedSchedule_eq hr (idleCheckpoint g.ns start barriers)
  simp only [idleCheckpoint, barriers_roundtrip] at hs
  exact (schedulesAsCompleted_iff hc hn ho hb ht rfl hm hs).mp
    (h ⟨"update", none, .sorted NodeId⟩ _ _ _ rfl hb rfl)

theorem gated_of_schedules (ho : route g node none st = .ok targets)
    (h : ∀ {r : Routed V}, mergePass g node st (idleCheckpoint g.ns start ∅) = .ok r →
      r.next = joinPending [] (g.barrierReliefs.foldl (relieve g [({ node }, targets)])
        (followed g node targets ∅)).next) :
    Gated g node targets := by
  rintro target hm hd required he
  by_contra hf
  rcases route_static ho with rfl | ⟨t, rfl⟩
  · cases hm
  · rw [mem_singleton] at hm
    subst hm
    change t ≠ END at hd
    change g.waiting.lookup t = some required at he
    have hi : ¬ required ⊆ insert node ∅ := by
      intro hs
      obtain ⟨n, hn⟩ : required.Nonempty := Finset.nonempty_iff_ne_empty.mpr fun hE =>
        g.waiting_nonempty t (Finmap.mem_keys.mpr (Finmap.mem_of_lookup_eq_some he)) (by rw [he, hE])
      have hn' := hs hn
      rw [Finset.insert_empty, Finset.mem_singleton] at hn'
      exact hf (hn' ▸ hn)
    have hM : ∃ r, mergePass g node st (idleCheckpoint g.ns start ∅) = .ok r ∧ r.next = [] := by
      simp only [mergePass, ho, foldl_cons, foldl_nil, mergeTarget, RouteTarget.nodeId,
        hd, he, if_false, idleCheckpoint, barriers_roundtrip]
      refine ⟨_, rfl, ?_⟩
      rcases await_cases ({ next := [], nextSeen := plainNodes [], barriers := ∅ } : Routed V)
        required t node none with ⟨hc, -⟩ | ⟨-, hN, -⟩
      · exact absurd hc hi
      · exact hN
    obtain ⟨r, hr, hl⟩ := hM
    have hS : ({ node := t } : Activation V) ∈ (g.barrierReliefs.foldl
        (relieve g [({ node }, [.node t])]) (followed g node [.node t] ∅)).next := by
      refine List.foldlRecOn g.barrierReliefs _
        (motive := fun r : Routed V => ({ node := t } : Activation V) ∈ r.next) ?_
        fun r hr re _ => relieve_ind (P := fun r => { node := t } ∈ r.next) hr
          fun required _ => await_mono hr _ _ _ _
      simp only [followed, foldl_cons, foldl_nil, followTarget, RouteTarget.nodeId, hd,
        he, hf, if_false]
      exact mem_singleton.mpr rfl
    have hj : t ∈ activationNodes (joinPending [] _) :=
      mem_joinPending (mem_map_of_mem hS)
    rw [← h hr, hl] at hj
    cases hj

end Idle

/-- A write attributed to a node leaves the schedule of the node's completion, whatever checkpoint it
starts from, exactly if every barrier the node goes to requires it and no relief answers to it. -/
theorem updateState_schedules_iff (g : CompiledGraph S U V) (node : NodeId)
    (start state : S) (update : U) (hcheckpointer : g.checkpointer = true)
    (hnode : node ∈ g.nodes) (hcommand : node ∉ g.commandNodes)
    (hstate : g.reducer start update = .ok state) :
    (∀ (w : Writer) store thread (base : Checkpoint S V), w.put = none →
      store.getScoped thread none g.ns = some base → base.state = start →
      SchedulesAsCompleted g w store thread update node state base) ↔
    UpdatesAlike g node state := by
  constructor
  · intro h targets hroute
    have hgated := gated_of_schedules hroute fun hmerge =>
      (schedules_idle hcheckpointer hnode hcommand hstate h hroute ∅ hmerge).1
    refine ⟨hgated, ?_⟩
    by_contra hreliefs
    -- the first relief that is not disarmed shows
    classical
    obtain ⟨relief, hfound⟩ : ∃ relief, g.barrierReliefs.find?
        (fun relief => decide (¬ relief.Disarmed g node targets)) = some relief := by
      push Not at hreliefs
      obtain ⟨relief, hmem, harmed⟩ := hreliefs
      exact Option.isSome_iff_exists.mp (find?_isSome.mpr ⟨relief, hmem, by simpa using harmed⟩)
    obtain ⟨harmed, before, after, hsplit, hbefore⟩ := find?_eq_some_iff_append.mp hfound
    obtain ⟨barriers, hshows⟩ := armed_shows (route_static hroute) hgated after
      (fun relief hmem => by simpa using hbefore relief hmem) (by simpa using harmed)
    obtain ⟨r, hmerge, hnext, hbarriers⟩ := mergePass_eq hroute hgated
      (idleCheckpoint g.ns start barriers)
    obtain ⟨hnext', hbarriers'⟩ :=
      schedules_idle hcheckpointer hnode hcommand hstate h hroute barriers hmerge
    simp only [idleCheckpoint, barriers_roundtrip] at hnext hbarriers
    rw [hsplit] at hnext' hbarriers'
    obtain ⟨n, hn, hnew⟩ := hshows _ rfl (hbarriers'.symm.trans hbarriers)
    have hjoined : n ∈ activationNodes (joinPending [] _) := mem_joinPending hn
    rw [← hnext', hnext] at hjoined
    exact (of_mem_joinPending hjoined).elim not_mem_nil hnew
  · rintro h w store thread base hput hbase rfl
    exact h.schedules hcheckpointer hnode hcommand hbase hstate hput

/-- `early` and `late` both lead to `join`, which waits for both. -/
def twoWays : CompiledGraph Unit Unit Unit where
  entry := "early"
  nodes := {"early", "late", "join"}
  edges := collect [("early", "join"), ("late", "join"), ("join", END)]
  waiting := collect [("join", {"early", "late"})]
  reducer _ _ := .ok ()

/-- The same, but `join` waits for `late` alone: a run of `early` goes straight through. -/
def shortcut : CompiledGraph Unit Unit Unit where
  entry := "early"
  nodes := {"early", "late", "join"}
  edges := collect [("early", "join"), ("late", "join"), ("join", END)]
  waiting := collect [("join", {"late"})]
  reducer _ _ := .ok ()

def beforeEarly : Checkpoint Unit Unit :=
  { (idleCheckpoint [] () ∅ : Checkpoint Unit Unit) with
    nextNodes := ["early"]
    pendingActivations := some [{ node := "early", sendArg := none, taskId := "" }] }

def firstWriter : Writer := ⟨"update", none, .sorted NodeId⟩

theorem twoWays_schedules :
    SchedulesAsCompleted twoWays firstWriter (({} : CheckpointStore Unit Unit).put beforeEarly)
      "thread" () "early" () beforeEarly :=
  (updateState_schedules_iff twoWays "early" () () () rfl (by decide) (by decide) rfl).mpr
    (fun targets hroute => by
      cases hroute
      refine ⟨fun target hmem _ required hreq => ?_, fun relief hmem => by cases hmem⟩
      rw [mem_singleton.mp hmem] at hreq
      cases hreq
      decide)
    firstWriter _ "thread" beforeEarly rfl (by decide) rfl

/-- A write attributed to `early` leaves the thread waiting, where a run of `early` leads to `join`. -/
theorem shortcut_withheld :
    ¬ SchedulesAsCompleted shortcut firstWriter (({} : CheckpointStore Unit Unit).put beforeEarly)
      "thread" () "early" () beforeEarly := by
  have hcompleted : completedSchedule shortcut "early" () beforeEarly =
    .ok ([{ node := "join" }], ∅) := by decide
  have hwritten : ((updateState shortcut firstWriter (({} : CheckpointStore Unit Unit).put beforeEarly)
    "thread" () (some "early")).2.getScoped "thread" none []).map pendingOf = some [] := by decide
  simp only [SchedulesAsCompleted, hcompleted]
  rintro ⟨c, hc, -, hpending, -⟩
  rw [show shortcut.ns = [] from rfl] at hc
  rw [hc, Option.map_some, hpending] at hwritten
  cases hwritten

end Tinyflows.Graph
