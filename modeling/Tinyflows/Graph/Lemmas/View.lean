import Tinyflows.Graph.View
import Tinyflows.Graph.Lemmas.Partition
import Tinyflows.Graph.Lemmas.Step

/-!
# The run loop refines the machine of views
-/

namespace Tinyflows.Graph
open Lib List Activation Except

variable {S U V : Type} {g : CompiledGraph S U V}
  {rt : Runtime S U V} {ti : Option ThreadId} {st : Nat} {state : S}

/-! ## Unknown nodes -/

theorem Fate.started_ofResult (r : Except GraphError (NodeResult U V)) :
    (Fate.ofResult r).started = true := by
  rcases r with e | ⟨u⟩ | ⟨c⟩ | ⟨i⟩ <;> rfl

theorem unknownNode_cons {a re f fs} :
    unknownNode g (a :: re) (f :: fs) =
      if a.node ∈ g.nodes ∨ f.started = false then unknownNode g re fs else some a.node := by
  simp only [unknownNode, zip_cons_cons, findSome?_cons]
  split_ifs <;> rfl

variable {ac ac' : List (Activation V)} {ix : Nat}

theorem unknownNode_unstarted :
    unknownNode g ac (ac.map fun _ => (.unstarted : Fate U V)) = none := by
  induction ac with
  | nil => rfl
  | cons a re ih => rw [map_cons, unknownNode_cons, if_pos (.inr rfl), ih]

theorem sequential_unknown {p} :
    (runActiveSequential g rt ti st state ix ac p).map (fun _ => ()) =
      (unknownNode g ac (sequentialFates rt ti st state ix ac p.resumeMap)).elim
        (.ok ()) fun nd => .error (.missingNode nd) := by
  induction ac generalizing ix p with
  | nil => rfl
  | cons a rs ih =>
    rcases hn : nodeContext rt ti st none a p.resumeMap with ⟨ctx, m⟩
    simp only [sequentialFates, runActiveSequential, hn]
    by_cases ha : a.node ∈ g.nodes
    · rw [if_pos ha]
      cases hr : rt.handler a.node ix state ctx with
      | error e =>
        rw [if_neg (by simp [Fate.ofResult, Fate.isCompleted]), unknownNode_cons,
          if_pos (.inl ha), unknownNode_unstarted]
        rfl
      | ok re =>
        rcases foldResult_run ix a.node re
          { p with resumeMap := m, contexts := p.contexts ++ [(ix, ctx)] } with
          ⟨q, hq, hc, -, hm, -⟩ | ⟨q, found, hq, hc, -⟩
        · rw [if_pos hc, unknownNode_cons, if_pos (.inl ha)]
          simp only [hq]
          rw [ih]
          exact congrArg (fun m => (unknownNode g rs (sequentialFates rt ti st state
            (ix + 1) rs m)).elim _ _) hm
        · rw [if_neg (by rw [hc]; decide), unknownNode_cons, if_pos (.inl ha), unknownNode_unstarted]
          simp only [hq]
          rfl
    · rw [if_neg ha]
      split_ifs <;> rw [unknownNode_cons, if_neg (by simp [ha, Fate.started_ofResult])] <;> rfl

theorem forkContexts_unknown (rt ti st ix m) {fa}
    (hl : fa.length = ac.length) (hs : ∀ f ∈ fa, f.started = true) :
    (forkContexts g rt ti st ix ac m).map (fun _ => ()) =
      (unknownNode g ac fa).elim (.ok ()) fun nd => .error (.missingNode nd) := by
  induction ac generalizing ix m fa with
  | nil => rfl
  | cons a re ih =>
    cases fa with
    | nil => cases hl
    | cons f fs =>
      rw [forall_mem_cons] at hs
      rw [unknownNode_cons]
      simp only [forkContexts, nodeContext, hs.1, Bool.true_eq_false, or_false]
      split_ifs
      · rw [← ih (ix + 1) (m.erase a.node) (Nat.succ.inj hl) hs.2]
        cases forkContexts g rt ti st (ix + 1) re (m.erase a.node) <;> rfl
      · rfl

/-- With the slots in order, a step runs unless it meets a node the graph lacks, and then its result
is that of the fates. -/
theorem runActive_spec (rt ti) (st : Nat) (state p) (ho : SlotsInOrder g ac) :
    (runActive g rt ti st state ac p).map (·.run) =
      (unknownNode g ac (branchFates g rt ti st state ac p.resumeMap)).elim
        (.ok ((branchFates g rt ti st state ac p.resumeMap).zipIdx.foldl StepRun.add
          p.run)) fun nd => .error (.missingNode nd) := by
  have he : (runActive g rt ti st state ac p).map (fun _ => ()) =
      (unknownNode g ac (branchFates g rt ti st state ac p.resumeMap)).elim
        (.ok ()) fun nd => .error (.missingNode nd) := by
    unfold runActive branchFates
    split_ifs
    · rw [← forkContexts_unknown rt ti st 0 p.resumeMap (by simp [parallelFates]) (by
          intro f hf
          obtain ⟨i, -, rfl⟩ := mem_map.mp hf
          exact Fate.started_ofResult _)]
      simp only [runActiveParallel]
      cases forkContexts g rt ti st 0 ac p.resumeMap with
      | error e => rfl
      | ok r =>
        obtain ⟨rs, hs, -⟩ := driveBranches_some g (rt.select st) ac
          (branchResult rt state ac r.1)
        simp only [hs]
        rfl
    · exact sequential_unknown
  cases hr : runActive g rt ti st state ac p with
  | error e =>
    rw [hr] at he
    cases hu : unknownNode g ac (branchFates g rt ti st state ac p.resumeMap) with
    | none => rw [hu] at he; cases he
    | some nd => rw [hu] at he; cases he; rfl
  | ok p' =>
    rw [hr] at he
    cases hu : unknownNode g ac (branchFates g rt ti st state ac p.resumeMap) with
    | none => exact congrArg ok (runActive_inOrder ho hr)
    | some nd => rw [hu] at he; cases he

/-! ## What routing reads of an activation -/

theorem leadsTo_eq {so go stop} : leadsTo g so go stop =
      (so.map (·.2)).any fun ta =>
        ta.any fun tr => reachesDeterministically g tr.nodeId go stop := by
  rw [leadsTo, any_map]; rfl

theorem relieve_congr {R R'}
    (h : R.map (fun s => (s.1.node, s.2)) = R'.map fun s => (s.1.node, s.2)) (r rl) :
    relieve g R r rl = relieve g R' r rl := by
  have hs : ∀ S : List (Activation V × List (RouteTarget V)),
      (S.filter fun s => s.1.node = rl.source).map (·.2) =
        ((S.map fun s => (s.1.node, s.2)).filter fun s => s.1 = rl.source).map (·.2) := by
    intro S
    rw [filter_map, map_map]; rfl
  have he : (R.filter fun s => s.1.node = rl.source).map (·.2) =
      (R'.filter fun s => s.1.node = rl.source).map (·.2) := by
    rw [hs, hs, h]
  have hm : (R.filter fun s => s.1.node = rl.source).isEmpty =
      (R'.filter fun s => s.1.node = rl.source).isEmpty := by
    simpa using congrArg List.isEmpty he
  have hl : ∀ go stop, leadsTo g (R.filter fun s => s.1.node = rl.source) go stop =
      leadsTo g (R'.filter fun s => s.1.node = rl.source) go stop := fun go stop => by
    rw [leadsTo_eq, leadsTo_eq, he]
  simp only [relieve, hm, hl]

section Nodes

variable (h : activationNodes ac = activationNodes ac')
include h

theorem routeActivations_congr {gm state r} :
    routeActivations g gm state ix ac r = routeActivations g gm state ix ac' r := by
  induction ac generalizing ix ac' r with
  | nil =>
    cases ac' with
    | nil => rfl
    | cons b re => cases h
  | cons a re ih =>
    cases ac' with
    | nil => cases h
    | cons b re' =>
      obtain ⟨ha, hr⟩ := List.cons.inj h
      simp only [routeActivations, ha]
      split
      · rfl
      · rw [ih hr]

theorem routeCompleted_congr (g : CompiledGraph S U V) (gm state barriers) :
    routeCompleted g ac gm state barriers = routeCompleted g ac' gm state barriers := by
  have hp : routePass g ac gm state barriers = routePass g ac' gm state barriers := by
    simp only [routePass, routeActivations_congr h]
    split
    · rfl
    · rename_i r rd _
      have hm : ∀ l : List (Activation V), (l.zip rd).map (fun s => (s.1.node, s.2)) =
          (activationNodes l).zip rd := fun l => by
        rw [activationNodes, zip_map_left]; rfl
      have hz : (ac.zip rd).map (fun s => (s.1.node, s.2)) =
          (ac'.zip rd).map fun s => (s.1.node, s.2) := by rw [hm, hm, h]
      have hr : relieve g (ac.zip rd) = relieve g (ac'.zip rd) :=
        funext fun r => funext (relieve_congr hz r)
      rw [hr]
  rw [routeCompleted, hp, routeCompleted]

theorem partitionCompleted_congr (gm co) :
    activationNodes (partitionCompleted ac gm co).1 =
      activationNodes (partitionCompleted ac' gm co).1 ∧
    (partitionCompleted ac gm co).2 = (partitionCompleted ac' gm co).2 := by
  induction co using List.reverseRecOn with
  | nil => exact ⟨rfl, rfl⟩
  | append_singleton co ix ih =>
    have hg : (ac[ix]?).map (·.node) = (ac'[ix]?).map (·.node) := by
      simpa [activationNodes] using congrArg (·[ix]?) h
    have hl : (partitionCompleted ac gm co).1.length =
        (partitionCompleted ac' gm co).1.length := by
      simpa [activationNodes] using congrArg List.length ih.1
    rw [partitionCompleted_concat, partitionCompleted_concat]
    cases ha : ac[ix]? with
    | none =>
      rw [ha, Option.map_none, eq_comm, Option.map_eq_none_iff] at hg
      rw [hg]
      exact ih
    | some a =>
      rw [ha, Option.map_some, eq_comm, Option.map_eq_some_iff] at hg
      obtain ⟨a', ha', hn⟩ := hg
      rw [ha', hl, ih.2]
      refine ⟨?_, rfl⟩
      simp only [activationNodes, map_append, map_cons, map_nil, hn]
      rw [← activationNodes, ih.1]; rfl

theorem pauseBoundary_congr (g : CompiledGraph S U V) (run state ba) :
    (pauseBoundary g ac run state ba).map (Except.map Boundary.state) =
      (pauseBoundary g ac' run state ba).map (Except.map Boundary.state) := by
  obtain ⟨hn, hg⟩ := partitionCompleted_congr h run.gotoMap run.completed
  have hr := routeCompleted_congr hn g (partitionCompleted ac' run.gotoMap run.completed).2 state ba
  unfold pauseBoundary
  split
  · simp only [failureBoundary, hg, hr, Option.map_some]
    split <;> rfl
  · split_ifs
    · rfl
    · simp only [interruptBoundary, hg, hr, Option.map_some]
      split <;> rfl

theorem settle_congr (g : CompiledGraph S U V) (run state barriers) :
    settle g ac run state barriers = settle g ac' run state barriers := by
  have hp := pauseBoundary_congr h g run state barriers
  unfold settle
  rw [routeCompleted_congr h g run.gotoMap state barriers]
  cases hb : pauseBoundary g ac run state barriers with
  | none =>
    rw [hb, Option.map_none, eq_comm, Option.map_eq_none_iff] at hp
    rw [hp]
  | some b =>
    rw [hb, Option.map_some, eq_comm, Option.map_eq_some_iff] at hp
    obtain ⟨b', hb', hs⟩ := hp
    rw [hb']
    rcases b with e | b <;> rcases b' with e' | b' <;>
      simp only [Except.map, Except.error.injEq, Except.ok.injEq, reduceCtorEq] at hs
    · rw [hs]
    · simp only [hs]

theorem unknownNode_congr (fates) : unknownNode g ac fates = unknownNode g ac' fates := by
  induction ac generalizing ac' fates with
  | nil =>
    cases ac' with
    | nil => rfl
    | cons b rest => cases h
  | cons a rest ih =>
    cases ac' with
    | nil => cases h
    | cons b rest' =>
      obtain ⟨ha, hr⟩ : a.node = b.node ∧ activationNodes rest = activationNodes rest' :=
        List.cons.inj h
      cases fates with
      | nil => rfl
      | cons f fs => rw [unknownNode_cons, unknownNode_cons, ha, ih hr fs]

end Nodes

/-! ## Task ids -/

theorem assignTaskIds_jobs (st) (ac : List (Activation V)) :
    (assignTaskIds st ac).map job = ac.map job := by
  refine ext_getElem (by simp [assignTaskIds]) fun i hi hi' => ?_
  simp only [assignTaskIds, getElem_mapIdx, getElem_map]
  split_ifs <;> rfl

theorem nodes_of_jobs (h : ac.map job = ac'.map job) :
    activationNodes ac = activationNodes ac' := by
  have hf : ∀ l : List (Activation V), activationNodes l = (l.map job).map Prod.fst := fun l => by
    rw [activationNodes, map_map]; rfl
  rw [hf, hf, h]

theorem ofJob_jobs (ac : List (Activation V)) : ((ac.map job).map ofJob).map job = ac.map job := by
  rw [map_map, map_map]; rfl

theorem branchNode_eq (ac : List (Activation V)) :
    branchNode ac = fun i => ((activationNodes ac)[i]?).getD "" := by
  funext i
  rw [branchNode, activationNodes, getElem?_map]

theorem SlotsInOrder.congr (h : activationNodes ac = activationNodes ac')
    (ho : SlotsInOrder g ac) : SlotsInOrder g ac' := by
  have hl : ac.length = ac'.length := by
    simpa [activationNodes] using congrArg List.length h
  have hn : branchNode ac = branchNode ac' := by
    rw [branchNode_eq, branchNode_eq, h]
  have hc : ceilings g ac = ceilings g ac' := by simp only [ceilings, hl]
  have hg : globalBinds g ac = globalBinds g ac' := by simp only [globalBinds, hl]
  have ha : nodeCapsBind g ac = nodeCapsBind g ac' := by
    unfold nodeCapsBind
    rw [hl, hn, h]
  unfold SlotsInOrder bounded at ho ⊢
  rwa [hl, hn, hc, hg, ha] at ho

/-! ## One step -/

section Step

variable {th : ThreadId} {l en : Loop S V} {run : StepRun U V} {d : Persistence S V}

theorem finishFailure_result {fa} :
    (finishFailure g rt ti l run fa).result =
      match failureBoundary g l.active run fa l.state l.barriers with
      | .error e => .error e
      | .ok _ => .error fa.error := by
  unfold finishFailure
  cases failureBoundary g l.active run fa l.state l.barriers <;> rfl

theorem Ran.clean {p} (hr : Ran g rt ti l en p state) (hc : l.Clean) :
    (en.ran state p).Clean := by
  obtain ⟨_, rfl, -⟩ := enterStep_ok hr.enter
  exact hc

variable (hc : g.checkpointer = true) (hr : rt.Reliable)
include hc hr

theorem persistCheckpoint_reliable (pa st b d) :
    persistCheckpoint g rt (some th) pa st b d =
      ({ d with
         minted := d.minted + 1
         store := (d.store.put (buildCheckpoint g rt th (rt.checkpointId d.minted) pa st
            b)).putWrites th g.ns (rt.checkpointId d.minted) (completionWrites b.completedTasks) },
       .ok (some (rt.checkpointId d.minted))) := by
  simp only [persistCheckpoint, hc, (hr d.minted).1, (hr d.minted).2]
  rfl

theorem nonblocking_reliable (th pa st b) (hl : d.writes.Clean) :
    ∃ d', persistCheckpointNonblocking g rt (some th) pa st b d =
      (d', .ok (some (rt.checkpointId d.minted))) ∧ d'.writes.Clean := by
  simp only [persistCheckpointNonblocking, hc, (hr d.minted).1]
  split
  · exact ⟨_, rfl, hl.spawnOrdered.1⟩
  · exact ⟨_, rfl, hl⟩

theorem persistBoundary_reliable (th pa st b) (hl : d.writes.Clean) :
    ∃ d' id, persistBoundary g rt (some th) pa st b d = (d', .ok id) ∧ d'.writes.Clean := by
  unfold persistBoundary
  split_ifs
  · simp only [hl.drain, persistCheckpoint_reliable hc hr]
    exact ⟨_, _, rfl, rfl⟩
  · split
    · exact ⟨_, _, rfl, hl⟩
    · obtain ⟨d', hd', hw⟩ := nonblocking_reliable hc hr th pa st b hl
      exact ⟨_, _, hd', hw⟩
    · rw [persistCheckpoint_reliable hc hr]
      exact ⟨_, _, rfl, hl⟩

theorem loopBoundary_view (th run) (hl : l.Clean) :
    match routeCompleted g l.active run.gotoMap l.state l.barriers with
    | .error e => loopBoundary g rt (some th) l run = .done (l.abort e)
    | .ok (nx, barriers) => ∃ l', loopBoundary g rt (some th) l run = .next l' ∧
        l'.active = nx ∧ l'.state = l.state ∧ l'.barriers = barriers ∧
        l'.resumeMap = l.resumeMap ∧ l'.steps = l.steps ∧ l'.nodeVisits = l.nodeVisits ∧
        l'.Clean := by
  unfold loopBoundary
  cases routeCompleted g l.active run.gotoMap l.state l.barriers with
  | error e => rfl
  | ok r =>
    obtain ⟨nx, barriers⟩ := r
    obtain ⟨ws, hw, hl'⟩ := hl.takeFailure (rt.finished l.steps)
    obtain ⟨d, id, hd, hd'⟩ := persistBoundary_reliable (d := { l.persistence with writes := ws })
      hc hr th l.parentCheckpoint l.steps
      { state := l.state, pending := nx, completedTasks := l.active, barriers } hl'
    simp only [hw, hd, Loop.advance]
    exact ⟨_, rfl, rfl, rfl, rfl, rfl, rfl, rfl, hd'⟩

theorem finishInterrupt_result (hl : l.Clean) :
    (finishInterrupt g rt (some th) l run).result.map (·.state) =
      (interruptBoundary g l.active run l.state l.barriers).map (·.state) := by
  unfold finishInterrupt
  simp only [requireInterruptDurability, hc]
  cases hb : interruptBoundary g l.active run l.state l.barriers with
  | error e => rfl
  | ok b =>
    have hs : b.state = l.state := by
      simp only [interruptBoundary] at hb
      split at hb
      · cases hb
      · cases hb; rfl
    simp only [hl.drain, persistCheckpoint_reliable hc hr]
    exact congrArg ok hs.symm

theorem boundary_view (th l run) (hC : l.Clean) :
    (match run.failure with
      | some fa => StepOutcome.done (finishFailure g rt (some th) l run fa)
      | none =>
        if run.interrupts.isEmpty then loopBoundary g rt (some th) l run
        else .done (finishInterrupt g rt (some th) l run)).view =
    settle g l.active run l.state l.barriers := by
  unfold settle pauseBoundary
  cases hf : run.failure with
  | some fa =>
    simp only [StepOutcome.view, finishFailure_result]
    cases failureBoundary g l.active run fa l.state l.barriers <;> rfl
  | none =>
    split_ifs
    · have hl := loopBoundary_view hc hr th run hC
      cases ho : routeCompleted g l.active run.gotoMap l.state l.barriers with
      | error e =>
        rw [ho] at hl
        simp only [hl]
        rfl
      | ok r =>
        obtain ⟨nx, ba⟩ := r
        rw [ho] at hl
        obtain ⟨l', hl', rfl, hs, rfl, -⟩ := hl
        simp only [hl', ← hs]
        rfl
    · simp only [StepOutcome.view, finishInterrupt_result hc hr hC]
      cases interruptBoundary g l.active run l.state l.barriers <;> rfl

theorem superStep_settled {p} (ha : Ran g rt (some th) l en p state)
    (hl : l.Clean) :
    (superStep g rt (some th) l).view = settle g en.active p.run state en.barriers := by
  simp only [superStep, ha.enter, ha.run, ha.fold]
  exact boundary_view hc hr th (en.ran state p) p.run (ha.clean hl)

theorem superStep_clean {m} (hl : l.Clean)
    (h : superStep g rt (some th) l = .next m) : m.Clean := by
  obtain ⟨en, p, state, ha, -, -, hb⟩ := superStep_next h
  have hv := loopBoundary_view hc hr th p.run (ha.clean hl)
  split at hv
  · cases hb.symm.trans hv
  · obtain ⟨l', hl', -, -, -, -, -, -, hw⟩ := hv
    cases hb.symm.trans hl'
    exact hw

theorem superStep_view (ho : SlotsInOrder g l.active) (he : enterStep g rt l = .ok en)
    (hl : l.Clean) :
    (superStep g rt (some th) l).view = l.view.step g
      (branchFates g rt (some th) en.steps l.state en.active l.resumeMap) := by
  obtain ⟨nodeVisits, rfl, -⟩ := enterStep_ok he
  have hn : activationNodes (assignTaskIds (l.steps + 1) l.active) =
      activationNodes (l.view.jobs.map ofJob) :=
    nodes_of_jobs ((assignTaskIds_jobs _ _).trans (ofJob_jobs _).symm)
  have hs := runActive_spec rt (some th) (l.steps + 1) l.state
    { resumeMap := l.resumeMap, visited := l.visited }
    (ho.congr (nodes_of_jobs (assignTaskIds_jobs (l.steps + 1) l.active).symm))
  simp only [superStep, he, View.step]
  rw [← unknownNode_congr hn]
  generalize branchFates g rt (some th) (l.steps + 1) l.state
    (assignTaskIds (l.steps + 1) l.active) l.resumeMap = fates at hs ⊢
  cases ha : runActive g rt (some th) (l.steps + 1) l.state
      (assignTaskIds (l.steps + 1) l.active) { resumeMap := l.resumeMap, visited := l.visited } with
  | error e =>
    rw [ha] at hs
    cases hu : unknownNode g (assignTaskIds (l.steps + 1) l.active) fates with
    | none => rw [hu] at hs; cases hs
    | some node => rw [hu] at hs; cases hs; rfl
  | ok p =>
    rw [ha] at hs
    cases hu : unknownNode g (assignTaskIds (l.steps + 1) l.active) fates with
    | some node => rw [hu] at hs; cases hs
    | none =>
      rw [hu] at hs
      have hp : p.run = StepRun.ofFates fates := ok.inj hs
      simp only [hp]
      generalize StepRun.ofFates fates = run
      rw [Loop.view_state, Loop.view_barriers]
      cases applyUpdates g l.state run.updates with
      | error e => rfl
      | ok state =>
        refine (boundary_view hc hr th { l with
          nodeVisits, state, steps := l.steps + 1, resumeMap := p.resumeMap, visited := p.visited
          active := assignTaskIds (l.steps + 1) l.active } run hl).trans ?_
        exact settle_congr hn g run state l.barriers

end Step

/-! ## Handlers that look at nothing else -/

section Follows

variable {f : Handlers S U V}

theorem forkedContexts_sendArg (rt : Runtime S U V) (ti) (st ix i : Nat) (ac m) :
    ((forkedContexts rt ti st ix ac m)[i]?).map (·.sendArg) = (ac[i]?).map (·.sendArg) := by
  induction ac generalizing ix i m with
  | nil => rfl
  | cons a re ih =>
    cases i with
    | zero => rfl
    | succ i => simpa only [forkedContexts, getElem?_cons_succ] using ih _ _ _

variable {ac : List (Activation V)} {m : ResumeMap V}

theorem sequentialFates_follows (hf : rt.Follows f) {ix} :
    sequentialFates rt ti st state ix ac m =
      stopAtFirst (ac.map fun a => Fate.ofResult (f a.node state a.sendArg)) := by
  induction ac generalizing ix m with
  | nil => rfl
  | cons a re ih =>
    simp only [sequentialFates, nodeContext, hf a.node, map_cons, stopAtFirst, ih, map_map]
    rfl

theorem parallelFates_follows (hf : rt.Follows f) : parallelFates rt ti st state ac m =
      ac.map fun a => Fate.ofResult (f a.node state a.sendArg) := by
  refine ext_getElem (by simp [parallelFates]) fun i hi hi' => ?_
  have hl : i < ac.length := by simpa using hi'
  have hc : i < (forkedContexts rt ti st 0 ac m).length := by
    rw [length_forkedContexts]; exact hl
  have ha := forkedContexts_sendArg rt ti st 0 i ac m
  rw [getElem?_eq_getElem hc, getElem?_eq_getElem hl, Option.map_some, Option.map_some,
    Option.some.injEq] at ha
  simp only [parallelFates, getElem_map, getElem_range, branchResult,
    getElem?_eq_getElem hc, getElem?_eq_getElem hl, hf ac[i].node, ha]

theorem branchFates_follows (hf : rt.Follows f) : branchFates g rt ti st state ac m =
      jobFates g f state (ac.map job) := by
  simp only [branchFates, jobFates, length_map, map_map, parallelFates_follows hf,
    sequentialFates_follows hf]
  rfl

end Follows

end Tinyflows.Graph
