import Mathlib.Data.Fintype.EquivFin
import Tinyflows.Graph.Lemmas.Barriers

/-!
# A write against a completion

The routing of one completed node, and what its reliefs can add to it.
-/

namespace Tinyflows.Graph
open Lib List Finmap Routed Option

variable {S U V : Type} {g : CompiledGraph S U V} {node : NodeId}
  {st : S} {ta : List (RouteTarget V)} {barriers : Barriers}

/-! ## Routing one node -/

theorem route_static (h : route g node none st = .ok ta) : ta = [] ∨ ∃ t, ta = [.node t] := by
  simp only [route] at h
  split at h
  · cases h; exact .inr ⟨_, rfl⟩
  · split at h
    · split at h
      · cases h; exact .inr ⟨_, rfl⟩
      · cases h
    · cases h; exact .inl rfl

def followed (g : CompiledGraph S U V) (node : NodeId)
    (targets : List (RouteTarget V)) (barriers : Barriers) : Routed V :=
  targets.foldl (followTarget g node) { barriers }

theorem routePass_single (h : route g node none st = .ok ta) (barriers) :
    routePass g [({ node } : Activation V)] ∅ st barriers =
      .ok (g.barrierReliefs.foldl (relieve g [({ node }, ta)]) (followed g node ta barriers)) := by
  simp only [routePass, routeActivations, lookup_empty, h, zip_cons_cons, zip_nil_right]
  rfl

theorem routePass_single_error {e}
    (h : (route g node none st : Except GraphError (List (RouteTarget V))) = .error e) (barriers) :
    routePass g [({ node } : Activation V)] ∅ st barriers = .error e := by
  simp only [routePass, routeActivations, lookup_empty, h]

theorem leadsTo_single (t go stop) :
    leadsTo g [(({ node } : Activation V), [.node t])] go stop =
      reachesDeterministically g t go stop := by
  simp [leadsTo, RouteTarget.nodeId]

theorem reachesDeterministically_self (t sp) : reachesDeterministically g t t sp = true := by
  simp [reachesDeterministically, reaches]

theorem any_arrived {ar : Option (HashSet NodeId)} : ar.any (· ≠ ∅) = true ↔ ar.getD ∅ ≠ ∅ := by
  cases ar <;> simp

theorem relieve_cases (g : CompiledGraph S U V) (node ta r rl) :
    relieve g [({ node }, ta)] r rl = r ∨
    (rl.source = node ∧ leadsTo g [({ node }, ta)] rl.reliefNode rl.barrierNode = false ∧
      ∃ rq, g.waiting.lookup rl.barrierNode = some rq ∧
        ((r.barriers.lookup rl.barrierNode).getD ∅ ≠ ∅ ∨ ∃ pr ∈ rq,
          leadsTo g [({ node }, ta)] pr rl.barrierNode = true) ∧
        relieve g [({ node }, ta)] r rl = r.await rq rl.barrierNode rl.reliefNode none) := by
  by_cases hsource : rl.source = node
  · have hf : [(({ node } : Activation V), ta)].filter
        (fun s => s.1.node = rl.source) = [({ node }, ta)] := by simp [hsource]
    unfold relieve
    simp only [hf, isEmpty_cons, Bool.false_eq_true, if_false]
    split_ifs with ht
    · exact .inl rfl
    · split
      · exact .inl rfl
      · rename_i rq hreq
        split_ifs with he
        · refine .inr ⟨hsource, by simpa using (not_or.mp ht).1, rq, hreq, ?_, rfl⟩
          exact he.imp any_arrived.mp id
        · exact .inl rfl
  · have hf : [(({ node } : Activation V), ta)].filter
        (fun s => s.1.node = rl.source) = [] := by simp [Ne.symm hsource]
    unfold relieve
    simp only [hf, isEmpty_nil, if_true, true_or]

variable {r : Routed V} {rl : BarrierRelief} {rq ar : HashSet NodeId} {b : NodeId}
  {a : Activation V}

theorem relieve_acts (hsource : rl.source = node)
    (hleads : leadsTo g [({ node }, ta)] rl.reliefNode rl.barrierNode = false)
    (hs : rl.reliefNode ∉ r.nextSeen) (hreq : g.waiting.lookup rl.barrierNode = some rq)
    (he : (r.barriers.lookup rl.barrierNode).getD ∅ ≠ ∅ ∨ ∃ pr ∈ rq,
      leadsTo g [({ node }, ta)] pr rl.barrierNode = true) :
    relieve g [({ node }, ta)] r rl = r.await rq rl.barrierNode rl.reliefNode none := by
  have hf : [(({ node } : Activation V), ta)].filter
      (fun s => s.1.node = rl.source) = [({ node }, ta)] := by simp [hsource]
  unfold relieve
  simp only [hf, isEmpty_cons, Bool.false_eq_true, if_false, hleads, false_or, hs, hreq]
  exact if_pos (he.imp any_arrived.mpr id)

/-! ## Reliefs that do nothing -/

/-- The two passes lead to the same schedule; they may differ in their logs. -/
structure Routed.Alike (r r' : Routed V) : Prop where
  next : r.next = r'.next
  nextSeen : r.nextSeen = r'.nextSeen
  barriers : r.barriers = r'.barriers

theorem insert_lookup {m : Barriers} (h : m.lookup b = some ar) : m.insert b ar = m := by
  refine ext_lookup fun b' => ?_
  by_cases hb : b' = b
  · subst hb; rw [lookup_insert, h]
  · rw [lookup_insert_of_ne _ hb]

theorem await_again {n : NodeId} (h : r.barriers.lookup b = some ar) (hm : n ∈ ar)
    (hi : ¬ rq ⊆ ar) (sa) : (r.await rq b n sa).Alike r := by
  have ha : arrive r.barriers rq b n = (r.barriers.insert b ar, false) := by
    simp only [arrive, h, getD_some, Finset.insert_eq_of_mem hm, hi, if_false]
  simp only [await, ha]
  exact ⟨rfl, rfl, insert_lookup h⟩

theorem followed_barrier (he : b ≠ END) (hreq : g.waiting.lookup b = some rq)
    (hm : node ∈ rq) : followed g node [(.node b : RouteTarget V)] barriers =
      ({ barriers } : Routed V).await rq b node none := by
  simp only [followed, foldl_cons, foldl_nil, followTarget, RouteTarget.nodeId, he,
    if_false, hreq, hm, if_true, RouteTarget.sendArg]

theorem followed_barrier_cases (he : b ≠ END) (hreq : g.waiting.lookup b = some rq)
    (hm : node ∈ rq) (barriers) :
    (rq ⊆ insert node ((barriers.lookup b).getD ∅) ∧
      (followed g node [(.node b : RouteTarget V)] barriers).barriers.lookup b = none ∧
      (followed g node [(.node b : RouteTarget V)] barriers).next = [{ node := b }]) ∨
    (¬ rq ⊆ insert node ((barriers.lookup b).getD ∅) ∧
      (followed g node [(.node b : RouteTarget V)] barriers).barriers.lookup b =
        some (insert node ((barriers.lookup b).getD ∅)) ∧
      (followed g node [(.node b : RouteTarget V)] barriers).next = []) := by
  rw [followed_barrier he hreq hm]
  by_cases hc : rq ⊆ insert node ((barriers.lookup b).getD ∅)
  · have ha : arrive barriers rq b node = (barriers.erase b, true) := if_pos hc
    refine .inl ⟨hc, ?_, ?_⟩
    · simp only [await, ha, schedule_barriers, Finmap.lookup_erase]
    · simp only [await, ha]; rfl
  · have ha : arrive barriers rq b node =
        (barriers.insert b (insert node ((barriers.lookup b).getD ∅)), false) := if_neg hc
    refine .inr ⟨hc, ?_, ?_⟩
    · simp only [await, ha, lookup_insert]
    · simp only [await, ha]

/-- Every barrier among the targets requires the node. -/
abbrev Gated (g : CompiledGraph S U V) (node : NodeId) (targets : List (RouteTarget V)) : Prop :=
  ∀ target ∈ targets, target.nodeId ≠ END → ∀ required,
    g.waiting.lookup target.nodeId = some required → node ∈ required

theorem BarrierRelief.Disarmed.relieve (h : rl.Disarmed g node ta) (hgated : Gated g node ta)
    (hr : r.Alike (followed g node ta barriers)) :
    (Graph.relieve g [({ node }, ta)] r rl).Alike (followed g node ta barriers) := by
  rcases relieve_cases g node ta r rl with
    hs | ⟨hsource, hleads, rq, hreq, he, hw⟩
  · rwa [hs]
  · rcases h with h | h | h | ⟨rfl, hn, rq', hreq', hc, hb⟩
    · exact absurd hsource h
    · rw [hleads] at h; cases h
    · rw [hreq] at h; cases h
    · obtain rfl : rq' = rq := some.inj (hreq'.symm.trans hreq)
      have hM : node ∈ rq' := hgated _ mem_cons_self hn _ hreq
      rcases followed_barrier_cases hn hreq hM barriers with
        ⟨-, ho, -⟩ | ⟨hm, hS, -⟩
      · -- the barrier has cleared, and nothing leads back to it
        exfalso
        rw [hr.barriers, ho] at he
        rcases he with he | ⟨pr, hp, hleads'⟩
        · exact he rfl
        · rw [leadsTo_single, hb pr hp] at hleads'; cases hleads'
      · rcases hc with rfl | hse
        · exact absurd (by simp) hm
        · rw [hw, hse]
          have ha := await_again (by rw [hr.barriers]; exact hS) (Finset.mem_insert_self _ _)
            hm (none : Option V)
          exact ⟨ha.next.trans hr.next, ha.nextSeen.trans hr.nextSeen, ha.barriers.trans hr.barriers⟩

theorem relieve_disarmed {re : List BarrierRelief} (h : ∀ rl ∈ re, rl.Disarmed g node ta)
    (hgated : Gated g node ta) (barriers) :
    (re.foldl (relieve g [({ node }, ta)]) (followed g node ta barriers)).Alike
      (followed g node ta barriers) :=
  List.foldlRecOn re _ (motive := fun r : Routed V => r.Alike (followed g node ta barriers))
    ⟨rfl, rfl, rfl⟩ fun _ hr rl hm => (h rl hm).relieve hgated hr

/-! ## Reliefs that do something -/

def Routed.SeenScheduled (r : Routed V) : Prop :=
  ∀ n ∈ r.nextSeen, n ∈ activationNodes r.next

theorem schedule_mono (h : a ∈ r.next) (n sa) : a ∈ (r.schedule n sa).next := by
  unfold Routed.schedule
  split
  · exact mem_append_left _ h
  · split
    · exact h
    · exact mem_append_left _ h

theorem Routed.SeenScheduled.schedule (h : r.SeenScheduled) (n sa) :
    (r.schedule n sa).SeenScheduled ∧ n ∈ activationNodes (r.schedule n sa).next := by
  have hl : ∀ a : Activation V, a.node ∈ activationNodes (r.next ++ [a]) := fun a =>
    mem_map_of_mem (mem_append_right _ mem_cons_self)
  have ho : ∀ (a : Activation V), ∀ m ∈ activationNodes r.next,
      m ∈ activationNodes (r.next ++ [a]) := fun a m hm => by
    rw [activationNodes, map_append]
    exact mem_append_left _ hm
  unfold Routed.schedule
  split
  · exact ⟨fun m hm => ho _ m (h m hm), hl _⟩
  · split
    · exact ⟨h, h n ‹_›⟩
    · refine ⟨fun m hm => ?_, hl _⟩
      rcases Finset.mem_insert.mp hm with rfl | hm
      · exact hl { node := m }
      · exact ho _ m (h m hm)

theorem await_cases (r : Routed V) (rq : HashSet NodeId) (b n sa) :
    (rq ⊆ insert n ((r.barriers.lookup b).getD ∅) ∧ ∃ r' : Routed V,
      r'.next = r.next ∧ r'.nextSeen = r.nextSeen ∧ r'.barriers = r.barriers.erase b ∧
      r.await rq b n sa = r'.schedule b sa) ∨
    (¬ rq ⊆ insert n ((r.barriers.lookup b).getD ∅) ∧ (r.await rq b n sa).next = r.next ∧
      (r.await rq b n sa).nextSeen = r.nextSeen ∧
      (r.await rq b n sa).barriers =
        r.barriers.insert b (insert n ((r.barriers.lookup b).getD ∅))) := by
  by_cases hc : rq ⊆ insert n ((r.barriers.lookup b).getD ∅)
  · have ha : arrive r.barriers rq b n = (r.barriers.erase b, true) := if_pos hc
    refine .inl ⟨hc, { r with
      barriers := r.barriers.erase b
      log := r.log ++ [.arrived b n, .cleared b] }, rfl, rfl, rfl, ?_⟩
    simp only [await, ha]
  · have ha : arrive r.barriers rq b n =
        (r.barriers.insert b (insert n ((r.barriers.lookup b).getD ∅)), false) := if_neg hc
    refine .inr ⟨hc, ?_⟩
    simp only [await, ha, and_self]

theorem await_mono (h : a ∈ r.next) (rq : HashSet NodeId) (b n sa) :
    a ∈ (r.await rq b n sa).next := by
  rcases await_cases r rq b n sa with ⟨-, r', hn, -, -, ha⟩ | ⟨-, hn, -, -⟩
  · rw [ha]; exact schedule_mono (hn ▸ h) b sa
  · rwa [hn]

/-- A trace that no later relief removes: `z` has arrived at `b`, or something is scheduled that the
node itself did not schedule. -/
structure Traced (b z : NodeId) (first : List (Activation V)) (r : Routed V) : Prop where
  seen : r.SeenScheduled
  trace : z ∈ (r.barriers.lookup b).getD ∅ ∨ ∃ n ∈ activationNodes r.next, n ∉ activationNodes first

section Trace

variable {b z : NodeId} {fi : List (Activation V)} {r : Routed V}

theorem Traced.await (hb : b ∉ activationNodes fi) (h : Traced b z fi r)
    (rq : HashSet NodeId) (b' n sa) : Traced b z fi (r.await rq b' n sa) := by
  rcases await_cases r rq b' n sa with
    ⟨-, r', hn, hs, hba, hw⟩ | ⟨-, hn, hs, hba⟩
  · have hi : r'.SeenScheduled := by
      unfold SeenScheduled
      rw [hn, hs]
      exact h.seen
    obtain ⟨hi', hm⟩ := hi.schedule b' sa
    rw [hw]
    refine ⟨hi', ?_⟩
    rcases h.trace with hr | ⟨n', hn', he⟩
    · by_cases hB : b = b'
      · subst hB
        exact .inr ⟨b, hm, hb⟩
      · rw [schedule_barriers, hba, lookup_erase_ne hB]
        exact .inl hr
    · obtain ⟨a, ha, rfl⟩ := mem_map.mp hn'
      exact .inr ⟨a.node, mem_map_of_mem (schedule_mono (hn ▸ ha) b' sa), he⟩
  · refine ⟨?_, ?_⟩
    · unfold SeenScheduled
      rw [hn, hs]
      exact h.seen
    · rw [hn, hba]
      refine h.trace.imp (fun hr => ?_) id
      by_cases hB : b = b'
      · subst hB
        rw [lookup_insert]
        exact Finset.mem_insert_of_mem hr
      · rwa [lookup_insert_of_ne _ hB]

theorem Traced.start (hb : b ∉ activationNodes fi) (hs : r.SeenScheduled)
    (rq : HashSet NodeId) (sa) : Traced b z fi (r.await rq b z sa) := by
  rcases await_cases r rq b z sa with
    ⟨-, r', hn, hs', ha, hw⟩ | ⟨-, hn, hs', ha⟩
  · have hi : r'.SeenScheduled := by
      unfold SeenScheduled
      rw [hn, hs']
      exact hs
    obtain ⟨hi', hm⟩ := hi.schedule b sa
    rw [hw]
    exact ⟨hi', .inr ⟨b, hm, hb⟩⟩
  · refine ⟨?_, .inl ?_⟩
    · unfold SeenScheduled
      rw [hn, hs']
      exact hs
    · rw [ha, lookup_insert]
      exact Finset.mem_insert_self _ _

end Trace

/-- A predecessor that the routing still leads to is not relieved, so its barrier stays closed and keeps
what has arrived. -/
theorem relieve_keeps {z pr} (hreq : g.waiting.lookup b = some rq)
    (hp : pr ∈ rq) (hc : leadsTo g [({ node }, ta)] pr b = true)
    (h : z ∈ (r.barriers.lookup b).getD ∅ ∧ pr ∉ (r.barriers.lookup b).getD ∅)
    (rl : BarrierRelief) :
    z ∈ ((relieve g [({ node }, ta)] r rl).barriers.lookup b).getD ∅ ∧
      pr ∉ ((relieve g [({ node }, ta)] r rl).barriers.lookup b).getD ∅ := by
  rcases relieve_cases g node ta r rl with
    hs | ⟨-, hleads, rq', hreq', -, hw⟩
  · rwa [hs]
  · rw [hw]
    by_cases hb : b = rl.barrierNode
    · subst hb
      obtain rfl : rq' = rq := some.inj (hreq'.symm.trans hreq)
      have ho : pr ∉ insert rl.reliefNode ((r.barriers.lookup rl.barrierNode).getD ∅) := by
        rw [Finset.mem_insert, not_or]
        refine ⟨fun he => ?_, h.2⟩
        rw [he, hleads] at hc
        cases hc
      rcases await_cases r rq' rl.barrierNode rl.reliefNode none with
        ⟨hC, -⟩ | ⟨-, -, -, ha⟩
      · exact absurd (hC hp) ho
      · rw [ha, lookup_insert]
        exact ⟨Finset.mem_insert_of_mem h.1, ho⟩
    · rcases await_cases r rq' rl.barrierNode rl.reliefNode none with
        ⟨-, r', -, -, ha, hS⟩ | ⟨-, -, -, ha⟩
      · rwa [hS, schedule_barriers, ha, lookup_erase_ne hb]
      · rwa [ha, lookup_insert_of_ne _ hb]

/-! ## Reliefs that show -/

structure OneTarget (barriers : Barriers) (t : NodeId) (r : Routed V) : Prop where
  seen : r.SeenScheduled
  scheduled : ∀ n ∈ activationNodes r.next, n = t ∧ t ≠ END
  others : ∀ b, b ≠ t → r.barriers.lookup b = barriers.lookup b

theorem followed_oneTarget (g : CompiledGraph S U V) (node t barriers) :
    OneTarget barriers t (followed g node [(.node t : RouteTarget V)] barriers) := by
  have hi : OneTarget barriers t ({ barriers } : Routed V) :=
    ⟨fun n hn => absurd hn (Finset.notMem_empty n), fun n hn => (not_mem_nil hn).elim, fun _ _ => rfl⟩
  have hc : ∀ r : Routed V, r.next = [] → r.nextSeen = ∅ → t ≠ END →
      (∀ b, b ≠ t → r.barriers.lookup b = barriers.lookup b) → OneTarget barriers t (r.schedule t none) := by
    intro r he hs hd ho
    have hh : (r.schedule t none).next = [{ node := t }] := by
      simp [Routed.schedule, he, hs]
    refine ⟨(SeenScheduled.schedule (fun n hn => ?_) t none).1, fun n hn => ?_, ?_⟩
    · rw [hs] at hn; exact absurd hn (Finset.notMem_empty n)
    · rw [hh] at hn; exact ⟨mem_singleton.mp hn, hd⟩
    · rwa [schedule_barriers]
  refine followTarget_ind (P := OneTarget barriers t) hi (fun hd _ => ?_) (fun rq hd _ _ => ?_)
  · exact hc _ rfl rfl hd fun _ _ => rfl
  · rcases await_cases ({ barriers } : Routed V) rq t node none with
      ⟨-, r', he, hs, ha, hw⟩ | ⟨-, he, hs, ha⟩
    · change OneTarget barriers t (await { barriers } rq t node none)
      rw [hw]
      exact hc r' he hs hd fun b hb => by
        rw [ha, lookup_erase_ne hb]
    · refine ⟨?_, ?_, fun b hb => ?_⟩
      · change SeenScheduled (await { barriers } rq t node none)
        unfold SeenScheduled
        rw [hs, he]
        exact hi.seen
      · change ∀ n ∈ activationNodes (await { barriers } rq t node none).next, _
        rw [he]
        exact hi.scheduled
      · change (await { barriers } rq t node none).barriers.lookup b = _
        rw [ha, lookup_insert_of_ne _ hb]

theorem followed_seen (htargets : ta = [] ∨ ∃ t, ta = [.node t]) :
    (followed g node ta barriers).SeenScheduled := by
  rcases htargets with rfl | ⟨t, rfl⟩
  · exact fun n hn => absurd hn (Finset.notMem_empty n)
  · exact (followed_oneTarget g node t barriers).seen

theorem followed_leads (htargets : ta = [] ∨ ∃ t, ta = [.node t]) {n sp}
    (hleads : leadsTo g [({ node }, ta)] n sp = false) :
    n ∉ (followed g node ta barriers).nextSeen := by
  intro hn
  rcases htargets with rfl | ⟨t, rfl⟩
  · exact absurd hn (Finset.notMem_empty n)
  · have ho := followed_oneTarget g node t barriers
    rw [leadsTo_single, (ho.scheduled n (ho.seen n hn)).1, reachesDeterministically_self] at hleads
    cases hleads

theorem Routed.Alike.seenScheduled {r'} (h : r.Alike r') (hr' : r'.SeenScheduled) :
    r.SeenScheduled := by
  unfold SeenScheduled
  rw [h.next, h.nextSeen]
  exact hr'

section Armed

variable (htargets : ta = [] ∨ ∃ t, ta = [.node t])
  (hgated : Gated g node ta)
  {be : List BarrierRelief} (af : List BarrierRelief) {rl : BarrierRelief}
  (hbefore : ∀ rl ∈ be, rl.Disarmed g node ta)
  (hsource : rl.source = node)
  (hleads : leadsTo g [({ node }, ta)] rl.reliefNode rl.barrierNode = false)
  {rq : HashSet NodeId} (hreq : g.waiting.lookup rl.barrierNode = some rq)

include htargets hgated hbefore hsource hleads hreq

theorem foldl_armed (he : ((followed g node ta barriers).barriers.lookup rl.barrierNode).getD ∅ ≠ ∅ ∨
      ∃ pr ∈ rq, leadsTo g [({ node }, ta)] pr rl.barrierNode = true) :
    ∃ r : Routed V, r.Alike (followed g node ta barriers) ∧
      (be ++ rl :: af).foldl (relieve g [({ node }, ta)]) (followed g node ta barriers) =
      af.foldl (relieve g [({ node }, ta)]) (r.await rq rl.barrierNode rl.reliefNode none) := by
  have ha := relieve_disarmed hbefore hgated barriers
  refine ⟨_, ha, ?_⟩
  rw [foldl_append, foldl_cons, relieve_acts hsource hleads ?_ hreq ?_]
  · rw [ha.nextSeen]
    exact followed_leads htargets hleads
  · rwa [ha.barriers]

theorem armed_traces (ha : ((followed g node ta barriers).barriers.lookup rl.barrierNode).getD ∅ ≠ ∅)
    (hn : rl.reliefNode ∉ ((followed g node ta barriers).barriers.lookup rl.barrierNode).getD ∅)
    (hb : rl.barrierNode ∉ activationNodes (followed g node ta barriers).next)
    {r} (hr : (be ++ rl :: af).foldl (relieve g [({ node }, ta)]) (followed g node ta barriers) = r)
    (hs : r.barriers = (followed g node ta barriers).barriers) :
    ∃ n ∈ activationNodes r.next, n ∉ activationNodes (followed g node ta barriers).next := by
  obtain ⟨r₁, hl, hf⟩ := foldl_armed htargets hgated af hbefore hsource hleads hreq (.inl ha)
  have ht : Traced rl.barrierNode rl.reliefNode (followed g node ta barriers).next r := by
    rw [← hr, hf]
    refine List.foldlRecOn af _ (motive := Traced rl.barrierNode rl.reliefNode
      (followed g node ta barriers).next) ?_ fun r' hr' rl' _ => ?_
    · exact Traced.start hb (hl.seenScheduled (followed_seen htargets)) rq none
    · exact relieve_ind hr' fun rq' _ => hr'.await hb _ _ _ _
  exact ht.trace.resolve_left fun hm => hn (hs ▸ hm)

theorem armed_keeps {pr} (hp : pr ∈ rq) (hb : leadsTo g [({ node }, ta)] pr rl.barrierNode = true)
    (hc : (followed g node ta barriers).barriers.lookup rl.barrierNode = none) :
    ((be ++ rl :: af).foldl (relieve g [({ node }, ta)])
      (followed g node ta barriers)).barriers ≠ (followed g node ta barriers).barriers := by
  obtain ⟨r₁, ha, hf⟩ := foldl_armed htargets hgated af hbefore hsource hleads hreq (.inr ⟨pr, hp, hb⟩)
  have hn : r₁.barriers.lookup rl.barrierNode = none := ha.barriers ▸ hc
  have hN : pr ≠ rl.reliefNode := fun he => by
    rw [he, hleads] at hb; cases hb
  have hk : rl.reliefNode ∈ ((af.foldl (relieve g [({ node }, ta)])
      (r₁.await rq rl.barrierNode rl.reliefNode none)).barriers.lookup
        rl.barrierNode).getD ∅ := by
    refine (List.foldlRecOn af _ (motive := fun r : Routed V =>
      rl.reliefNode ∈ (r.barriers.lookup rl.barrierNode).getD ∅ ∧
      pr ∉ (r.barriers.lookup rl.barrierNode).getD ∅) ?_
      fun r' hr' rl' _ => relieve_keeps hreq hp hb hr' rl').1
    have ho : pr ∉ insert rl.reliefNode ((r₁.barriers.lookup rl.barrierNode).getD ∅) := by
      rw [hn, Finset.mem_insert, not_or]
      exact ⟨hN, Finset.notMem_empty _⟩
    rcases await_cases r₁ rq rl.barrierNode rl.reliefNode none with
      ⟨hC, -⟩ | ⟨-, -, -, hr⟩
    · exact absurd (hC hp) ho
    · rw [hr, lookup_insert]
      exact ⟨Finset.mem_insert_self _ _, ho⟩
  intro hs
  rw [← hf, hs, hc] at hk
  exact absurd hk (Finset.notMem_empty _)

end Armed

theorem armed_shows (htargets : ta = [] ∨ ∃ t, ta = [.node t])
    (hgated : Gated g node ta) {be}
    (af : List BarrierRelief) (hbefore : ∀ rl ∈ be, rl.Disarmed g node ta)
    (ha : ¬ rl.Disarmed g node ta) : ∃ barriers : Barriers, ∀ r : Routed V,
      (be ++ rl :: af).foldl (relieve g [({ node }, ta)]) (followed g node ta barriers) = r →
      r.barriers = (followed g node ta barriers).barriers →
        ∃ n ∈ activationNodes r.next, n ∉ activationNodes (followed g node ta barriers).next := by
  simp only [BarrierRelief.Disarmed, not_or, not_not, Bool.not_eq_true] at ha
  obtain ⟨hsource, hleads, hw, how⟩ := ha
  obtain ⟨rq, hreq⟩ := ne_none_iff_exists'.mp hw
  obtain ⟨x, hx⟩ := Infinite.exists_notMem_finset (insert rl.reliefNode rq)
  rw [Finset.mem_insert, not_or] at hx
  by_cases hta : ta = [.node rl.barrierNode] ∧ rl.barrierNode ≠ END
  · obtain ⟨rfl, he⟩ := hta
    have hm : node ∈ rq := hgated _ mem_cons_self he _ hreq
    by_cases hb : ∃ pr ∈ rq, reachesDeterministically g rl.barrierNode pr rl.barrierNode = true
    · -- start from a barrier that `node` clears
      obtain ⟨pr, hP, hb⟩ := hb
      refine ⟨Finmap.singleton rl.barrierNode rq, fun r hr hs => ?_⟩
      rw [← hr] at hs
      refine absurd hs (armed_keeps htargets hgated af hbefore hsource hleads hreq hP
        (by rwa [leadsTo_single]) ?_)
      rcases followed_barrier_cases he hreq hm (Finmap.singleton rl.barrierNode rq) with
        ⟨-, hN, -⟩ | ⟨hi, -⟩
      · exact hN
      · refine absurd ?_ hi
        rw [lookup_singleton_eq]
        exact Finset.subset_insert _ _
    · -- start from a barrier that keeps `node` waiting
      refine ⟨Finmap.singleton rl.barrierNode {x}, fun r hr hs => ?_⟩
      have hl : rq ≠ {node} ∧ rl.reliefNode ≠ node := by
        refine not_or.mp fun hC => how ⟨rfl, he, rq, hreq, hC, fun p hp => ?_⟩
        exact Bool.not_eq_true _ ▸ fun hp' => hb ⟨p, hp, hp'⟩
      rcases followed_barrier_cases he hreq hm (Finmap.singleton rl.barrierNode {x}) with
        ⟨hc, -⟩ | ⟨-, ho, hne⟩
      · rw [lookup_singleton_eq, getD_some] at hc
        refine absurd (Finset.Subset.antisymm (fun n hn => ?_) (Finset.singleton_subset_iff.mpr hm))
          hl.1
        rcases Finset.mem_insert.mp (hc hn) with rfl | hn'
        · exact Finset.mem_singleton_self _
        · exact absurd (Finset.mem_singleton.mp hn' ▸ hn) hx.2
      · rw [lookup_singleton_eq, getD_some] at ho
        refine armed_traces htargets hgated af hbefore hsource hleads hreq ?_ ?_ ?_ hr hs
        · rw [ho]; exact Finset.insert_ne_empty _ _
        · rw [ho, getD_some, Finset.mem_insert, Finset.mem_singleton, not_or]
          exact ⟨hl.2, Ne.symm hx.1⟩
        · rw [hne]; exact not_mem_nil
  · -- the barrier is not where `node` goes
    refine ⟨Finmap.singleton rl.barrierNode {x}, fun r hr hs => ?_⟩
    have hE : (followed g node ta (Finmap.singleton rl.barrierNode {x})).barriers.lookup
        rl.barrierNode = some {x} ∧ rl.barrierNode ∉
          activationNodes (followed g node ta (Finmap.singleton rl.barrierNode {x})).next := by
      rcases htargets with rfl | ⟨t, rfl⟩
      · exact ⟨lookup_singleton_eq, not_mem_nil⟩
      · have hO := followed_oneTarget g node t (Finmap.singleton rl.barrierNode {x})
        by_cases ht : rl.barrierNode = t
        · subst ht
          rw [not_and_not_right.mp hta rfl]
          exact ⟨lookup_singleton_eq, not_mem_nil⟩
        · exact ⟨(hO.others _ ht).trans lookup_singleton_eq, fun h => ht (hO.scheduled _ h).1⟩
    refine armed_traces htargets hgated af hbefore hsource hleads hreq ?_ ?_ ?_ hr hs
    · rw [hE.1]; exact Finset.singleton_ne_empty x
    · rw [hE.1]; exact fun h => hx.1 (Finset.mem_singleton.mp h).symm
    · exact hE.2

end Tinyflows.Graph
