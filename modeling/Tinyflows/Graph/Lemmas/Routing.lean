import Tinyflows.Graph.Persistence
import Tinyflows.Graph.Routing

/-!
# What a routing pass keeps
-/

namespace Tinyflows.Graph
open Lib List Nat Except

variable {S U V : Type} {g : CompiledGraph S U V}

/-! ## The stages of a routing pass -/

variable {P : Routed V → Prop} {node : NodeId} {r r' : Routed V}
  {co next : List (Activation V)} {gm : HashMap Nat (List (RouteTarget V))}
  {ix : Nat} {rs : List (List (RouteTarget V))} {st : S}
  {barriers barriers' : Barriers} {p : Activation V → Prop} {sendArg : Option V}
  {tr : List (RouteTarget V)}

/-- Whatever every single step of a routing pass keeps, the whole pass keeps: scheduling a node that
need not wait, and an arrival at a barrier. -/
theorem followTarget_ind {ta} (h : P r) (hp : ta.nodeId ≠ END →
      (∀ re, g.waiting.lookup ta.nodeId = some re → node ∉ re) →
      P (r.pass node ta.nodeId ta.sendArg))
    (ha : ∀ re, ta.nodeId ≠ END → g.waiting.lookup ta.nodeId = some re →
      node ∈ re → P (r.await re ta.nodeId node ta.sendArg)) : P (followTarget g node r ta) := by
  unfold followTarget
  split
  · exact h
  · rename_i he
    split
    · rename_i re hr
      split
      · exact ha re he hr ‹_›
      · rename_i hm
        refine hp he fun re' hr' => ?_
        rw [hr, Option.some.injEq] at hr'
        exact hr' ▸ hm
    · rename_i hr
      exact hp he fun re' hr' => by rw [hr] at hr'; cases hr'

def ResolvedTo (g : CompiledGraph S U V) (completed : List (Activation V))
    (gotoMap : HashMap Nat (List (RouteTarget V))) (state : S)
    (s : Activation V × List (RouteTarget V)) : Prop :=
  ∃ i, completed[i]? = some s.1 ∧ route g s.1.node (gotoMap.lookup i) state = .ok s.2

theorem routeActivations_resolved (h : routeActivations g gm st ix co r = .ok (r', rs)) :
    rs.length = co.length ∧ ∀ (i : Nat) (a : Activation V),
      co[i]? = some a → ∃ tr, rs[i]? = some tr ∧
        route g a.node (gm.lookup (ix + i)) st = .ok tr := by
  induction co generalizing ix r r' rs with
  | nil =>
    simp only [routeActivations, ok.injEq, Prod.mk.injEq] at h
    rw [← h.2]
    exact ⟨rfl, fun i a ha => nomatch ha⟩
  | cons b re ih =>
    simp only [routeActivations] at h
    split at h
    · cases h
    · rename_i tr ht
      split at h
      · cases h
      · rename_i r'' rs' hr
        simp only [ok.injEq, Prod.mk.injEq] at h
        obtain ⟨hl, hal⟩ := ih hr
        rw [← h.2]
        refine ⟨by rw [length_cons, length_cons, hl], fun i a ha => ?_⟩
        cases i with
        | zero =>
          obtain rfl : b = a := by simpa using ha
          exact ⟨tr, rfl, ht⟩
        | succ i =>
          obtain ⟨ts, hs, ho⟩ := hal i a (by simpa using ha)
          refine ⟨ts, by simpa using hs, ?_⟩
          rw [← ho, add_assoc, add_comm 1 i]

theorem routeActivations_indexed (hS : ∀ i a tr, co[i]? = some a →
      route g a.node (gm.lookup (ix + i)) st = .ok tr →
      ∀ t ∈ tr, ∀ r, P r → P (followTarget g a.node r t)) (h : P r)
    (ho : routeActivations g gm st ix co r = .ok (r', rs)) : P r' := by
  induction co generalizing ix r r' rs with
  | nil =>
    simp only [routeActivations, ok.injEq, Prod.mk.injEq] at ho
    exact ho.1 ▸ h
  | cons a re ih =>
    simp only [routeActivations] at ho
    split at ho
    · cases ho
    · rename_i tr ha
      split at ho
      · cases ho
      · rename_i r'' rs' he
        simp only [ok.injEq, Prod.mk.injEq] at ho
        have hf : ∀ (ts : List (RouteTarget V)) (r : Routed V), (∀ t ∈ ts, t ∈ tr) →
            P r → P (ts.foldl (followTarget g a.node) r) := by
          intro ts
          induction ts with
          | nil => exact fun r _ hr => hr
          | cons t ts iht =>
            intro r hs hr
            exact iht _ (fun t ht => hs t (mem_cons_of_mem _ ht))
              (hS 0 a tr rfl ha t (hs t mem_cons_self) r hr)
        refine ho.1 ▸ ih (fun i b ts hb hs => ?_) (hf tr r (fun t ht => ht) h) he
        rw [add_assoc, add_comm 1 i] at hs
        exact hS (i + 1) b ts (by simpa using hb) hs

theorem relieve_ind {rs rl} (h : P r) (ha : ∀ re, g.waiting.lookup rl.barrierNode = some re →
      P (r.await re rl.barrierNode rl.reliefNode none)) : P (relieve g rs r rl) := by
  unfold relieve
  simp only
  split
  · exact h
  · split
    · exact h
    · split
      · exact h
      · rename_i re hr
        split
        · exact ha re hr
        · exact h

/-- The invariant rule of a routing pass, with the position of the branch that is followed and what
the reliefs look at. -/
theorem routePass_indexed (h : P { barriers }) (hf : ∀ i a tr, co[i]? = some a →
      route g a.node (gm.lookup i) st = .ok tr → ∀ t ∈ tr, ∀ r, P r → P (followTarget g a.node r t))
    (he : ∀ rl ∈ g.barrierReliefs, ∀ rs, (∀ s ∈ rs, ResolvedTo g co gm st s) → ∀ r, P r →
      P (relieve g rs r rl)) (ho : routePass g co gm st barriers = .ok r) : P r := by
  simp only [routePass] at ho
  split at ho
  · cases ho
  · rename_i r' rs hr
    cases ho
    obtain ⟨-, hR⟩ := routeActivations_resolved hr
    have hz : ∀ s ∈ co.zip rs, ResolvedTo g co gm st s := by
      intro s hs
      obtain ⟨i, hi⟩ := mem_iff_getElem?.mp hs
      obtain ⟨ha, ht⟩ := getElem?_zip_eq_some.mp hi
      obtain ⟨ts, ht', ho⟩ := hR i s.1 ha
      rw [zero_add] at ho
      cases ht.symm.trans ht'
      exact ⟨i, ha, ho⟩
    have hl : ∀ (re : List BarrierRelief) (r : Routed V), (∀ x ∈ re, x ∈ g.barrierReliefs) → P r →
        P (re.foldl (relieve g (co.zip rs)) r) := by
      intro re
      induction re with
      | nil => exact fun r _ hr => hr
      | cons rl re ih =>
        exact fun r hx hr => ih _ (fun x h => hx x (mem_cons_of_mem _ h))
          (he rl (hx rl mem_cons_self) _ hz r hr)
    refine hl _ r' (fun _ hx => hx) (routeActivations_indexed (fun i a ts ha ht => ?_) h hr)
    rw [zero_add] at ht
    exact hf i a ts ha ht

theorem routePass_ind (h : P { barriers }) (hf : ∀ a ∈ co, ∀ go tr, route g a.node go st = .ok tr →
      ∀ ta ∈ tr, ∀ r, P r → P (followTarget g a.node r ta))
    (hr : ∀ re ∈ g.barrierReliefs, ∀ rs r, P r → P (relieve g rs r re))
    (ho : routePass g co gm st barriers = .ok r) : P r :=
  routePass_indexed h (fun _ a tr ha ht => hf a (mem_of_getElem? ha) _ tr ht)
    (fun re hl rs _ => hr re hl rs) ho

theorem routeCompleted_ok (h : routeCompleted g co gm st barriers = .ok (next, barriers')) :
    ∃ r, routePass g co gm st barriers = .ok r ∧ r.next = next ∧ r.barriers = barriers' := by
  simp only [routeCompleted] at h
  split at h
  · cases h
  · rename_i r hr
    simp only [ok.injEq, Prod.mk.injEq] at h
    exact ⟨r, hr, h.1, h.2⟩

/-! ## New activations -/

theorem Routed.forall_schedule (h : ∀ a ∈ r.next, p a) (hn : p { node, sendArg }) :
    ∀ a ∈ (r.schedule node sendArg).next, p a := by
  unfold Routed.schedule
  split
  · intro a ha
    rcases mem_append.mp ha with ha | ha
    · exact h a ha
    · rw [mem_singleton] at ha; exact ha ▸ hn
  · split
    · exact h
    · intro a ha
      rcases mem_append.mp ha with ha | ha
      · exact h a ha
      · rw [mem_singleton] at ha; exact ha ▸ hn

theorem Routed.forall_await {re b} (h : ∀ a ∈ r.next, p a)
    (hn : p { node := b, sendArg }) : ∀ a ∈ (r.await re b node sendArg).next, p a := by
  unfold Routed.await
  split
  · exact h
  · exact Routed.forall_schedule h hn

theorem routeCompleted_forall (ht : ∀ a ∈ co, ∀ go tr, route g a.node go st = .ok tr →
      ∀ ta ∈ tr, ta.nodeId ≠ END → p { node := ta.nodeId, sendArg := ta.sendArg })
    (hb : ∀ b re, g.waiting.lookup b = some re → p { node := b })
    (ho : routeCompleted g co gm st barriers = .ok (next, barriers')) : ∀ a ∈ next, p a := by
  obtain ⟨r, hr, rfl, -⟩ := routeCompleted_ok ho
  refine routePass_ind (P := fun r => ∀ a ∈ r.next, p a) (fun a ha => by cases ha)
    (fun a ha go tr htr ta hm r h => ?_) (fun relief _ rs r h => ?_) hr
  · have hn := ht a ha go tr htr ta hm
    exact followTarget_ind (P := fun r => ∀ a ∈ r.next, p a) h
      (fun he _ => Routed.forall_schedule h (hn he))
      (fun _ he _ _ => Routed.forall_await h (hn he))
  · exact relieve_ind (P := fun r => ∀ a ∈ r.next, p a) h
      (fun re hq => Routed.forall_await h (hb _ re hq))

theorem routeCompleted_fresh (hr : routeCompleted g co gm st barriers = .ok (next, barriers')) :
    ∀ a ∈ next, a.taskId = "" :=
  routeCompleted_forall (fun _ _ _ _ _ _ _ _ => rfl) (fun _ _ _ => rfl) hr

theorem validateRouteTargets_known {u} (h : validateRouteTargets g node tr = .ok u) :
    ∀ ta ∈ tr, ta.nodeId = END ∨ ta.nodeId ∈ g.nodes := by
  induction tr with
  | nil => exact fun _ ht => by cases ht
  | cons t ts ih =>
    simp only [validateRouteTargets] at h
    intro ta ht
    split_ifs at h with he hs hk
    · rcases mem_cons.mp ht with rfl | ht
      · exact .inl he
      · exact ih h ta ht
    · rcases mem_cons.mp ht with rfl | ht
      · exact .inr hk
      · exact ih h ta ht

theorem route_known {go} (h : route g node go st = .ok tr) :
    ∀ ta ∈ tr, ta.nodeId = END ∨ ta.nodeId ∈ g.nodes := by
  have hs : ∀ t, t = END ∨ t ∈ g.nodes →
      ∀ ta ∈ [(.node t : RouteTarget V)], ta.nodeId = END ∨ ta.nodeId ∈ g.nodes :=
    fun t ht ta hm => by rw [mem_singleton.mp hm]; exact ht
  have hk : ∀ {κ β : Type} [DecidableEq κ] {m : HashMap κ β} {k : κ} {v : β},
      m.lookup k = some v → k ∈ m.keys :=
    fun hv => Finmap.mem_keys.mpr (Finmap.mem_of_lookup_eq_some hv)
  cases go with
  | some go =>
    simp only [route] at h
    cases hv : validateRouteTargets g node go with
    | error e => rw [hv] at h; cases h
    | ok u =>
      rw [hv] at h
      cases h
      exact validateRouteTargets_known hv
  | none =>
    simp only [route] at h
    split at h
    · rename_i t ht
      cases h
      exact hs t (g.edges_known node (hk ht) t ht)
    · split at h
      · rename_i branch hb
        split at h
        · rename_i t ht
          cases h
          exact hs t (g.branches_known node (hk hb) branch hb _ (hk ht) t ht)
        · cases h
      · cases h
        exact fun _ ht => by cases ht

theorem routeCompleted_known (hr : routeCompleted g co gm st barriers = .ok (next, barriers')) :
    ∀ a ∈ next, a.node ∈ g.nodes :=
  routeCompleted_forall (fun _ _ _ _ ht ta hm he => (route_known ht ta hm).resolve_left he)
    (fun b _ hq => g.waiting_known b (Finmap.mem_keys.mpr (Finmap.mem_of_lookup_eq_some hq))) hr

theorem routeActivations_end (h : ∀ k < co.length, gm.lookup (ix + k) = some [.node END]) :
    ∃ rs, routeActivations g gm st ix co r = .ok (r, rs) := by
  induction co generalizing ix with
  | nil => exact ⟨[], rfl⟩
  | cons a re ih =>
    obtain ⟨rs, hr⟩ := ih fun k hk => by
      rw [add_assoc, add_comm 1 k]; exact h (k + 1) (succ_lt_succ hk)
    have ho : route g a.node (gm.lookup ix) st = .ok [.node END] := by
      rw [← add_zero ix, h 0 (succ_pos _)]; rfl
    refine ⟨[.node END] :: rs, ?_⟩
    simp only [routeActivations, ho, foldl_cons, foldl_nil]
    rw [show followTarget g a.node r (.node END) = r from rfl, hr]

theorem barriers_roundtrip (ord barriers) :
    barriersFromPersisted (barriersToPersisted ord barriers) = barriers := by
  have hs : ∀ s : HashSet NodeId, (ord.keys s).toFinset = s := fun s =>
    Finset.ext fun k => by rw [mem_toFinset, ord.mem_keys]
  have hm : (barriersToPersisted ord barriers).map (fun b => (b.node, b.arrived.toFinset)) =
      HashMap.iter ord barriers := by
    rw [barriersToPersisted, map_map]
    exact (map_congr_left fun e _ => by simp [hs]).trans (map_id _)
  rw [barriersFromPersisted, hm, HashMap.collect_iter]

/-!
## What schedules an activation

Everything a routing pass schedules is a target of a completed branch, or a barrier that a completed
branch relieves.
-/

variable {co : List (Activation V)}

inductive Caused (g : CompiledGraph S U V) (completed : List (Activation V))
    (gotoMap : HashMap Nat (List (RouteTarget V))) (state : S) (b : Activation V) :
    Prop where
  | target (s : Activation V × List (RouteTarget V)) (t : RouteTarget V)
      (hs : ResolvedTo g completed gotoMap state s) (ht : t ∈ s.2) (hend : t.nodeId ≠ END)
      (hb : b = { node := t.nodeId, sendArg := t.sendArg })
  | relief (r : BarrierRelief) (hr : r ∈ g.barrierReliefs) (a : Activation V) (ha : a ∈ completed)
      (hsource : a.node = r.source) (hb : b = { node := r.barrierNode })

theorem relieve_source {re r rl} (h : relieve g re r rl ≠ r) : ∃ s ∈ re, s.1.node = rl.source := by
  by_contra hn
  refine h ?_
  have hm : re.filter (fun s => s.1.node = rl.source) = [] := by
    rw [List.filter_eq_nil_iff]
    intro s hs he
    exact hn ⟨s, hs, by simpa using he⟩
  simp only [relieve, hm, List.isEmpty_nil, if_true]

theorem routeCompleted_caused {ba ba' next} (h : routeCompleted g co gm st ba = .ok (next, ba')) :
    ∀ b ∈ next, Caused g co gm st b := by
  obtain ⟨r, hr, rfl, -⟩ := routeCompleted_ok h
  refine routePass_indexed (P := fun r => ∀ b ∈ r.next, Caused g co gm st b)
    (fun b hb => nomatch hb) (fun i a targets ha hta t ht r hr => ?_)
    (fun re hR rs hrs r hr => ?_) hr
  · have hn : t.nodeId ≠ END → Caused g co gm st
        { node := t.nodeId, sendArg := t.sendArg } := fun he =>
      .target (a, targets) t ⟨i, ha, hta⟩ ht he rfl
    exact followTarget_ind (P := fun r => ∀ b ∈ r.next, Caused g co gm st b) hr
      (fun he _ => Routed.forall_schedule hr (hn he))
      (fun rq he _ _ => Routed.forall_await hr (hn he))
  · by_cases hS : relieve g rs r re = r
    · rw [hS]
      exact hr
    · obtain ⟨s, hs, ho⟩ := relieve_source hS
      obtain ⟨i, ha, -⟩ := hrs s hs
      exact relieve_ind (P := fun r => ∀ b ∈ r.next, Caused g co gm st b) hr
        fun rq _ => Routed.forall_await hr (.relief re hR s.1 (List.mem_of_getElem? ha) ho rfl)

end Tinyflows.Graph
