import Tinyflows.Graph.Barriers
import Tinyflows.Graph.Lemmas.Partition
import Tinyflows.Graph.Lemmas.Step

/-!
# What a routing pass does to the barriers
-/

namespace Tinyflows.Graph
open Lib List BarrierEvent Except

variable {S U V : Type} {g : CompiledGraph S U V}

/-! ## One event -/

theorem arrivalsSince_append (b log more) :
    arrivalsSince b (log ++ more) = more.foldl (arrivals b) (arrivalsSince b log) :=
  foldl_append

@[simp] theorem schedule_barriers (r : Routed V) (nd sa) :
    (r.schedule nd sa).barriers = r.barriers := by
  unfold Routed.schedule
  split
  · rfl
  · split <;> rfl

@[simp] theorem schedule_log (r : Routed V) (nd sa) : (r.schedule nd sa).log = r.log := by
  unfold Routed.schedule
  split
  · rfl
  · split <;> rfl

theorem cleared_concat {log be af} {e : BarrierEvent} {b}
    (h : log ++ [e] = be ++ .cleared b :: af) :
    (∃ af', log = be ++ .cleared b :: af') ∨ (be = log ∧ e = .cleared b) := by
  rcases eq_nil_or_concat af with rfl | ⟨af', z, rfl⟩
  · obtain ⟨hl, he⟩ := append_inj_left' h rfl, append_inj_right' h rfl
    exact .inr ⟨hl.symm, (List.cons.inj he).1⟩
  · rw [concat_eq_append, ← cons_append, ← append_assoc] at h
    exact .inl ⟨af', (append_inj_left' h rfl)⟩

variable {ba : Checkpoint S V} {nd : NodeId} {r : Routed V} {st : S}
  {l : Loop S V} {rt : Runtime S U V} {ti : Option ThreadId}
  {b : Boundary S V}

theorem mergePass_ind {P : Routed V → Prop}
    (h : P { next := retainedPending nd ba, nextSeen := plainNodes (retainedPending nd ba)
             barriers := barriersFromPersisted ba.barrierArrivals })
    (hp : ∀ r b sa, P r → g.waiting.lookup b = none → P (r.pass nd b sa))
    (ha : ∀ r b sa re, P r → g.waiting.lookup b = some re →
      P (r.await re b nd sa)) (hm : mergePass g nd st ba = .ok r) : P r := by
  simp only [mergePass] at hm
  split at hm
  · cases hm
  · rename_i targets _
    cases hm
    refine List.foldlRecOn targets (mergeTarget g nd) (motive := P) h fun r hr ta _ => ?_
    unfold mergeTarget
    split
    · exact hr
    · split
      · exact ha r _ _ _ hr ‹_›
      · exact hp r _ _ hr ‹_›

section Hold

variable {barriers : Barriers} {log : List BarrierEvent}

theorem BarriersHold.passed (h : BarriersHold g barriers log) (n t : NodeId) :
    BarriersHold g barriers (log ++ [.passed n t]) where
  recorded b := by rw [arrivalsSince_append]; exact h.recorded b
  waiting := h.waiting
  complete be b ar hl := by
    rcases cleared_concat hl with ⟨ar', hl⟩ | ⟨-, he⟩
    · exact h.complete be b ar' hl
    · cases he

variable {b n : NodeId} {re : HashSet NodeId} {r : Routed V} {st : S}

theorem BarriersHold.arrived (h : BarriersHold g barriers log) (hr : g.waiting.lookup b = some re)
    (hm : ¬ re ⊆ insert n ((barriers.lookup b).getD ∅)) :
    BarriersHold g (barriers.insert b (insert n ((barriers.lookup b).getD ∅)))
      (log ++ [.arrived b n]) where
  recorded b' := by
    rw [arrivalsSince_append, foldl_cons, foldl_nil, arrivals, ← h.recorded]
    split_ifs with hb
    · subst hb; rw [Finmap.lookup_insert]; rfl
    · rw [Finmap.lookup_insert_of_ne _ (Ne.symm hb)]
  waiting b' re' hr' := by
    by_cases hb : b' = b
    · subst hb
      rw [hr, Option.some.injEq] at hr'
      rw [Finmap.lookup_insert, ← hr']
      exact hm
    · rw [Finmap.lookup_insert_of_ne _ hb]
      exact h.waiting b' re' hr'
  complete be b' ar hl := by
    rcases cleared_concat hl with ⟨ar', hl⟩ | ⟨-, he⟩
    · exact h.complete be b' ar' hl
    · cases he

theorem BarriersHold.cleared (h : BarriersHold g barriers log) (hr : g.waiting.lookup b = some re)
    (hc : re ⊆ insert n ((barriers.lookup b).getD ∅)) :
    BarriersHold g (barriers.erase b) (log ++ [.arrived b n, .cleared b]) where
  recorded b' := by
    rw [arrivalsSince_append, foldl_cons, foldl_cons, foldl_nil, arrivals, arrivals, ← h.recorded]
    by_cases hb : b = b'
    · subst hb; rw [Finmap.lookup_erase, if_pos rfl]; rfl
    · rw [Finmap.lookup_erase_ne (Ne.symm hb), if_neg hb, if_neg hb]
  waiting b' re' hr' := by
    by_cases hb : b' = b
    · subst hb
      rw [Finmap.lookup_erase]
      intro hm
      refine g.waiting_nonempty b' (Finmap.mem_keys.mpr (Finmap.mem_of_lookup_eq_some hr')) ?_
      rw [hr', Finset.subset_empty.mp hm]
    · rw [Finmap.lookup_erase_ne hb]
      exact h.waiting b' re' hr'
  complete be b' ar hl := by
    rw [show log ++ [BarrierEvent.arrived b n, .cleared b] = (log ++ [.arrived b n]) ++ [.cleared b] by
      rw [append_assoc]; rfl] at hl
    rcases cleared_concat hl with ⟨ar', hl⟩ | ⟨rfl, he⟩
    · rcases cleared_concat hl with ⟨ar', hl⟩ | ⟨-, he⟩
      · exact h.complete be b' ar' hl
      · cases he
    · cases he
      refine ⟨re, hr, ?_⟩
      rw [arrivalsSince_append, foldl_cons, foldl_nil, arrivals, if_pos rfl, ← h.recorded]
      exact hc

theorem BarriersHold.await (h : BarriersHold g r.barriers (log ++ r.log))
    (hr : g.waiting.lookup b = some re) (sa : Option V) :
    BarriersHold g (r.await re b n sa).barriers (log ++ (r.await re b n sa).log) := by
  by_cases hc : re ⊆ insert n ((r.barriers.lookup b).getD ∅)
  · have ha : arrive r.barriers re b n = (r.barriers.erase b, true) := if_pos hc
    simp only [Routed.await, ha, schedule_barriers, schedule_log]
    rw [← append_assoc]
    exact h.cleared hr hc
  · have ha : arrive r.barriers re b n =
        (r.barriers.insert b (insert n ((r.barriers.lookup b).getD ∅)), false) := if_neg hc
    simp only [Routed.await, ha]
    rw [← append_assoc]
    exact h.arrived hr hc

theorem BarriersHold.pass (h : BarriersHold g r.barriers (log ++ r.log)) (so nd : NodeId)
    (sa) : BarriersHold g (r.pass so nd sa).barriers (log ++ (r.pass so nd sa).log) := by
  simp only [Routed.pass, schedule_barriers, schedule_log]
  rw [← append_assoc]
  exact h.passed so nd

theorem BarriersHold.routePass (h : BarriersHold g barriers log) {co gm}
    (hp : Graph.routePass g co gm st barriers = .ok r) :
    BarriersHold g r.barriers (log ++ r.log) := by
  refine routePass_ind (P := fun r => BarriersHold g r.barriers (log ++ r.log))
    (by rw [append_nil]; exact h) (fun a _ _ _ _ ta _ r h => ?_) (fun relief _ _ r h => ?_)
    hp
  · exact followTarget_ind (P := fun r => BarriersHold g r.barriers (log ++ r.log)) h
      (fun _ _ => h.pass _ _ _) (fun re _ hr _ => h.await hr _)
  · exact relieve_ind (P := fun r => BarriersHold g r.barriers (log ++ r.log)) h
      (fun re hr => h.await hr _)

theorem BarriersHold.mergePass {ba : Checkpoint S V}
    (h : BarriersHold g (barriersFromPersisted ba.barrierArrivals) log) {nd}
    (hm : Graph.mergePass g nd st ba = .ok r) : BarriersHold g r.barriers (log ++ r.log) :=
  mergePass_ind (P := fun r => BarriersHold g r.barriers (log ++ r.log))
    (by rw [append_nil]; exact h) (fun _ _ _ hr _ => hr.pass _ _ _)
    (fun _ _ _ _ hr he => hr.await he _) hm

end Hold

/-! ## Accounting for the new activations -/

theorem count_schedule (r : Routed V) (nd b sa) :
    (activationNodes (r.schedule nd sa).next).count b ≤
      (activationNodes r.next).count b + if nd = b then 1 else 0 := by
  unfold Routed.schedule
  have hc : ∀ a : Activation V, a.node = nd →
      (activationNodes (r.next ++ [a])).count b =
        (activationNodes r.next).count b + if nd = b then 1 else 0 := by
    rintro a rfl
    simp only [activationNodes, map_append, map_cons, map_nil, count_append,
      count_singleton, beq_iff_eq]
  split
  · exact (hc _ rfl).le
  · split
    · exact Nat.le_add_right _ _
    · exact (hc _ rfl).le

section Accounts

variable {be : List (Activation V)} {r : Routed V}

theorem PassAccounts.pass (h : PassAccounts g be r) {so nd}
    (hf : ∀ re, g.waiting.lookup nd = some re → so ∉ re)
    (sa : Option V) : PassAccounts g be (r.pass so nd sa) where
  scheduled b := by
    have hc := count_schedule { r with log := r.log ++ [.passed so nd] } nd b sa
    simp only [Routed.pass, schedule_log, countP_append, countP_singleton, schedules, decide_eq_true_eq]
    exact hc.trans (by have := h.scheduled b; simp only at *; omega)
  passed n b hm := by
    simp only [Routed.pass, schedule_log, mem_append, mem_singleton] at hm
    rcases hm with hm | hm
    · exact h.passed n b hm
    · cases hm; exact hf

theorem PassAccounts.await (h : PassAccounts g be r) (re : HashSet NodeId) (b n sa) : PassAccounts g be
    (r.await re b n sa) := by
  unfold Routed.await
  split
  · rename_i barriers _
    refine ⟨fun b' => ?_, fun m b' hm => ?_⟩
    · simp only [countP_append, countP_singleton, schedules]
      exact h.scheduled b'
    · simp only [mem_append, mem_singleton] at hm
      rcases hm with hm | hm
      · exact h.passed m b' hm
      · cases hm
  · rename_i barriers _
    refine ⟨fun b' => ?_, fun m b' hm => ?_⟩
    · have hc := count_schedule
        { r with barriers, log := r.log ++ [.arrived b n, .cleared b] } b b' sa
      simp only [schedule_log, countP_append, countP_cons, countP_nil, schedules, decide_eq_true_eq]
      exact hc.trans (by have := h.scheduled b'; simp only [Bool.false_eq_true, if_false] at *; omega)
    · simp only [schedule_log, mem_append, mem_cons, not_mem_nil, or_false] at hm
      rcases hm with hm | hm | hm
      · exact h.passed m b' hm
      · cases hm
      · cases hm

end Accounts

theorem routePass_accounts {co gm barriers}
    (hp : routePass g co gm st barriers = .ok r) : PassAccounts g [] r := by
  refine routePass_ind (P := PassAccounts g []) ⟨fun b => Nat.zero_le _, fun n b hm => by cases hm⟩
    (fun a _ _ _ _ ta _ r h => ?_) (fun relief _ _ r h => ?_) hp
  · exact followTarget_ind h (fun _ hf => h.pass hf _) (fun re _ _ _ => h.await _ _ _ _)
  · exact relieve_ind h (fun re _ => h.await _ _ _ _)

theorem mergePass_accounts (hm : mergePass g nd st ba = .ok r) :
    PassAccounts g (retainedPending nd ba) r :=
  mergePass_ind ⟨fun _ => Nat.le_add_right _ _, fun _ _ hM => by cases hM⟩
    (fun _ _ _ hr hn => hr.pass (fun _ he => by rw [hn] at he; cases he) _)
    (fun _ _ _ _ hr _ => hr.await _ _ _ _) hm

/-! ## Whole histories -/

theorem Ran.unique {et et' p p' st'} (h : Ran g rt ti l et p st) (h' : Ran g rt ti l et' p' st') :
    et = et' ∧ p = p' ∧ st = st' := by
  obtain rfl : et = et' := ok.inj (h.enter.symm.trans h'.enter)
  obtain rfl : p = p' := ok.inj (h.run.symm.trans h'.run)
  exact ⟨rfl, rfl, ok.inj (h.fold.symm.trans h'.fold)⟩

theorem Crosses.pass (h : Crosses g rt ti l b r) : b.barriers = r.barriers ∧
      ∃ co gm st, routePass g co gm st l.barriers = .ok r := by
  cases h with
  | loop en p st hr hf hi hp hb =>
    obtain ⟨vi, rfl, -⟩ := enterStep_ok hr.enter
    exact ⟨by rw [hb], _, _, _, hp⟩
  | pause en p st hr hp hb =>
    obtain ⟨-, -, successors, ho, -⟩ := pauseBoundary_ok hb
    obtain ⟨r', hr', -, ha⟩ := routeCompleted_ok ho
    obtain rfl : r' = r := ok.inj (hr'.symm.trans hp)
    obtain ⟨vi, rfl, -⟩ := enterStep_ok hr.enter
    exact ⟨ha.symm, _, _, _, hp⟩

theorem Crosses.next {m} (h : Crosses g rt ti l b r)
    (hs : superStep g rt ti l = .next m) : m.barriers = r.barriers := by
  obtain ⟨en, p, st, ha, hf, hi, ho⟩ := superStep_next hs
  obtain ⟨next, barriers, writes, d, id, hr, -, -, rfl⟩ := loopBoundary_next ho
  obtain ⟨r', hr', -, rfl⟩ := routeCompleted_ok hr
  cases h with
  | loop en' p' st' ha' _ _ hp =>
    obtain ⟨rfl, rfl, rfl⟩ := ha.unique ha'
    exact congrArg Routed.barriers (ok.inj (hr'.symm.trans hp))
  | pause en' p' st' ha' _ hb =>
    obtain ⟨rfl, rfl, rfl⟩ := ha.unique ha'
    rw [pauseBoundary, hf, hi] at hb
    cases hb

mutual

theorem Reaches.hold {l log} :
    Reaches g l log → BarriersHold g l.barriers log
  | .fresh store st active => {
      recorded := fun b => rfl
      waiting := fun b re hr he => g.waiting_nonempty b
        (Finmap.mem_keys.mpr (Finmap.mem_of_lookup_eq_some hr))
        (by rw [hr, Finset.subset_empty.mp he])
      complete := fun be b af hl => by cases be <;> cases hl }
  | .next hR hs hc => by
    obtain ⟨-, completed, gotoMap, st, hp⟩ := hc.pass
    rw [hc.next hs]
    exact hR.hold.routePass hp
  | .resume store recorded value hL => hL.hold

theorem Leaves.hold {c log} :
    Leaves g c log → BarriersHold g (barriersFromPersisted c.barrierArrivals) log
  | .boundary thread id parent step hr hc => by
    obtain ⟨hb, completed, gotoMap, st, hp⟩ := hc.pass
    simp only [buildCheckpoint, barriers_roundtrip, hb]
    exact hr.hold.routePass hp
  | .update w thread nd st hl hm => by
    simp only [updatedCheckpoint, Schedule.ofMerged, barriers_roundtrip]
    exact hl.hold.mergePass hm
  | .overwrite w thread st hl hs => by
    cases hs
    simp only [updatedCheckpoint, barriers_roundtrip]
    exact hl.hold
  | .fork thread id hl => hl.hold

end

end Tinyflows.Graph
