import Tinyflows.Graph.Lemmas.View

/-!
# Parallel steps
-/

namespace Tinyflows.Graph
open Lib List Admission Option Nat

variable {S U V : Type} {g : CompiledGraph S U V}
  {rt : Runtime S U V} {ti : Option ThreadId} {sp : Nat} {st : S}
  {ac : List (Activation V)} {p : Progress U V}

/-! ## The branches one after the other -/

variable {m : ResumeMap V}

theorem sequentialFates_forked (hb : rt.ForkBlind) {ix}
    (ha : ∀ x ∈ (ac.zip (forkedContexts rt ti sp ix ac m)).zipIdx ix,
      (Fate.ofResult (rt.handler x.1.1.node x.2 st x.1.2)).isCompleted) :
    sequentialFates rt ti sp st ix ac m =
      ((ac.zip (forkedContexts rt ti sp ix ac m)).zipIdx ix).map
        fun x => Fate.ofResult (rt.handler x.1.1.node x.2 st x.1.2) := by
  induction ac generalizing ix m with
  | nil => rfl
  | cons a re ih =>
    simp only [forkedContexts, zip_cons_cons, zipIdx_cons, forall_mem_cons, map_cons] at ha ⊢
    rw [← ih ha.2]
    have hs : rt.handler a.node ix st (nodeContext rt ti sp none a m).1 =
        rt.handler a.node ix st (nodeContext rt ti sp (some ⟨ix, a.node⟩) a m).1 :=
      hb a.node ix st (nodeContext rt ti sp (some ⟨ix, a.node⟩) a m).1 none
    simp only [sequentialFates, hs, if_pos ha.1]
    rfl

theorem parallelFates_forked (m) :
    (parallelFates rt ti sp st ac m : List (Fate U V)) =
      ((ac.zip (forkedContexts rt ti sp 0 ac m)).zipIdx).map
        fun x => Fate.ofResult (rt.handler x.1.1.node x.2 st x.1.2) := by
  refine ext_getElem (by simp [parallelFates, length_forkedContexts]) fun i hi hi' => ?_
  have hl : i < ac.length := by simpa [parallelFates] using hi
  have hc : i < (forkedContexts rt ti sp 0 ac m).length := by
    rw [length_forkedContexts]; exact hl
  simp [parallelFates, branchResult, getElem?_eq_getElem hc, getElem?_eq_getElem hl]

theorem sequentialFates_eq_parallelFates (hb : rt.ForkBlind)
    (ha : ∀ f ∈ parallelFates rt ti sp st ac m, f.isCompleted) :
    sequentialFates rt ti sp st 0 ac m =
      parallelFates rt ti sp st ac m := by
  rw [parallelFates_forked] at ha ⊢
  exact sequentialFates_forked hb fun x hx => ha _ (mem_map_of_mem hx)

theorem unknownNode_known (hk : ∀ a ∈ ac, a.node ∈ g.nodes) (fa) : unknownNode g ac fa = none := by
  refine findSome?_eq_none_iff.mpr fun x hx => if_pos (.inl ?_)
  exact hk x.1 (of_mem_zip hx).1

theorem sequential_runs (hk : ∀ a ∈ ac, a.node ∈ g.nodes) :
    ∃ q, runActiveSequential g rt ti sp st 0 ac p = .ok q ∧
      q.run = (sequentialFates rt ti sp st 0 ac p.resumeMap).zipIdx.foldl StepRun.add
        p.run := by
  have ho : (runActiveSequential g rt ti sp st 0 ac p).map (fun _ => ()) = _ :=
    sequential_unknown
  rw [unknownNode_known hk] at ho
  cases hr : runActiveSequential g rt ti sp st 0 ac p with
  | error e => rw [hr] at ho; cases ho
  | ok q => exact ⟨q, rfl, sequential_fates hr⟩

/-! ## The bounds -/

theorem map_branchNode (ac : List (Activation V)) :
    (List.range ac.length).map (branchNode ac) = activationNodes ac := by
  refine ext_getElem (by simp [activationNodes]) fun i hi _ => ?_
  have hl : i < ac.length := by simpa using hi
  simp [branchNode, activationNodes, getElem?_eq_getElem hl]

theorem count_le_cap (hb : nodeCapsBind g ac = false) {nd cap}
    (hc : g.nodeConcurrency.lookup nd = some cap) {k} (hk : k ≤ ac.length) :
    ((activationNodes ac).take k).count nd ≤ cap := by
  induction k with
  | zero => exact zero_le _
  | succ k ih =>
    have hl : k < ac.length := hk
    have hn : (activationNodes ac)[k]? = some (branchNode ac k) := by
      simp [activationNodes, branchNode, getElem?_eq_getElem hl]
    by_cases hs : branchNode ac k = nd
    · have hf := any_eq_false.mp hb k (mem_range.mpr hl)
      rw [hs, hc, any_some, decide_eq_true_eq] at hf
      exact not_lt.mp hf
    · rw [take_add_one, hn, toList_some, count_append,
        count_singleton, if_neg (by simpa using hs), add_zero]
      exact ih (le_of_succ_le hk)

section Bounds

variable (se : SelectAll)
  (rl : Nat → Except GraphError (NodeResult U V))

theorem branchesStarted_perm : (branchesStarted g se ac rl).Perm (List.range ac.length) := by
  unfold branchesStarted
  split
  · exact after_started ceilings_limit_pos fun _ _ => ceilings_cap_pos
  · exact List.Perm.refl _

theorem inFlight_underLimit (ro) {m} (hm : g.maxConcurrency = some m)
    (hp : g.maxConcurrency ≠ some 0) : (branchesInFlight g se ac rl ro).length ≤ m := by
  unfold branchesInFlight
  split
  · have hi := (after_inv (ceilings g ac) (branchNode ac) se rl ac.length ro).1
    refine hi.underLimit.trans (max_le ?_ ?_)
    · rw [hm]; rfl
    · exact one_le_iff_ne_zero.mpr fun h0 => hp (by rw [hm, h0])
  · rename_i hb
    simp only [Bool.or_eq_true, not_or, globalBinds, hm, any_some, decide_eq_true_eq] at hb
    rw [length_range]
    exact not_lt.mp hb.1

theorem inFlight_underCap (ho : SlotsInOrder g ac) (hp : g.parallel ∧ 1 < ac.length)
    (ro : Nat) {nd cap} (hc : g.nodeConcurrency.lookup nd = some cap) :
    tally (branchNode ac) nd (branchesInFlight g se ac rl ro) ≤ cap := by
  unfold branchesInFlight
  split
  · rename_i hb
    have hi := fun k => (after_inv (ceilings g ac) (branchNode ac) se rl
      ac.length k).1
    have hs := after_synced (fun k => (hi k).length_le_peak.trans (ho ⟨hp, hb⟩)) ro
    rw [hs.running]
    exact (hi ro).underCap nd cap hc
  · rename_i hb
    rw [Bool.or_eq_true, not_or, Bool.not_eq_true, Bool.not_eq_true] at hb
    rw [tally, map_branchNode]
    have hC := count_le_cap hb.2 hc (le_refl ac.length)
    rwa [take_of_length_le (by simp [activationNodes])] at hC

end Bounds

/-! ## In parallel as in sequence -/

theorem SlotsInOrder.runsAlike (ho : SlotsInOrder g ac)
    (hp : g.parallel ∧ 1 < ac.length) (hk : ∀ a ∈ ac, a.node ∈ g.nodes)
    (hs : g.maxConcurrency ≠ some 0) (hb : rt.ForkBlind)
    (ha : ∀ f ∈ parallelFates rt ti sp st ac p.resumeMap, f.isCompleted) :
    RunsAlike g rt ti sp st ac p where
  started := branchesStarted_perm _ _
  underLimit round m hm := inFlight_underLimit _ _ round hm hs
  underCaps round node cap hc := inFlight_underCap _ _ ho hp round hc
  alike := by
    obtain ⟨q', he, hr'⟩ : ∃ q, runActiveSequential g rt ti sp st 0 ac p = .ok q ∧
      q.run = _ := sequential_runs hk
    obtain ⟨q, hq⟩ : ∃ q, runActive g rt ti sp st ac p = .ok q := by
      obtain ⟨rs, hR, hl⟩ := driveBranches_some g (rt.select sp) ac (branchResult rt st
        ac (forkedContexts rt ti sp 0 ac p.resumeMap))
      obtain ⟨q, hq, -⟩ := parallel_known hk hR hl
      exact ⟨q, by rw [runActive, if_pos hp, hq]⟩
    refine ⟨q, q', hq, he, ?_⟩
    rw [runActive_inOrder ho hq, hr', branchFates, if_pos hp, sequentialFates_eq_parallelFates hb ha]

def leavingAt (z : Nat) : Runtime S U V where
  handler _ index _ _ := .ok (.command { goto := if index = z then [.node END] else [] })
  tokio := false

theorem leavingAt_result {z i} (hi : i < ac.length) :
    branchResult (leavingAt z : Runtime S U V) st ac
        (forkedContexts (leavingAt z : Runtime S U V) ti sp 0 ac m) i =
      .ok (.command { goto := if i = z then [.node END] else [] }) := by
  have hc : i < (forkedContexts (leavingAt z : Runtime S U V) ti sp 0
      ac m).length := by rw [length_forkedContexts]; exact hi
  rw [branchResult, getElem?_eq_getElem hi, getElem?_eq_getElem hc]
  rfl

theorem leavingAt_fates {z} :
    (parallelFates (leavingAt z : Runtime S U V) ti sp st ac m) =
      (List.range ac.length).map fun i => .completed none (if i = z then [.node END] else []) := by
  refine map_congr_left fun i hi => ?_
  rw [leavingAt_result (mem_range.mp hi)]
  rfl

theorem inOrder_of_runsAlike (hp : g.parallel ∧ 1 < ac.length) (hk : ∀ a ∈ ac, a.node ∈ g.nodes)
    (h : ∀ (rt : Runtime S U V) ti sp (p : Progress U V),
      rt.ForkBlind → (∀ f ∈ parallelFates rt ti sp st ac p.resumeMap, f.isCompleted) →
      RunsAlike g rt ti sp st ac p) : SlotsInOrder g ac := by
  intro hb
  by_contra hP
  obtain ⟨x, y, z, -, hy, hz, -, -, hY, hm⟩ := driveBranches_misfiles g ac hb.2 hP
  have hl : (leavingAt z : Runtime S U V).ForkBlind := fun _ _ _ _ _ => rfl
  have ha : ∀ f ∈ parallelFates (leavingAt z : Runtime S U V) none 1 st ac ∅, f.isCompleted := by
    rw [leavingAt_fates]
    exact fun f hf => by obtain ⟨i, -, rfl⟩ := mem_map.mp hf; rfl
  obtain ⟨q, q', hq, hs, hS⟩ := (h (leavingAt z) none 1 { resumeMap := ∅ } hl ha).alike
  obtain ⟨rs, hR, hn, -, hry, -⟩ := hm (branchResult (leavingAt z) st ac
    (forkedContexts (leavingAt z : Runtime S U V) none 1 0 ac ∅))
  obtain ⟨q₁, hq₁, hr⟩ : ∃ q, runActiveParallel g (leavingAt z) none 1 st ac
      { resumeMap := ∅ } = .ok q ∧ q.run = StepRun.ofFates (rs.map Fate.ofResult) :=
    parallel_known hk hR hn
  obtain rfl : q₁ = q := Except.ok.inj (hq₁.symm.trans (by rw [← hq, runActive, if_pos hp]))
  have he : q₁.run.gotoMap.lookup y = some [.node END] := by
    rw [hr, ofFates_gotoMap, getElem?_map, hry, leavingAt_result hz, if_pos rfl]
    rfl
  have ht : q'.run.gotoMap.lookup y = none := by
    have hr' : q'.run = StepRun.ofFates _ := sequential_fates hs
    rw [hr', ofFates_gotoMap]
    change ((sequentialFates (leavingAt z : Runtime S U V) none 1 st 0 ac
      ∅)[y]?).bind Fate.goto = none
    rw [sequentialFates_eq_parallelFates hl ha, leavingAt_fates, getElem?_map,
      getElem?_range hy, map_some, if_neg hY]
    rfl
  rw [hS, ht] at he
  cases he

/-- A parallel step whose branches all succeed does what running them one after the other does, unless
a concurrency bound is in force that lets three or more branches run at once. -/
theorem runsAlike_iff (g : CompiledGraph S U V) (active : List (Activation V))
    (state : S) (hpar : g.parallel ∧ 1 < active.length)
    (hknown : ∀ a ∈ active, a.node ∈ g.nodes) (hpos : g.maxConcurrency ≠ some 0) :
    (∀ (rt : Runtime S U V) threadId step (p : Progress U V),
      rt.ForkBlind → (∀ f ∈ parallelFates rt threadId step state active p.resumeMap, f.isCompleted) →
      RunsAlike g rt threadId step state active p) ↔ SlotsInOrder g active :=
  ⟨inOrder_of_runsAlike hpar hknown, fun horder _ _ _ _ => horder.runsAlike hpar hknown hpos⟩

def bench (bound : Nat) : CompiledGraph Unit Unit Unit where
  entry := "job"
  nodes := {"job"}
  reducer _ _ := .ok ()
  parallel := true
  maxConcurrency := some bound

def jobs : List (Activation Unit) := List.replicate 4 { node := "job", sendArg := some () }

theorem bench_runs_alike : ∃ p : Progress Unit Unit,
    RunsAlike (bench 2) (leavingAt 3) none 1 () jobs p ∧ p.resumeMap = ∅ :=
  ⟨{ resumeMap := ∅ }, (runsAlike_iff (bench 2) jobs () ⟨rfl, by decide⟩ (by decide) (by decide)).mpr
    (fun _ => by decide) (leavingAt 3) none 1 _ (fun _ _ _ _ _ => rfl) (by decide), rfl⟩

/-- Under a bound of three, the branch that leaves is taken for the one before it. -/
theorem bench_runs_apart : (leavingAt 2 : Runtime Unit Unit Unit).ForkBlind ∧
    (∀ f ∈ parallelFates (leavingAt 2 : Runtime Unit Unit Unit) none 1 () jobs ∅, f.isCompleted) ∧
    ¬ RunsAlike (bench 3) (leavingAt 2) none 1 () jobs { resumeMap := ∅ } := by
  refine ⟨fun _ _ _ _ _ => rfl, by decide, fun h => ?_⟩
  obtain ⟨q, q', hq, hseq, hsame⟩ := h.alike
  have hleaves : (runActive (bench 3) (leavingAt 2) none 1 () jobs { resumeMap := ∅ }).toOption.map
    (fun q => q.run.gotoMap.lookup 1) = some (some [.node END]) := by decide
  have hstays : (runActiveSequential (bench 3) (leavingAt 2) none 1 () 0 jobs
    { resumeMap := ∅ }).toOption.map (fun q => q.run.gotoMap.lookup 1) = some none := by decide
  rw [hq] at hleaves
  rw [hseq] at hstays
  simp only [Except.toOption, map_some, some.injEq] at hleaves hstays
  rw [hsame, hstays] at hleaves
  cases hleaves

end Tinyflows.Graph
