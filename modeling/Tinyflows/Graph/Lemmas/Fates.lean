import Tinyflows.Graph.Fates
import Tinyflows.Lib.Lemmas.Admission

/-!
# The runners meet the account by fates
-/

namespace Tinyflows.Graph
open Lib List Fate StepRun Admission Finmap

variable {S U V : Type}

/-! ## Reading the folded result off the fates -/

variable {k ix : Nat} {run : StepRun U V} {p : Progress U V} {α : Type}
  {ac : List (Activation V)} {m : ResumeMap V}

theorem foldl_add_updates {fa : List (Fate U V)} :
    ((fa.zipIdx k).foldl add run).updates = run.updates ++ fa.filterMap update := by
  induction fa generalizing k run with
  | nil => simp
  | cons f fs ih =>
    rw [zipIdx_cons, foldl_cons, ih, filterMap_cons]
    cases h : f.update <;> simp [add, h]

theorem foldl_add_completed {fa : List (Fate U V)} :
    ((fa.zipIdx k).foldl add run).completed =
      run.completed ++ ((fa.zipIdx k).filter (·.1.isCompleted)).map (·.2) := by
  induction fa generalizing k run with
  | nil => simp
  | cons f fs ih =>
    rw [zipIdx_cons, foldl_cons, ih, filter_cons]
    cases h : f.isCompleted <;> simp [add, h]

theorem foldl_add_interrupts {fa : List (Fate U V)} :
    ((fa.zipIdx k).foldl add run).interrupts =
      run.interrupts ++ (fa.zipIdx k).filterMap (fun x => x.1.interrupt.map fun i => (x.2, i)) := by
  induction fa generalizing k run with
  | nil => simp
  | cons f fs ih =>
    rw [zipIdx_cons, foldl_cons, ih, filterMap_cons]
    cases h : f.interrupt <;> simp [add, h]

theorem foldl_add_failure {fa : List (Fate U V)} :
    ((fa.zipIdx k).foldl add run).failure =
      run.failure.or ((fa.zipIdx k).findSome? (fun x => x.1.error.map fun e => ⟨x.2, e⟩)) := by
  induction fa generalizing k run with
  | nil => simp
  | cons f fs ih =>
    rw [zipIdx_cons, foldl_cons, ih, findSome?_cons]
    cases h : f.error <;> cases h' : run.failure <;> simp [add, h, h']

theorem foldl_add_gotoMap {fa : List (Fate U V)} {i} :
    ((fa.zipIdx k).foldl add run).gotoMap.lookup i =
      if k ≤ i then ((fa[i - k]?).bind goto).or (run.gotoMap.lookup i)
      else run.gotoMap.lookup i := by
  induction fa generalizing k run with
  | nil => simp
  | cons f fs ih =>
    rw [zipIdx_cons, foldl_cons, ih]
    have ha : (run.add (f, k)).gotoMap.lookup i =
        if i = k then f.goto.or (run.gotoMap.lookup i) else run.gotoMap.lookup i := by
      simp only [add]
      cases hg : f.goto with
      | none => simp
      | some ts =>
        by_cases he : i = k
        · subst he; simp
        · rw [if_neg he]; exact lookup_insert_of_ne _ he
    rw [ha]
    rcases Nat.lt_trichotomy i k with hl | rfl | ht
    · simp [Nat.not_le.mpr hl, Nat.ne_of_lt hl, Nat.not_le.mpr (Nat.lt_succ_of_lt hl)]
    · simp
    · have h1 : k + 1 ≤ i := ht
      have h2 : i - k = (i - (k + 1)) + 1 := by omega
      simp only [h1, Nat.le_of_lt ht, if_true, Nat.ne_of_gt ht, if_false, h2, getElem?_cons_succ]

variable {fa : List (Fate U V)}

theorem ofFates_updates : (ofFates fa).updates = fa.filterMap update := by
  rw [ofFates, foldl_add_updates, nil_append]

theorem ofFates_completed : (ofFates fa).completed =
    (fa.zipIdx.filter (·.1.isCompleted)).map (·.2) := by
  rw [ofFates, foldl_add_completed, nil_append]

theorem ofFates_interrupts : (ofFates fa).interrupts =
    fa.zipIdx.filterMap (fun x => x.1.interrupt.map fun i => (x.2, i)) := by
  rw [ofFates, foldl_add_interrupts, nil_append]

theorem ofFates_failure : (ofFates fa).failure =
    fa.zipIdx.findSome? (fun x => x.1.error.map fun e => ⟨x.2, e⟩) := by
  rw [ofFates, foldl_add_failure, Option.none_or]

theorem ofFates_gotoMap (i : Nat) : (ofFates fa).gotoMap.lookup i = (fa[i]?).bind goto := by
  rw [ofFates, foldl_add_gotoMap, if_pos (Nat.zero_le _), Nat.sub_zero, lookup_empty,
    Option.or_none]

/-! ## The runners -/

theorem foldResult_run (ix nd re) (p : Progress U V) :
    (∃ q, foldResult ix nd re p = (q, none) ∧ (ofResult (.ok re)).isCompleted ∧
      (q.complete ix).run = p.run.add (ofResult (.ok re), ix) ∧
      q.resumeMap = p.resumeMap ∧ q.contexts = p.contexts) ∨
    (∃ q fo, foldResult ix nd re p = (q, some fo) ∧ (ofResult (.ok re)).isCompleted = false ∧
      (q.pause fo).run = p.run.add (ofResult (.ok re), ix) ∧
      q.resumeMap = p.resumeMap ∧ q.contexts = p.contexts) := by
  cases re with
  | update u =>
    refine .inl ⟨_, rfl, rfl, ?_, rfl, rfl⟩
    simp [Progress.complete, add, ofResult, update, goto, interrupt, error, isCompleted]
  | command c =>
    refine .inl ⟨_, rfl, rfl, ?_, rfl, rfl⟩
    obtain ⟨u, goto, rs⟩ := c
    cases goto <;> simp [Progress.complete, add, ofResult, update, goto, interrupt, error, isCompleted]
  | interrupt i =>
    refine .inr ⟨_, _, rfl, rfl, ?_, rfl, rfl⟩
    simp [Progress.pause, add, ofResult, update, goto, interrupt, error, isCompleted]

theorem fail_run {e} : (p.fail ix e).run = p.run.add (.failed e, ix) := by
  simp [Progress.fail, add, update, goto, interrupt, error, isCompleted]

theorem foldl_add_unstarted {l : List α} :
    ((l.map fun _ => (.unstarted : Fate U V)).zipIdx k).foldl add run = run := by
  induction l generalizing k with
  | nil => rfl
  | cons _ l ih =>
    rw [map_cons, zipIdx_cons, foldl_cons]
    have ha : run.add (.unstarted, k) = run := by
      simp [add, update, goto, interrupt, error, isCompleted]
    rw [ha, ih]

variable {g : CompiledGraph S U V} {rt : Runtime S U V}
  {ti : Option ThreadId} {sp : Nat} {st : S}

theorem sequential_fates {p' : Progress U V} (h : runActiveSequential g rt ti sp st ix ac p = .ok p') :
    p'.run = ((sequentialFates rt ti sp st ix ac p.resumeMap).zipIdx ix).foldl add p.run := by
  induction ac generalizing ix p with
  | nil => simp only [runActiveSequential, Except.ok.injEq] at h; subst h; rfl
  | cons a rest ih =>
    simp only [runActiveSequential] at h
    split at h
    · simp only [sequentialFates]
      generalize ht : nodeContext rt ti sp none a p.resumeMap = cm at h ⊢
      obtain ⟨ctx, resumeMap⟩ := cm
      simp only at h ⊢
      cases he : rt.handler a.node ix st ctx with
      | error e =>
        simp only [he, Except.ok.injEq] at h
        subst h
        simp only [ofResult, isCompleted, Bool.false_eq_true, if_false,
          zipIdx_cons, foldl_cons, foldl_add_unstarted, fail_run]
      | ok result =>
        simp only [he] at h
        rcases foldResult_run ix a.node result
          { p with resumeMap, contexts := p.contexts ++ [(ix, ctx)] } with
          ⟨q, hq, hc, hr, hm, -⟩ | ⟨q, found, hq, hc, hr, -, -⟩
        · rw [hq] at h
          simp only at h
          rw [if_pos hc, zipIdx_cons, foldl_cons, ih h, hr]
          show _ = List.foldl add _ (List.zipIdx _ _)
          rw [show (q.complete ix).resumeMap = resumeMap from hm]
        · rw [hq] at h
          simp only [Except.ok.injEq] at h
          subst h
          rw [hc, if_neg (by decide), zipIdx_cons, foldl_cons, foldl_add_unstarted, hr]
    · cases h

theorem foldBranches_run {rl} (hl : rl.length = ac.length) : (foldBranches ix (ac.zip rl) p).run =
      ((rl.map ofResult).zipIdx ix).foldl add p.run := by
  induction ac generalizing ix rl p with
  | nil =>
    rw [length_nil, length_eq_zero_iff] at hl
    subst hl; rfl
  | cons a rs ih =>
    cases rl with
    | nil => cases hl
    | cons r rl =>
      have hr : rl.length = rs.length := by simpa using hl
      rw [zip_cons_cons, map_cons, zipIdx_cons, foldl_cons]
      cases r with
      | error e =>
        rw [foldBranches, ih hr, fail_run]; rfl
      | ok re =>
        rw [foldBranches]
        rcases foldResult_run ix a.node re p with
          ⟨q, hq, -, hu, -, -⟩ | ⟨q, found, hq, -, hu, -, -⟩
        · rw [hq]; simp only; rw [ih hr, hu]
        · rw [hq]; simp only; rw [ih hr, hu]

/-! ## Forked contexts -/

theorem forkContexts_ok {m' ctxs} (h : forkContexts g rt ti sp ix ac m = .ok (ctxs, m')) :
    ctxs = forkedContexts rt ti sp ix ac m := by
  induction ac generalizing ix m m' ctxs with
  | nil =>
    simp only [forkContexts, Except.ok.injEq, Prod.mk.injEq] at h
    exact h.1.symm
  | cons a re ih =>
    simp only [forkContexts] at h
    split at h
    · split at h
      · cases h
      · rename_i ctxs' m'' hr
        simp only [Except.ok.injEq, Prod.mk.injEq] at h
        rw [← h.1, ih hr]; rfl
    · cases h

theorem forkContexts_known (ix m) (hk : ∀ a ∈ ac, a.node ∈ g.nodes) :
    ∃ m', forkContexts g rt ti sp ix ac m = .ok (forkedContexts rt ti sp ix ac m, m') := by
  induction ac generalizing ix m with
  | nil => exact ⟨m, rfl⟩
  | cons a re ih =>
    obtain ⟨m', hr⟩ := ih (ix + 1) (m.erase a.node) (fun b hb => hk b (mem_cons_of_mem _ hb))
    refine ⟨m', ?_⟩
    simp only [forkContexts, hk a mem_cons_self, if_true, nodeContext, hr, forkedContexts]

theorem forkContexts_nodes {r}
    (h : forkContexts g rt ti sp ix ac m = .ok r) : ∀ a ∈ ac, a.node ∈ g.nodes := by
  induction ac generalizing ix m r with
  | nil => exact fun a ha => by cases ha
  | cons a re ih =>
    simp only [forkContexts] at h
    split at h
    · rename_i ha
      split at h
      · cases h
      · rename_i hr
        intro b hb
        rcases mem_cons.mp hb with rfl | hb
        · exact ha
        · exact ih hr b hb
    · cases h

theorem length_forkedContexts : (forkedContexts rt ti sp ix ac m).length = ac.length := by
  induction ac generalizing ix m with
  | nil => rfl
  | cons a re ih => simp [forkedContexts, ih]

theorem sequentialFates_length : (sequentialFates rt ti sp st ix ac m).length = ac.length := by
  induction ac generalizing ix m with
  | nil => rfl
  | cons a re ih =>
    simp only [sequentialFates]
    split
    · simp [ih]
    · simp

theorem branchFates_length : (branchFates g rt ti sp st ac m).length = ac.length := by
  unfold branchFates
  split
  · simp [parallelFates]
  · exact sequentialFates_length

/-! ## Driving the branches -/

theorem mapM_id_map_some (l : List α) : (l.map some).mapM id = some l := by
  induction l with
  | nil => rfl
  | cons a l ih => rw [map_cons, mapM_cons, ih]; rfl

theorem exists_map_some {l} (h : ∀ s ∈ l, ∃ r, s = some r) : ∃ rs : List α, l = rs.map some := by
  induction l with
  | nil => exact ⟨[], rfl⟩
  | cons s l ih =>
    obtain ⟨r, rfl⟩ := h s mem_cons_self
    obtain ⟨rs, rfl⟩ := ih fun s hs => h s (mem_cons_of_mem _ hs)
    exact ⟨r :: rs, rfl⟩

theorem ceilings_limit_pos : 1 ≤ (ceilings g ac).limit :=
  le_max_right _ _

theorem ceilings_cap_pos {k m} (h : (ceilings g ac).cap k = some m) : 1 ≤ m := by
  have hk : k ∈ g.nodeConcurrency.keys := mem_keys.mpr (mem_of_lookup_eq_some h)
  have hn := g.nodeConcurrency_pos k hk
  rw [show g.nodeConcurrency.lookup k = some m from h] at hn
  exact Nat.one_le_iff_ne_zero.mpr fun h0 => hn (by rw [h0])

section Drive

variable (g) (se : SelectAll) (ac : List (Activation V))
  (rl : Nat → Except GraphError (NodeResult U V))

theorem drive_slots : ∃ rs, drive (ceilings g ac) (branchNode ac) se rl ac.length = some rs ∧
    (after (ceilings g ac) (branchNode ac) se rl ac.length
      ac.length).slots = rs.map some ∧ rs.length = ac.length := by
  have hn := (after_inv (ceilings g ac) (branchNode ac) se rl ac.length ac.length).1
  have hf : ∀ i < ac.length, ∃ r, (after (ceilings g ac) (branchNode ac)
      se rl ac.length ac.length).slots[i]? = some (some r) := fun i hi =>
    after_filled ceilings_limit_pos (fun _ _ => ceilings_cap_pos) hi
  have hl := hn.slotsLength
  obtain ⟨rs, hR⟩ := exists_map_some (l := (after (ceilings g ac) (branchNode ac)
      se rl ac.length ac.length).slots) (by
    intro s hs
    obtain ⟨j, hj, rfl⟩ := mem_iff_getElem.mp hs
    obtain ⟨r, hr⟩ := hf j (hl ▸ hj)
    rw [getElem?_eq_getElem hj, Option.some.injEq] at hr
    exact ⟨r, hr⟩)
  refine ⟨rs, ?_, hR, ?_⟩
  · rw [drive, hR, mapM_id_map_some]
  · rw [← hl, hR, length_map]

theorem driveBranches_some : ∃ rs, driveBranches g se ac rl = some rs ∧ rs.length = ac.length := by
  unfold driveBranches
  split
  · obtain ⟨rs, h1, _, h3⟩ := drive_slots g se ac rl
    exact ⟨rs, h1, h3⟩
  · exact ⟨_, rfl, by simp⟩

theorem driveBranches_inOrder (h : (globalBinds g ac || nodeCapsBind g ac) = true →
      peak (ceilings g ac) (branchNode ac) ac.length ≤ 2) :
    driveBranches g se ac rl = some ((List.range ac.length).map rl) := by
  unfold driveBranches
  split
  · rename_i hb
    obtain ⟨rs, h1, h2, h3⟩ := drive_slots g se ac rl
    rw [h1, Option.some.injEq]
    have hs := after_synced
      (fun k => (after_inv (ceilings g ac) (branchNode ac) se rl
        ac.length k).1.length_le_peak.trans (h hb)) ac.length
    apply ext_getElem
    · simpa using h3
    · intro i hi hi'
      rw [getElem_map, getElem_range]
      refine hs.slots i rs[i] ?_
      rw [h2, getElem?_map, getElem?_eq_getElem hi]; rfl
  · rfl

theorem driveBranches_perm {rs} (h : driveBranches g se ac rl = some rs) :
    rs.Perm ((List.range ac.length).map rl) := by
  unfold driveBranches at h
  split at h
  · obtain ⟨rs', hd, hs, -⟩ := drive_slots g se ac rl
    cases h.symm.trans hd
    have ha := (after_filed (ceilings g ac) (branchNode ac) se rl ac.length ac.length).all
    obtain ⟨hr, -, hq⟩ := after_ends ceilings_limit_pos
      (fun _ _ => ceilings_cap_pos) (branchNode ac) se rl ac.length
    rw [hs, hr, hq, append_nil, map_nil, append_nil] at ha
    simpa [List.reduceOption] using ha
  · cases h
    exact List.Perm.refl _

/-- Where three branches can run at once, some order of completion files one branch's result under
another. -/
theorem driveBranches_misfiles (hb : (globalBinds g ac || nodeCapsBind g ac) = true)
    (hp : ¬ peak (ceilings g ac) (branchNode ac) ac.length ≤ 2) :
    ∃ x y z, x < ac.length ∧ y < ac.length ∧ z < ac.length ∧ x ≠ y ∧ x ≠ z ∧ y ≠ z ∧
      ∀ rl : Nat → Except GraphError (NodeResult U V), ∃ rs,
        driveBranches g firstReady ac rl = some rs ∧
        rs.length = ac.length ∧ rs[x]? = some (rl x) ∧ rs[y]? = some (rl z) ∧
        ∀ r ∈ rs, ∃ b, r = rl b := by
  obtain ⟨x, y, z, hx, hy, hz, hX, hxz, hY, hs⟩ := after_misfiles
    (Except GraphError (NodeResult U V)) (ceilings g ac) (branchNode ac)
    (Nat.lt_of_not_le hp)
  refine ⟨x, y, z, hx, hy, hz, hX, hxz, hY, fun rl => ?_⟩
  obtain ⟨rs, h1, h2, h3⟩ := drive_slots g firstReady ac rl
  have h := hs rl
  rw [h2, getElem?_map, getElem?_map] at h
  refine ⟨rs, by rw [driveBranches, if_pos hb, h1], h3, by simpa using h.1, by simpa using h.2, ?_⟩
  intro r hr
  obtain ⟨i, hi⟩ := mem_iff_getElem?.mp hr
  exact after_sourced (by rw [h2, getElem?_map, hi]; rfl)

end Drive

/-! ## A whole step -/

section Step

variable {ac : List (Activation V)} {p p' : Progress U V}

theorem parallel_fates (h : runActiveParallel g rt ti sp st ac p = .ok p') :
    ∃ rs, driveBranches g (rt.select sp) ac (branchResult rt st ac
        (forkedContexts rt ti sp 0 ac p.resumeMap)) = some rs ∧
      rs.length = ac.length ∧
      p'.run = ((rs.map ofResult).zipIdx).foldl add p.run := by
  simp only [runActiveParallel] at h
  split at h
  · cases h
  · rename_i ctxs m hc
    obtain ⟨rs, hr, hl⟩ := driveBranches_some g (rt.select sp) ac (branchResult rt st ac ctxs)
    rw [hr] at h
    simp only [Except.ok.injEq] at h
    subst h
    rw [← forkContexts_ok hc]
    exact ⟨rs, hr, hl, foldBranches_run hl⟩

theorem parallel_known (hk : ∀ a ∈ ac, a.node ∈ g.nodes) {rs}
    (hr : driveBranches g (rt.select sp) ac (branchResult rt st ac
      (forkedContexts rt ti sp 0 ac p.resumeMap)) = some rs) (hl : rs.length = ac.length) :
    ∃ p', runActiveParallel g rt ti sp st ac p = .ok p' ∧
      p'.run = ((rs.map ofResult).zipIdx).foldl add p.run := by
  obtain ⟨m', hc⟩ : ∃ m', forkContexts g rt ti sp 0 ac p.resumeMap =
      .ok (forkedContexts rt ti sp 0 ac p.resumeMap, m') :=
    forkContexts_known 0 _ hk
  rw [runActiveParallel, hc]
  simp only [hr]
  exact ⟨_, rfl, foldBranches_run hl⟩

theorem runActive_nodes (hp : g.parallel = true)
    (h : runActive g rt ti sp st ac p = .ok p') : ∀ a ∈ ac, a.node ∈ g.nodes := by
  unfold runActive at h
  split at h
  · simp only [runActiveParallel] at h
    split at h
    · cases h
    · exact forkContexts_nodes ‹_›
  · rename_i hl
    match ac with
    | [] => exact fun a ha => nomatch ha
    | [a] =>
      simp only [runActiveSequential] at h
      split at h
      · exact forall_mem_singleton.mpr ‹_›
      · cases h
    | _ :: _ :: _ => exact absurd ⟨hp, by simp⟩ hl

theorem runActive_fates (h : runActive g rt ti sp st ac p = .ok p') :
    ∃ fa : List (Fate U V), fa.length = ac.length ∧ p'.run = fa.zipIdx.foldl add p.run := by
  unfold runActive at h
  split at h
  · obtain ⟨rs, -, hl, hr⟩ := parallel_fates h
    exact ⟨_, by rw [length_map, hl], hr⟩
  · exact ⟨_, sequentialFates_length, sequential_fates h⟩

theorem runActive_perm (h : runActive g rt ti sp st ac p = .ok p') :
    ∃ fa : List (Fate U V), fa.Perm (branchFates g rt ti sp st ac p.resumeMap) ∧
      p'.run = fa.zipIdx.foldl add p.run := by
  unfold runActive at h
  unfold branchFates
  split at h
  · rename_i hp
    obtain ⟨rs, hd, -, hr⟩ := parallel_fates h
    refine ⟨_, ?_, hr⟩
    rw [if_pos hp, parallelFates]
    have he := (driveBranches_perm g _ _ _ hd).map ofResult
    rw [map_map] at he
    exact he
  · rename_i hp
    rw [if_neg hp]
    exact ⟨_, List.Perm.refl _, sequential_fates h⟩

theorem runActive_inOrder (ho : SlotsInOrder g ac) (h : runActive g rt ti sp st ac p = .ok p') :
    p'.run = (branchFates g rt ti sp st ac p.resumeMap).zipIdx.foldl add p.run := by
  unfold runActive at h
  unfold branchFates
  split at h
  · rename_i hp
    rw [if_pos hp]
    obtain ⟨rs, hd, -, hr⟩ := parallel_fates h
    rw [driveBranches_inOrder g _ _ _ fun hb => ho ⟨hp, hb⟩, Option.some.injEq] at hd
    rw [hr, ← hd, map_map]; rfl
  · rename_i hp
    rw [if_neg hp]
    exact sequential_fates h

end Step

end Tinyflows.Graph
