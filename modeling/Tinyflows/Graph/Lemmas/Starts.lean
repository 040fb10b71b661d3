import Tinyflows.Graph.Starts
import Tinyflows.Graph.Lemmas.Contexts
import Tinyflows.Graph.Lemmas.Resume
import Tinyflows.Graph.Lemmas.TaskIds

/-!
# Where resume values go
-/

namespace Tinyflows.Graph
open Lib List Except

variable {S U V : Type} {g : CompiledGraph S U V}
  {rt : Runtime S U V} {ti : Option ThreadId} {sp : Nat} {state : S}

/-! ## The values a step hands out -/

variable {ac : List (Activation V)} {m : ResumeMap V} {ix bu : Nat}
  {p p' : Progress U V} {en l : Loop S V} {ind : List Nat}

theorem resumeValues_length : (resumeValues ac m).length = ac.length := by
  induction ac generalizing m with
  | nil => rfl
  | cons a rest ih => rw [resumeValues, length_cons, length_cons, ih]

theorem forkedContexts_receipt (rt : Runtime S U V) (ti) :
    ((forkedContexts rt ti sp ix ac m).zipIdx ix).map (fun x => (x.1.step, x.2, x.1.resume)) =
      ((resumeValues ac m).zipIdx ix).map fun x => (sp, x.2, x.1) := by
  induction ac generalizing ix m with
  | nil => rfl
  | cons a rest ih =>
    simp only [forkedContexts, resumeValues, zipIdx_cons, map_cons, ← ih]
    rfl

def Start.receipt (s : Start V) : Nat × Nat × Option V := (s.2.step, s.1, s.2.resume)

def sequentialContext (rt : Runtime S U V) (threadId : Option ThreadId) (step : Nat)
    (a : Activation V) (resume : Option V) : NodeContext V :=
  { nodeId := a.node, runId := rt.runId, threadId, step, resume, fork := none, sendArg := a.sendArg }

def Completes (rt : Runtime S U V) (threadId : Option ThreadId) (step : Nat)
    (state : S) (index : Nat) (a : Activation V) (resume : Option V) : Prop :=
  (Fate.ofResult (rt.handler a.node index state
    (sequentialContext rt threadId step a resume))).isCompleted = true

theorem sequentialStarts_cons (g) (rt : Runtime S U V) (ti sp state ix a rest m) :
    (a.node ∉ g.nodes ∧ sequentialStarts g rt ti sp state ix (a :: rest) m = []) ∨
    (a.node ∈ g.nodes ∧ Completes rt ti sp state ix a (m.lookup a.node) ∧
      sequentialStarts g rt ti sp state ix (a :: rest) m =
        (ix, sequentialContext rt ti sp a (m.lookup a.node)) ::
          sequentialStarts g rt ti sp state (ix + 1) rest (m.erase a.node)) ∨
    (a.node ∈ g.nodes ∧ ¬ Completes rt ti sp state ix a (m.lookup a.node) ∧
      sequentialStarts g rt ti sp state ix (a :: rest) m =
        [(ix, sequentialContext rt ti sp a (m.lookup a.node))]) := by
  simp only [sequentialStarts]
  by_cases hk : a.node ∈ g.nodes
  · rw [if_pos hk]
    by_cases hc : Completes rt ti sp state ix a (m.lookup a.node)
    · exact .inr (.inl ⟨hk, hc, congrArg _ (if_pos hc)⟩)
    · exact .inr (.inr ⟨hk, hc, congrArg _ (if_neg hc)⟩)
  · exact .inl ⟨hk, if_neg hk⟩

theorem sequentialStarts_receipt :
    (sequentialStarts g rt ti sp state ix ac m).map Start.receipt =
      (((resumeValues ac m).take
        (sequentialStarts g rt ti sp state ix ac m).length).zipIdx ix).map fun x => (sp, x.2, x.1) := by
  induction ac generalizing ix m with
  | nil => rfl
  | cons a rest ih =>
    rcases sequentialStarts_cons g rt ti sp state ix a rest m with ⟨-, h⟩ | ⟨-, -, h⟩ | ⟨-, -, h⟩
    · rw [h]; rfl
    · rw [h, length_cons, map_cons, ih]; rfl
    · rw [h]; rfl

theorem stepStarts_receipt : (stepStarts g rt ti sp state ac m).map Start.receipt =
      (((resumeValues ac m).take
        (stepStarts g rt ti sp state ac m).length).zipIdx).map fun x => (sp, x.2, x.1) := by
  unfold stepStarts
  split
  · split
    · rw [length_zip, length_range, length_forkedContexts, Nat.min_self,
        take_of_length_le resumeValues_length.le,
        ← forkedContexts_receipt rt ti, zipIdx_eq_zip_range',
        length_forkedContexts, ← range_eq_range', ← zip_swap, map_map]
      rfl
    · rfl
  · exact sequentialStarts_receipt

/-! ## The runners hand out these values -/

theorem foldBranches_keeps {br} :
    (foldBranches ix br p).contexts = p.contexts ∧ (foldBranches ix br p).resumeMap = p.resumeMap := by
  induction br generalizing ix p with
  | nil => exact ⟨rfl, rfl⟩
  | cons x rest ih =>
    obtain ⟨a, re⟩ := x
    cases re with
    | error e => exact ih
    | ok re =>
      rw [foldBranches]
      rcases foldResult_run ix a.node re p with
        ⟨q, hq, -, -, hm, hc⟩ | ⟨q, found, hq, -, -, hm, hc⟩
      · rw [hq, ← hm, ← hc]; exact ih
      · rw [hq, ← hm, ← hc]; exact ih

def takeValues (active : List (Activation V)) (m : ResumeMap V) : ResumeMap V :=
  active.foldl (fun m a => m.erase a.node) m

theorem takeValues_empty (h : ∀ n, n ∉ activationNodes ac → m.lookup n = none) :
    takeValues ac m = ∅ := by
  induction ac generalizing m with
  | nil =>
    apply Finmap.ext_lookup
    intro n
    rw [Finmap.lookup_empty]
    exact h n not_mem_nil
  | cons a rest ih =>
    refine ih fun n hn => ?_
    rw [lookup_erase]
    split_ifs with ha
    · rfl
    · exact h n fun hm => (mem_cons.mp hm).elim ha hn

theorem sequential_starts (h : runActiveSequential g rt ti sp state ix ac p = .ok p') :
    p'.contexts = p.contexts ++ sequentialStarts g rt ti sp state ix ac p.resumeMap ∧
      (p'.run.failure = none → p'.run.interrupts = [] → p'.resumeMap = takeValues ac p.resumeMap) := by
  induction ac generalizing ix p with
  | nil =>
    simp only [runActiveSequential, ok.injEq] at h
    subst h
    exact ⟨(append_nil _).symm, fun _ _ => rfl⟩
  | cons a rest ih =>
    simp only [runActiveSequential] at h
    split at h
    · rename_i hk
      simp only [sequentialStarts, if_pos hk, takeValues, foldl_cons]
      rw [show p.resumeMap.erase a.node = (nodeContext rt ti sp none a p.resumeMap).2 from rfl]
      generalize nodeContext rt ti sp none a p.resumeMap = cm at h ⊢
      obtain ⟨ctx, resumeMap⟩ := cm
      simp only at h ⊢
      cases hr : rt.handler a.node ix state ctx with
      | error e =>
        simp only [hr, ok.injEq] at h
        subst h
        refine ⟨rfl, fun hf _ => ?_⟩
        simp only [Progress.fail] at hf
        cases hp : p.run.failure <;> rw [hp] at hf <;> cases hf
      | ok result =>
        simp only [hr] at h
        rcases foldResult_run ix a.node result
          { p with resumeMap, contexts := p.contexts ++ [(ix, ctx)] } with
          ⟨q, hq, hc, -, hm, ht⟩ | ⟨q, found, hq, hc, -, -, ht⟩
        · rw [hq] at h
          obtain ⟨hs, hv⟩ := ih h
          rw [if_pos hc, hs, show (q.complete ix).contexts = _ from ht,
            show (q.complete ix).resumeMap = _ from hm, append_assoc]
          refine ⟨rfl, fun hf hi => ?_⟩
          rw [hv hf hi, show (q.complete ix).resumeMap = _ from hm]; rfl
        · rw [hq] at h
          simp only [ok.injEq] at h
          subst h
          rw [hc, if_neg (by decide)]
          exact ⟨ht, fun _ hi => absurd hi (append_ne_nil_of_right_ne_nil _ (cons_ne_nil _ _))⟩
    · cases h

theorem forkContexts_takes {m' ctxs} (h : forkContexts g rt ti sp ix ac m = .ok (ctxs, m')) :
    m' = takeValues ac m := by
  induction ac generalizing ix m m' ctxs with
  | nil =>
    simp only [forkContexts, ok.injEq, Prod.mk.injEq] at h
    exact h.2.symm
  | cons a rest ih =>
    simp only [forkContexts] at h
    split at h
    · split at h
      · cases h
      · rename_i ctxs' m'' hr
        simp only [ok.injEq, Prod.mk.injEq] at h
        rw [← h.2, ih hr]; rfl
    · cases h

/-- The contexts a step records are those of the branches it starts, and a step that runs through
leaves no value for a node it ran. -/
theorem runActive_starts (h : runActive g rt ti sp state ac p = .ok p') :
    p'.contexts = p.contexts ++ stepStarts g rt ti sp state ac p.resumeMap ∧
      (p'.run.failure = none → p'.run.interrupts = [] → p'.resumeMap = takeValues ac p.resumeMap) := by
  unfold runActive at h
  unfold stepStarts
  split at h
  · rename_i hp
    simp only [runActiveParallel] at h
    split at h
    · cases h
    · rename_i ctxs m hc
      rw [if_pos hp, if_pos (forkContexts_nodes hc), ← forkContexts_ok hc]
      split at h
      · cases h
      · simp only [ok.injEq] at h
        subst h
        exact ⟨foldBranches_keeps.1, fun _ _ =>
          foldBranches_keeps.2.trans (forkContexts_takes hc)⟩
  · rename_i hp
    rw [if_neg hp]
    exact sequential_starts h

theorem lt_length_sequentialStarts {j} :
    j < (sequentialStarts g rt ti sp state ix ac m).length ↔
      j < ac.length ∧ (∀ i ≤ j, ∀ a, ac[i]? = some a → a.node ∈ g.nodes) ∧
      ∀ i < j, ∀ a r, ac[i]? = some a → (resumeValues ac m)[i]? = some r →
        Completes rt ti sp state (ix + i) a r := by
  induction ac generalizing ix m j with
  | nil => simp [sequentialStarts]
  | cons a rest ih =>
    rcases sequentialStarts_cons g rt ti sp state ix a rest m with
      ⟨he, h⟩ | ⟨hn, hc, h⟩ | ⟨hn, hc, h⟩
    · rw [h]
      exact ⟨fun hj => absurd hj (Nat.not_lt_zero _),
        fun ⟨_, hk, _⟩ => absurd (hk 0 (Nat.zero_le _) a rfl) he⟩
    · rw [h, length_cons]
      cases j with
      | zero =>
        refine ⟨fun _ => ⟨Nat.succ_pos _, fun i hi b hb => ?_, fun i hi => ?_⟩, fun _ => Nat.succ_pos _⟩
        · rw [Nat.le_zero.mp hi] at hb
          exact Option.some.inj hb ▸ hn
        · exact absurd hi (Nat.not_lt_zero _)
      | succ j =>
        rw [Nat.succ_lt_succ_iff, ih, length_cons, Nat.succ_lt_succ_iff]
        refine and_congr_right fun _ => and_congr ⟨fun hk i hi b hb => ?_, fun hk i hi b hb =>
          hk (i + 1) (Nat.succ_le_succ hi) b hb⟩ ⟨fun ha i hi b r hb hr => ?_,
          fun ha i hi b r hb hr => ?_⟩
        · cases i with
          | zero => exact Option.some.inj hb ▸ hn
          | succ i => exact hk i (Nat.le_of_succ_le_succ hi) b hb
        · cases i with
          | zero => exact Option.some.inj hb ▸ Option.some.inj hr ▸ hc
          | succ i =>
            rw [Nat.add_succ, ← Nat.succ_add]
            exact ha i (Nat.lt_of_succ_lt_succ hi) b r hb hr
        · have hN := ha (i + 1) (Nat.succ_lt_succ hi) b r hb hr
          rwa [Nat.add_succ, ← Nat.succ_add] at hN
    · rw [h, length_singleton, Nat.lt_one_iff]
      constructor
      · rintro rfl
        refine ⟨Nat.succ_pos _, fun i hi b hb => ?_, fun i hi => ?_⟩
        · rw [Nat.le_zero.mp hi] at hb
          exact Option.some.inj hb ▸ hn
        · exact absurd hi (Nat.not_lt_zero _)
      · rintro ⟨-, -, ha⟩
        by_contra hj
        exact hc (ha 0 (Nat.pos_of_ne_zero hj) a _ rfl rfl)

/-! ## Whole runs -/

theorem handed_append (xs ys : List (Start V)) : handed (xs ++ ys) = handed xs ++ handed ys :=
  filterMap_append

theorem handed_stepStarts : handed (stepStarts g rt ti sp state ac m) =
      (((resumeValues ac m).take
        (stepStarts g rt ti sp state ac m).length).zipIdx).filterMap
          fun x => x.1.map fun va => (sp, x.2, va) := by
  have hr : ∀ st : List (Start V), handed st =
      (st.map Start.receipt).filterMap fun x => x.2.2.map fun va => (x.1, x.2.1, va) :=
    fun st => by rw [filterMap_map]; rfl
  rw [hr, stepStarts_receipt, filterMap_map]
  rfl

theorem mem_handed_stepStarts {x} :
    x ∈ handed (stepStarts g rt ti sp state ac m) ↔ x.1 = sp ∧
      x.2.1 < (stepStarts g rt ti sp state ac m).length ∧
      (resumeValues ac m)[x.2.1]? = some (some x.2.2) := by
  obtain ⟨n, i, va⟩ := x
  rw [handed_stepStarts, mem_filterMap]
  constructor
  · rintro ⟨⟨r, j⟩, hm, hr⟩
    rw [mk_mem_zipIdx_iff_getElem?, getElem?_take] at hm
    split_ifs at hm with hj
    cases r with
    | none => cases hr
    | some v =>
      cases hr
      exact ⟨rfl, hj, hm⟩
  · rintro ⟨rfl, hi, hr⟩
    refine ⟨(some va, i), ?_, rfl⟩
    rw [mk_mem_zipIdx_iff_getElem?, getElem?_take, if_pos hi, hr]

theorem superStep_takes {m} (he : enterStep g rt l = .ok en) (h : superStep g rt ti l = .next m) :
    m.steps = en.steps ∧ m.resumeMap = takeValues en.active en.resumeMap := by
  obtain ⟨en', p, state, hr, hf, hi, hb⟩ := superStep_next h
  obtain rfl : en' = en := ok.inj (hr.enter.symm.trans he)
  obtain ⟨nx, barriers, writes, d, id, -, -, -, rfl⟩ := loopBoundary_next hb
  exact ⟨rfl, (runActive_starts hr.run).2 hf hi⟩

theorem handed_runStarts (ha : l.active ≠ []) (he : enterStep g rt l = .ok en) :
    handed (runStarts g rt ti (bu + 1) l) =
      handed (stepStarts g rt ti en.steps en.state en.active en.resumeMap) ++
      match superStep g rt ti l with
      | .done _ => []
      | .next m => handed (runStarts g rt ti bu m) := by
  rw [runStarts, if_neg ha, he]
  simp only [handed_append]
  cases superStep g rt ti l <;> rfl

theorem handed_runStarts_refused (h : l.active = [] ∨ ∃ e, enterStep g rt l = .error e) :
    handed (runStarts g rt ti bu l) = [] := by
  cases bu with
  | zero => rfl
  | succ bu =>
    rw [runStarts]
    split_ifs with ha
    · rfl
    · obtain ⟨e, he⟩ := h.resolve_left ha
      rw [he]; rfl

theorem handed_runStarts_ind {P : Loop S V → Prop} {Q : Nat × Nat × V → Prop}
    (hs : ∀ l en, P l → enterStep g rt l = .ok en →
      (∀ x ∈ handed (stepStarts g rt ti en.steps en.state en.active
        en.resumeMap), Q x) ∧ ∀ m, superStep g rt ti l = .next m → P m) (hl : P l) :
    ∀ x ∈ handed (runStarts g rt ti bu l), Q x := by
  induction bu generalizing l with
  | zero => exact fun x hx => by cases hx
  | succ bu ih =>
    intro x hx
    by_cases ha : l.active = []
    · rw [handed_runStarts_refused (.inl ha)] at hx; cases hx
    · cases he : enterStep g rt l with
      | error e => rw [handed_runStarts_refused (.inr ⟨e, he⟩)] at hx; cases hx
      | ok en =>
        obtain ⟨hf, hn⟩ := hs l en hl he
        rw [handed_runStarts ha he] at hx
        rcases mem_append.mp hx with hx | hx
        · exact hf x hx
        · split at hx
          · cases hx
          · exact ih (hn _ ‹_›) x hx

theorem handed_runStarts_empty (h : l.resumeMap = ∅) : handed (runStarts g rt ti bu l) = [] := by
  refine eq_nil_iff_forall_not_mem.mpr
    (handed_runStarts_ind (P := fun l => l.resumeMap = ∅) (fun l en hl he => ?_) h)
  have ha : en.resumeMap = ∅ := by
    obtain ⟨vi, rfl, -⟩ := enterStep_ok he; exact hl
  refine ⟨fun x hx => ?_, fun m hm => ?_⟩
  · obtain ⟨-, -, hr⟩ := mem_handed_stepStarts.mp hx
    rw [resumeValues_getElem?, ha] at hr
    cases hn : (activationNodes en.active)[x.2.1]? <;> rw [hn] at hr <;> simp at hr
  · rw [(superStep_takes he hm).2, ha]
    exact takeValues_empty fun _ _ => Finmap.lookup_empty _

theorem handed_runStarts_steps : ∀ x ∈ handed (runStarts g rt ti bu l), l.steps < x.1 := by
  refine handed_runStarts_ind (P := fun m => l.steps ≤ m.steps) (fun m en hm he => ?_)
    (Nat.le_refl _)
  have hs : en.steps = m.steps + 1 := by
    obtain ⟨vi, rfl, -⟩ := enterStep_ok he; rfl
  refine ⟨fun x hx => ?_, fun m' hm' => ?_⟩
  · rw [(mem_handed_stepStarts.mp hx).1, hs]
    exact Nat.lt_succ_of_le hm
  · rw [(superStep_takes he hm').1, hs]
    exact Nat.le_succ_of_le hm

/-! ## The shape of an interrupt checkpoint -/

theorem sequential_pauses (h : runActiveSequential g rt ti sp state ix ac p = .ok p') :
    ∃ fo, p'.run.interrupts = p.run.interrupts ++ fo ∧ fo.length ≤ 1 ∧
      ∀ x ∈ fo, ∃ i a, x.1 = ix + i ∧ ac[i]? = some a ∧ a.node ∈ g.nodes := by
  induction ac generalizing ix p with
  | nil =>
    simp only [runActiveSequential, ok.injEq] at h
    subst h
    exact ⟨[], (append_nil _).symm, Nat.zero_le _, fun x hx => by cases hx⟩
  | cons a rest ih =>
    simp only [runActiveSequential] at h
    split at h
    · rename_i hk
      generalize nodeContext rt ti sp none a p.resumeMap = cm at h
      obtain ⟨ctx, rm⟩ := cm
      simp only at h
      cases he : rt.handler a.node ix state ctx with
      | error e =>
        simp only [he, ok.injEq] at h
        subst h
        exact ⟨[], (append_nil _).symm, Nat.zero_le _, fun x hx => by cases hx⟩
      | ok re =>
        simp only [he] at h
        cases re with
        | interrupt i =>
          simp only [foldResult, ok.injEq] at h
          subst h
          refine ⟨[(ix, i)], rfl, Nat.le_refl _, fun x hx => ⟨0, a, ?_, rfl, hk⟩⟩
          rw [mem_singleton.mp hx]; rfl
        | update u =>
          obtain ⟨fo, hr, ho, ha⟩ := ih h
          refine ⟨fo, hr, ho, fun x hx => ?_⟩
          obtain ⟨i, b, hi, hb⟩ := ha x hx
          exact ⟨i + 1, b, by omega, hb⟩
        | command c =>
          obtain ⟨fo, hr, ho, ha⟩ := ih h
          refine ⟨fo, hr.trans ?_, ho, fun x hx => ?_⟩
          · simp only [Progress.complete]; split_ifs <;> rfl
          · obtain ⟨i, b, hi, hb⟩ := ha x hx
            exact ⟨i + 1, b, by omega, hb⟩
    · cases h

theorem ran_of_started {fa : List (Fate U V)} (hs : ∀ f ∈ fa, f.started = true)
    (hf : (StepRun.ofFates fa).failure = none) {i} (hi : i < fa.length) :
    i ∈ (StepRun.ofFates fa).completed ++ (StepRun.ofFates fa).interrupts.map (·.1) := by
  have hm := getElem_mem hi
  rw [ofFates_failure, findSome?_eq_none_iff] at hf
  have he := hf (fa[i], i) (mem_zipIdx_iff_getElem?.mpr (getElem?_eq_getElem hi))
  rw [mem_append, completed_eq, interrupted_eq, mem_filter, mem_filter,
    getElem?_eq_getElem hi, mem_range]
  cases ha : fa[i] with
  | completed u t => exact .inl ⟨hi, rfl⟩
  | interrupted x => exact .inr ⟨hi, rfl⟩
  | failed e => rw [ha] at he; cases he
  | unstarted => rw [ha] at hm; exact absurd (hs _ hm) Bool.false_ne_true

/-- The branches that interrupt a step are of nodes of the graph. A parallel step leaves no branch
unstarted; a sequential one is stopped by its first interrupt. -/
theorem runActive_pauses {visited}
    (h : runActive g rt ti sp state ac { resumeMap := m, visited } = .ok p)
    (hf : p.run.failure = none) :
    (∀ x ∈ p.run.interrupts, ∃ a, ac[x.1]? = some a ∧ a.node ∈ g.nodes) ∧
    (g.parallel = true → ∀ i < ac.length, i ∈ p.run.completed ++ p.run.interrupts.map (·.1)) ∧
    (g.parallel = false → p.run.interrupts.length ≤ 1) := by
  unfold runActive at h
  split at h
  · rename_i hp
    obtain ⟨rs, -, hl, hr⟩ := parallel_fates h
    change p.run = StepRun.ofFates _ at hr
    have hk : ∀ a ∈ ac, a.node ∈ g.nodes := by
      simp only [runActiveParallel] at h
      split at h
      · cases h
      · exact forkContexts_nodes ‹_›
    refine ⟨fun x hx => ?_, fun _ i hi => ?_, fun hs => by rw [hp.1] at hs; cases hs⟩
    · have hx' := mem_map_of_mem (f := Prod.fst) hx
      rw [hr, interrupted_eq, length_map, hl, mem_filter, mem_range] at hx'
      exact ⟨_, getElem?_eq_getElem hx'.1, hk _ (getElem_mem _)⟩
    · rw [hr] at hf ⊢
      refine ran_of_started (fun f hm => ?_) hf (by rw [length_map, hl]; exact hi)
      obtain ⟨r, -, rfl⟩ := mem_map.mp hm
      exact Fate.started_ofResult r
  · rename_i hs
    obtain ⟨fo, ho, hn, ht⟩ := sequential_pauses h
    rw [nil_append] at ho
    refine ⟨fun x hx => ?_, fun hp i hi => ?_, fun _ => ho ▸ hn⟩
    · obtain ⟨i, a, hi, ha⟩ := ht x (ho ▸ hx)
      rw [Nat.zero_add] at hi
      exact ⟨a, hi ▸ ha⟩
    · have hr := sequential_fates h
      change p.run = StepRun.ofFates _ at hr
      rw [hr] at hf ⊢
      refine ran_of_started (fun f hm => ?_) hf (by rw [sequentialFates_length]; exact hi)
      rcases ac with _ | ⟨a, _ | ⟨_, _⟩⟩
      · cases hm
      · simp only [sequentialFates, map_nil, ite_self, mem_singleton] at hm
        rw [hm]
        exact Fate.started_ofResult _
      · exact absurd ⟨hp, by simp⟩ hs

theorem assignTaskIds_ne_empty {sp} : ∀ a ∈ assignTaskIds sp ac, a.taskId ≠ "" := by
  intro a ha
  obtain ⟨i, hi, rfl⟩ := mem_iff_getElem.mp ha
  simp only [assignTaskIds, getElem_mapIdx]
  split_ifs with he
  · exact freshTaskId_ne_empty _ _ _
  · exact he

theorem activationsAt_nodes (h : ∀ i ∈ ind, i < ac.length) :
    activationNodes (activationsAt ac ind) = ind.map (branchNode ac) := by
  induction ind with
  | nil => rfl
  | cons i ind ih =>
    have hi := getElem?_eq_getElem (h i mem_cons_self)
    rw [activationsAt, filterMap_cons, hi]
    change _ :: activationNodes (activationsAt ac ind) = _
    rw [ih fun j hj => h j (mem_cons_of_mem _ hj), map_cons, branchNode, hi]
    rfl

theorem mem_activationsAt {a} : a ∈ activationsAt ac ind ↔ ∃ i ∈ ind, ac[i]? = some a :=
  mem_filterMap

section Shape

variable {th : ThreadId} {l en : Loop S V} {p : Progress U V}
  {c : Checkpoint S V}

/-- Behind the successors an interrupt checkpoint keeps the paused activations, then the rest. -/
structure Interrupted.Shape (g : CompiledGraph S U V) (c : Checkpoint S V)
    (paused rest : List (Activation V)) : Prop where
  pending : pendingOf c = successorsOf c ++ (paused ++ rest)
  successors : ∀ s ∈ successorsOf c, s.node ∈ g.nodes
  stamped : ∀ a ∈ paused ++ rest, a.taskId ≠ ""
  nonempty : paused ≠ []
  known : ∀ a ∈ paused, a.node ∈ g.nodes
  interrupted : c.metadata.interruptedNodes = activationNodes paused
  rest_nil : g.parallel = true → rest = []
  single : g.parallel = false → paused.length = 1

theorem interruptBoundary_ok {ac run ba b} (h : interruptBoundary g ac run state ba = .ok b) :
    b.interrupted = run.interrupts.map (fun i => branchNode ac i.1) ∧
    ∃ successors, (∀ s ∈ successors, s.taskId = "" ∧ s.node ∈ g.nodes) ∧
      b.pending = successors ++ (pausedActivations ac run ++
        remaining ac (run.completed ++ run.interrupts.map (·.1))) := by
  simp only [interruptBoundary] at h
  split at h
  · cases h
  · rename_i successors ba hr
    cases h
    refine ⟨rfl, successors,
      fun s hs => ⟨routeCompleted_fresh hr s hs, routeCompleted_known hr s hs⟩, ?_⟩
    rw [pausedActivations, activationsAt, filterMap_map]
    rfl

theorem Interrupted.shape (h : Interrupted g rt th l en p state c) :
    ∃ rest, Interrupted.Shape g c (pausedActivations en.active p.run) rest := by
  obtain ⟨b, id, parent, hb, rfl⟩ := h.wrote
  obtain ⟨hin, successors, hu, hp⟩ := interruptBoundary_ok hb
  obtain ⟨ht, hal, he⟩ := runActive_pauses h.ran.run h.unfailed
  have hn : activationNodes (pausedActivations en.active p.run) =
      p.run.interrupts.map fun i => branchNode en.active i.1 := by
    rw [pausedActivations, activationsAt_nodes, map_map]
    · rfl
    · intro i hi
      obtain ⟨x, hx, rfl⟩ := mem_map.mp hi
      obtain ⟨a, ha, -⟩ := ht x hx
      exact (List.getElem?_eq_some_iff.mp ha).1
  have hl : (pausedActivations en.active p.run).length = p.run.interrupts.length := by
    simpa [activationNodes] using congrArg List.length hn
  have ho : 0 < (pausedActivations en.active p.run).length := by
    rw [hl]; exact length_pos_iff.mpr h.interrupts
  have hS : ∀ a ∈ pausedActivations en.active p.run ++
      remaining en.active (p.run.completed ++ p.run.interrupts.map (·.1)), a.taskId ≠ "" := by
    intro a ha
    rw [remaining_eq, mem_append] at ha
    obtain ⟨visits, rfl, -⟩ := enterStep_ok h.ran.enter
    rcases ha with ha | ha <;> obtain ⟨i, -, hi⟩ := mem_activationsAt.mp ha <;>
      exact assignTaskIds_ne_empty a (mem_of_getElem? hi)
  have hne : b.pending ≠ [] := fun hN => by
    rw [hp, append_eq_nil_iff, append_eq_nil_iff] at hN
    exact (length_pos_iff.mp ho) hN.2.1
  have hP : pendingOf (buildCheckpoint g rt th id parent en.steps b) = b.pending :=
    pendingOf_buildCheckpoint g rt id parent en.steps hne
  have hc : successorsOf (buildCheckpoint g rt th id parent en.steps b) =
      successors := by
    rw [successorsOf, hP, hp, filter_append, filter_eq_self.mpr fun s hs => decide_eq_true (hu s hs).1,
      filter_eq_nil_iff.mpr fun a ha => by simpa using hS a ha, append_nil]
  refine ⟨remaining en.active (p.run.completed ++ p.run.interrupts.map (·.1)), {
    pending := by rw [hP, hc, hp]
    successors := fun s hs => (hu s (hc ▸ hs)).2
    stamped := hS
    nonempty := length_pos_iff.mp ho
    known := fun a ha => ?_
    interrupted := hin.trans hn.symm
    rest_nil := fun hr => ?_
    single := fun hq => Nat.le_antisymm (hl ▸ he hq) ho }⟩
  · obtain ⟨i, hi, ha⟩ := mem_activationsAt.mp ha
    obtain ⟨x, hx, rfl⟩ := mem_map.mp hi
    obtain ⟨a', ha', hk⟩ := ht x hx
    exact Option.some.inj (ha'.symm.trans ha) ▸ hk
  · rw [remaining_eq, filter_eq_nil_iff.mpr]
    · rfl
    · exact fun i hi hO => of_decide_eq_true hO (hal hr i (mem_range.mp hi))

end Shape

/-! ## The resumed active set -/

theorem lookup_foldl_insert_const {nd : List NodeId} {va n} :
    (nd.foldl (fun m nod => m.insert nod va) m).lookup n =
      if n ∈ nd then some va else m.lookup n := by
  induction nd generalizing m with
  | nil => simp
  | cons a nd ih =>
    rw [foldl_cons, ih]
    by_cases hn : n = a
    · subst hn; simp
    · simp [hn, Finmap.lookup_insert_of_ne]

section Resumed

variable {c : Checkpoint S V} {pa rest : List (Activation V)}

theorem resumeMapFor_lookup (hs : Interrupted.Shape g c pa rest) (ac) (va : V) (n) :
    (resumeMapFor c ac (some va)).lookup n =
      if n ∈ activationNodes pa then some va else none := by
  have hn : activationNodes pa ≠ [] := by
    simpa [activationNodes] using hs.nonempty
  have ho : interruptedNodes c ac = activationNodes pa := by
    rw [interruptedNodes, hs.interrupted, if_neg hn]
  simp only [resumeMapFor, ho, if_neg hn]
  rw [lookup_foldl_insert_const, Finmap.lookup_empty]

theorem skipDone_shape (hh : Interrupted.Shape g c pa rest) {dn}
    (h : (∀ a ∈ pa, a.taskId ∉ dn) ∨ ∀ a ∈ pendingOf c, a.taskId ≠ "" ∧ a.taskId ∈ dn) :
    ∃ rest', skipDone dn (pendingOf c) = successorsOf c ++ (pa ++ rest') ∧
      ∀ a ∈ rest', a ∈ rest := by
  have hu : ∀ s ∈ successorsOf c, s.taskId = "" := fun s hs =>
    of_decide_eq_true (mem_filter.mp hs).2
  have hk : (pendingOf c).filter (fun a => a.taskId = "" ∨ a.taskId ∉ dn) =
      successorsOf c ++ (pa.filter (fun a => a.taskId = "" ∨ a.taskId ∉ dn) ++
        rest.filter (fun a => a.taskId = "" ∨ a.taskId ∉ dn)) := by
    conv_lhs => rw [hh.pending]
    rw [filter_append, filter_append, filter_eq_self.mpr fun s hs => decide_eq_true (.inl (hu s hs))]
  simp only [skipDone]
  split_ifs with hn
  · exact ⟨rest, hh.pending, fun _ ha => ha⟩
  · rcases h with h | h
    · refine ⟨rest.filter fun a => a.taskId = "" ∨ a.taskId ∉ dn, hk.trans ?_,
        fun a ha => mem_of_mem_filter ha⟩
      rw [filter_eq_self.mpr fun a ha => decide_eq_true (.inr (h a ha))]
    · exact absurd (filter_eq_nil_iff.mpr fun a ha => by simpa using h a ha) hn

theorem skipDone_kept (hs : Interrupted.Shape g c pa rest) (done) :
    ((skipDone done (pendingOf c)).drop (successorsOf c).length).take pa.length = pa ↔
      (∀ a ∈ pa, a.taskId ∉ done) ∨ ∀ a ∈ pendingOf c, a.taskId ≠ "" ∧ a.taskId ∈ done := by
  constructor
  · intro hk
    by_cases hn : (pendingOf c).filter (fun a => a.taskId = "" ∨ a.taskId ∉ done) = []
    · exact .inr fun a ha => by simpa using filter_eq_nil_iff.mp hn a ha
    · refine .inl fun a hp => ?_
      have ha := hp
      rw [← hk, skipDone] at ha
      simp only [if_neg hn] at ha
      have hK := (mem_filter.mp (mem_of_mem_drop (mem_of_mem_take ha))).2
      exact (of_decide_eq_true hK).resolve_left (hs.stamped a (mem_append_left _ hp))
  · intro h
    obtain ⟨rest', hc, -⟩ := skipDone_shape hs h
    rw [hc, drop_left, take_left]

end Resumed

/-! ## The first step of a resume -/

section First

variable {ac : List (Activation V)} {be pa af : List NodeId}
  {m : ResumeMap V} {va : V}

theorem getElem?_append_add {α : Type} {xs n} (h : xs.length = n) (ys : List α)
    (j) : (xs ++ ys)[n + j]? = ys[j]? := by
  rw [getElem?_append_right (by omega), ← h, Nat.add_sub_cancel_left]

theorem resumeValues_paused (hn : activationNodes ac = be ++ (pa ++ af))
    (hm : ∀ n, m.lookup n = if n ∈ pa then some va else none) (hd : pa.Nodup)
    (ha : ∀ n ∈ be, n ∉ pa) :
    resumeValues ac m = List.replicate be.length none ++
      (List.replicate pa.length (some va) ++ List.replicate af.length none) := by
  apply ext_getElem?
  intro i
  rw [resumeValues_getElem?, hn]
  rcases Nat.lt_or_ge i be.length with hi | hi
  · rw [getElem?_append_left hi, getElem?_append_left (by simpa using hi),
      getElem?_replicate_of_lt hi, getElem?_eq_getElem hi, Option.map_some, hm,
      if_neg (ha _ (getElem_mem hi)), ite_self]
  · obtain ⟨j, rfl⟩ := Nat.exists_eq_add_of_le hi
    rw [getElem?_append_add rfl, getElem?_append_add length_replicate]
    rcases Nat.lt_or_ge j pa.length with hj | hj
    · have hf : pa[j] ∉ (be ++ (pa ++ af)).take (be.length + j) := by
        rw [take_length_add_append, take_append_of_le_length hj.le, mem_append, not_or]
        refine ⟨fun h => ha _ h (getElem_mem hj), fun h => ?_⟩
        obtain ⟨k, hk, he⟩ := mem_take_iff_getElem.mp h
        have hK := (List.Nodup.getElem_inj_iff hd).mp he
        omega
      rw [getElem?_append_left hj, getElem?_append_left (by simpa using hj),
        getElem?_replicate_of_lt hj, getElem?_eq_getElem hj, Option.map_some,
        if_neg hf, hm, if_pos (getElem_mem hj)]
    · obtain ⟨k, rfl⟩ := Nat.exists_eq_add_of_le hj
      rw [getElem?_append_add rfl, getElem?_append_add length_replicate, getElem?_replicate]
      split_ifs with hk
      · rw [getElem?_eq_getElem hk, Option.map_some, hm]
        split_ifs with ht hp
        · rfl
        · refine absurd ?_ ht
          rw [take_length_add_append, take_length_add_append]
          exact mem_append_right _ (mem_append_left _ hp)
        · rfl
      · rw [getElem?_eq_none (Nat.not_lt.mp hk), Option.map_none]

theorem paused_of_values (ho : activationNodes ac = be ++ (pa ++ af))
    (h : ∀ j < pa.length, (resumeValues ac m)[be.length + j]? = some (some va)) :
    pa.Nodup ∧ ∀ n ∈ be, n ∉ pa := by
  have hf : ∀ j (hj : j < pa.length), pa[j] ∉ be ∧ pa[j] ∉ pa.take j := by
    intro j hj
    have hv := h j hj
    rw [resumeValues_getElem?, ho, getElem?_append_add rfl, getElem?_append_left hj, getElem?_eq_getElem hj,
      Option.map_some, Option.some.injEq] at hv
    split_ifs at hv with ht
    rw [take_length_add_append, take_append_of_le_length hj.le, mem_append, not_or] at ht
    exact ht
  constructor
  · rw [List.Nodup, pairwise_iff_getElem]
    intro i j hi hj hij he
    exact (hf j hj).2 (he ▸ mem_take_iff_getElem.mpr ⟨i, by omega, rfl⟩)
  · intro n hn hm
    obtain ⟨j, hj, rfl⟩ := mem_iff_getElem.mp hm
    exact (hf j hj).1 hn

theorem receipts_none (sp n j : Nat) :
    ((List.replicate n (none : Option V)).zipIdx j).filterMap
      (fun x => x.1.map fun va => (sp, x.2, va)) = [] := by
  refine filterMap_eq_nil_iff.mpr fun x hx => ?_
  rw [eq_of_mem_replicate (fst_mem_of_mem_zipIdx hx), Option.map_none]

theorem receipts_some (sp n j : Nat) (va : V) :
    ((List.replicate n (some va)).zipIdx j).filterMap (fun x => x.1.map fun va => (sp, x.2, va)) =
      (List.range' j n).map fun i => (sp, i, va) := by
  induction n generalizing j with
  | zero => rfl
  | succ n ih =>
    rw [replicate_succ, zipIdx_cons, filterMap_cons, ih, range'_succ, map_cons]
    rfl

theorem handed_paused {b k a} (hv : resumeValues ac m =
      List.replicate b none ++ (List.replicate k (some va) ++ List.replicate a none))
    (hs : b + k ≤ (stepStarts g rt ti sp state ac m).length) :
    handed (stepStarts g rt ti sp state ac m) = (List.range' b k).map fun i => (sp, i, va) := by
  obtain ⟨r, hr⟩ := Nat.exists_eq_add_of_le hs
  rw [handed_stepStarts, hv, hr, take_append, take_append, length_replicate,
    length_replicate, Nat.add_assoc, Nat.add_sub_cancel_left, Nat.add_sub_cancel_left,
    take_of_length_le (by simp), take_of_length_le (by simp), take_replicate,
    zipIdx_append, zipIdx_append, filterMap_append, filterMap_append,
    receipts_none, receipts_none, receipts_some, length_replicate]
  simp

end First

end Tinyflows.Graph
