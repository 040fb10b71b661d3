import Tinyflows.Graph.Partition
import Tinyflows.Graph.Lemmas.Fates
import Tinyflows.Graph.Lemmas.Routing

/-!
# The two classes of a paused step

The completed positions and the pending positions are both read off the list of fates; what remains is
that the boundary lists exactly those activations.
-/

namespace Tinyflows.Graph
open Lib List StepRun Nat

variable {S U V : Type} {g : CompiledGraph S U V}
  {ac : List (Activation V)}

/-! ## Positions -/

theorem zipIdx_filter_snd {α : Type} (l : List α) (p) :
    (l.zipIdx.filter fun x => p x.1).map (·.2) = (List.range l.length).filter fun i => l[i]?.any p := by
  have hc : (l.zipIdx.filter fun x => p x.1) = l.zipIdx.filter ((fun i => l[i]?.any p) ∘ Prod.snd) := by
    refine filter_congr fun x hx => ?_
    rw [Function.comp_apply, mem_zipIdx_iff_getElem?.mp hx]; rfl
  rw [hc, ← filter_map, zipIdx_map_snd, range_eq_range']

theorem filterMap_range {α β : Type} (l : List α) (f : α → Option β) :
    (List.range l.length).filterMap (fun i => l[i]?.bind f) = l.filterMap f := by
  rw [range_eq_range', ← zipIdx_map_snd, filterMap_map]
  conv_rhs => rw [← zipIdx_map_fst 0 l, filterMap_map]
  refine filterMap_congr fun x hx => ?_
  rw [Function.comp_apply, mem_zipIdx_iff_getElem?.mp hx]; rfl

theorem remaining_eq (ran) : remaining ac ran =
    activationsAt ac ((List.range ac.length).filter (· ∉ ran)) := by
  have hm : ((ac.zipIdx.filter fun x => x.2 ∉ ran).map (·.2)) =
      (List.range ac.length).filter (· ∉ ran) := by
    rw [range_eq_range', ← zipIdx_map_snd, filter_map]; rfl
  rw [remaining, activationsAt, ← hm, filterMap_map, ← filterMap_eq_map]
  refine filterMap_congr fun x hx => ?_
  exact (mem_zipIdx_iff_getElem?.mp (mem_of_mem_filter hx)).symm

theorem partitionCompleted_concat (gm co ix) :
    partitionCompleted ac gm (co ++ [ix]) =
      match ac[ix]? with
      | none => partitionCompleted ac gm co
      | some a => ((partitionCompleted ac gm co).1 ++ [a],
          match gm.lookup ix with
          | some ta => (partitionCompleted ac gm co).2.insert (partitionCompleted ac gm co).1.length ta
          | none => (partitionCompleted ac gm co).2) := by
  rw [partitionCompleted, foldl_concat]; rfl

theorem partitionCompleted_spec (gm) {co} (h : ∀ i ∈ co, i < ac.length) :
    (partitionCompleted ac gm co).1 = activationsAt ac co ∧
    (partitionCompleted ac gm co).1.length = co.length ∧
    ∀ k, (partitionCompleted ac gm co).2.lookup k = (co[k]?).bind gm.lookup := by
  induction co using List.reverseRecOn with
  | nil => exact ⟨rfl, rfl, fun k => by simp [partitionCompleted]⟩
  | append_singleton co ix ih =>
    obtain ⟨h1, h2, h3⟩ := ih fun i hi => h i (mem_append_left _ hi)
    obtain ⟨a, ha⟩ : ∃ a, ac[ix]? = some a :=
      ⟨_, getElem?_eq_getElem (h ix (by simp))⟩
    rw [partitionCompleted_concat, ha]
    dsimp only
    refine ⟨?_, by simp [h2], fun k => ?_⟩
    · rw [activationsAt, filterMap_append, filterMap_cons, ha, h1]; rfl
    · rcases lt_trichotomy k co.length with hl | rfl | hg
      · rw [getElem?_append_left hl, ← h3]
        split
        · rw [h2, Finmap.lookup_insert_of_ne _ (Nat.ne_of_lt hl)]
        · rfl
      · rw [getElem?_concat_length, Option.bind_some]
        split
        · rename_i targets ht
          rw [h2, Finmap.lookup_insert, ht]
        · rename_i hn
          rw [h3, hn, getElem?_eq_none (le_refl _)]; rfl
      · rw [getElem?_eq_none (by rw [length_append]; exact hg)]
        have ho : (partitionCompleted ac gm co).2.lookup k = none := by
          rw [h3, getElem?_eq_none (le_of_lt hg)]; rfl
        split
        · rw [h2, Finmap.lookup_insert_of_ne _ (ne_of_gt hg), ho]; rfl
        · exact ho

/-! ## Classes -/

section Classes

variable {fates : List (Fate U V)}

theorem completed_eq : (ofFates fates).completed =
    (List.range fates.length).filter fun i => fates[i]?.any Fate.isCompleted := by
  rw [ofFates_completed, zipIdx_filter_snd]

theorem interrupted_eq : (ofFates fates).interrupts.map (·.1) =
    (List.range fates.length).filter fun i => fates[i]?.any fun f => f.interrupt.isSome := by
  rw [← zipIdx_filter_snd, ofFates_interrupts, map_filterMap]
  generalize fates.zipIdx = l
  induction l with
  | nil => rfl
  | cons x l ih => cases h : x.1.interrupt <;> simp only [filterMap_cons, filter_cons, h,
      Option.map_none, Option.map_some, Option.isSome, ih] <;> rfl

theorem mem_completed {i} : i ∈ (ofFates fates).completed ↔
    ∃ f, fates[i]? = some f ∧ f.isCompleted := by
  rw [completed_eq, mem_filter, mem_range, Option.any_eq_true]
  constructor
  · exact And.right
  · rintro ⟨f, hf, hc⟩
    exact ⟨(List.getElem?_eq_some_iff.mp hf).1, f, hf, hc⟩

theorem completed_updates : (ofFates fates).completed.filterMap
    (fun i => (fates[i]?).bind Fate.update) = (ofFates fates).updates := by
  rw [ofFates_updates, completed_eq, filterMap_filter]
  refine Eq.trans (filterMap_congr fun i _ => ?_) (filterMap_range fates Fate.update)
  cases fates[i]? with
  | none => rfl
  | some f => cases f <;> rfl

theorem completed_perm : ((ofFates fates).completed ++
    (List.range fates.length).filter (· ∉ (ofFates fates).completed)).Perm
      (List.range fates.length) := by
  have hr : (List.range fates.length).filter (· ∉ (ofFates fates).completed) =
      (List.range fates.length).filter fun i => !fates[i]?.any Fate.isCompleted :=
    filter_congr fun i hi => by simp [completed_eq, mem_range.mp hi]
  rw [hr, completed_eq]
  exact filter_append_perm _ _

theorem interrupted_perm : ((ofFates fates).interrupts.map (·.1) ++
    (List.range fates.length).filter (· ∉ (ofFates fates).completed ++
      (ofFates fates).interrupts.map (·.1))).Perm
    ((List.range fates.length).filter (· ∉ (ofFates fates).completed)) := by
  have hints : (ofFates fates).interrupts.map (·.1) =
      ((List.range fates.length).filter (· ∉ (ofFates fates).completed)).filter
        fun i => i ∈ (ofFates fates).interrupts.map (·.1) := by
    rw [filter_filter, interrupted_eq]
    refine filter_congr fun i hi => ?_
    simp only [completed_eq, mem_filter, hi, true_and]
    cases fates[i]? with
    | none => rfl
    | some f => cases f <;> rfl
  have hr : (List.range fates.length).filter (· ∉ (ofFates fates).completed ++
      (ofFates fates).interrupts.map (·.1)) =
      ((List.range fates.length).filter (· ∉ (ofFates fates).completed)).filter
        fun i => !decide (i ∈ (ofFates fates).interrupts.map (·.1)) := by
    rw [filter_filter]
    refine filter_congr fun i _ => ?_
    simp only [mem_append, not_or, Bool.decide_and, decide_not]
    exact Bool.and_comm _ _
  rw [hr]
  nth_rewrite 1 [hints]
  exact filter_append_perm _ _

end Classes

/-! ## Boundaries -/

variable {b : Boundary S V} {barriers : Barriers} {st : S}
  {fates : List (Fate U V)}

theorem pauseBoundary_ok {run} (h : pauseBoundary g ac run st barriers = some (.ok b)) :
    b.state = st ∧ b.completedTasks = (partitionCompleted ac run.gotoMap run.completed).1 ∧
    ∃ su, routeCompleted g (partitionCompleted ac run.gotoMap run.completed).1
        (partitionCompleted ac run.gotoMap run.completed).2 st barriers =
        .ok (su, b.barriers) ∧
      (b.pending = su ++ remaining ac run.completed ∨
       b.pending = su ++ (activationsAt ac (run.interrupts.map (·.1)) ++
        remaining ac (run.completed ++ run.interrupts.map (·.1)))) := by
  simp only [pauseBoundary] at h
  split at h
  · simp only [failureBoundary, Option.some.injEq] at h
    split at h
    · cases h
    · rename_i hr
      cases h
      exact ⟨rfl, rfl, _, hr, .inl rfl⟩
  · split at h
    · cases h
    · simp only [interruptBoundary, Option.some.injEq] at h
      split at h
      · cases h
      · rename_i hr
        cases h
        refine ⟨rfl, rfl, _, hr, .inr ?_⟩
        rw [activationsAt, filterMap_map]; rfl

section

variable (hl : fates.length = ac.length)
include hl

theorem completed_lt : ∀ i ∈ (ofFates fates).completed, i < ac.length := by
  intro i hi
  obtain ⟨f, hf, -⟩ := mem_completed.mp hi
  exact hl ▸ (List.getElem?_eq_some_iff.mp hf).1

theorem pauseBoundary_end {x : Nat} {e} (hx : fates[x]? = some (.failed e))
    (he : ∀ f ∈ fates, f.isCompleted → f.goto = some [.node END]) (st barriers) :
    ∃ b, pauseBoundary g ac (ofFates fates) st barriers = some (.ok b) := by
  have ha : (ofFates fates).failure.isSome := by
    rw [ofFates_failure, findSome?_isSome_iff]
    exact ⟨(.failed e, x), mem_zipIdx_iff_getElem?.mpr hx, rfl⟩
  obtain ⟨failure, hF⟩ := Option.isSome_iff_exists.mp ha
  obtain ⟨-, h2, h3⟩ := partitionCompleted_spec (ofFates fates).gotoMap (completed_lt hl)
  rcases hp : partitionCompleted ac (ofFates fates).gotoMap
    (ofFates fates).completed with ⟨completed, rn⟩
  rw [hp] at h2 h3
  obtain ⟨resolved, hr⟩ : ∃ resolved, routeActivations g rn st 0 completed
      { barriers } = .ok ({ barriers }, resolved) := by
    refine routeActivations_end fun k hk => ?_
    rw [h2] at hk
    obtain ⟨f, hf, hc⟩ := mem_completed.mp (getElem_mem hk)
    rw [zero_add, h3, getElem?_eq_getElem hk, Option.bind_some, ofFates_gotoMap, hf,
      Option.bind_some, he f (mem_of_getElem? hf) hc]
  simp only [pauseBoundary, hF, failureBoundary, hp, routeCompleted, routePass, hr]
  exact ⟨_, rfl⟩

theorem pauseBoundary_classes (hb : pauseBoundary g ac (ofFates fates) st barriers = some (.ok b)) :
    ∃ pn ro sc, ((ofFates fates).completed ++ pn).Perm (List.range ac.length) ∧
      b.completedTasks = activationsAt ac (ofFates fates).completed ∧
      (∀ k, ro.lookup k = ((ofFates fates).completed[k]?).bind fun i => (fates[i]?).bind Fate.goto) ∧
      routeCompleted g b.completedTasks ro st barriers = .ok (sc, b.barriers) ∧
      b.pending = sc ++ activationsAt ac pn := by
  obtain ⟨h1, -, h3⟩ := partitionCompleted_spec (ofFates fates).gotoMap (completed_lt hl)
  obtain ⟨-, hc, sc, hr, hp⟩ := pauseBoundary_ok hb
  have he : ∃ pn, ((ofFates fates).completed ++ pn).Perm (List.range ac.length) ∧
      b.pending = sc ++ activationsAt ac pn := by
    rcases hp with hp | hp
    · refine ⟨_, hl ▸ completed_perm, ?_⟩
      rw [hp, remaining_eq]
    · refine ⟨_, hl ▸ (interrupted_perm.append_left _).trans completed_perm, ?_⟩
      rw [hp, remaining_eq, activationsAt, activationsAt, activationsAt, filterMap_append]
  obtain ⟨pn, hP, hn⟩ := he
  refine ⟨pn, _, sc, hP, hc.trans h1, fun k => (h3 k).trans ?_, hc ▸ hr, hn⟩
  exact congrArg _ (funext ofFates_gotoMap)

theorem pause_partitions {st'} (ht : applyUpdates g st (ofFates fates).updates = .ok st')
    (hb : pauseBoundary g ac (ofFates fates) st' barriers = some (.ok b)) (rt th id pa step) :
    ∃ pe, Partitioned g ac fates st barriers (ofFates fates).completed pe
      (buildCheckpoint g rt th id pa step b) := by
  obtain ⟨pe, rn, sc, hp, hc, hg, hr, hn⟩ :=
    pauseBoundary_classes hl hb
  obtain ⟨hs, -⟩ := pauseBoundary_ok hb
  refine ⟨pe, hp, fun i => mem_completed, ?_, ?_, ?_⟩
  · rw [completed_updates, ht]
    exact congrArg Except.ok hs.symm
  · rw [← hc]; rfl
  · refine ⟨rn, sc, hg, ?_, routeCompleted_fresh hr, ?_⟩
    · rw [← hc]
      change routeCompleted g _ _ b.state barriers =
        .ok (sc, barriersFromPersisted (barriersToPersisted rt.iterOrder b.barriers))
      rw [barriers_roundtrip, hs, hr]
    · rw [← hn]; rfl

end

end Tinyflows.Graph
