import Tinyflows.Graph.Lemmas.Fates

/-!
# Where fates come from

The fate of a branch is what its node's handler made of the step's state, in a context that names the
branch's own activation.
-/

namespace Tinyflows.Graph
open Lib List

variable {S U V : Type} {g : CompiledGraph S U V}
  {rt : Runtime S U V} {ti : Option ThreadId} {sp : Nat} {st : S}
  {ac : List (Activation V)}

structure ContextOf (step : Nat) (a : Activation V) (ctx : NodeContext V) : Prop where
  nodeId : ctx.nodeId = a.node
  sendArg : ctx.sendArg = a.sendArg
  step : ctx.step = step

/-! ## The values a step hands out -/

def resumeValues : List (Activation V) → ResumeMap V → List (Option V)
  | [], _ => []
  | a :: rest, resumeMap => resumeMap.lookup a.node :: resumeValues rest (resumeMap.erase a.node)

theorem lookup_erase {κ β} [DecidableEq κ] (m : HashMap κ β) (a b) :
    (m.erase a).lookup b = if b = a then none else m.lookup b := by
  split_ifs with h
  · rw [h, Finmap.lookup_erase]
  · rw [Finmap.lookup_erase_ne h]

variable {m : ResumeMap V} {a : Activation V} {i : Nat}

theorem resumeValues_getElem? {ac} (i : Nat) :
    (resumeValues ac m)[i]? = ((activationNodes ac)[i]?).map fun n =>
      if n ∈ (activationNodes ac).take i then none else m.lookup n := by
  induction ac generalizing m i with
  | nil => rfl
  | cons a re ih =>
    cases i with
    | zero => rfl
    | succ i =>
      rw [resumeValues, getElem?_cons_succ, ih]
      change _ = ((activationNodes re)[i]?).map fun n =>
        if n ∈ a.node :: (activationNodes re).take i then none else m.lookup n
      congr 1
      funext n
      rw [lookup_erase]
      by_cases hn : n = a.node
      · simp [hn]
      · simp [hn]

/-- The context names the branch's activation and holds the value the resume map has for it. -/
structure StartedWith (step : Nat) (a : Activation V) (value : Option V)
    (ctx : NodeContext V) : Prop extends ContextOf step a ctx where
  resume : ctx.resume = value

theorem nodeContext_startedWith (rt : Runtime S U V) (ti sp fo a m) :
    StartedWith sp a (m.lookup a.node) (nodeContext rt ti sp fo a m).1 :=
  { nodeId := rfl, sendArg := rfl, step := rfl, resume := rfl }

theorem forkedContexts_startedWith {ix ctx} (ha : ac[i]? = some a)
    (hc : (forkedContexts rt ti sp ix ac m)[i]? = some ctx) :
    ∃ va, (resumeValues ac m)[i]? = some va ∧ StartedWith sp a va ctx := by
  induction ac generalizing ix i m with
  | nil => cases ha
  | cons b re ih =>
    cases i with
    | zero =>
      obtain rfl : b = a := by simpa using ha
      simp only [forkedContexts, getElem?_cons_zero, Option.some.injEq] at hc
      exact ⟨_, rfl, hc ▸ nodeContext_startedWith rt ti sp _ b m⟩
    | succ i =>
      rw [forkedContexts, getElem?_cons_succ] at hc
      exact ih (by simpa using ha) hc

/-- The fate is what the handler of the branch at position `i` returned in the context it was started
with. -/
def StartedAt (rt : Runtime S U V) (step : Nat) (state : S)
    (active : List (Activation V)) (m : ResumeMap V) (i : Nat) (f : Fate U V) : Prop :=
  ∃ a value ctx, active[i]? = some a ∧ (resumeValues active m)[i]? = some value ∧
    StartedWith step a value ctx ∧ f = Fate.ofResult (rt.handler a.node i state ctx)

theorem parallelFates_started (rt : Runtime S U V) (ti sp st m) (hi : i < ac.length) :
    ∃ f, (parallelFates rt ti sp st ac m)[i]? = some f ∧ StartedAt rt sp st ac m i f := by
  have hl : i < (forkedContexts rt ti sp 0 ac m).length := by
    rw [length_forkedContexts]
    exact hi
  have ha := getElem?_eq_getElem hi
  have hc := getElem?_eq_getElem hl
  obtain ⟨value, hv, hs⟩ := forkedContexts_startedWith ha hc
  refine ⟨_, ?_, _, value, _, ha, hv, hs, rfl⟩
  rw [parallelFates, getElem?_map, getElem?_range hi]
  simp only [branchResult, ha, hc, Option.map_some]

theorem sequentialFates_started (rt : Runtime S U V) (ti sp st ix m) (ha : ac[i]? = some a) :
    ∃ f, (sequentialFates rt ti sp st ix ac m)[i]? = some f ∧
      (f = .unstarted ∨ ∃ va ctx, (resumeValues ac m)[i]? = some va ∧ StartedWith sp a va ctx ∧
        f = Fate.ofResult (rt.handler a.node (ix + i) st ctx)) := by
  induction ac generalizing ix i m with
  | nil => cases ha
  | cons b re ih =>
    simp only [sequentialFates]
    have hs := nodeContext_startedWith rt ti sp none b m
    have he : (nodeContext rt ti sp none b m).2 = m.erase b.node := rfl
    generalize nodeContext rt ti sp none b m = cm at hs he
    obtain ⟨ctx, m'⟩ := cm
    obtain rfl : m' = m.erase b.node := he
    cases i with
    | zero =>
      obtain rfl : b = a := by simpa using ha
      refine ⟨Fate.ofResult (rt.handler b.node ix st ctx), ?_, .inr ⟨_, ctx, rfl, hs, rfl⟩⟩
      dsimp only
      split_ifs <;> rfl
    | succ i =>
      have ha : re[i]? = some a := by simpa using ha
      dsimp only
      split_ifs
      · obtain ⟨f, hf, ho⟩ := ih (ix + 1) (m.erase b.node) ha
        rw [Nat.add_right_comm, Nat.add_assoc] at ho
        exact ⟨f, by simpa using hf, ho⟩
      · refine ⟨.unstarted, ?_, .inl rfl⟩
        rw [getElem?_cons_succ, getElem?_map, ha]
        rfl

/-- Every branch has a fate, and unless it was never started it is its own handler's doing, in the
context it was started with. -/
theorem branchFates_started {m i} (hi : i < ac.length) :
    ∃ f, (branchFates g rt ti sp st ac m)[i]? = some f ∧
      (f = .unstarted ∨ StartedAt rt sp st ac m i f) := by
  unfold branchFates
  split
  · obtain ⟨f, hf, hs⟩ := parallelFates_started rt ti sp st m hi
    exact ⟨f, hf, .inr hs⟩
  · obtain ⟨f, hf, hs⟩ := sequentialFates_started rt ti sp st 0 m (getElem?_eq_getElem hi)
    refine ⟨f, hf, hs.imp_right ?_⟩
    rintro ⟨value, ctx, hv, hc, rfl⟩
    exact ⟨_, value, ctx, getElem?_eq_getElem hi, hv, hc, by rw [Nat.zero_add]⟩

theorem ofResult_ne_unstarted (r : Except GraphError (NodeResult U V)) :
    Fate.ofResult r ≠ .unstarted := by
  cases r with
  | error e => simp [Fate.ofResult]
  | ok r => cases r <;> simp [Fate.ofResult]

theorem sequentialFates_unstarted (rt : Runtime S U V) (ti sp st ix m)
    (h : Fate.unstarted ∈ sequentialFates rt ti sp st ix ac m) :
    ∃ f ∈ sequentialFates rt ti sp st ix ac m, f ≠ .unstarted ∧ f.isCompleted = false := by
  induction ac generalizing ix m with
  | nil => cases h
  | cons b re ih =>
    simp only [sequentialFates] at h ⊢
    generalize hf : Fate.ofResult (rt.handler b.node ix st _) = f at h ⊢
    have hs : f ≠ .unstarted := by
      rw [← hf]
      exact ofResult_ne_unstarted _
    cases hc : f.isCompleted with
    | true =>
      simp only [hc, if_true] at h ⊢
      obtain ⟨f', hf', hr⟩ := ih (ix + 1) _ ((mem_cons.mp h).resolve_left hs.symm)
      exact ⟨f', mem_cons_of_mem _ hf', hr⟩
    | false =>
      simp only [hc] at h ⊢
      exact ⟨f, mem_cons_self, hs, hc⟩

theorem branchFates_unstarted (h : .unstarted ∈ branchFates g rt ti sp st ac m) :
    ∃ f ∈ branchFates g rt ti sp st ac m, f ≠ .unstarted ∧ f.isCompleted = false := by
  unfold branchFates at h ⊢
  split at h
  · obtain ⟨i, hi, he⟩ := mem_map.mp h
    exact absurd he (ofResult_ne_unstarted _)
  · rename_i hp
    rw [if_neg hp]
    exact sequentialFates_unstarted rt ti sp st 0 m h

theorem sequential_known (hk : ∀ a ∈ ac, a.node ∈ g.nodes) (ix p) :
    ∃ p', runActiveSequential g rt ti sp st ix ac p = .ok p' := by
  induction ac generalizing ix p with
  | nil => exact ⟨p, rfl⟩
  | cons a rs ih =>
    simp only [runActiveSequential, hk a mem_cons_self, if_true]
    generalize nodeContext rt ti sp none a p.resumeMap = cm
    obtain ⟨ctx, m⟩ := cm
    dsimp only
    cases rt.handler a.node ix st ctx with
    | error e => exact ⟨_, rfl⟩
    | ok re =>
      dsimp only
      split
      · exact ⟨_, rfl⟩
      · exact ih (fun b hb => hk b (mem_cons_of_mem _ hb)) _ _

theorem runActive_known (hk : ∀ a ∈ ac, a.node ∈ g.nodes) (p) :
    ∃ p', runActive g rt ti sp st ac p = .ok p' := by
  unfold runActive
  split
  · obtain ⟨rs, hr, hl⟩ := driveBranches_some g (rt.select sp) ac (branchResult rt st
      ac (forkedContexts rt ti sp 0 ac p.resumeMap))
    obtain ⟨p', hp', -⟩ := parallel_known hk hr hl
    exact ⟨p', hp'⟩
  · exact sequential_known hk 0 p

end Tinyflows.Graph
