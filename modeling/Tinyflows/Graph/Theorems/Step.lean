import Tinyflows.Graph.Lemmas.Partition

/-!
# One super-step
-/

namespace Tinyflows.Graph
open Lib List

variable {S U V : Type}

/-! ## Pauses -/

/-- A runtime in which the branches at `x` and `y` fail and every other branch goes to the end. Its
futures are found ready from the first one on. -/
def failingAt (x y : Nat) : Runtime S U V where
  handler _ index _ _ :=
    if index = x ∨ index = y then .error .cancelled else .ok (.command { goto := [.node END] })
  tokio := false

section FailingAt

variable {x y : Nat} {threadId : Option ThreadId} {step : Nat} {state : S}
  {active : List (Activation V)} {resumeMap : ResumeMap V}

theorem failingAt_result {i} (hi : i < active.length) :
    branchResult (failingAt x y : Runtime S U V) state active
        (forkedContexts (failingAt x y : Runtime S U V) threadId step 0 active resumeMap) i =
      if i = x ∨ i = y then .error .cancelled else .ok (.command { goto := [.node END] }) := by
  have hc : i < (forkedContexts (failingAt x y : Runtime S U V) threadId step 0
      active resumeMap).length := by rw [length_forkedContexts]; exact hi
  rw [branchResult, getElem?_eq_getElem hi, getElem?_eq_getElem hc]
  rfl

theorem failingAt_results (x y threadId step state active resumeMap i) :
    (∃ e, branchResult (failingAt x y : Runtime S U V) state active
        (forkedContexts (failingAt x y : Runtime S U V) threadId step 0 active resumeMap) i =
      .error e) ∨
    branchResult (failingAt x y : Runtime S U V) state active
        (forkedContexts (failingAt x y : Runtime S U V) threadId step 0 active resumeMap) i =
      .ok (.command { goto := [.node END] }) := by
  by_cases hi : i < active.length
  · rw [failingAt_result hi]
    split
    · exact .inl ⟨_, rfl⟩
    · exact .inr rfl
  · rw [branchResult, getElem?_eq_none (Nat.not_lt.mp hi)]
    exact .inl ⟨_, rfl⟩

end FailingAt

variable {active : List (Activation V)} {g : CompiledGraph S U V} {state : S}

theorem known_of_bounded {rt threadId step p p'} (hb : bounded g active)
    (h : runActive g rt threadId step state active p = .ok p') : ∀ a ∈ active, a.node ∈ g.nodes := by
  rw [runActive, if_pos hb.1, runActiveParallel] at h
  split at h
  · cases h
  · rename_i hc
    exact forkContexts_nodes hc

theorem PausesPartition.inOrder {barriers} (ha : PausesPartition g active state barriers)
    (hk : ∀ a ∈ active, a.node ∈ g.nodes) : SlotsInOrder g active := by
  intro hb
  by_contra hP
  obtain ⟨x, y, z, hx, hy, hz, hX, hxz, hY, hm⟩ := driveBranches_misfiles g active hb.2 hP
  obtain ⟨results, hs, hl, hR, hry, hS⟩ := hm (branchResult (failingAt x y) state active
    (forkedContexts (failingAt x y : Runtime S U V) none 1 0 active ∅))
  rw [failingAt_result hx, if_pos (.inl rfl)] at hR
  rw [failingAt_result hz, if_neg (by omega)] at hry
  obtain ⟨p, hp, hu⟩ : ∃ p, runActiveParallel g (failingAt x y) none 1 state active
      { resumeMap := ∅, visited := [] } = .ok p ∧ p.run = StepRun.ofFates (results.map Fate.ofResult) :=
    parallel_known hk hs hl
  have hF : ∀ f ∈ results.map Fate.ofResult, f.update = none ∧
      (f.isCompleted → f.goto = some [.node END]) := by
    intro f hf
    obtain ⟨r, hr, rfl⟩ := mem_map.mp hf
    obtain ⟨i, rfl⟩ := hS r hr
    rcases failingAt_results x y none 1 state active ∅ i with ⟨e, he⟩ | he
    · rw [he]; exact ⟨rfl, fun h => by cases h⟩
    · rw [he]; exact ⟨rfl, fun _ => rfl⟩
  have hU : p.run.updates = [] := by
    rw [hu, ofFates_updates, filterMap_eq_nil_iff]
    exact fun f hf => (hF f hf).1
  obtain ⟨b, hb'⟩ : ∃ b, pauseBoundary g active (StepRun.ofFates (results.map Fate.ofResult)) state
      barriers = some (.ok b) :=
    pauseBoundary_end (by rw [length_map, hl]) (by rw [getElem?_map, hR]; rfl)
      (fun f hf => (hF f hf).2) state barriers
  obtain ⟨pending, ha⟩ := ha (failingAt x y) none 1 ∅ [] p state b "" "" none
    (by rw [runActive, if_pos hb.1, hp]) (by rw [hU]; rfl) (by rw [hu]; exact hb')
  have hM : y ∈ p.run.completed := by
    rw [hu]
    exact mem_completed.mpr ⟨_, by rw [getElem?_map, hry]; rfl, rfl⟩
  obtain ⟨f, hf, hc⟩ := (ha.completed_iff y).mp hM
  rw [branchFates, if_pos hb.1, parallelFates, getElem?_map, getElem?_range hy,
    Option.map_some, failingAt_result hy, if_pos (.inr rfl), Option.some.injEq] at hf
  subst hf
  cases hc

/-- What a pause persists accounts for each branch exactly once, unless a concurrency bound is in
force that lets three or more branches run at once. -/
theorem pausesPartition_iff (g : CompiledGraph S U V) (active : List (Activation V))
    (state : S) (barriers : Barriers) :
    PausesPartition g active state barriers ↔
      ((∀ a ∈ active, a.node ∈ g.nodes) → SlotsInOrder g active) := by
  refine ⟨fun hpart => hpart.inOrder, ?_⟩
  intro hcond rt threadId step resumeMap visited p state' b thread id parent hrun hstate hb
  have horder : SlotsInOrder g active := fun hbound =>
    hcond (known_of_bounded hbound hrun) hbound
  have hfates := runActive_inOrder horder hrun
  change p.run = StepRun.ofFates _ at hfates
  rw [hfates] at hstate hb ⊢
  exact pause_partitions branchFates_length hstate hb rt thread id parent step

/-- One node that a parallel step may run three times at once. -/
def fanOut : CompiledGraph Unit Unit Unit where
  entry := "work"
  nodes := {"work"}
  reducer _ _ := .ok ()
  parallel := true
  maxConcurrency := some 3

def packets (n : Nat) : List (Activation Unit) :=
  assignTaskIds 1 (List.replicate n { node := "work", sendArg := some () })

/-- With four packets under a bound of three, a branch that failed is recorded as completed. -/
theorem fanOut_misfiles_pause : ¬ PausesPartition fanOut (packets 4) () ∅ := by
  intro hpart
  have horder := hpart.inOrder (by decide)
  exact absurd (horder (by unfold bounded; decide)) (by decide)

end Tinyflows.Graph
