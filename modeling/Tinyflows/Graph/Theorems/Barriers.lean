import Tinyflows.Graph.Lemmas.Barriers
import Tinyflows.Graph.Lemmas.Chain

/-!
# Barriers
-/

namespace Tinyflows.Graph
open Lib List

variable {S U V : Type} {g : CompiledGraph S U V}
  {rt : Runtime S U V}

/-! ## Every boundary and every record has a history -/

variable {b : Boundary S V} {l m : Loop S V} {threadId : Option ThreadId}
  {log : List BarrierEvent} {store : CheckpointStore S V} {th : ThreadId}

theorem ReachesBoundary.crosses {entered p st}
    (ha : Ran g rt threadId l entered p st) (h : ReachesBoundary g (entered.ran st p) p.run b) :
    ∃ r, Crosses g rt threadId l b r := by
  cases h with
  | pause hb =>
    obtain ⟨-, -, successors, hr, -⟩ := pauseBoundary_ok hb
    obtain ⟨r, hp, -, -⟩ := routeCompleted_ok hr
    exact ⟨r, .pause entered p st ha hp hb⟩
  | loop next barriers hf hi hr hb =>
    obtain ⟨r, hp, rfl, rfl⟩ := routeCompleted_ok hr
    exact ⟨r, .loop entered p st ha hf hi hp hb⟩

theorem Reaches.superStep (h : Reaches g l log) (hm : Graph.superStep g rt threadId l = .next m) :
    ∃ more, Reaches g m (log ++ more) := by
  obtain ⟨entered, p, state, hr, hf, hi, hb⟩ := superStep_next hm
  obtain ⟨next, barriers, -, -, -, ho, -⟩ := loopBoundary_next hb
  obtain ⟨r, hc⟩ := ReachesBoundary.crosses hr (.loop next barriers hf hi ho rfl)
  exact ⟨r.log, h.next hm hc⟩

theorem Reaches.boundaries {budget} (h : Reaches g l log)
    (hm : m ∈ Graph.boundaries g rt threadId budget l) : ∃ more, Reaches g m (log ++ more) := by
  refine boundaries_ind (P := fun l => ∃ more, Reaches g l (log ++ more)) ?_
    ⟨[], by rwa [append_nil]⟩ m hm
  rintro l m ⟨more, hl⟩ hm
  obtain ⟨rest, hm⟩ := hl.superStep hm
  exact ⟨more ++ rest, by rwa [← append_assoc]⟩

/-- Every checkpoint of the store was left by a history of arrivals. -/
def HasHistory (g : CompiledGraph S U V) (store : CheckpointStore S V) : Prop :=
  ∀ thread, ∀ c ∈ store.getThread thread, ∃ log, Leaves g c log

theorem HasHistory.put (h : HasHistory g store) {c} (hc : Leaves g c log) :
    HasHistory g (store.put c) := by
  intro th c' hc'
  rw [getThread_put] at hc'
  split_ifs at hc'
  · rcases mem_append.mp hc' with hc' | hc'
    · exact h th c' hc'
    · exact ⟨log, mem_singleton.mp hc' ▸ hc⟩
  · exact h th c' hc'

theorem HasHistory.stored {parent st minted d} (h : HasHistory g store)
    (hb : ∀ id, ∃ log, Leaves g (buildCheckpoint g rt th id parent st b) log)
    (hd : Stored g rt th parent st b store minted d) : HasHistory g d.store := by
  obtain ⟨log, hl⟩ := hb (rt.checkpointId minted)
  cases hd with
  | lost hs _ => exact hs ▸ h
  | record _ hs => exact hs ▸ h.put hl
  | marked _ hs =>
    rw [hs]
    intro th' c hc
    rw [getThread_putWrites] at hc
    exact h.put hl th' c hc

structure RunHistory (g : CompiledGraph S U V) (l : Loop S V) : Prop where
  reached : ∃ log, Reaches g l log
  store : HasHistory g l.persistence.store

theorem RunHistory.leaves {r} (h : RunHistory g l) (hc : Crosses g rt threadId l b r) (th parent st id) :
    ∃ log, Leaves g (buildCheckpoint g rt th id parent st b) log := by
  obtain ⟨log, hr⟩ := h.reached
  exact ⟨log ++ r.log, .boundary th id parent st hr hc⟩

theorem RunHistory.next (h : RunHistory g l) (hm : superStep g rt (some th) l = .next m) :
    RunHistory g m := by
  refine ⟨?_, ?_⟩
  · obtain ⟨log, he⟩ := h.reached
    obtain ⟨more, hm⟩ := he.superStep hm
    exact ⟨log ++ more, hm⟩
  · obtain ⟨entered, p, state, hr, hf, hi, hb⟩ := superStep_next hm
    obtain ⟨next, barriers, writes, d, id, ho, -, hd, rfl⟩ := loopBoundary_next hb
    obtain ⟨r, hc⟩ :=
      ReachesBoundary.crosses hr (.loop next barriers hf hi ho rfl)
    obtain ⟨visited, rfl, -⟩ := enterStep_ok hr.enter
    have hs := persistBoundary_stored g rt th l.parentCheckpoint (l.steps + 1)
      { state, pending := next, completedTasks := assignTaskIds (l.steps + 1) l.active, barriers }
      { l.persistence with writes }
    have hS := h.store.stored (h.leaves hc th _ _) hs
    rwa [show (persistBoundary g rt (some th) l.parentCheckpoint (l.steps + 1)
      { state, pending := next, completedTasks := assignTaskIds (l.steps + 1) l.active, barriers }
      { l.persistence with writes }).1 = d from congrArg Prod.fst hd] at hS

theorem RunHistory.done {r} (h : RunHistory g l)
    (hr : superStep g rt (some th) l = .done r) : HasHistory g r.store := by
  rcases superStep_done hr with hs | ⟨entered, p, state, ha, hs | ⟨b, d, hb, hd, hs⟩⟩
  · exact hs ▸ h.store
  · obtain ⟨visited, rfl, -⟩ := enterStep_ok ha.enter
    exact hs ▸ h.store
  · obtain ⟨r', hc⟩ := hb.crosses ha
    obtain ⟨visited, rfl, -⟩ := enterStep_ok ha.enter
    rw [hs]
    exact h.store.stored (h.leaves hc th _ _) hd

theorem RunHistory.executeRun (h : RunHistory g l) :
    HasHistory g (Graph.executeRun g rt (some th) l).store := by
  unfold Graph.executeRun
  split_ifs
  · exact h.store
  · exact runLoop_ind (P := RunHistory g) (Q := fun r => HasHistory g r.store)
      (fun l m hl hm => hl.next hm) (fun l r hl hr => hl.done hr) (fun l hl _ => hl.store)
      (fun l e hl => hl.store) h

theorem HasHistory.resumeFrom (h : HasHistory g store) (target value) :
    HasHistory g (Graph.resumeFrom g rt store th target value).store := by
  unfold Graph.resumeFrom
  split_ifs
  · exact h
  · split
    · exact h
    · rename_i c hc
      split_ifs
      · exact h
      · obtain ⟨log, hl⟩ := h th c (getScoped_mem hc)
        exact RunHistory.executeRun ⟨⟨log, .resume store _ value hl⟩, h⟩

theorem Chain.history {allowed} (h : Chain g th allowed store) : HasHistory g store := by
  induction h with
  | start => exact fun th c hc => absurd hc not_mem_nil
  | step rt op _ hi ha ih =>
    cases op with
    | run st => exact RunHistory.executeRun ⟨⟨[], .fresh _ st _⟩, ih⟩
    | runWithInputs st ip =>
      simp only [Operation.perform, Graph.runWithInputs]
      split
      · exact ih
      · exact RunHistory.executeRun ⟨⟨[], .fresh _ st _⟩, ih⟩
    | resume target value => exact ih.resumeFrom target value
    | retry => exact ih.resumeFrom .latest none

/-! ## The barriers of every history -/

/-- No barrier is ever left complete, each one is scheduled once for every complete set of arrivals
and then starts over, and a checkpoint gives the arrivals back that were written. -/
theorem barriers_hold (g : CompiledGraph S U V) :
    (∀ thread allowed store, Chain g thread allowed store → HasHistory g store) ∧
    (∀ l log, Reaches g l log → ∀ rt threadId budget, ∀ m ∈ boundaries g rt threadId budget l,
      ∃ more, Reaches g m (log ++ more)) ∧
    (∀ l log, Reaches g l log → BarriersHold g l.barriers log) ∧
    (∀ c log, Leaves g c log → BarriersHold g (barriersFromPersisted c.barrierArrivals) log) ∧
    (∀ completed gotoMap state barriers r, routePass g completed gotoMap state barriers = .ok r →
      PassAccounts g [] r) ∧
    (∀ node state base r, mergePass g node state base = .ok r →
      PassAccounts g (retainedPending node base) r) ∧
    ∀ ord barriers, barriersFromPersisted (barriersToPersisted ord barriers) = barriers :=
  ⟨fun _ _ _ h => h.history, fun _ _ h _ _ _ _ hm => h.boundaries hm, fun _ _ h => h.hold,
    fun _ _ h => h.hold, fun _ _ _ _ _ h => routePass_accounts h,
    fun _ _ _ _ h => mergePass_accounts h, barriers_roundtrip⟩

/-- A fork into a short branch `b` and a long one over `c` and `d`, joined again at `join`. -/
def lopsided : CompiledGraph Unit Unit Unit where
  entry := "fork"
  nodes := {"fork", "b", "c", "d", "join"}
  edges := HashMap.collect [("b", "join"), ("c", "d"), ("d", "join"), ("join", END)]
  commandNodes := {"fork"}
  waiting := HashMap.collect [("join", {"b", "d"})]
  reducer _ _ := .ok ()

def lopsidedRuntime : Runtime Unit Unit Unit :=
  .plain (fun node _ _ =>
    if node = "fork" then .ok (.command { goto := [.node "b", .node "c"] }) else .ok (.update ()))
    Admission.firstReady

def lopsidedRun : List (Loop Unit Unit) :=
  boundaries lopsided lopsidedRuntime (some "t") 5 (freshLoop {} () [{ node := "fork" }])

/-- The join waits with the arrival of `b` alone, and starts over once `d` has arrived too. -/
theorem lopsided_waits : ∃ waits clears log log',
    lopsidedRun[1]? = some waits ∧ Reaches lopsided waits log ∧ activationNodes waits.active = ["d"] ∧
      arrivalsSince "join" log = {"b"} ∧
    lopsidedRun[2]? = some clears ∧ Reaches lopsided clears log' ∧
      activationNodes clears.active = ["join"] ∧ arrivalsSince "join" log' = ∅ := by
  obtain ⟨waits, hwaits⟩ : ∃ waits, lopsidedRun[1]? = some waits := ⟨_, rfl⟩
  obtain ⟨clears, hclears⟩ : ∃ clears, lopsidedRun[2]? = some clears := ⟨_, rfl⟩
  have hfacts : lopsidedRun[1]?.map (fun l => (activationNodes l.active, (l.barriers.lookup "join").getD ∅))
      = some (["d"], {"b"}) := by decide
  have hfacts' : lopsidedRun[2]?.map (fun l => (activationNodes l.active, (l.barriers.lookup "join").getD ∅))
      = some (["join"], ∅) := by decide
  simp only [hwaits, hclears, Option.map_some, Option.some.injEq, Prod.mk.injEq] at hfacts hfacts'
  obtain ⟨-, hruns, hhold, -⟩ := barriers_hold lopsided
  obtain ⟨log, hlog⟩ := hruns _ [] (.fresh {} () [{ node := "fork" }]) lopsidedRuntime (some "t") 5
    waits (mem_of_getElem? hwaits)
  obtain ⟨log', hlog'⟩ := hruns _ [] (.fresh {} () [{ node := "fork" }]) lopsidedRuntime (some "t") 5
    clears (mem_of_getElem? hclears)
  refine ⟨waits, clears, _, _, hwaits, hlog, hfacts.1, ?_, hclears, hlog', hfacts'.1, ?_⟩
  · rw [← (hhold _ _ hlog).recorded, hfacts.2]
  · rw [← (hhold _ _ hlog').recorded, hfacts'.2]

end Tinyflows.Graph
