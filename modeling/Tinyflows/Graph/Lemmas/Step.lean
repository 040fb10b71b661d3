import Tinyflows.Graph.Partition

/-!
# What a super-step can do
-/

namespace Tinyflows.Graph
open Lib List Nat

variable {S U V : Type} {g : CompiledGraph S U V}
  {rt : Runtime S U V} {ti : Option ThreadId} {l en : Loop S V}

theorem enterStep_ok (h : enterStep g rt l = .ok en) : ∃ nodeVisits,
    en = { l with
      nodeVisits, steps := l.steps + 1, active := assignTaskIds (l.steps + 1) l.active } ∧
    l.steps < stepLimit g ∧ g.runDeadline.filter (· ≤ rt.elapsed l.steps) = none ∧
    recordNodeVisits g.recursionPolicy l.nodeVisits l.active = .ok nodeVisits := by
  unfold enterStep at h
  split at h
  · cases h
  · rename_i hl
    split at h
    · cases h
    · rename_i hd
      split at h
      · cases h
      · rename_i nodeVisits hv
        cases h
        exact ⟨nodeVisits, rfl, Nat.lt_of_not_le hl, hd, hv⟩

theorem superStep_cases (g) (rt : Runtime S U V) (ti l) :
    (∃ e, superStep g rt ti l = .done (l.abort e)) ∨
    ∃ en p state, Ran g rt ti l en p state ∧
      ((∃ fa, p.run.failure = some fa ∧ superStep g rt ti l =
          .done (finishFailure g rt ti (en.ran state p) p.run fa)) ∨
       (p.run.failure = none ∧ p.run.interrupts ≠ [] ∧ superStep g rt ti l =
          .done (finishInterrupt g rt ti (en.ran state p) p.run)) ∨
       (p.run.failure = none ∧ p.run.interrupts = [] ∧ superStep g rt ti l =
          loopBoundary g rt ti (en.ran state p) p.run)) := by
  simp only [superStep]
  cases he : enterStep g rt l with
  | error e => exact .inl ⟨e, rfl⟩
  | ok en =>
    have hs : en.persistence = l.persistence := by
      obtain ⟨_, rfl, _⟩ := enterStep_ok he; rfl
    cases hr : runActive g rt ti en.steps en.state en.active
        { resumeMap := en.resumeMap, visited := en.visited } with
    | error e => exact .inl ⟨e, by simp only [hr, Loop.abort, hs]⟩
    | ok p =>
      cases hf : applyUpdates g en.state p.run.updates with
      | error e => exact .inl ⟨e, by simp only [hr, hf, Loop.abort, hs]⟩
      | ok state =>
        refine .inr ⟨en, p, state, ⟨he, hr, hf⟩, ?_⟩
        simp only [hr, hf]
        cases ha : p.run.failure with
        | some fa => exact .inl ⟨fa, rfl, rfl⟩
        | none =>
          by_cases hint : p.run.interrupts = []
          · exact .inr (.inr ⟨rfl, hint, by simp only [hint]; rfl⟩)
          · refine .inr (.inl ⟨rfl, hint, ?_⟩)
            simp only [List.isEmpty_iff, hint, if_false]
            rfl

variable {l' : Loop S V} {run : StepRun U V} {ws : AsyncCheckpointWrites}
  {th : ThreadId} {r : RunResult S V} {P : Loop S V → Prop} {bu : Nat}

theorem superStep_next (h : superStep g rt ti l = .next l') :
    ∃ en p state, Ran g rt ti l en p state ∧ p.run.failure = none ∧ p.run.interrupts = [] ∧
      loopBoundary g rt ti (en.ran state p) p.run = .next l' := by
  rcases superStep_cases g rt ti l with
    ⟨e, he⟩ | ⟨en, p, state, hr, ⟨f, -, hf⟩ | ⟨-, -, hi⟩ | ⟨hf, hi, hb⟩⟩
  · rw [he] at h; cases h
  · rw [hf] at h; cases h
  · rw [hi] at h; cases h
  · exact ⟨en, p, state, hr, hf, hi, hb ▸ h⟩

theorem loopBoundary_next (h : loopBoundary g rt ti l run = .next l') : ∃ nx barriers writes d id,
    routeCompleted g l.active run.gotoMap l.state l.barriers = .ok (nx, barriers) ∧
    l.persistence.writes.takeFailure (rt.finished l.steps) = (none, writes) ∧
    persistBoundary g rt ti l.parentCheckpoint l.steps
      { state := l.state, pending := nx, completedTasks := l.active, barriers }
      { l.persistence with writes } = (d, .ok id) ∧
    l' = { l with
      barriers, active := nx, persistence := d
      lastCheckpoint := id.or l.lastCheckpoint, parentCheckpoint := id.or l.parentCheckpoint } := by
  simp only [loopBoundary] at h
  split at h
  · cases h
  · rename_i nx barriers hr
    split at h
    · cases h
    · rename_i writes hw
      simp only [Loop.advance] at h
      split at h
      · cases h
      · rename_i d id hd
        cases h
        exact ⟨nx, barriers, writes, d, id, hr, hw, hd, rfl⟩

/-! ## Writes that go through -/

/-- No background write has failed. -/
def AsyncCheckpointWrites.Clean (ws : AsyncCheckpointWrites) : Prop :=
  AsyncCheckpointWrites.firstError ws.handles = none

abbrev Loop.Clean (l : Loop S V) : Prop := l.persistence.writes.Clean

theorem AsyncCheckpointWrites.Clean.takeFailure (h : ws.Clean) (fi) :
    ∃ ws', ws.takeFailure fi = (none, ws') ∧ ws'.Clean := by
  cases fi with
  | false => exact ⟨ws, rfl, h⟩
  | true => exact ⟨{ handles := [] }, by
      rw [AsyncCheckpointWrites.takeFailure, if_pos rfl, h], rfl⟩

theorem AsyncCheckpointWrites.Clean.drain (h : ws.Clean) : ws.drain = (none, { handles := [] }) := by
  rw [AsyncCheckpointWrites.drain, h]

theorem AsyncCheckpointWrites.clean_iff : ws.Clean ↔ ∀ h ∈ ws.handles, h = none := by
  rw [Clean, firstError, findSome?_eq_none_iff]; rfl

theorem AsyncCheckpointWrites.Clean.spawnOrdered (h : ws.Clean) :
    (ws.spawnOrdered none).1.Clean ∧ (ws.spawnOrdered none).2 = true := by
  rw [clean_iff] at h
  unfold AsyncCheckpointWrites.spawnOrdered
  split
  · rename_i e he
    cases h _ (mem_of_getLast? he)
  · refine ⟨clean_iff.mpr fun x hx => ?_, rfl⟩
    rcases mem_append.mp hx with hx | hx
    · exact h x (dropLast_subset _ hx)
    · exact mem_singleton.mp hx

/-! ## What a boundary leaves in the store -/

/-- Trying to write `b` leaves the store as it was, or adds its record, perhaps with its markers. -/
inductive Stored (g : CompiledGraph S U V) (rt : Runtime S U V)
    (thread : ThreadId) (parent : Option CheckpointId) (step : Nat) (b : Boundary S V)
    (store : CheckpointStore S V) (minted : Nat) (d : Persistence S V) : Prop where
  | lost (hstore : d.store = store) (hminted : minted ≤ d.minted)
  | record (hminted : d.minted = minted + 1)
      (hstore : d.store = store.put
        (buildCheckpoint g rt thread (rt.checkpointId minted) parent step b))
  | marked (hminted : d.minted = minted + 1)
      (hstore : d.store = (store.put
        (buildCheckpoint g rt thread (rt.checkpointId minted) parent step b)).putWrites thread g.ns
          (rt.checkpointId minted) (completionWrites b.completedTasks))

theorem persistCheckpoint_stored (g) (rt : Runtime S U V) (th pa st b d) :
    Stored g rt th pa st b d.store d.minted (persistCheckpoint g rt (some th) pa st b d).1 := by
  unfold persistCheckpoint
  cases g.checkpointer with
  | false => exact .lost rfl (le_refl _)
  | true =>
    simp only
    cases rt.put d.minted with
    | some e => exact .lost rfl (le_succ _)
    | none =>
      cases rt.putWrites d.minted with
      | some e => exact .record rfl rfl
      | none => exact .marked rfl rfl

theorem nonblocking_stored (g) (rt : Runtime S U V) (th pa st b d) :
    Stored g rt th pa st b d.store d.minted
      (persistCheckpointNonblocking g rt (some th) pa st b d).1 := by
  unfold persistCheckpointNonblocking
  cases g.checkpointer with
  | false => exact .lost rfl (le_refl _)
  | true =>
    simp only
    split
    · cases (d.writes.spawnOrdered (rt.put d.minted)).2 with
      | false => exact .lost rfl (le_succ _)
      | true => exact .record rfl rfl
    · cases rt.put d.minted with
      | some e => exact .lost rfl (le_succ _)
      | none => exact .record rfl rfl

theorem persistBoundary_stored (g) (rt : Runtime S U V) (th pr step b d) :
    Stored g rt th pr step b d.store d.minted
      (persistBoundary g rt (some th) pr step b d).1 := by
  unfold persistBoundary
  split
  · cases hd : d.writes.drain with
    | mk fl writes =>
      cases fl with
      | some e => exact .lost rfl (le_refl _)
      | none => exact persistCheckpoint_stored g rt th pr step b { d with writes }
  · cases g.durability with
    | exit => exact .lost rfl (le_refl _)
    | async => exact nonblocking_stored g rt th pr step b d
    | sync => exact persistCheckpoint_stored g rt th pr step b d

/-- The boundary a super-step comes to: a pause, or the routing of everything that completed. -/
inductive ReachesBoundary (g : CompiledGraph S U V) (l : Loop S V)
    (run : StepRun U V) (b : Boundary S V) : Prop where
  | pause (h : pauseBoundary g l.active run l.state l.barriers = some (.ok b))
  | loop (next : List (Activation V)) (barriers : Barriers)
      (hfailure : run.failure = none) (hinterrupts : run.interrupts = [])
      (hroute : routeCompleted g l.active run.gotoMap l.state l.barriers = .ok (next, barriers))
      (hb : b = { state := l.state, pending := next, completedTasks := l.active, barriers })

def LeavesStore (g : CompiledGraph S U V) (rt : Runtime S U V)
    (thread : ThreadId) (l : Loop S V) (run : StepRun U V)
    (store : CheckpointStore S V) : Prop :=
  store = l.persistence.store ∨ ∃ b d, ReachesBoundary g l run b ∧
    Stored g rt thread l.parentCheckpoint l.steps b l.persistence.store l.persistence.minted d ∧
    store = d.store

theorem finishFailure_store {fa} (hf : run.failure = some fa) :
    LeavesStore g rt th l run (finishFailure g rt (some th) l run fa).store := by
  unfold finishFailure
  cases hb : failureBoundary g l.active run fa l.state l.barriers with
  | error e => exact .inl rfl
  | ok b =>
    refine .inr ⟨b, _, .pause (by rw [pauseBoundary, hf]; exact congrArg some hb),
      persistCheckpoint_stored g rt th l.parentCheckpoint l.steps b
        { l.persistence with writes := l.persistence.writes.drain.2 }, rfl⟩

theorem finishInterrupt_store (hf : run.failure = none) (hint : run.interrupts ≠ []) :
    LeavesStore g rt th l run (finishInterrupt g rt (some th) l run).store := by
  unfold finishInterrupt
  cases requireInterruptDurability g (some th) with
  | error e => exact .inl rfl
  | ok _ =>
    cases hb : interruptBoundary g l.active run l.state l.barriers with
    | error e => exact .inl rfl
    | ok b =>
      cases hd : l.persistence.writes.drain with
      | mk fl writes =>
        cases fl with
        | some e => exact .inl rfl
        | none =>
          refine .inr ⟨b, _, .pause ?_, persistCheckpoint_stored g rt th
            l.parentCheckpoint l.steps b { l.persistence with writes }, ?_⟩
          · rw [pauseBoundary, hf]
            simp only [List.isEmpty_iff, hint, if_false, hb]
          · simp only
            split <;> simp_all

theorem loopBoundary_done (hf : run.failure = none) (hint : run.interrupts = [])
    (h : loopBoundary g rt (some th) l run = .done r) : LeavesStore g rt th l run r.store := by
  simp only [loopBoundary] at h
  split at h
  · cases h; exact .inl rfl
  · rename_i next barriers hr
    split at h
    · cases h; exact .inl rfl
    · rename_i writes hw
      simp only [Loop.advance] at h
      split at h
      · rename_i d e hd
        cases h
        refine .inr ⟨_, _, .loop next barriers hf hint hr rfl, persistBoundary_stored g rt th
          l.parentCheckpoint l.steps _ { l.persistence with writes }, ?_⟩
        rw [hd]
      · cases h

theorem superStep_done (h : superStep g rt (some th) l = .done r) :
    r.store = l.persistence.store ∨ ∃ en p state, Ran g rt (some th) l en p state ∧
      LeavesStore g rt th (en.ran state p) p.run r.store := by
  rcases superStep_cases g rt (some th) l with
    ⟨e, he⟩ | ⟨en, p, state, hr, ⟨f, hf, hs⟩ | ⟨hf, hi, hs⟩ | ⟨hf, hi, hs⟩⟩
  · rw [he] at h; cases h; exact .inl rfl
  · rw [hs] at h; cases h
    exact .inr ⟨en, p, state, hr, finishFailure_store hf⟩
  · rw [hs] at h; cases h
    exact .inr ⟨en, p, state, hr, finishInterrupt_store hf hi⟩
  · rw [hs] at h
    exact .inr ⟨en, p, state, hr, loopBoundary_done hf hi h⟩

/-- The rule for runs: what every super-step keeps holds at each boundary, and what every way out of
the loop yields holds of the result. -/
theorem runLoop_ind {Q : RunResult S V → Prop} (hn : ∀ l m, P l → superStep g rt ti l = .next m → P m)
    (hd : ∀ l r, P l → superStep g rt ti l = .done r → Q r)
    (hi : ∀ l, P l → l.active = [] → Q (finishCompleted rt l)) (hb : ∀ l e, P l → Q (l.abort e))
    (hl : P l) : Q (runLoop g rt ti bu l) := by
  induction bu generalizing l with
  | zero =>
    rw [runLoop]
    split_ifs with ha
    · exact hi l hl ha
    · exact hb l _ hl
  | succ bu ih =>
    rw [runLoop]
    split_ifs with ha
    · exact hi l hl ha
    · split
      · exact hd l _ hl ‹_›
      · exact ih (hn l _ hl ‹_›)

theorem boundaries_ind (hn : ∀ l m, P l → superStep g rt ti l = .next m → P m) (hl : P l) :
    ∀ m ∈ boundaries g rt ti bu l, P m := by
  induction bu generalizing l with
  | zero => exact fun m hm => by cases hm
  | succ bu ih =>
    rw [boundaries]
    split_ifs
    · exact fun m hm => by cases hm
    · split
      · exact fun m hm => by cases hm
      · rename_i l' hs
        have hl' := hn l l' hl hs
        exact forall_mem_cons.mpr ⟨hl', ih hl'⟩

end Tinyflows.Graph
