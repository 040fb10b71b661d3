import Tinyflows.Graph.Api
import Tinyflows.Graph.Lemmas.Step

/-!
# Durability and lineage
-/

namespace Tinyflows.Graph
open Lib List Nat

/-!
## What a run persists

Every boundary of a run mints a checkpoint that names the one minted before it as its parent. Whether
the record is ever written is another matter: a background write can fail after the loop has moved on.
-/

variable {S U V : Type}

def storedIds (store : CheckpointStore S V) (thread : ThreadId) : List CheckpointId :=
  (store.getThread thread).map (·.checkpointId)

/-- A run begins afresh, or from a checkpoint of the thread. -/
inductive Begins (store : CheckpointStore S V) (thread : ThreadId) :
    Loop S V → Prop where
  | fresh (state : S) (active : List (Activation V)) :
      Begins store thread (freshLoop store state active)
  | resume (c : Checkpoint S V) (recorded : List (PendingWrite V)) (value : Option V) :
      c ∈ store.getThread thread → Begins store thread (resumeLoop store c recorded value)

def ParentsStored (before store : CheckpointStore S V) (thread : ThreadId) : Prop :=
  ∀ c ∈ store.getThread thread, c ∈ before.getThread thread ∨
    ∀ parent ∈ c.parentCheckpointId, parent ∈ storedIds store thread

/-- What a run from `start` leaves on record: at each boundary a prefix of the checkpoints minted so
far, at the end only records whose parents are there, and all of them if the run is reported as done. -/
structure RunDurable (g : CompiledGraph S U V) (rt : Runtime S U V)
    (thread : ThreadId) (store : CheckpointStore S V) (start : Loop S V) : Prop where
  minted : ∀ m ∈ start :: boundaries g rt (some thread) (stepLimit g) start,
    ∃ k ≤ m.persistence.minted, storedIds m.persistence.store thread =
      storedIds store thread ++ (List.range k).map rt.checkpointId
  lineage : ParentsStored store (executeRun g rt (some thread) start).store thread
  complete : ∀ e, (executeRun g rt (some thread) start).result = .ok e →
    storedIds (executeRun g rt (some thread) start).store thread = storedIds store thread ++
      (List.range (executeRun g rt (some thread) start).minted).map rt.checkpointId

/-- No branch fails in a step that starts from `l`, or no checkpoint write before it was lost. -/
def FailsSafely (g : CompiledGraph S U V) (rt : Runtime S U V)
    (thread : ThreadId) (l : Loop S V) : Prop :=
  ∀ entered p state, Ran g rt (some thread) l entered p state → p.run.failure ≠ none →
    ∀ i < l.persistence.minted, rt.put i = none

variable {g : CompiledGraph S U V} {rt : Runtime S U V} {th : ThreadId}
  {be store : CheckpointStore S V} {d : Persistence S V} {ro pa : Option CheckpointId} {b : Boundary S V} {sp : Nat}

/-! ## Records -/

variable {c : Checkpoint S V} {ws : AsyncCheckpointWrites} {d' : Persistence S V}
  {id : Option CheckpointId}

theorem storedIds_put (h : c.threadId = th) :
    storedIds (store.put c) th = storedIds store th ++ [c.checkpointId] := by
  rw [storedIds, getThread_put, if_pos h.symm, map_append]
  rfl

@[simp] theorem storedIds_putWrites (ns id wr) :
    storedIds (store.putWrites th ns id wr) th = storedIds store th := by
  rw [storedIds, getThread_putWrites, storedIds]

theorem ParentsStored.put (h : ParentsStored be store th) (hc : c.threadId = th)
    (ha : ∀ pa ∈ c.parentCheckpointId, pa ∈ storedIds store th) :
    ParentsStored be (store.put c) th := by
  intro c' hc'
  rw [storedIds_put hc]
  rw [getThread_put, if_pos hc.symm] at hc'
  rcases mem_append.mp hc' with hc' | hc'
  · exact (h c' hc').imp id fun hp pa hm => mem_append_left _ (hp pa hm)
  · rw [mem_singleton.mp hc']
    exact .inr fun pa hm => mem_append_left _ (ha pa hm)

theorem ParentsStored.putWrites (h : ParentsStored be store th) (ns id wr) :
    ParentsStored be (store.putWrites th ns id wr) th := by
  intro c hc
  rw [storedIds_putWrites]
  rw [getThread_putWrites] at hc
  exact h c hc

theorem ParentsStored.stored {mi} (h : ParentsStored be store th)
    (hp : ∀ id ∈ pa, id ∈ storedIds store th)
    (hd : Stored g rt th pa sp b store mi d) : ParentsStored be d.store th := by
  cases hd with
  | lost hs _ => exact hs ▸ h
  | record _ hs => exact hs ▸ h.put rfl hp
  | marked _ hs => exact hs ▸ (h.put rfl hp).putWrites _ _ _

/-! ## The chain of background writes -/

def AsyncCheckpointWrites.Settled (ws : AsyncCheckpointWrites) : Prop :=
  ws.handles = [] ∨ ws.handles = [none]

def AsyncCheckpointWrites.Lost (ws : AsyncCheckpointWrites) : Prop :=
  ∃ e, ws.handles = [some e]

theorem AsyncCheckpointWrites.Lost.drain (h : ws.Lost) : ∃ e, ws.drain = (some e, {}) := by
  obtain ⟨e, h⟩ := h
  exact ⟨e, by rw [AsyncCheckpointWrites.drain, h]; rfl⟩

/-- What is on record in the middle of a run: everything minted so far, or, once a background write is
lost, the part before it. The parent is the checkpoint minted last. -/
structure Lineage (g : CompiledGraph S U V) (rt : Runtime S U V)
    (thread : ThreadId) (before : CheckpointStore S V) (root parent : Option CheckpointId)
    (d : Persistence S V) : Prop where
  minted : ∃ k ≤ d.minted, storedIds d.store thread =
      storedIds before thread ++ (List.range k).map rt.checkpointId ∧
    (d.writes.Settled ∧ k = d.minted ∨
      d.writes.Lost ∧ g.durability = .async ∧ rt.tokio = true ∧ ∃ i < d.minted, rt.put i ≠ none)
  parent : (d.minted = 0 ∧ parent = root) ∨ ∃ n, d.minted = n + 1 ∧ parent = some (rt.checkpointId n)
  parents : ParentsStored before d.store thread

section

variable (h : Lineage g rt th be ro pa d)
include h

theorem Lineage.ids (he : d.writes.Settled) : storedIds d.store th =
      storedIds be th ++ (List.range d.minted).map rt.checkpointId := by
  obtain ⟨k, -, hi, ⟨-, rfl⟩ | ⟨⟨e, hl⟩, -⟩⟩ := h.minted
  · exact hi
  · rcases he with hs | hs <;> rw [hs] at hl <;> cases hl

theorem Lineage.parent_stored (hroot : ∀ id ∈ ro, id ∈ storedIds be th)
    (hs : d.writes.Settled) : ∀ id ∈ pa, id ∈ storedIds d.store th := by
  intro id hi
  rw [h.ids hs]
  rcases h.parent with ⟨-, rfl⟩ | ⟨n, hn, rfl⟩
  · exact mem_append_left _ (hroot id hi)
  · refine mem_append_right _ (mem_map.mpr ⟨n, mem_range.mpr (by omega), ?_⟩)
    exact Option.mem_some.mp hi

theorem Lineage.lost_or_settled :
    d.writes.Settled ∨ d.writes.Lost ∧ ∃ i < d.minted, rt.put i ≠ none := by
  obtain ⟨k, -, -, ⟨hs, -⟩ | ⟨hl, -, -, hp⟩⟩ := h.minted
  · exact .inl hs
  · exact .inr ⟨hl, hp⟩

theorem Lineage.settled_of_drain (hd : d.writes.drain = (none, ws)) : d.writes.Settled := by
  refine h.lost_or_settled.resolve_right fun ⟨hl, _⟩ => ?_
  obtain ⟨e, he⟩ := hl.drain
  rw [hd] at he
  cases he

theorem Lineage.settle (hs : d.writes.Settled) (hw : ws.Settled) :
    Lineage g rt th be ro pa { d with writes := ws } where
  minted := ⟨d.minted, le_refl _, h.ids hs, .inl ⟨hw, rfl⟩⟩
  parent := h.parent
  parents := h.parents

theorem Lineage.takeFailure {fi} (ht : d.writes.takeFailure fi = (none, ws)) :
    Lineage g rt th be ro pa { d with writes := ws } := by
  cases fi with
  | false =>
    cases ht
    exact h
  | true =>
    have hd : d.writes.drain = (none, ws) := ht
    refine h.settle (h.settled_of_drain hd) ?_
    exact .inl (congrArg (fun x => x.2.handles) hd).symm

end

/-! ## Writing one boundary -/

section

variable (h : Lineage g rt th be ro pa d)
  (hroot : ∀ id ∈ ro, id ∈ storedIds be th)
include h hroot

theorem Lineage.record (hs : d.writes.Settled) (hm : d'.minted = d.minted + 1) (hw : d'.writes.Settled)
    (ht : Stored g rt th pa sp b d.store d.minted d')
    (hi : storedIds d'.store th = storedIds d.store th ++ [rt.checkpointId d.minted]) :
    Lineage g rt th be ro (some (rt.checkpointId d.minted)) d' where
  minted := by
    refine ⟨d.minted + 1, hm ▸ le_refl _, ?_, .inl ⟨hw, hm.symm⟩⟩
    rw [hi, h.ids hs, range_succ, map_append, append_assoc]
    rfl
  parent := .inr ⟨d.minted, hm, rfl⟩
  parents := h.parents.stored (h.parent_stored hroot hs) ht

theorem Lineage.inline (hs : d.writes.Settled)
    (ho : persistCheckpoint g rt (some th) pa sp b d = (d', .ok id)) :
    Lineage g rt th be ro (id.or pa) d' ∧ d'.writes = d.writes := by
  have ht := persistCheckpoint_stored g rt th pa sp b d
  rw [ho] at ht
  unfold persistCheckpoint at ho
  cases hc : g.checkpointer with
  | false =>
    rw [hc] at ho
    cases ho
    exact ⟨h, rfl⟩
  | true =>
    simp only [hc] at ho
    split at ho
    · cases ho
    · split at ho
      · cases ho
      · cases ho
        refine ⟨h.record hroot hs rfl hs ht ?_, rfl⟩
        rw [storedIds_putWrites]
        exact storedIds_put rfl

theorem Lineage.nonblocking (ha : g.durability = .async)
    (ho : persistCheckpointNonblocking g rt (some th) pa sp b d = (d', .ok id)) :
    Lineage g rt th be ro (id.or pa) d' := by
  have hS := nonblocking_stored g rt th pa sp b d
  rw [ho] at hS
  unfold persistCheckpointNonblocking at ho
  cases hc : g.checkpointer with
  | false =>
    rw [hc] at ho
    cases ho
    exact h
  | true =>
    simp only [hc] at ho
    split at ho
    · rename_i hto
      cases ho
      obtain ⟨k, hk, hd, ⟨he, rfl⟩ | ⟨⟨e, hl⟩, -, -, i, hi, hu⟩⟩ := h.minted
      · cases hu : rt.put d.minted with
        | none =>
          have hp : d.writes.spawnOrdered none = ({ handles := [none] }, true) := by
            rcases he with hs | hs <;> simp [AsyncCheckpointWrites.spawnOrdered, hs]
          rw [hu] at hS
          simp only [hp, if_true] at hS ⊢
          exact h.record hroot he rfl (.inr rfl) hS (storedIds_put rfl)
        | some e =>
          have hp : d.writes.spawnOrdered (some e) = ({ handles := [some e] }, false) := by
            rcases he with hs | hs <;> simp [AsyncCheckpointWrites.spawnOrdered, hs]
          simp only [hp]
          exact {
            minted := ⟨d.minted, le_succ _, hd, .inr ⟨⟨e, rfl⟩, ha, hto, d.minted,
              lt_succ_self _, by rw [hu]; exact Option.some_ne_none e⟩⟩
            parent := .inr ⟨d.minted, rfl, rfl⟩
            parents := h.parents }
      · have hp : ∀ wr, d.writes.spawnOrdered wr = ({ handles := [some e] }, false) :=
          fun wr => by simp [AsyncCheckpointWrites.spawnOrdered, hl]
        simp only [hp]
        exact {
          minted := ⟨k, hk.trans (le_succ _), hd, .inr ⟨⟨e, rfl⟩, ha, hto, i,
            hi.trans (lt_succ_self _), hu⟩⟩
          parent := .inr ⟨d.minted, rfl, rfl⟩
          parents := h.parents }
    · rename_i hto
      obtain ⟨k, -, -, ⟨he, -⟩ | ⟨-, -, ht, -⟩⟩ := h.minted
      · split at ho
        · cases ho
        · cases ho
          exact h.record hroot he rfl he hS (storedIds_put rfl)
      · exact absurd ht hto

end

theorem drained (ws ws' : AsyncCheckpointWrites) {e} (h : ws.drain = (e, ws')) : ws'.Settled :=
  .inl (congrArg (fun x => x.2.handles) h).symm

section

variable (h : Lineage g rt th be ro pa d)
  (hroot : ∀ id ∈ ro, id ∈ storedIds be th)
include h hroot

/-- A boundary written under any durability mode keeps the account; after the terminal one nothing is
left in the background. -/
theorem Lineage.boundary (ho : persistBoundary g rt (some th) pa sp b d = (d', .ok id)) :
    Lineage g rt th be ro (id.or pa) d' ∧ (b.pending = [] → d'.writes.Settled) := by
  unfold persistBoundary at ho
  split at ho
  · cases hd : d.writes.drain with
    | mk fa wr =>
      rw [hd] at ho
      cases fa with
      | some e => cases ho
      | none =>
        have hs := h.settled_of_drain hd
        obtain ⟨hn, hw⟩ :=
          (h.settle hs (drained _ _ hd)).inline hroot (drained _ _ hd) ho
        exact ⟨hn, fun _ => by rw [hw]; exact drained _ _ hd⟩
  · rename_i hp
    refine ⟨?_, fun h => absurd h hp⟩
    cases hm : g.durability with
    | exit =>
      rw [hm] at ho
      cases ho
      exact h
    | async =>
      rw [hm] at ho
      exact h.nonblocking hroot hm ho
    | sync =>
      rw [hm] at ho
      obtain ⟨k, -, -, ⟨hs, -⟩ | ⟨-, ha, -⟩⟩ := h.minted
      · exact (h.inline hroot hs ho).1
      · rw [hm] at ha
        cases ha

theorem Lineage.boundary_error {e}
    (he : persistBoundary g rt (some th) pa sp b d = (d', .error e)) :
    ParentsStored be d'.store th := by
  obtain ⟨k, -, -, ⟨hS, -⟩ | ⟨⟨e', hl⟩, ha, ht, -⟩⟩ := h.minted
  · have hs := persistBoundary_stored g rt th pa sp b d
    rw [he] at hs
    exact h.parents.stored (h.parent_stored hroot hS) hs
  · -- after a lost write the terminal boundary is given up, and others go to the background
    unfold persistBoundary at he
    split at he
    · rw [AsyncCheckpointWrites.drain, hl] at he
      cases he
      exact h.parents
    · simp only [ha] at he
      unfold persistCheckpointNonblocking at he
      simp only [ht, if_true] at he
      split at he <;> cases he

end

/-! ## Steps and runs -/

structure DurableAt (g : CompiledGraph S U V) (rt : Runtime S U V)
    (thread : ThreadId) (before : CheckpointStore S V) (root : Option CheckpointId)
    (l : Loop S V) : Prop where
  lineage : Lineage g rt thread before root l.parentCheckpoint l.persistence
  idle : l.active = [] → l.persistence.writes.Settled

structure DurableEnd (rt : Runtime S U V) (thread : ThreadId)
    (before : CheckpointStore S V) (r : RunResult S V) : Prop where
  lineage : ParentsStored before r.store thread
  complete : ∀ e, r.result = .ok e → storedIds r.store thread =
    storedIds before thread ++ (List.range r.minted).map rt.checkpointId

section Run

variable {l : Loop S V} (h : DurableAt g rt th be ro l)
  (hroot : ∀ id ∈ ro, id ∈ storedIds be th)

include h

theorem DurableAt.abort (e) : DurableEnd rt th be (l.abort e) :=
  ⟨h.lineage.parents, fun _ ho => by cases ho⟩

theorem DurableAt.completed (ha : l.active = []) : DurableEnd rt th be (finishCompleted rt l) :=
  ⟨h.lineage.parents, fun _ _ => h.lineage.ids (h.idle ha)⟩

include hroot

theorem DurableAt.next {m} (hm : superStep g rt (some th) l = .next m) :
    DurableAt g rt th be ro m := by
  obtain ⟨en, p, state, hr, -, -, hb⟩ := superStep_next hm
  obtain ⟨next, barriers, writes, d, id, -, ht, hd, rfl⟩ := loopBoundary_next hb
  obtain ⟨vi, rfl, -⟩ := enterStep_ok hr.enter
  obtain ⟨hl, hi⟩ := (h.lineage.takeFailure ht).boundary hroot hd
  exact ⟨hl, hi⟩

theorem DurableAt.interrupt (run : StepRun U V) :
    DurableEnd rt th be (finishInterrupt g rt (some th) l run) := by
  unfold finishInterrupt
  split
  · exact h.abort _
  · split
    · exact h.abort _
    · rename_i bo _
      split
      · exact h.abort _
      · rename_i writes hr
        have he := h.lineage.settled_of_drain hr
        have hl := h.lineage.settle he (drained _ _ hr)
        simp only
        split
        · rename_i d e hd
          have hs := persistCheckpoint_stored g rt th l.parentCheckpoint l.steps bo
            { l.persistence with writes }
          rw [hd] at hs
          exact ⟨hl.parents.stored (hl.parent_stored hroot (drained _ _ hr)) hs,
            fun _ ho => by cases ho⟩
        · rename_i d id hd
          obtain ⟨hn, hw⟩ := hl.inline hroot (drained _ _ hr) hd
          exact ⟨hn.parents, fun _ _ => hn.ids (by rw [hw]; exact drained _ _ hr)⟩

theorem DurableAt.failure {run fa} (hs : ∀ i < l.persistence.minted, rt.put i = none) :
    DurableEnd rt th be (finishFailure g rt (some th) l run fa) := by
  have he : l.persistence.writes.Settled := by
    refine h.lineage.lost_or_settled.resolve_right fun ⟨_, i, hi, hp⟩ => hp (hs i hi)
  unfold finishFailure
  split
  · exact h.abort _
  · rename_i bo _
    have hl := h.lineage.settle he (drained l.persistence.writes l.persistence.writes.drain.2 rfl)
    have ht := persistCheckpoint_stored g rt th l.parentCheckpoint l.steps bo
      { l.persistence with writes := l.persistence.writes.drain.2 }
    refine ⟨?_, fun _ ho => by cases ho⟩
    exact hl.parents.stored (hl.parent_stored hroot (drained l.persistence.writes _ rfl)) ht

theorem DurableAt.done (hS : FailsSafely g rt th l) {r}
    (hr : superStep g rt (some th) l = .done r) : DurableEnd rt th be r := by
  rcases superStep_cases g rt (some th) l with
    ⟨e, he⟩ | ⟨entered, p, state, hn, ⟨f, hf, hs⟩ | ⟨hf, hi, hs⟩ | ⟨hf, hi, hs⟩⟩
  · rw [he] at hr; cases hr
    exact h.abort e
  all_goals
    have hS' := hS entered p state hn
    obtain ⟨vi, rfl, -⟩ := enterStep_ok hn.enter
    have ha : DurableAt g rt th be ro (Loop.ran { l with
        nodeVisits := vi, steps := l.steps + 1, active := assignTaskIds (l.steps + 1) l.active }
        state p) := ⟨h.lineage, fun hc => h.idle (by simpa [Loop.ran, assignTaskIds] using hc)⟩
    rw [hs] at hr
  · cases hr
    exact ha.failure hroot (hS' (by rw [hf]; exact Option.some_ne_none f))
  · cases hr
    exact ha.interrupt hroot _
  · simp only [loopBoundary] at hr
    split at hr
    · cases hr; exact ha.abort _
    · split at hr
      · cases hr; exact ha.abort _
      · rename_i writes ht
        simp only [Loop.advance] at hr
        split at hr
        · rename_i d e hd
          cases hr
          exact ⟨(ha.lineage.takeFailure ht).boundary_error hroot hd, fun _ ho => by cases ho⟩
        · cases hr

theorem DurableAt.runLoop {bu}
    (hs : ∀ m ∈ l :: boundaries g rt (some th) bu l, FailsSafely g rt th m) :
    DurableEnd rt th be (Graph.runLoop g rt (some th) bu l) := by
  induction bu generalizing l with
  | zero =>
    rw [Graph.runLoop]
    split_ifs with ha
    · exact h.completed ha
    · exact h.abort _
  | succ bu ih =>
    rw [Graph.runLoop]
    split_ifs with ha
    · exact h.completed ha
    · rw [boundaries, if_neg ha] at hs
      split
      · exact h.done hroot (hs l mem_cons_self) ‹_›
      · rename_i m hm
        rw [hm] at hs
        exact ih (h.next hroot hm) fun m' hm' => hs m' (mem_cons_of_mem _ hm')

end Run

theorem Begins.durableAt {st} (h : Begins store th st) :
    DurableAt g rt th store st.parentCheckpoint st ∧
      ∀ id ∈ st.parentCheckpoint, id ∈ storedIds store th := by
  have hn : ∀ {l : Loop S V}, l.persistence = { store } →
      DurableAt g rt th store l.parentCheckpoint l := by
    intro l hl
    refine ⟨⟨⟨0, zero_le _, ?_, .inl ⟨.inl ?_, ?_⟩⟩, .inl ⟨?_, rfl⟩, ?_⟩, fun _ => .inl ?_⟩ <;>
      rw [hl]
    · exact (append_nil _).symm
    · exact fun c hc => .inl hc
  cases h with
  | fresh sta ac => exact ⟨hn rfl, fun id hi => by cases hi⟩
  | resume c re va hc =>
    refine ⟨hn rfl, fun id hi => ?_⟩
    cases hi
    exact mem_map_of_mem hc

/-- Whatever writes fail, a run persists a prefix of what it mints, never a record without its parent,
and everything if it is reported as done, as long as no step fails after a write has been lost. -/
theorem run_durable (g : CompiledGraph S U V) (rt : Runtime S U V)
    {store : CheckpointStore S V} {thread : ThreadId} {start : Loop S V}
    (hbegins : Begins store thread start)
    (hsafe : ∀ m ∈ start :: boundaries g rt (some thread) (stepLimit g) start,
      FailsSafely g rt thread m) : RunDurable g rt thread store start := by
  obtain ⟨hstart, hroot⟩ : DurableAt g rt thread store start.parentCheckpoint start ∧ _ :=
    hbegins.durableAt
  have hend : DurableEnd rt thread store (executeRun g rt (some thread) start) := by
    unfold executeRun
    split_ifs
    · exact hstart.abort _
    · exact hstart.runLoop hroot hsafe
  refine ⟨fun m hm => ?_, hend.lineage, hend.complete⟩
  have hat : DurableAt g rt thread store start.parentCheckpoint m := by
    rcases mem_cons.mp hm with rfl | hm
    · exact hstart
    · exact boundaries_ind (fun l m hl => hl.next hroot) hstart m hm
  obtain ⟨k, hk, hids, -⟩ := hat.lineage.minted
  exact ⟨k, hk, hids⟩

def twoSteps : CompiledGraph Unit Unit Unit where
  entry := "first"
  nodes := {"first", "second"}
  edges := HashMap.collect [("first", "second")]
  reducer _ _ := .ok ()
  durability := .async

def failingSecond (lost : Nat → Option GraphError) : Runtime Unit Unit Unit where
  handler node _ _ _ := if node = "second" then .error .cancelled else .ok (.update ())
  put := lost
  finished _ := false

def twoStepsStart : Loop Unit Unit := freshLoop {} () [{ node := "first" }]

theorem twoSteps_durable : RunDurable twoSteps (failingSecond fun _ => none) "t" {} twoStepsStart :=
  run_durable twoSteps (failingSecond fun _ => none) (.fresh () _) fun _ _ _ _ _ _ _ _ _ => rfl

/-- The write of the first checkpoint is lost, yet the checkpoint of the failure names it as parent. -/
theorem twoSteps_dangling : ¬ RunDurable twoSteps
    (failingSecond fun n => if n = 0 then some (.checkpoint "disk full") else none) "t" {}
    twoStepsStart := by
  intro h
  have hrecords : ((executeRun twoSteps
      (failingSecond fun n => if n = 0 then some (.checkpoint "disk full") else none) (some "t")
      twoStepsStart).store.getThread "t").map (fun c => (c.checkpointId, c.parentCheckpointId)) =
    [("1", some "0")] := by decide
  obtain ⟨c, hc, hids⟩ := map_eq_singleton_iff.mp hrecords
  obtain ⟨hid, hparentId⟩ := Prod.mk.inj hids
  rcases h.lineage c (by rw [hc]; exact mem_singleton.mpr rfl) with hold | hparent
  · exact absurd hold not_mem_nil
  · have hmem := hparent "0" hparentId
    rw [storedIds, hc, map_singleton, mem_singleton, hid] at hmem
    exact absurd hmem (by decide)

end Tinyflows.Graph
