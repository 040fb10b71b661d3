import Tinyflows.Graph.Lemmas.TaskIds
import Tinyflows.Graph.Lemmas.Resume

/-!
# What a chain of runs keeps
-/

namespace Tinyflows.Graph
open Lib List

variable {S U V : Type} {g : CompiledGraph S U V}
  {rt : Runtime S U V} {th : ThreadId}

/-! ## The store -/

structure StoreSound (g : CompiledGraph S U V) (thread : ThreadId)
    (store : CheckpointStore S V) : Prop where
  apart : ∀ c ∈ store.getThread thread, KeepsApart (pendingOf c)
  separated : ∀ c ∈ store.getThread thread, Separated c
  unique : ((store.getThread thread).map (·.checkpointId)).Nodup
  ledger : ∀ id, ∀ w ∈ (store.writes.lookup (thread, g.ns, id)).getD [],
    ∃ c ∈ store.getThread thread, c.checkpointId = id ∧ w ∈ c.pendingWrites

theorem mem_mergeWrites {es ic} {w : PendingWrite V}
    (h : w ∈ CheckpointStore.mergeWrites es ic) : w ∈ es ∨ w ∈ ic := by
  induction ic generalizing es with
  | nil => exact .inl h
  | cons x re ih =>
    rw [CheckpointStore.mergeWrites, foldl_cons] at h
    rcases ih h with h | h
    · unfold CheckpointStore.mergeWrite at h
      split at h
      · split at h
        · rcases mem_or_eq_of_mem_set h with h | rfl
          · exact .inl h
          · exact .inr mem_cons_self
        · exact .inl h
      · rcases mem_append.mp h with h | h
        · exact .inl h
        · exact .inr (mem_singleton.mp h ▸ mem_cons_self)
    · exact .inr (mem_cons_of_mem _ h)

variable {c : Checkpoint S V} {sr : CheckpointStore S V} {b : Boundary S V}
  {d : Persistence S V} {mi step : Nat} {pa : Option CheckpointId}
  {ac : List (Activation V)} {l : Loop S V} {inp : List (GraphInput V)}

theorem StoreSound.put (h : StoreSound g th sr) (ht : c.threadId = th)
    (ha : KeepsApart (pendingOf c)) (hs : Separated c)
    (hi : ∀ x ∈ sr.getThread th, x.checkpointId ≠ c.checkpointId) : StoreSound g th (sr.put c) := by
  have hg : (sr.put c).getThread th = sr.getThread th ++ [c] := by
    rw [getThread_put, if_pos ht.symm]
  refine ⟨?_, ?_, ?_, ?_⟩
  · rw [hg, forall_mem_append]
    exact ⟨h.apart, by simpa using ha⟩
  · rw [hg, forall_mem_append]
    exact ⟨h.separated, by simpa using hs⟩
  · rw [hg, map_append, nodup_append]
    refine ⟨h.unique, by simp, ?_⟩
    rintro x hx y hy rfl
    obtain ⟨z, hz, rfl⟩ := mem_map.mp hx
    exact hi z hz (by simpa using hy)
  · intro id w hw
    obtain ⟨x, hx, hi', hw'⟩ := h.ledger id w hw
    exact ⟨x, by rw [hg]; exact mem_append_left _ hx, hi', hw'⟩

theorem StoreSound.putWrites (h : StoreSound g th sr) (hc : c ∈ sr.getThread th) :
    StoreSound g th (sr.putWrites th g.ns c.checkpointId c.pendingWrites) := by
  refine ⟨?_, ?_, ?_, ?_⟩ <;> simp only [getThread_putWrites]
  · exact h.apart
  · exact h.separated
  · exact h.unique
  · intro id w hw
    unfold CheckpointStore.putWrites at hw
    split_ifs at hw
    · exact h.ledger id w hw
    · by_cases hi : id = c.checkpointId
      · subst hi
        rw [Finmap.lookup_insert, Option.getD_some] at hw
        rcases mem_mergeWrites hw with hw | hw
        · exact h.ledger _ w hw
        · exact ⟨c, hc, rfl, hw⟩
      · rw [Finmap.lookup_insert_of_ne _ (by simp [hi])] at hw
        exact h.ledger id w hw

theorem mem_pendingIds {a} (ha : a ∈ pendingOf c) (hn : a.taskId ≠ "") :
    a.taskId ∈ pendingIds c := by
  unfold pendingOf at ha
  split at ha
  · rename_i p pending hp
    obtain ⟨x, hx, rfl⟩ := mem_map.mp ha
    rw [pendingIds, hp, mem_filter]
    exact ⟨mem_map.mpr ⟨x, hx, rfl⟩, by simpa using hn⟩
  · obtain ⟨n, -, rfl⟩ := mem_map.mp ha
    exact absurd rfl hn

theorem StoreSound.resumeActive (h : StoreSound g th sr) (hc : c ∈ sr.getThread th) :
    resumeActive c (sr.getWrites
      { threadId := th, checkpointId := some c.checkpointId, ns := g.ns }) = pendingOf c := by
  have hd : ∀ id ∈ doneTasks c (sr.getWrites
      { threadId := th, checkpointId := some c.checkpointId, ns := g.ns }),
      ∃ w ∈ c.pendingWrites, w.taskId = id := by
    intro id hi
    rw [doneTasks, mem_toFinset] at hi
    obtain ⟨w, hw, rfl⟩ := mem_map.mp hi
    split_ifs at hw
    · exact ⟨w, hw, rfl⟩
    · obtain ⟨x, hx, hi, hw'⟩ := h.ledger c.checkpointId w hw
      obtain rfl : x = c := inj_on_of_nodup_map h.unique hx hc hi
      exact ⟨w, hw', rfl⟩
  have hk : ∀ a ∈ pendingOf c, a.taskId = "" ∨ a.taskId ∉ doneTasks c (sr.getWrites
      { threadId := th, checkpointId := some c.checkpointId, ns := g.ns }) := by
    intro a ha
    by_cases hn : a.taskId = ""
    · exact .inl hn
    · refine .inr fun hm => ?_
      obtain ⟨w, hw, hi⟩ := hd _ hm
      exact h.separated c hc w hw (hi ▸ mem_pendingIds ha hn)
  rw [Graph.resumeActive, skipDone_self hk]

theorem pendingOf_sublist {re} : (resumeActive c re).Sublist (pendingOf c) := by
  rw [resumeActive, skipDone]
  split_ifs
  · exact List.Sublist.refl _
  · exact filter_sublist

theorem StoreSound.stored (h : StoreSound g th sr) (hb : b.Sound)
    (hi : ∀ x ∈ sr.getThread th, x.checkpointId ≠ rt.checkpointId mi)
    (hd : Stored g rt th pa step b sr mi d) : StoreSound g th d.store := by
  have hap : KeepsApart (pendingOf (buildCheckpoint g rt th (rt.checkpointId mi) pa step b)) := by
    by_cases hp : b.pending = []
    · simp [pendingOf, buildCheckpoint, hp, KeepsApart, activationNodes]
    · rw [pendingOf_buildCheckpoint _ _ _ _ _ hp]
      exact hb.apart
  have he : Separated (buildCheckpoint g rt th (rt.checkpointId mi) pa step b) := by
    intro w hw hm
    obtain ⟨a, ha, rfl⟩ := mem_map.mp hw
    obtain ⟨hm, hn⟩ := mem_filter.mp hm
    obtain ⟨p, hp, hi⟩ := mem_map.mp hm
    obtain ⟨x, hx, rfl⟩ := mem_map.mp hp
    have hn' : a.taskId ≠ "" := of_decide_eq_true hn
    exact hb.separated a ha x hx (by rw [show x.taskId = a.taskId from hi]; exact hn') hi.symm
  have hu := h.put (c := buildCheckpoint g rt th (rt.checkpointId mi) pa step b)
    rfl hap he hi
  cases hd with
  | lost hs => exact hs ▸ h
  | record _ hs => exact hs ▸ hu
  | marked _ hs =>
    rw [hs]
    exact hu.putWrites (c := buildCheckpoint g rt th (rt.checkpointId mi) pa step b)
      (mem_getThread_put _ _)

/-! ## One run -/

structure RunSound (g : CompiledGraph S U V) (rt : Runtime S U V)
    (thread : ThreadId) (l : Loop S V) : Prop where
  store : StoreSound g thread l.persistence.store
  unminted : ∀ n, l.persistence.minted ≤ n →
    ∀ c ∈ l.persistence.store.getThread thread, c.checkpointId ≠ rt.checkpointId n
  apart : KeepsApart l.active
  unused : MintsUnused (l.steps + 1) l.active

theorem stored_unminted (hi : Function.Injective rt.checkpointId)
    (h : ∀ n, mi ≤ n → ∀ c ∈ sr.getThread th, c.checkpointId ≠ rt.checkpointId n)
    (hd : Stored g rt th pa step b sr mi d) :
    ∀ n, d.minted ≤ n → ∀ c ∈ d.store.getThread th, c.checkpointId ≠ rt.checkpointId n := by
  have hp : ∀ n, mi + 1 ≤ n → ∀ c ∈ (sr.put (buildCheckpoint g rt th
      (rt.checkpointId mi) pa step b)).getThread th,
      c.checkpointId ≠ rt.checkpointId n := by
    intro n hn c hc
    rw [getThread_put] at hc
    split_ifs at hc
    · rcases mem_append.mp hc with hc | hc
      · exact h n (by omega) c hc
      · rw [mem_singleton.mp hc]
        exact fun he => Nat.ne_of_lt hn (hi he)
    · exact h n (by omega) c hc
  intro n hn
  cases hd with
  | lost hs hm => rw [hs]; exact h n (hm.trans hn)
  | record hm hs => rw [hs]; exact hp n (hm ▸ hn)
  | marked hm hs =>
    rw [hs]
    simp only [getThread_putWrites]
    exact hp n (hm ▸ hn)

theorem mintsUnused_fresh (h : ∀ a ∈ ac, a.taskId = "") : MintsUnused step ac := by
  intro i a _ _ b hb
  rw [h b hb]
  exact (freshTaskId_ne_empty _ _ _).symm

theorem RunSound.boundary {en p st} (h : RunSound g rt th l) (hr : Ran g rt (some th) l en p st)
    (hb : ReachesBoundary g (en.ran st p) p.run b) : b.Sound := by
  obtain ⟨vi, rfl, -⟩ := enterStep_ok hr.enter
  cases hb with
  | pause hb =>
    obtain ⟨fa, hl, hf⟩ := runActive_fates hr.run
    change p.run = StepRun.ofFates fa at hf
    rw [hf] at hb
    exact pauseBoundary_sound hl (assignTaskIds_distinct h.apart h.unused) hb
  | loop nx ba _ _ ho hb =>
    subst hb
    exact Boundary.sound_fresh (routeCompleted_fresh ho)

theorem RunSound.next (hi : Function.Injective rt.checkpointId) {m}
    (h : RunSound g rt th l) (hm : superStep g rt (some th) l = .next m) : RunSound g rt th m := by
  obtain ⟨en, p, state, ha, hf, hint, hb⟩ := superStep_next hm
  obtain ⟨nx, barriers, writes, d, id, hr, -, hd, rfl⟩ := loopBoundary_next hb
  have ho := h.boundary ha (.loop nx barriers hf hint hr rfl)
  obtain ⟨vi, rfl, -⟩ := enterStep_ok ha.enter
  have hs := persistBoundary_stored g rt th l.parentCheckpoint (l.steps + 1)
    { state, pending := nx, completedTasks := assignTaskIds (l.steps + 1) l.active, barriers }
    { l.persistence with writes }
  rw [show (persistBoundary g rt (some th) l.parentCheckpoint (l.steps + 1)
    { state, pending := nx, completedTasks := assignTaskIds (l.steps + 1) l.active, barriers }
    { l.persistence with writes }).1 = d from congrArg Prod.fst hd] at hs
  exact {
    store := h.store.stored ho (h.unminted _ (Nat.le_refl _)) hs
    unminted := stored_unminted hi h.unminted hs
    apart := keepsApart_fresh (routeCompleted_fresh hr)
    unused := mintsUnused_fresh (routeCompleted_fresh hr) }

theorem RunSound.done {r} (h : RunSound g rt th l)
    (hr : superStep g rt (some th) l = .done r) : StoreSound g th r.store := by
  rcases superStep_done hr with hs | ⟨en, p, state, ha, hs | ⟨b, d, hb, hd, hs⟩⟩
  · exact hs ▸ h.store
  · obtain ⟨vi, rfl, -⟩ := enterStep_ok ha.enter
    exact hs ▸ h.store
  · have ho := h.boundary ha hb
    obtain ⟨vi, rfl, -⟩ := enterStep_ok ha.enter
    rw [hs]
    exact h.store.stored ho (h.unminted _ (Nat.le_refl _)) hd

theorem RunSound.executeRun (hi : Function.Injective rt.checkpointId) (h : RunSound g rt th l) :
    StoreSound g th (executeRun g rt (some th) l).store := by
  unfold Graph.executeRun
  split_ifs
  · exact h.store
  · exact runLoop_ind (P := RunSound g rt th) (Q := fun r => StoreSound g th r.store)
      (fun l m hl hm => hl.next hi hm) (fun l r hl hr => hl.done hr) (fun l hl _ => hl.store)
      (fun l e hl => hl.store) h

/-! ## Chains -/

theorem initialActivations_fresh (h : initialActivations g inp = .ok ac) :
    ∀ a ∈ ac, a.taskId = "" := by
  induction inp generalizing ac with
  | nil => cases h; exact fun a ha => by cases ha
  | cons ip inp ih =>
    simp only [initialActivations] at h
    split_ifs at h
    all_goals
      split at h
      · cases h
      · rename_i ac' hr
        cases h
        intro a ha
        rcases mem_cons.mp ha with rfl | ha
        · rfl
        · exact ih hr a ha

theorem initialInputs_fresh (h : initialInputs g inp = .ok ac) : ∀ a ∈ ac, a.taskId = "" := by
  unfold initialInputs at h
  split at h
  · cases h
  · cases h
  · rename_i hi
    cases h
    exact initialActivations_fresh hi

theorem getScoped_mem {id ns} (h : sr.getScoped th id ns = some c) : c ∈ sr.getThread th := by
  cases id <;> simp only [CheckpointStore.getScoped] at h <;> split at h
  all_goals first
    | exact mem_reverse.mp (mem_of_find?_eq_some h)
    | cases h

theorem StoreSound.fresh (h : StoreSound g th sr) (hi : rt.MintsFresh th sr)
    (st) (ha : ∀ a ∈ ac, a.taskId = "") :
    StoreSound g th (Graph.executeRun g rt (some th) (freshLoop sr st ac)).store :=
  RunSound.executeRun hi.1 {
    store := h
    unminted := fun n _ => hi.2 n
    apart := keepsApart_fresh ha
    unused := mintsUnused_fresh ha }

theorem StoreSound.resume (h : StoreSound g th sr) (hi : rt.MintsFresh th sr)
    {ta} (va) (hu : ResumeMintsUnused g th sr ta) :
    StoreSound g th (resumeFrom g rt sr th ta va).store := by
  unfold resumeFrom
  split_ifs
  · exact h
  · split
    · exact h
    · rename_i c hc
      split_ifs
      · exact h
      · have hm := getScoped_mem hc
        refine RunSound.executeRun hi.1 ⟨h, fun n _ => hi.2 n, ?_, ?_⟩
        · exact (h.apart c hm).sublist pendingOf_sublist
        · simp only [resumeLoop, h.resumeActive hm]
          exact hu c hc

theorem Chain.sound (h : Chain g th (NoIdReused g th) sr) : StoreSound g th sr := by
  induction h with
  | start => exact {
      apart := fun _ hc => absurd hc not_mem_nil
      separated := fun _ hc => absurd hc not_mem_nil
      unique := nodup_nil
      ledger := fun _ _ hw => absurd hw not_mem_nil }
  | step rt op _ hi ha ih =>
    cases op with
    | run st => exact ih.fresh hi st (by simp)
    | runWithInputs st inp =>
      simp only [Operation.perform, Graph.runWithInputs]
      split
      · exact ih
      · rename_i ac hn
        exact ih.fresh hi st (initialInputs_fresh hn)
    | resume ta va => exact ih.resume hi va ha
    | retry => exact ih.resume hi none ha

end Tinyflows.Graph
