import Tinyflows.Cron.Lemmas.Claims

/-!
# Completing, creating, editing, removing and importing
-/

namespace Tinyflows.Cron
open Lib Storage List

variable {M : String → RowEvent → Prop} {i : Nat} {T : Terms CronStore (Call CronDocs Event) Call.Reply}
  {A B : CronStore → Prop}

variable {ad : Bool} {cal : Calendar} {co : RunCompletion} {doc : JobDoc}
  {claim : ClaimedOccurrence} {id : String} {job : CronJob}

theorem advancedDoc_fields {doc' claim} (h : advancedDoc cal doc claim co ad = .ok doc') :
    doc'.incarnation = doc.incarnation ∧ doc'.claimEpoch = none := by
  simp only [advancedDoc, bind, Except.bind, pure, Except.pure] at h
  split at h
  · split at h
    · cases h
    · cases h
      exact ⟨rfl, rfl⟩
  · cases h
    exact ⟨rfl, rfl⟩

theorem known_finished (job token) : Known i fun s => Finished i s.log job token :=
  known_of_grown fun hl _ h => by
    obtain ⟨claim, run, hm, ht⟩ := h
    exact ⟨claim, run, hl.subset hm, ht⟩

section

variable (hT : Under M i T)
include hT

theorem ensures_endLease (claim fa dr) {E} :
    Ensures T (fun s => Idle i s ∧ Finished i s.log claim.job.id claim.lease.token)
      (endLease claim fa dr) (fun s _ => Idle i s) E := by
  have hk := known_idle.and (known_finished (i := i) claim.job.id claim.lease.token)
  rw [endLease]
  split
  · exact (ensures_logged (ensures_compactLease hT hk _ _ fun _ h => h.2)).weaken (fun _ _ h => h)
      (fun _ _ _ h => h.1) fun _ h => h
  · exact (ensures_logged (ensures_releaseLease hT hk _ _ _ fun _ h => .settled h.2)).weaken
      (fun _ _ h => h) (fun _ _ _ h => h.1) fun _ h => h

theorem ensures_completeClaim {ma}
    (hM : ∀ run, M claim.job.id (.completed claim.lease run)) :
    Idles T i (completeClaim cal ma claim co ad) := by
  rw [completeClaim]
  split
  · exact idles_throw _
  refine idles_loop rfl (fun lf ih => ensures_owned hT fun stored => ?_) _
  have hk := known_carried (i := i) claim.job.id stored.doc claim.lease
  refine ((ensures_ofExcept _).weaken (fun _ _ h => h) (fun _ _ _ h => h) fun _ h => h.1).bind
    fun doc => ?_
  intro s hs ⟨hAs, hd⟩
  obtain ⟨hi, he⟩ := advancedDoc_fields hd
  refine Ensures.bind ((ensures_nextRunNumber hT (known_idle.and hk)).weaken (fun _ _ h => h)
      (fun _ _ _ h => h) fun _ h => h.1) (fun seq => ?_) s hs hAs
  dsimp only
  refine (ensures_commit_conflict hT (hM _) hk (fun s _ h => .completed h rfl rfl hi he) ?_).bind ?_
  · intro op ho
    rcases mem_cons.mp ho with rfl | ho
    · rfl
    · exact runWrite_cleanup _ _ op ho
  · rintro (_ | _)
    · exact ih.pre fun _ _ h => h.1
    · refine ((ensures_endLease hT claim _ _).pre fun _ _ h => ⟨h.1, _, _, h.2 rfl, rfl⟩).bind
        fun _ => ?_
      exact (ensures_logged (ensures_pruneRuns hT known_idle _ _ _)).bind fun _ => idles_pure _

theorem ensures_removeStored (hM : M id .removed) :
    Idles T i (removeStored id doc) := by
  refine ((ensures_commit_conflict hT hM known_true (fun _ _ _ => .removed) (by simp)).pre
    fun _ _ h => ⟨h, trivial⟩).bind ?_
  rintro (_ | _)
  · exact .pure fun _ _ h => h.1
  · have hk := known_idle.and (known_mem (i := i) (i, Event.row id .removed))
    refine (((ensures_fenceClaims hT hk doc fun _ h => ⟨.removed, .inr rfl, h.2⟩).weaken
      (fun _ _ h => ⟨h.1, h.2 rfl⟩) (fun _ _ _ h => h.1) fun _ h => h.1)).bind fun _ => ?_
    exact (ensures_deleteRunsOf hT known_idle id doc).bind fun _ => idles_pure _

theorem ensures_removeJob (hM : M id .removed) : Idles T i (removeJob id) := by
  refine idles_loop rfl (fun lf ih => idles_read hT fun fn => ?_) _
  cases fn with
  | none => exact idles_throw _
  | some st =>
    refine (ensures_removeStored hT hM).bind fun re => ?_
    cases re with
    | true => exact idles_pure _
    | false => exact ih

theorem ensures_removeUnchanged {st} (hM : M id .removed) :
    Idles T i (removeUnchanged id st) := by
  refine idles_read hT fun fo => ?_
  cases fo with
  | none => exact idles_pure _
  | some cu =>
    dsimp only
    split
    · exact idles_pure _
    · exact ensures_removeStored hT hM

theorem ensures_removeCompletedClaim (hM : M claim.job.id .removed) :
    Idles T i (removeCompletedClaim claim) := by
  refine idles_loop rfl (fun lf ih => idles_read hT fun fn => ?_) _
  cases fn with
  | none => exact idles_pure _
  | some st =>
    dsimp only
    split
    · refine (ensures_removeUnchanged hT hM).bind fun re => ?_
      cases re with
      | true => exact idles_pure _
      | false => exact ih
    · exact idles_pure _

/-! ## Creation and edits -/

theorem ensures_getJob (id) : Idles T i (getJob id) := by
  refine idles_read hT fun fo => ?_
  cases fo with
  | none => exact idles_throw _
  | some st => exact idles_pure _

theorem ensures_create {ic ag}
    (hM : M job.id (.created ic)) (ha : Idles T i ag) : Idles T i (do
        match ← (commitJob job.id none (some (newJobDoc job ic)) [] (.created ic)).unlessConflict with
        | some () => getJob job.id
        | none => ag) := by
  refine ((ensures_commit_conflict hT hM known_true (fun _ _ _ => .created rfl rfl) (by simp)).pre
    fun _ _ h => ⟨h, trivial⟩).bind ?_
  rintro (_ | _)
  · exact ha.pre fun _ _ h => h.1
  · exact (ensures_getJob hT job.id).pre fun _ _ h => h.1

theorem ensures_insertJob (hM : ∀ ic, M job.id (.created ic)) :
    Idles T i (insertJob job) :=
  idles_uuid hT fun ic => idles_loop rfl (fun _ => ensures_create hT (hM ic)) _

theorem ensures_addFlowScheduleJob {fi}
    (hM : ∀ ic, M (flowJobId fi) (.created ic)) : Idles T i (addFlowScheduleJob fi job) := by
  refine idles_uuid hT fun ic =>
    idles_loop rfl (fun lf ih => idles_read hT fun fn => ?_) _
  cases fn with
  | some es => exact idles_pure _
  | none => exact ensures_create hT (hM ic) ih

theorem ensures_updateJob {pa cl}
    (hM : M id .edited) : Idles T i (updateJob cal id pa cl) := by
  refine idles_loop rfl (fun lf ih => idles_read hT fun fn => ?_) _
  cases fn with
  | none => exact idles_throw _
  | some st =>
    refine idles_ofExcept fun job => ?_
    have hf : ∀ s, RowEvent.edited.Fits i s id (some st.doc)
        (some (updatedJobDoc job st.doc)) := fun _ => .edited rfl rfl
    refine ((ensures_commit_conflict hT hM known_true (fun s _ _ => hf s)
      (runWrite_cleanup _ _)).pre fun _ _ h => ⟨h, trivial⟩).bind ?_
    rintro (_ | _)
    · exact ih.pre fun _ _ h => h.1
    · have hk := known_idle.and (known_mem (i := i) (i, Event.row id .edited))
      exact (((ensures_fenceClaims hT hk _ fun _ h => ⟨.edited, .inl rfl, h.2⟩).weaken
        (fun _ _ h => ⟨h.1, h.2 rfl⟩) (fun _ _ _ h => h.1) fun _ h => h.1)).bind fun _ => idles_pure _

theorem ensures_setMaxActiveJobs (li) : Idles T i (setMaxActiveJobs li) := by
  refine idles_loop rfl (fun lf ih => (ensures_admission hT known_idle).bind fun ledger => ?_) _
  let F := fun s : CronStore => s.ledger = some ledger
  refine Ensures.bind ((ensures_rows hT (known_idle.stable.and (Seen.stable (F := F)))).weaken
    (fun s hs h => ⟨h.1, .now (hT.inv hs) h.2.1⟩) (fun _ _ _ h => h) fun _ h => h.1) fun rows => ?_
  dsimp only
  split
  · next hc =>
      let G := fun s : CronStore => rows = jobRows s ∧ Seen i F s
      refine Ensures.bind (Q := fun s _ => Idle i s) ((ensures_unlessConflict (ensures_write
        (B := Idle i) hT (known_idle.stable.and (Seen.stable (F := G))) ?_)).weaken
        (fun s hs h => ⟨h.1.1, .now (hT.inv hs) ⟨h.2, h.1.2⟩⟩) ?_ fun _ h => h.1) ?_
      · rintro u hu ⟨hil, t, ht, ⟨rfl, s, hs, hl, hS⟩, htu⟩ ha he
        obtain ⟨ho, hv⟩ := all_admitted_append ha
        have hv' : (Precondition.version ledger.version).holds u.ledger = true := hv
        -- The ledger's version did not change from `s` to `u`, so it did not up to `t` either.
        obtain ⟨hr, hsa⟩ := (hS.trans htu).of_ledger hl hv'
        have hb := hS.of_ledger_between htu hl hr
        refine ⟨relists ht hu htu (fun id hi => ?_) hc ho he, known_idle.kept hil⟩
        rw [hsa id hi, hb id (by rwa [CronStore.listed, hr] at hi)]
      · rintro s (_ | _) _ h
        · exact h.1
        · exact h
      · rintro (_ | _)
        · exact ih
        · exact idles_pure _
  · exact .throw fun _ _ h => h.1.1

end

/-! ## Imports -/

def Importing (i : Nat) (id : String) (doc : JobDoc) (s : CronStore) : Prop :=
  importOf i s.log = some (id, doc)

theorem known_importing (id doc) : Known i (Importing i id doc) :=
  known_importOf (some (id, doc))

section

variable (hT : Under M i T) (hI : UnderImport i T)
include hT hI

theorem ensures_importWrite (hA : Stable i A) {ops nt}
    (hw : ∀ t, Inv t → A t → ops.all (·.admitted t.docs) = true →
      ImportChange i t (t.commit i ops nt) ∧ B (t.commit i ops nt)) :
    Ensures T A (Access.write ops nt) (fun s _ => B s) A := by
  intro s hs hAs
  refine meets_write hT.onDocuments (fun t e ht hr _ => ?_) fun t ht hr ho he => ?_
  · exact hA s t (hT.inv ht) (hT.rely hr) hAs
  · obtain ⟨hc, hB⟩ := hw t (hT.inv ht) (hA s t (hT.inv ht) (hT.rely hr) hAs) ho
    exact ⟨hI.allows hc, hI.keeps ht he hc, hB⟩

theorem ensures_enrolLoop (lf) :
    Ensures T (Importing i id doc) (enrolLoop id doc lf) (fun s _ => Idle i s)
      (Importing i id doc) := by
  have hk := known_importing (i := i) id doc
  induction lf with
  | zero => exact .throw fun _ _ h => h
  | succ lf ih =>
    refine (ensures_admission hT hk).bind fun ld => ?_
    dsimp only
    split
    · next hc =>
        let F := fun s : CronStore => s.ledger = some ld
        refine Ensures.bind ((ensures_unlessConflict (ensures_importWrite (B := Idle i) hT hI
          (hk.stable.and (Seen.stable (F := F))) ?_)).weaken
          (fun s hs h => ⟨h.1, .now (hT.inv hs) h.2.1⟩) (fun _ _ _ h => h) fun _ h => h.1) ?_
        · rintro t ht ⟨hi, s, hs, hl, hr⟩ ha
          have hv : (Precondition.version ld.version).holds t.ledger = true := by
            rw [all_cons, all_nil, Bool.and_true] at ha
            exact ha
          refine ⟨.enrolled hi (hr.of_ledger hl hv).1 hc, ?_⟩
          exact importOf_append_self
        · rintro (_ | _)
          · exact ih.pre fun _ _ h => h.1
          · exact .pure fun _ _ h => h
    · exact .throw fun _ _ h => h.1

theorem ensures_takeBack : Ensures T (Importing i id doc)
      (Access.write [.delete (.job id) .any] (some (.imported id .takenBack))).logged
      (fun s _ => Idle i s) (Idle i) := by
  refine ensures_logged (B := Idle i) fun s hs hi => ?_
  have hS := (known_importing (i := i) id doc).stable
  refine meets_write hT.onDocuments (fun t e ht hr he => ?_) fun t ht hr ho he => ?_
  · cases (hI.takesBack he).1
  · have hc : ImportChange i t (t.commit i [.delete (.job id) .any] (some (.imported id .takenBack))) :=
      .takenBack (hS s t (hT.inv ht) (hT.rely hr) hi) (hI.takesBack he).2
    exact ⟨hI.allows hc, hI.keeps ht he hc, importOf_append_self⟩

theorem ensures_insertWithCreated (he : doc.claimEpoch = none) :
    Idles T i (insertWithCreated id doc) := by
  refine Ensures.bind (Q := fun s _ => Importing i id doc s)
    (ensures_importWrite hT hI known_idle.stable fun t ht hi ha => ?_) fun _ => ?_
  · have hn : t.row id = none := by
      rw [all_cons, all_nil, Bool.and_true] at ha
      exact Option.isNone_iff_eq_none.mp ha
    exact ⟨.written hn he hi, importOf_append_self⟩
  · refine (ensures_outcome (ensures_enrolLoop hT hI CAS_ATTEMPTS)).bind ?_
    rintro (e | _)
    · exact (ensures_takeBack hT hI).bind fun _ => .throw fun _ _ h => h
    · exact .pure fun _ _ h => h

theorem ensures_importJob (job) : Idles T i (importJob job) := by
  refine idles_uuid hT fun ic =>
    idles_loop rfl (fun lf ih => idles_read hT fun fn => ?_) _
  cases fn with
  | some st => exact idles_pure _
  | none =>
    refine (ensures_unlessConflict (ensures_insertWithCreated hT hI rfl)).bind ?_
    rintro (_ | _)
    · exact ih
    · exact idles_pure _

end

theorem ensures_map {α β x} {f : α → β} (h : Idles T i x) : Idles T i (do return f (← x)) :=
  h.bind fun _ => idles_pure _

theorem ensures_jobAccess {op} (hT : Under M i T) (hM : ∀ {id ev}, op.Makes id ev → M id ev)
    (cfg : CronConfig) : Idles T i (jobAccess cfg op) := by
  cases op with
  | create job => exact ensures_map (ensures_insertJob hT fun _ => hM .create)
  | register fi job => exact ensures_map (ensures_addFlowScheduleJob hT fun _ => hM .register)
  | update id pa cl => exact ensures_map (ensures_updateJob hT (hM .update))
  | remove id => exact ensures_map (ensures_removeJob hT (hM .remove))
  | claim re => exact ensures_map (ensures_claimOccurrence hT fun _ => hM .claim)
  | queue claim qa iv => exact ensures_map (ensures_queueClaimedRun hT fun _ => hM .queue)
  | renew claim now dm => exact ensures_map (ensures_renewClaim hT)
  | release claim now => exact ensures_map (ensures_releaseClaim hT (hM .release))
  | complete claim co ad =>
    exact ensures_map (ensures_completeClaim hT fun _ => hM .complete)
  | removeCompleted claim => exact ensures_map (ensures_removeCompletedClaim hT (hM .removeCompleted))

theorem ensures_cronAccess (hT : Under (fun _ _ => True) i T) (hI : UnderImport i T) (cfg : CronConfig)
    (op) : Idles T i (cronAccess cfg op) := by
  cases op with
  | job op => exact ensures_jobAccess hT (fun _ => trivial) cfg
  | setMaxActiveJobs li => exact ensures_map (ensures_setMaxActiveJobs hT li)
  | importJob job => exact ensures_map (ensures_importJob hT hI job)

theorem Ensures.meets {α} {x : Access α} (h : Idles T i x) {s} (hs : T.inv s) (hi : Idle i s) :
    Program.Meets T (fun t _ => Idle i t) x.run s := by
  refine (h s hs hi).mono hs ?_
  rintro (e | a) t _ ht
  · exact ht
  · exact ht

end Tinyflows.Cron
