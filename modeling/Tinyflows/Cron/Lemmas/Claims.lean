import Tinyflows.Cron.Lemmas.Leases

/-!
# Acquiring, queueing, renewing and releasing
-/

namespace Tinyflows.Cron
open Lib Storage Option

variable {M : String → RowEvent → Prop} {i : Nat} {T : Terms CronStore (Call CronDocs Event) Call.Reply}
  {A B : CronStore → Prop}

def Idle (i : Nat) (s : CronStore) : Prop :=
  importOf i s.log = none

theorem known_idle : Known i (Idle i) :=
  known_importOf none

abbrev Idles (T : Terms CronStore (Call CronDocs Event) Call.Reply) (i : Nat) {α : Type} (x : Access α) :
    Prop :=
  Ensures T (Idle i) x (fun s _ => Idle i s) (Idle i)

section Rules

variable {α : Type}

theorem idles_pure (a : α) : Idles T i (pure a) :=
  .pure fun _ _ h => h

theorem idles_throw (e) : Idles T i (throw e : Access α) :=
  .throw fun _ _ h => h

theorem idles_read (hT : Under M i T) {k} {f : Option (Versioned (CronDocs k)) → Access α}
    (h : ∀ fo, Idles T i (f fo)) : Idles T i (Access.read k >>= f) :=
  (ensures_read hT known_idle.stable k).bind fun fo => (h fo).pre fun _ _ hs => hs.1

theorem idles_ofExcept {β r} {f : β → Access α} (h : ∀ b, Idles T i (f b)) :
    Idles T i (Access.ofExcept r >>= f) :=
  (ensures_ofExcept r).bind fun b => (h b).pre fun _ _ hs => hs.1

theorem idles_uuid (hT : Under M i T) {f : String → Access α} (h : ∀ tk, Idles T i (f tk)) :
    Idles T i (Access.uuid >>= f) :=
  (ensures_uuid hT known_idle).bind fun tk => (h tk).pre fun _ _ hs => hs.1

theorem idles_loop {lo : Nat → Access α} {e} (hz : lo 0 = throw e)
    (hs : ∀ lf, Idles T i (lo lf) → Idles T i (lo (lf + 1))) (lf) : Idles T i (lo lf) := by
  induction lf with
  | zero =>
    rw [hz]
    exact idles_throw e
  | succ lf ih => exact hs lf ih

end Rules

variable {ev : RowEvent} {id : String} {s : CronStore} {nx pr : Option JobDoc}
  {ru : List (WriteOp CronDocs)} {re : ClaimRequest} {cl : ClaimedOccurrence} {now : Int}

theorem Idle.row {t} (h : Idle i s) (hl : t.log = s.log ++ [(i, .row id ev)]) : Idle i t := by
  rw [Idle, hl, importOf_append_offImport (offImport_row _ _)]
  exact h

theorem runWrite_cleanup (ev doc) : ∀ op ∈ queuedRunCleanup doc, RunWrite ev op := by
  intro op ho
  rw [queuedRunCleanup, mem_toList, map_eq_some_iff] at ho
  obtain ⟨seq, -, rfl⟩ := ho
  trivial

section

variable (hT : Under M i T) (he : M id ev) (hA : Known i A)
  (hf : ∀ s, Inv s → A s → ev.Fits i s id pr nx) (hr : ∀ op ∈ ru, RunWrite ev op)
include hT he hA hf hr

theorem ensures_commit : Ensures T (fun s => Idle i s ∧ A s) (commitJob id pr nx ru ev)
      (fun s _ => Idle i s ∧ (i, Event.row id ev) ∈ s.log) (fun s => Idle i s ∧ A s) := by
  refine ensures_commitJob hT (known_idle.and hA) he (fun s h => h.1)
    (fun s hs h => hf s hs h.2) hr fun h hl _ => ⟨h.1.row hl, ?_⟩
  rw [hl]
  simp

theorem ensures_commit_conflict :
    Ensures T (fun s => Idle i s ∧ A s) (commitJob id pr nx ru ev).unlessConflict
      (fun s r => Idle i s ∧ (r = some () → (i, Event.row id ev) ∈ s.log)) (Idle i) := by
  refine (ensures_unlessConflict (ensures_commit hT he hA hf hr)).weaken (fun _ _ h => h) ?_
    fun _ h => h.1
  rintro s (_ | _) _ h
  · exact ⟨h.1, nofun⟩
  · exact ⟨h.1, fun _ => h.2⟩

end

/-! ## Acquisition -/

theorem ensures_incarnation (hT : Under M i T) (hA : Known i A) (doc) :
    Ensures T A (incarnationOf doc)
      (fun s ic => A s ∧ ∀ kn, doc.incarnation = some kn → ic = kn) B := by
  unfold incarnationOf
  cases hi : doc.incarnation with
  | some ic => exact .pure fun _ _ h => ⟨h, fun _ he => some.inj he⟩
  | none =>
    refine (ensures_uuid hT hA).weaken (fun _ _ h => h) (fun _ _ _ h => ⟨h.1, nofun⟩) fun _ h => h

def HasRead (i : Nat) (id : String) (doc : JobDoc) (s : CronStore) : Prop :=
  Idle i s ∧ EpochTaken id doc s.log

theorem HasRead.idle {doc} (h : HasRead i id doc s) : Idle i s :=
  h.1

theorem known_hasRead (id doc) : Known i (HasRead i id doc) :=
  known_idle.and (known_of_grown fun hl _ h => h.mono hl)

/-- What a claim on the document rests on: a token of its own, under which the lease was taken. -/
def LeaseHeld (i n : Nat) (id : String) (doc : JobDoc) (epoch : Nat) (s : CronStore) : Prop :=
  Ready i n s ∧ Took i (EpochTaken id doc) s.log id doc.nextRunMs (uuidOf n) epoch

theorem known_leaseHeld (n id doc ep) : Known i (LeaseHeld i n id doc ep) :=
  (known_ready n).and (known_of_grown fun hl _ h => h.mono hl)

theorem ensures_claimOnce (hT : Under M i T) {ea ag} (hM : ∀ cl, M re.jobId (.acquired cl))
    (ha : Idles T i ag) : Idles T i (claimOnce re ea ag) := by
  refine (ensures_read hT known_idle.stable _).bind fun fo => ?_
  cases fo with
  | none => exact .pure fun _ _ h => h.1
  | some st =>
    refine Ensures.pre (A := HasRead i re.jobId st.doc) ?_ fun s hs h =>
      ⟨h.1, (hT.inv hs).epochs _ _ (congrArg (Option.map _) h.2)⟩
    have hr := known_hasRead (i := i) re.jobId st.doc
    dsimp only
    split
    · exact .pure fun _ _ h => h.1
    · split
      · exact .pure fun _ _ h => h.1
      · refine (ensures_incarnation hT hr st.doc).bind fun ic => ?_
        intro s hs ⟨hd, hin⟩
        refine Ensures.bind (ensures_uuid hT hr) (fun tk => ?_) s hs hd
        refine Ensures.pre (A := fun s => ∃ n, tk = uuidOf n ∧ HasRead i re.jobId st.doc s ∧
          Fresh i n s) ?_ fun _ _ h => ?_
        swap
        · obtain ⟨hi, n, hn, hf⟩ := h
          exact ⟨n, hn, hi, hf⟩
        refine .exists_ fun n => ?_
        rintro s' hs' ⟨rfl, hi, hf⟩
        refine Ensures.bind ((ensures_acquireLease hT hr (fun _ h => h.2) n _ _).weaken (fun _ _ h => h)
          (fun _ _ _ h => h) fun _ => HasRead.idle) (fun ls => ?_) s' hs' ⟨hi, hf⟩
        cases ls with
        | none => exact .pure fun _ _ h => h.1
        | some ls =>
          dsimp only
          refine Ensures.bind (Q := fun s r => Idle i s ∧ (r ≠ .ok () → Ready i n s)) ?_ ?_
          · refine (@ensures_outcome _ _ _ _ _ _ (Idle i) (ensures_commit hT (hM _)
              (known_leaseHeld n re.jobId st.doc ls.epoch)
              (fun s _ hh => ?_) (runWrite_cleanup _ _))).weaken
              (fun _ _ h => ⟨h.1.1, h.2⟩) ?_ fun _ h => h
            · exact .acquired ⟨rfl, hin, ⟨n, rfl, hh.1.1⟩, hh.1.2, hh.2⟩
            · rintro s (e | _) _ h
              · exact ⟨h.1, fun _ => h.2.1⟩
              · exact ⟨h.1, fun he => absurd rfl he⟩
          · rintro (e | _)
            · refine Ensures.bind (Q := fun s _ => Idle i s) ((ensures_logged (ensures_releaseLease hT
                (known_idle.and (known_ready n)) _ _ _ fun _ h => .givenBack h.2.2)).weaken
                (fun _ _ h => ⟨h.1, h.2 nofun⟩) (fun _ _ _ h => h.1) fun _ h => h) fun _ => ?_
              split
              · exact ha
              · exact .throw fun _ _ h => h
            · exact .pure fun _ _ h => h.1

theorem ensures_claimOccurrence (hT : Under M i T) (hM : ∀ cl, M re.jobId (.acquired cl)) :
    Idles T i (claimOccurrence re) := by
  rw [claimOccurrence]
  split
  · exact idles_throw _
  · exact idles_ofExcept fun ea => idles_loop rfl (fun _ => ensures_claimOnce hT hM) _

/-! ## Owners of a claim -/

theorem ensures_owned {α} (hT : Under M i T) {f : Versioned JobDoc → Access α} {ab fo}
    (hf : ∀ st, Ensures T (fun s => Idle i s ∧ Carried s.log cl.job.id st.doc cl.lease)
      (f st) (fun s _ => Idle i s) (Idle i)) : Idles T i (do
        match ← Access.read (.job cl.job.id) with
        | none => return ab
        | some st => if ← owns st.doc cl now then f st else return fo) := by
  refine idles_read hT fun fn => ?_
  cases fn with
  | none => exact idles_pure _
  | some st =>
    refine (ensures_owns hT known_idle st.doc cl now).bind fun ow => ?_
    cases ow with
    | false => exact .pure fun _ _ h => h.1
    | true => exact (hf st).pre fun _ _ h => ⟨h.1, h.2 rfl⟩

theorem known_carried (id doc cl) : Known i fun s => Carried s.log id doc cl :=
  known_of_grown fun hl _ h => ⟨h.carries, h.taken.mono hl⟩

theorem ensures_queueClaimedRun (hT : Under M i T) {qa : Int} {iv}
    (hM : ∀ run, M cl.job.id (.queued cl.lease run)) : Idles T i (queueClaimedRun cl qa iv) := by
  refine idles_loop rfl (fun lf ih => ensures_owned hT fun sr => ?_) _
  have hk := known_carried (i := i) cl.job.id sr.doc cl.lease
  split
  · exact .pure fun _ _ h => h.1
  · refine ((ensures_nextRunNumber hT (known_idle.and hk)).weaken (fun _ _ h => h)
      (fun _ _ _ h => h) fun _ h => h.1).bind fun seq => ?_
    dsimp only
    generalize hr : RunDoc.mk _ _ _ _ _ _ _ _ _ _ = run
    refine (ensures_commit_conflict hT (hM run) hk (fun s _ h => ?_) ?_).bind ?_
    · subst hr
      exact .queued h rfl rfl
    · intro op ho
      cases List.mem_singleton.mp ho
      rfl
    · rintro (_ | _)
      · exact ih.pre fun _ _ h => h.1
      · exact .pure fun _ _ h => h.1

theorem ensures_renewClaim (hT : Under M i T) {dm} : Idles T i (renewClaim cl now dm) := by
  refine idles_ofExcept fun ea => ensures_owned hT fun sr => ?_
  refine Ensures.pre (A := Idle i) ?_ fun _ _ h => h.1
  refine (ensures_currentLease hT known_idle now).bind fun cu => ?_
  refine Ensures.pre (A := Idle i) ?_ fun _ _ h => h.1
  exact (ensures_renewLease hT known_idle now _ _ _).bind fun _ => idles_pure _

theorem ensures_releaseClaim (hT : Under M i T) (hM : M cl.job.id (.released cl.lease)) :
    Idles T i (releaseClaim cl now) := by
  have hr : Idles T i (releaseLease cl.job.id cl.lease.occurrence now .released
      cl.lease.token cl.lease.epoch) :=
    ensures_releaseLease hT known_idle now _ _ fun _ _ => .released
  refine idles_loop rfl (fun lf ih => ensures_owned hT fun sr => ?_) _
  dsimp only
  split
  · refine (ensures_commit_conflict hT hM (known_carried cl.job.id sr.doc cl.lease)
      (fun s _ h => .released h) (runWrite_cleanup _ _)).bind ?_
    rintro (_ | _)
    · exact ih.pre fun _ _ h => h.1
    · exact hr.pre fun _ _ h => h.1
  · exact hr.pre fun _ _ h => h.1

end Tinyflows.Cron
