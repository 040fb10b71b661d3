import Tinyflows.Cron.Lemmas.Fencing
import Tinyflows.Cron.Theorems.Admission

/-!
# Claims are fenced

A claim acts on its job only as long as the job has taken no other turn, provided that the record of a
lease is begun once. The record of a completed occurrence is dropped, and its epochs start over when an
edit sets the job back to that occurrence.
-/

namespace Tinyflows.Cron
open Lib Storage

variable {cfg : CronConfig} {p : List (Nat × Event) → Event → Bool} {J : CronStore → Prop}

/-- Workers and editors keep claims fenced, and whatever else `J` says of them. -/
def claimDiscipline (cfg : CronConfig) (p : List (Nat × Event) → Event → Bool) (J : CronStore → Prop) :
    Discipline ((jobSystem cfg).limited (Permitted p)) where
  inv s := ClaimsFenced s ∧ J s
  rely := Rely
  guarantee op i := Change op.Makes i
  fresh i s := own i s.log = []
  post _ i s _ := Idle i s

theorem fenced_empty : ClaimsFenced {} where
  toInv := inv_empty
  noImport _ := rfl
  once _ _ := Nat.zero_le _
  started h := by
    obtain ⟨_, _, _, hm, -⟩ := h
    cases hm
  below _ h := by cases h
  rising := everyStep_nil
  turns _ := ⟨nofun, nofun, nofun, fun _ => rfl, fun _ => Nat.zero_le _⟩

/-- Claims stay fenced, and `J` is kept by every change that the log permits. -/
structure Fencing (p : List (Nat × Event) → Event → Bool) (J : CronStore → Prop) : Prop where
  once : ∀ log e, p log e = true → e.beginsOnce log = true
  initial : J {}
  keeps : ∀ {M i s t}, ClaimsFenced s → J s → Shift p M i s t → J t

theorem claimDiscipline_under (h : Fencing p J) (op i) :
    Under op.Makes i ((claimDiscipline cfg p J).terms op i) where
  serves h := h.1
  respects hs _ j _ id doc hi := by
    rw [hs.1.noImport j] at hi
    cases hi
  inv h := h.1.toInv
  rely h := h
  allows h := h
  keeps {s c r u} hs he hc := by
    have hh := hc.shift (permits_of_log he.2) hs.1.once
    exact ⟨⟨hc.inv hs.1.toInv, hs.1.toEpochs.shift hs.1.toLeasesTaken h.once hh,
      TurnAt.shift hs.1.turns hs.1.rising hh⟩, h.keeps hs.1 hs.2 hh⟩

theorem claimDiscipline_kept (h : Fencing p J) : (claimDiscipline cfg p J).Kept where
  refl := Rely.refl
  trans _ {_ _ _} h h' := h.trans h'
  relies hi hs hc := hc.rely hi hs.1.toInv
  unused hi hs hc hf := (hc.rely hi hs.1.toInv).own.trans hf
  begins op i _ hs hf :=
    Ensures.meets (ensures_jobAccess (claimDiscipline_under h op i) (fun h => h) cfg) hs (idle_of_fresh hf)

theorem claims_settled (h : Fencing p J) {w : JobWorld}
    (hr : Runs ((jobSystem cfg).limited (Permitted p)) { store := {} } w) :
    (claimDiscipline cfg p J).Settled w :=
  (claimDiscipline_kept h).settled_runs (Discipline.settled_initial ⟨fenced_empty, h.initial⟩ fun _ => rfl) hr

/-! ## Every run -/

theorem fencing_once : Fencing Event.beginsOnce fun _ => True where
  once _ _ h := h
  initial := trivial
  keeps _ _ _ := trivial

theorem JobOp.Makes.carried {op : JobOp} {held} (ho : op.actsFor = some held) {i s id event next}
    (hm : op.Makes id event) (hf : event.Fits i s id (s.rowDoc id) next) :
    id = held.job.id ∧ ∃ doc, s.rowDoc id = some doc ∧ Carried s.log id doc held.lease := by
  generalize hs : s.rowDoc id = previous at hf
  cases hm <;> cases ho <;> cases hf
  all_goals exact ⟨rfl, _, rfl, ‹_›⟩

theorem ClaimsFenced.recorded {s t : CronStore} (h : ClaimsFenced s) {i} {op : JobOp}
    (hc : Change op.Makes i s t)
    {seq run} (hn : t.run seq = some run) (hold : s.run seq ≠ some run) :
    ∃ held doc, op.actsFor = some held ∧ held.job.id = run.jobId ∧ Latest run.jobId held.lease s.log ∧
      s.rowDoc run.jobId = some doc ∧ doc.incarnation = run.incarnation ∧
      run.incarnation = some held.lease.incarnation := by
  obtain ⟨id, event, next, hm, he, hf⟩ := hc.recorded hn hold
  have hr : ∃ held, op.actsFor = some held ∧ run.jobId = id ∧
      run.incarnation = some held.lease.incarnation := by
    generalize s.rowDoc id = previous at hf
    cases hm <;> cases he <;> cases hf
    all_goals exact ⟨_, rfl, ‹_›, ‹_›⟩
  obtain ⟨held, ho, rfl, hi⟩ := hr
  obtain ⟨hid, doc, hd, ha⟩ := hm.carried ho hf
  exact ⟨held, doc, ho, hid.symm, (h.turns _).latest h.rising hd ha, hd,
    (carries_iff.mp ha.carries).1.trans hi.symm, hi⟩

/-- As long as the record of a lease is begun once: a claim is completed at most once; an operation that
acts for a claim changes the job's document only if the job took no turn since the claim was acquired; and
a run is recorded only by such an operation, for the current incarnation of the job. -/
theorem claims_fenced {w : JobWorld}
    (h : Runs ((jobSystem cfg).limited (Permitted Event.beginsOnce)) { store := {} } w) :
    (∀ id token, completions id token w.store.log ≤ 1) ∧
    ∀ {i op w'}, Calls ((jobSystem cfg).limited (Permitted Event.beginsOnce)) i op w w' →
      (∀ held, op.actsFor = some held →
        w'.store.rowDoc held.job.id ≠ w.store.rowDoc held.job.id → Latest held.job.id held.lease w.store.log) ∧
      ∀ seq run, w'.store.run seq = some run → w.store.run seq ≠ some run →
        ∃ held doc, op.actsFor = some held ∧ held.job.id = run.jobId ∧
          Latest run.jobId held.lease w.store.log ∧ w.store.rowDoc run.jobId = some doc ∧
          doc.incarnation = run.incarnation ∧ run.incarnation = some held.lease.incarnation := by
  have hsettled := claims_settled fencing_once h
  have hfenced : ClaimsFenced w.store := hsettled.inv.1
  refine ⟨fun id => (hfenced.turns id).single, fun {i op w'} hcalls => ?_⟩
  have hc : Change op.Makes i w.store w'.store := hsettled.calls hcalls
  refine ⟨fun held hop hchanged => ?_, fun seq run => hfenced.recorded hc⟩
  have hshift : Shift (fun _ _ => true) op.Makes i w.store w'.store := hc.shift (fun _ => rfl) hfenced.once
  cases hshift with
  | quiet hlog hrow hlease => exact absurd (hrow _) hchanged
  | leased hstep hlog hp hrow hself hlease => exact absurd (hrow _) hchanged
  | @committed id event hmakes hfits hlog hp hrow hlease =>
    obtain ⟨rfl, doc, hdoc, hcarried⟩ := hmakes.carried hop hfits
    exact (hfenced.turns _).latest hfenced.rising hdoc hcarried

def claimRequest : ClaimRequest where
  jobId := "a"
  owner := "w"
  now := 100
  durationMs := 1000

def heldClaim (token : Nat) : ClaimedOccurrence where
  job := intervalJob "a"
  lease := {
    owner := "w", token := uuidOf token, epoch := 1, incarnation := uuidOf 0, occurrence := 100
    startedAt := 100, expiresAt := 1100 }

def finish (token : Nat) : JobOp :=
  .complete (heldClaim token) { finishedAt := 100, success := true, output := "" } true

def setBack : JobOp :=
  .update "a" { schedule := some (.every 10) } fun _ => 90

def claimedOnce : List (Move JobOp) :=
  [.start (.create (intervalJob "a")), .calls 0 20, .start (.claim claimRequest), .calls 1 20,
    .start (finish 1), .calls 2 30]

def executedJobs (moves : List (Move JobOp)) : JobWorld :=
  World.exec (jobSystem intervalConfig) Store.answer { store := {} } moves

instance (q : List (Nat × Event) → Event → Bool) (i : Nat) (s t : CronStore) (c : Call CronDocs Event)
    (r : c.Reply) : Decidable (Permitted q i s c r t) :=
  inferInstanceAs (Decidable (∀ e ∈ t.log.drop s.log.length, q s.log e.2 = true))

theorem claimed_once_fenced : completions "a" (uuidOf 1) (executedJobs claimedOnce).store.log = 1 ∧
    ∀ id token, completions id token (executedJobs claimedOnce).store.log ≤ 1 :=
  have hruns : Runs ((jobSystem intervalConfig).limited (Permitted Event.beginsOnce)) { store := {} }
      (executedJobs claimedOnce) := runs_exec_limited Store.serves_answer (by decide +kernel)
  ⟨by decide +kernel, (claims_fenced hruns).1⟩

/-- The job is set back twice. The completion of the second claim is made by two calls; the slower of them
has read the document by the time the other is done, and finds it again as the third claim leaves it. -/
def completedTwice : List (Move JobOp) :=
  claimedOnce ++ [.start setBack, .calls 3 30, .start (.claim claimRequest), .calls 4 20,
    .start (finish 2), .calls 5 2, .start (finish 2), .calls 6 30, .start setBack, .calls 7 30,
    .start (.claim claimRequest), .calls 8 20, .calls 5 30]

theorem set_back_completed_twice : ∃ w : JobWorld, Runs (jobSystem intervalConfig) { store := {} } w ∧
    completions "a" (uuidOf 2) w.store.log = 2 :=
  ⟨executedJobs completedTwice, runs_exec Store.serves_answer _ _, by decide +kernel⟩

/-! ## Claims that stand -/

theorem fencing_fenced : Fencing Event.fenced Steady where
  once log e h := by
    cases e with
    | row id event => rfl
    | imported id event => rfl
    | lease job due event => cases event <;> first | exact h | rfl
  initial := by
    refine ⟨nofun, fun {τ} h => ?_, fun h => ?_⟩
    · obtain ⟨_, _, _, hm, -⟩ := h.taken
      cases hm
    · obtain ⟨_, hm, -⟩ := h.acquired
      cases hm
  keeps hf hJ hs := hJ.shift hf hs

/-- As long as, besides, a job is acquired only on a tenure that began after the job was last edited, and an
edit frees only a lease that was taken before: a claim is its holder's until it is completed or released,
its lease expires on a clock it is taken by, or the job is edited or removed. -/
theorem claims_stable {w : JobWorld}
    (h : Runs ((jobSystem cfg).limited (Permitted Event.fenced)) { store := {} } w) {id : String}
    {claim : ClaimLease} (hstands : Standing id claim w.store.log) : Owned id claim w.store := by
  have hsettled := claims_settled fencing_fenced h
  have hfenced : ClaimsFenced w.store := hsettled.inv.1
  have hsteady : Steady w.store := hsettled.inv.2
  obtain ⟨doc, hdoc, hcarried⟩ := (hfenced.turns id).carried (hsteady.standing hstands)
  obtain ⟨body, hbody, hholder, hepoch, hreleased, hlast⟩ := hsteady.held (hsteady.going hfenced hstands)
  refine ⟨hsteady.standing hstands, ⟨doc, hdoc, hcarried.carries⟩, body, hbody, hlast,
    fun reading hreading => ⟨⟨hholder, hepoch, hreleased, hreading⟩,
      fun other ttlMs body' hother hacquired => ?_⟩⟩
  obtain ⟨-, -, -, ⟨hnone, -⟩ | ⟨b, hb, ⟨-, hheld, -⟩ | ⟨hlive, -⟩⟩⟩ := Leases.acquireBody_cases hacquired
  · cases hnone
  · cases hb
    exact hother (hheld.symm.trans hholder)
  · cases hb
    rw [Body.live_iff.mpr ⟨hreading, hreleased⟩] at hlive
    cases hlive

def claimedAfterEdit : List (Move JobOp) :=
  [.start (.create (intervalJob "a")), .calls 0 20, .start setBack, .calls 1 20, .start (.claim claimRequest),
    .calls 2 20]

theorem claimed_after_edit_owned : Owned "a" (heldClaim 1).lease (executedJobs claimedAfterEdit).store :=
  have hruns : Runs ((jobSystem intervalConfig).limited (Permitted Event.fenced)) { store := {} }
      (executedJobs claimedAfterEdit) := runs_exec_limited Store.serves_answer (by decide +kernel)
  claims_stable hruns
    ⟨by decide +kernel, by decide +kernel, by unfold Tenure.Unreleased; decide +kernel,
      by unfold Tenure.Unexpired; decide +kernel, by decide +kernel⟩

/-- The job is claimed after an edit was committed and before the edit frees the leases taken on the job's
old shape. -/
def claimedBeforeFence : List (Move JobOp) :=
  [.start (.create (intervalJob "a")), .calls 0 20, .start setBack, .calls 1 4, .start (.claim claimRequest),
    .calls 2 20, .calls 1 20]

theorem claim_freed_by_edit : ∃ w : JobWorld, Runs (jobSystem intervalConfig) { store := {} } w ∧
    Standing "a" (heldClaim 1).lease w.store.log ∧ ¬ Owned "a" (heldClaim 1).lease w.store := by
  refine ⟨executedJobs claimedBeforeFence, runs_exec Store.serves_answer _ _,
    ⟨by decide +kernel, by decide +kernel, by unfold Tenure.Unreleased; decide +kernel,
      by unfold Tenure.Unexpired; decide +kernel, by decide +kernel⟩, fun howned => ?_⟩
  have hfreed : lastLease "a" 100 (executedJobs claimedBeforeFence).store.log =
      some (.freed { holder := uuidOf 1, epoch := 1, expiresMs := 0 }) := by decide +kernel
  obtain ⟨body, -, hlast | ⟨reading, hlast⟩, -⟩ := howned.lease
  · cases hfreed.symm.trans hlast
  · cases hfreed.symm.trans hlast

end Tinyflows.Cron
