import Tinyflows.Cron.Fencing
import Tinyflows.Cron.Lemmas.Changes

/-!
# What the log tells of claims

As long as no lease is begun twice, its epochs rise, and a job's document carries an epoch only while
the acquisition in that epoch is the job's last turn.
-/

namespace Tinyflows.Cron
open Lib Storage List Event Option Nat

/-! ## One event more -/

section Append

variable {log : List (Nat × Event)} {i : Nat} {e : Event} {id token job : String} {oc : Int}

theorem lastTurn_append : lastTurn id (log ++ [(i, e)]) = (e.turn id).or (lastTurn id log) :=
  lastOf_append

theorem lastLease_append :
    lastLease job oc (log ++ [(i, e)]) = (e.ofLease job oc).or (lastLease job oc log) :=
  lastOf_append

theorem completions_append : completions id token (log ++ [(i, e)]) =
    completions id token log + if e.completes id token then 1 else 0 := by
  rw [completions, countP_append, countP_singleton]
  rfl

theorem Tenure.begins_iff {τ : Tenure} : τ.begins e = true ↔ ∃ re bo,
    e = .lease τ.job τ.occurrence (.taken re bo) ∧ bo.holder = τ.holder ∧ bo.epoch = τ.epoch := by
  constructor
  · intro h
    unfold Tenure.begins at h
    split at h
    · next job oc re bo =>
        obtain rfl := of_decide_eq_true h
        exact ⟨re, bo, rfl, rfl, rfl⟩
    · cases h
  · rintro ⟨re, bo, rfl, hh, he⟩
    exact decide_eq_true (by rw [hh, he])

theorem takenBy_append {holder : String} {ep} :
    TakenBy (log ++ [(i, e)]) job oc holder ep ↔
      TakenBy log job oc holder ep ∨ Tenure.begins ⟨job, oc, holder, ep⟩ e = true := by
  constructor
  · rintro ⟨j, rd, bo, hm, rfl, rfl⟩
    rcases mem_append.mp hm with hm | hm
    · exact .inl ⟨j, rd, bo, hm, rfl, rfl⟩
    · cases mem_singleton.mp hm
      exact .inr (decide_eq_true rfl)
  · rintro (h | h)
    · exact h.mono (prefix_append _ _)
    · obtain ⟨rd, bo, rfl, hb⟩ := Tenure.begins_iff.mp h
      exact ⟨i, rd, bo, by simp, hb⟩

variable {cl : ClaimLease}

theorem turn_acquired (h : e.turn id = some (.acquired cl)) : e = .row id (.acquired cl) := by
  unfold Event.turn at h
  split at h
  · cases h
  · cases h
  · split_ifs at h with hi
    cases h
    rw [hi]
  · cases h

theorem mem_of_lastTurn (h : lastTurn id log = some (.acquired cl)) :
    ∃ e ∈ log, e.2 = .row id (.acquired cl) := by
  obtain ⟨e, he, ht⟩ := mem_of_lastOf h
  exact ⟨e, he, turn_acquired ht⟩

theorem Finished.completions_ne_zero (h : Finished i log job token) : completions job token log ≠ 0 := by
  obtain ⟨cl, run, hm, ht⟩ := h
  rw [completions, Ne, countP_eq_zero]
  intro hz
  exact hz _ hm (decide_eq_true ⟨rfl, ht⟩)

end Append

/-! ## What a change amounts to -/

section Shift

variable {p : List (Nat × Event) → Event → Bool} {M : String → RowEvent → Prop} {i : Nat} {s t : CronStore}

/-- What a change makes of jobs, of leases and of the log, if the log permits what it is for. -/
inductive Shift (p : List (Nat × Event) → Event → Bool) (M : String → RowEvent → Prop) (i : Nat)
    (s t : CronStore) : Prop
  | quiet (hlog : t.log = s.log) (hrow : ∀ id, t.rowDoc id = s.rowDoc id)
      (hlease : ∀ job occurrence, t.leaseBody job occurrence = s.leaseBody job occurrence ∨
        t.leaseBody job occurrence = none ∧ ∃ b, s.leaseBody job occurrence = some b ∧
          Finished i s.log job b.holder)
  | leased {job : String} {occurrence : Int} {body : Body} {event : LeaseEvent}
      (hstep : LeaseStep i s job (s.leaseBody job occurrence) body event)
      (hlog : t.log = s.log ++ [(i, .lease job occurrence event)])
      (hp : p s.log (.lease job occurrence event) = true) (hrow : ∀ id, t.rowDoc id = s.rowDoc id)
      (hself : t.leaseBody job occurrence = some body)
      (hlease : ∀ job' occurrence', (job', occurrence') ≠ (job, occurrence) →
        t.leaseBody job' occurrence' = s.leaseBody job' occurrence')
  | committed {id : String} {event : RowEvent} (hevent : M id event)
      (hfits : event.Fits i s id (s.rowDoc id) (t.rowDoc id))
      (hlog : t.log = s.log ++ [(i, .row id event)]) (hp : p s.log (.row id event) = true)
      (hrow : ∀ id', id' ≠ id → t.rowDoc id' = s.rowDoc id')
      (hlease : ∀ job occurrence, t.leaseBody job occurrence = s.leaseBody job occurrence)

variable {e : Event} {ep : Nat} {holder job token id : String} {log : List (Nat × Event)}
  {oc : Int} {bo : Body} {cl own : ClaimLease} {doc : JobDoc} {τ : Tenure}

theorem permits_of_log {c r} (hp : Permitted p i s c r t)
    (hl : t.log = s.log ++ [(i, e)]) : p s.log e = true :=
  hp (i, e) (by simp [hl])

theorem Change.shift (hc : Change M i s t) (hp : ∀ {e}, t.log = s.log ++ [(i, e)] → p s.log e = true)
    (ho : ∀ job oc, beginnings job oc s.log ≤ 1) : Shift p M i s t := by
  cases hc with
  | idle => exact .quiet rfl (fun _ => rfl) fun _ _ => .inl rfl
  | drew => exact .quiet rfl (fun _ => rfl) fun _ _ => .inl rfl
  | kept hops =>
    exact .quiet (by simp) (fun _ => congrArg (Option.map _) (Housekeeping.frame hops (by simp)))
      fun _ _ => .inl (congrArg (Option.map _) (Housekeeping.frame hops (by simp)))
  | leased hs hb ha =>
    cases hb (ho _ _)
    exact .leased hs rfl (hp rfl)
      (fun _ => congrArg (Option.map _) lookup_commit)
      (congrArg (Option.map _) leased_lease_self) fun _ _ hn => congrArg (Option.map _) (leased_lease_ne hn)
  | @compacted job oc b token pre hf hh hb =>
    refine .quiet (by simp) (fun _ => congrArg (Option.map _) lookup_commit)
      fun job' oc' => ?_
    by_cases hk : CronKey.lease job' oc' = .lease job oc
    · cases hk
      refine .inr ⟨?_, b, hb (ho _ _), hh ▸ hf⟩
      rw [CronStore.leaseBody, CronStore.lease, Store.commit_docs, foldl_cons, foldl_nil,
        lookup_apply_delete]
      rfl
    · exact .inl (congrArg (Option.map _) (lookup_commit (by simpa [WriteOp.key] using Ne.symm hk)))
  | committed he hl hL hw ht hr hC hm =>
    subst hw
    exact .committed he ((committed_rowDoc hr).symm ▸ ht) rfl (hp rfl)
      (fun _ hi => congrArg (Option.map _) (committed_row_ne hr hi))
      fun _ _ => congrArg (Option.map _) (committed_lease hr _ _)
  | relisted hR hli hC =>
    exact .quiet (by simp) (relisted_rowDoc hR) fun _ _ =>
      .inl (congrArg (Option.map _) (relisted_lease _ _))

theorem Change.recorded (hc : Change M i s t) {seq run} (hn : t.run seq = some run)
    (hold : s.run seq ≠ some run) : ∃ id en doc, M id en ∧ en.run = some run ∧
      en.Fits i s id (s.rowDoc id) doc := by
  obtain ⟨v, hv, rfl⟩ := map_eq_some_iff.mp hn
  have hw : ∀ {ops nt}, t = s.commit i ops nt →
      ∃ pre, WriteOp.put (D := CronDocs) (.run seq) v.doc pre ∈ ops := by
    rintro ops nt rfl
    refine (lookup_foldl_apply_some hv).resolve_left fun hs => hold ?_
    rw [CronStore.run, hs]
    rfl
  cases hc with
  | idle => exact absurd hn hold
  | drew => exact absurd hn hold
  | kept hops =>
    obtain ⟨pre, hm⟩ := hw rfl
    exact (hops _ hm).elim
  | leased =>
    obtain ⟨pre, hm⟩ := hw rfl
    cases mem_singleton.mp hm
  | compacted =>
    obtain ⟨pre, hm⟩ := hw rfl
    cases mem_singleton.mp hm
  | @committed id en pr next fo ld ru pre hE hi hl hr hf hu =>
    obtain ⟨pre, hm⟩ := hw rfl
    rw [mem_append, mem_cons, mem_singleton] at hm
    obtain (he | hm) | he := hm
    · cases next <;> cases he
    · exact ⟨id, en, next, hE, hu _ hm, hr ▸ hf⟩
    · cases he
  | relisted =>
    obtain ⟨pre, hm⟩ := hw rfl
    rcases mem_append.mp hm with hm | hm
    · obtain ⟨row, -, he⟩ := mem_map.mp hm
      cases he
    · cases mem_singleton.mp hm

/-! ## Epochs rise -/

def Rises (before : List (Nat × Event)) (e : Nat × Event) : Prop :=
  ∀ {job occurrence holder epoch holder' epoch'},
    Tenure.begins ⟨job, occurrence, holder', epoch'⟩ e.2 = true →
    TakenBy before job occurrence holder epoch → epoch < epoch'

structure Epochs (s : CronStore) : Prop where
  noImport : ∀ j, importOf j s.log = none
  once : ∀ job occurrence, beginnings job occurrence s.log ≤ 1
  started : ∀ {job occurrence holder epoch}, TakenBy s.log job occurrence holder epoch →
    1 ≤ beginnings job occurrence s.log
  below : ∀ {job occurrence holder epoch b}, TakenBy s.log job occurrence holder epoch →
    s.leaseBody job occurrence = some b → epoch ≤ b.epoch
  rising : EveryStep Rises s.log

theorem holder_unique (h : EveryStep Rises log) {holder' : String}
    (ht : TakenBy log job oc holder ep) (ht' : TakenBy log job oc holder' ep) :
    holder = holder' := by
  induction log using List.reverseRecOn with
  | nil =>
    obtain ⟨j, rd, bo, hm, -⟩ := ht
    cases hm
  | append_singleton log e ih =>
    obtain ⟨hl, hr⟩ := everyStep_append.mp h
    rcases takenBy_append.mp ht with hold | hn
    · rcases takenBy_append.mp ht' with hold' | hn'
      · exact ih hl hold hold'
      · exact absurd (hr hn' hold) (lt_irrefl _)
    · rcases takenBy_append.mp ht' with hold' | hn'
      · exact absurd (hr hn hold') (lt_irrefl _)
      · obtain ⟨_, bo, he, rfl, -⟩ := Tenure.begins_iff.mp hn
        obtain ⟨_, _, he', rfl, -⟩ := Tenure.begins_iff.mp hn'
        cases he.symm.trans he'
        rfl

theorem Epochs.congr (h : Epochs s) (hl : t.log = s.log ++ [(i, e)]) (he : e.OffImport)
    (hB : ∀ τ : Tenure, τ.begins e = false) (ho : ∀ job oc, e.begins job oc = false)
    (hL : ∀ job oc b, t.leaseBody job oc = some b →
      ∃ b', s.leaseBody job oc = some b' ∧ b.epoch = b'.epoch) : Epochs t := by
  have ha : ∀ {job oc holder ep}, TakenBy t.log job oc holder ep →
      TakenBy s.log job oc holder ep := by
    intro job oc holder ep ht
    rw [hl, takenBy_append, hB] at ht
    exact ht.resolve_right nofun
  have hg : ∀ job oc, beginnings job oc t.log = beginnings job oc s.log := by
    intro job oc
    rw [hl, beginnings_append]
    simp [beginnings, ho]
  refine ⟨fun j => ?_, fun job oc => ?_, fun ht => ?_, fun ht hb => ?_, ?_⟩
  · rw [hl, importOf_append_offImport he]
    exact h.noImport j
  · rw [hg]
    exact h.once job oc
  · rw [hg]
    exact h.started (ha ht)
  · obtain ⟨b', hb', hp⟩ := hL _ _ _ hb
    rw [hp]
    exact h.below (ha ht) hb'
  · rw [hl, everyStep_append]
    refine ⟨h.rising, fun hn => ?_⟩
    rw [hB] at hn
    cases hn

theorem LeaseStep.begins_eq {be ev} (h : LeaseStep i s job be bo ev) (hn : ∀ re, ev ≠ .taken re bo)
    (oc) (τ : Tenure) : τ.begins (.lease job oc ev) = false := by
  cases h with
  | taken => exact absurd rfl (hn _)
  | renewed => rfl
  | ended _ he => cases he <;> rfl
  | freed => rfl

theorem Epochs.rises (h : Epochs s) (hs : LeasesTaken s) {n tm rd}
    (ho : Leases.acquireBody (uuidOf n) tm rd (s.leaseBody job oc) = .ok (some bo))
    (hu : Unused s.log (uuidOf n)) (hn : beginsOnce s.log (.lease job oc (.taken rd bo)) = true)
    (ht : TakenBy s.log job oc holder ep) : ep < bo.epoch := by
  obtain ⟨hH, -, -, ⟨hN, he⟩ | ⟨b, hb, ⟨-, hh, -⟩ | ⟨-, he⟩⟩⟩ := Leases.acquireBody_cases ho
  · have hB := h.started ht
    rw [of_decide_eq_true hn he] at hB
    cases hB
  · obtain ⟨j, rd', bo', hm, hh', -⟩ := hs.taken hb
    refine absurd ?_ (hu _ hm)
    rw [token, hh', hh]
  · have hl := h.below ht hb
    omega

theorem Epochs.shift (h : Epochs s) (hs : LeasesTaken s)
    (ho : ∀ log e, p log e = true → e.beginsOnce log = true) (hh : Shift p M i s t) : Epochs t := by
  cases hh with
  | quiet hl hr he =>
    refine ⟨hl ▸ h.noImport, hl ▸ h.once, hl ▸ h.started, fun ht hb => ?_, hl ▸ h.rising⟩
    rw [hl] at ht
    rcases he _ _ with hE | ⟨hN, -⟩
    · exact h.below ht (hE ▸ hb)
    · rw [hN] at hb
      cases hb
  | committed hv hF hl hp hr he =>
    refine h.congr hl (offImport_row _ _) (fun _ => rfl) (fun _ _ => rfl) fun job oc b hb => ?_
    exact ⟨b, (he _ _).symm.trans hb, rfl⟩
  | @leased job oc bo ev hS hl hp hr hse he =>
    have hO : ∀ {job' oc' b}, (job', oc') ≠ (job, oc) →
        t.leaseBody job' oc' = some b → s.leaseBody job' oc' = some b :=
      fun hne hb => (he _ _ hne).symm.trans hb
    obtain ⟨n, ttlMs, rd, hbo, -, hu, rfl⟩ | ⟨b, hb, -, hep, hq⟩ := hS.tenure
    · have ho := ho _ _ hp
      have hi : Rises s.log (i, .lease job oc (.taken rd bo)) := by
        intro job' oc' holder ep holder' ep' hB ht
        cases of_decide_eq_true hB
        exact h.rises hs hbo hu ho ht
      refine ⟨fun j => ?_, fun job' oc' => ?_, fun {job' oc' _ _} ht => ?_,
        fun {job' oc' _ _ b} ht hb => ?_, ?_⟩
      · rw [hl, importOf_append_offImport (offImport_lease _ _ _)]
        exact h.noImport j
      · rw [hl, beginnings_append, beginnings, beginnings, countP_singleton]
        split
        · next hB =>
            obtain ⟨rfl, rfl, hf⟩ := of_decide_eq_true hB
            have hz := of_decide_eq_true ho hf
            rw [beginnings] at hz
            omega
        · exact h.once job' oc'
      · rw [hl] at ht ⊢
        rcases takenBy_append.mp ht with hold | hn
        · exact le_trans (h.started hold) (beginnings_mono (prefix_append _ _))
        · cases of_decide_eq_true hn
          exact begun_of_lease hs hS fun _ => rfl
      · rw [hl] at ht
        by_cases hk : (job', oc') = (job, oc)
        · cases hk
          cases hse.symm.trans hb
          rcases takenBy_append.mp ht with hold | hn
          · exact le_of_lt (h.rises hs hbo hu ho hold)
          · cases of_decide_eq_true hn
            exact le_refl _
        · refine h.below ((takenBy_append.mp ht).resolve_right fun hn => ?_) (hO hk hb)
          cases of_decide_eq_true hn
          exact hk rfl
      · rw [hl, everyStep_append]
        exact ⟨h.rising, hi⟩
    · refine h.congr hl (offImport_lease _ _ _) (hS.begins_eq ?_ oc)
        (fun job' oc' => (hq oc).2 job' oc') fun job' oc' b' hb' => ?_
      · rintro rd rfl
        cases (hq oc).1
      · by_cases hk : (job', oc') = (job, oc)
        · cases hk
          cases hse.symm.trans hb'
          exact ⟨b, hb, hep⟩
        · exact ⟨b', hO hk hb', rfl⟩

/-! ## Turns -/

theorem Unclaimed.of_append {e} (h : Unclaimed (log ++ [e]) token) : Unclaimed log token :=
  fun e' he' => h e' (mem_append_left _ he')

structure TurnAt (s : CronStore) (id : String) : Prop where
  carries : ∀ {doc epoch}, s.rowDoc id = some doc → doc.claimEpoch = some epoch →
    ∃ own, lastTurn id s.log = some (.acquired own)
  carried : ∀ {own}, lastTurn id s.log = some (.acquired own) →
    ∃ doc, s.rowDoc id = some doc ∧ Carried s.log id doc own
  pending : ∀ {own}, lastTurn id s.log = some (.acquired own) → completions id own.token s.log = 0
  claimed : ∀ {token}, Unclaimed s.log token → completions id token s.log = 0
  single : ∀ token, completions id token s.log ≤ 1

theorem TurnAt.latest (h : TurnAt s id) (hr : EveryStep Rises s.log) (hd : s.rowDoc id = some doc)
    (hc : Carried s.log id doc cl) : Latest id cl s.log := by
  obtain ⟨hi, he, ho⟩ := carries_iff.mp hc.carries
  obtain ⟨own, hw⟩ := h.carries hd he
  obtain ⟨doc', hd', hc'⟩ := h.carried hw
  cases hd.symm.trans hd'
  obtain ⟨hi', he', ho'⟩ := carries_iff.mp hc'.carries
  have hs : own.epoch = cl.epoch := some.inj (he'.symm.trans he)
  have hs' : own.occurrence = cl.occurrence := ho'.symm.trans ho
  refine ⟨own, hw, holder_unique hr hc'.taken ?_, hs, some.inj (hi'.symm.trans hi), hs'⟩
  rw [hs, hs']
  exact hc.taken

theorem Carried.mono {log'} (h : Carried log id doc cl) (hl : log <+: log') :
    Carried log' id doc cl :=
  ⟨h.carries, h.taken.mono hl⟩

theorem TurnAt.congr (h : TurnAt s id) (hl : t.log = s.log ++ [(i, e)]) (hu : e.turn id = none)
    (hm : ∀ token, e.completes id token = false)
    (hr : t.rowDoc id = s.rowDoc id ∨ ∃ doc queuedRun, s.rowDoc id = some doc ∧
      t.rowDoc id = some { doc with queuedRun }) : TurnAt t id := by
  have ha : lastTurn id t.log = lastTurn id s.log := by rw [hl, lastTurn_append, hu, none_or]
  have hc : ∀ token, completions id token t.log = completions id token s.log := by
    intro token
    rw [hl, completions_append, hm]
    rfl
  have hg : s.log <+: t.log := hl ▸ prefix_append _ _
  refine ⟨fun hd hp => ?_, fun ho => ?_, fun ho => ?_, fun hn => ?_, fun token => ?_⟩
  · rw [ha]
    rcases hr with he | ⟨doc', queuedRun, hs, ht⟩
    · exact h.carries (he ▸ hd) hp
    · cases ht.symm.trans hd
      exact h.carries hs hp
  · obtain ⟨doc, hd, hC⟩ := h.carried (ha ▸ ho)
    rcases hr with he | ⟨doc', queuedRun, hs, ht⟩
    · exact ⟨doc, he.trans hd, hC.mono hg⟩
    · cases hs.symm.trans hd
      exact ⟨_, ht, hC.carries, (hC.mono hg).taken⟩
  · rw [hc]
    exact h.pending (ha ▸ ho)
  · rw [hc]
    exact h.claimed (hl ▸ hn).of_append
  · rw [hc]
    exact h.single token

theorem TurnAt.ended {ev} (hl : t.log = s.log ++ [(i, e)])
    (ht : e.turn id = some ev) (hv : ∀ own, ev ≠ .acquired own)
    (hd : ∀ doc, t.rowDoc id = some doc → doc.claimEpoch = none)
    (hc : ∀ {token}, Unclaimed s.log token → completions id token t.log = 0)
    (hs : ∀ token, completions id token t.log ≤ 1) : TurnAt t id := by
  have ha : ∀ own, lastTurn id t.log ≠ some (.acquired own) := by
    intro own ho
    rw [hl, lastTurn_append, ht, some_or] at ho
    exact hv own (some.inj ho)
  refine ⟨fun hr he => ?_, fun ho => absurd ho (ha _), fun ho => absurd ho (ha _),
    fun hu => hc (hl ▸ hu).of_append, hs⟩
  rw [hd _ hr] at he
  cases he

theorem TurnAt.committed {id} (h : TurnAt s id) (hr : EveryStep Rises s.log) {en}
    (hf : en.Fits i s id (s.rowDoc id) (t.rowDoc id)) (hl : t.log = s.log ++ [(i, .row id en)]) :
    TurnAt t id := by
  have hq : (∀ token, (row id en).completes id token = false) →
      ∀ token, completions id token t.log = completions id token s.log := by
    intro hn token
    rw [hl, completions_append, hn]
    rfl
  generalize hs : s.rowDoc id = before at hf
  generalize ht : t.rowDoc id = after at hf
  cases hf with
  | created _ hp | edited _ hp =>
    refine .ended hl (if_pos rfl) nofun (fun doc hd => ?_) (fun hu => ?_) fun token => ?_
    · cases ht.symm.trans hd
      exact hp
    · rw [hq fun _ => rfl]
      exact h.claimed hu
    · rw [hq fun _ => rfl]
      exact h.single token
  | removed =>
    refine .ended hl (if_pos rfl) nofun (fun doc hd => ?_) (fun hu => ?_) fun token => ?_
    · cases ht.symm.trans hd
    · rw [hq fun _ => rfl]
      exact h.claimed hu
    · rw [hq fun _ => rfl]
      exact h.single token
  | @acquired doc cl hc =>
    have ha : lastTurn id t.log = some (.acquired cl) := by
      rw [hl, lastTurn_append]
      simp [Event.turn]
    refine ⟨fun _ _ => ⟨cl, ha⟩, fun ho => ?_, fun ho => ?_, fun hu => ?_, fun token => ?_⟩
    · cases ha.symm.trans ho
      refine ⟨_, ht, carries_iff.mpr ⟨rfl, rfl, hc.occurrence⟩, ?_⟩
      exact hc.took.takenBy.mono (hl ▸ prefix_append _ _)
    · cases ha.symm.trans ho
      rw [hq fun _ => rfl]
      exact h.claimed hc.unclaimed
    · rw [hq fun _ => rfl]
      exact h.claimed (hl ▸ hu).of_append
    · rw [hq fun _ => rfl]
      exact h.single token
  | queued hC | released hC =>
    exact h.congr hl rfl (fun _ => rfl) (.inr ⟨_, _, hs, ht⟩)
  | @completed doc doc' cl run hC _ _ _ hp =>
    obtain ⟨own, ho, hm⟩ := h.latest hr hs hC
    have hP := h.pending ho
    rw [hm.token] at hP
    have hco : ∀ token, completions id token t.log =
        completions id token s.log + if cl.token = token then 1 else 0 := by
      intro token
      rw [hl, completions_append]
      simp [completes]
    refine .ended hl (if_pos rfl) nofun (fun doc hd => ?_) (fun {token} hu => ?_) fun token => ?_
    · cases ht.symm.trans hd
      exact hp
    · obtain ⟨e, he, hE⟩ := mem_of_lastTurn ho
      rw [hco, if_neg, h.claimed hu]
      exact fun hto => hu e he id own hE (hm.token.trans hto)
    · rw [hco]
      split
      · next hto =>
          subst hto
          omega
      · exact h.single token

theorem TurnAt.shift (h : ∀ id, TurnAt s id) (hR : EveryStep Rises s.log) (hs : Shift p M i s t)
    (id) : TurnAt t id := by
  cases hs with
  | quiet hl hr he =>
    exact ⟨hl ▸ hr id ▸ (h id).carries, hl ▸ hr id ▸ (h id).carried, hl ▸ (h id).pending,
      hl ▸ (h id).claimed, hl ▸ (h id).single⟩
  | leased ht hl hp hr hS he =>
    exact (h id).congr hl rfl (fun _ => rfl) (.inl (hr id))
  | @committed id' ev hv hf hl hp hr he =>
    by_cases hi : id = id'
    · subst hi
      exact (h id).committed hR hf hl
    · refine (h id).congr hl ?_ (fun token => ?_) (.inl (hr id hi))
      · cases ev <;> simp [Event.turn, Ne.symm hi]
      · cases ev <;> simp [completes, Ne.symm hi]

structure ClaimsFenced (s : CronStore) : Prop extends Inv s, Epochs s where
  turns : ∀ id, TurnAt s id

/-! ## Tenures that go on -/

structure Tenure.Going (τ : Tenure) (log : List (Nat × Event)) : Prop where
  taken : TakenBy log τ.job τ.occurrence τ.holder τ.epoch
  uncompleted : completions τ.job τ.holder log = 0
  unreleased : τ.Unreleased log
  unexpired : τ.Unexpired log
  unedited : UneditedSince τ.job τ.begins log

/-- The record of the lease is the tenure, as its holder last left it. -/
def Tenure.Held (τ : Tenure) (s : CronStore) : Prop :=
  ∃ body, s.leaseBody τ.job τ.occurrence = some body ∧ body.holder = τ.holder ∧ body.epoch = τ.epoch ∧
    body.released = false ∧ (lastLease τ.job τ.occurrence s.log = some (.renewed body) ∨
      ∃ reading, lastLease τ.job τ.occurrence s.log = some (.taken reading body))

structure Steady (s : CronStore) : Prop where
  unedited : ∀ {id own}, lastTurn id s.log = some (.acquired own) →
    UneditedSince id (own.tenure id).begins s.log
  held : ∀ {τ : Tenure}, τ.Going s.log → τ.Held s
  standing : ∀ {id own}, Standing id own s.log → lastTurn id s.log = some (.acquired own)

theorem uneditedSince_append {q} : UneditedSince id q (log ++ [(i, e)]) ↔
      UneditedSince id q log ∧ (e.edits id = true → ∀ b ∈ log, q b.2 = false) :=
  everyStep_append

theorem completions_of_append (h : completions id token (log ++ [(i, e)]) = 0) :
    completions id token log = 0 ∧ e.completes id token = false := by
  rw [completions_append] at h
  split at h
  · cases h
  · next hn => exact ⟨h, Bool.eq_false_iff.mpr hn⟩

theorem Tenure.Going.of_append (h : τ.Going (log ++ [(i, e)]))
    (ht : TakenBy log τ.job τ.occurrence τ.holder τ.epoch) :
    τ.Going log ∧ τ.releases e = false ∧ τ.expires (lastLease τ.job τ.occurrence log) e = false :=
  ⟨⟨ht, (completions_of_append h.uncompleted).1, fun b hb => h.unreleased b (mem_append_left _ hb),
      (everyStep_append.mp h.unexpired).1, (uneditedSince_append.mp h.unedited).1⟩,
    h.unreleased _ (mem_append_right _ (mem_singleton_self _)), (everyStep_append.mp h.unexpired).2⟩

theorem turn_of_edits (h : e.edits id = true) :
    e.turn id = some .edited ∨ e.turn id = some .removed := by
  unfold edits at h
  split at h
  · exact .inl (if_pos (of_decide_eq_true h))
  · exact .inr (if_pos (of_decide_eq_true h))
  · cases h

theorem Steady.unedited_append (h : Steady s) (hp : e.fenced s.log = true)
    (hl : t.log = s.log ++ [(i, e)]) (ho : lastTurn id t.log = some (.acquired own)) :
    UneditedSince id (own.tenure id).begins t.log := by
  rw [hl, lastTurn_append] at ho
  rw [hl, uneditedSince_append]
  cases ht : e.turn id with
  | none =>
    rw [ht, none_or] at ho
    refine ⟨h.unedited ho, fun hd => ?_⟩
    rcases turn_of_edits hd with he | he <;> cases ht.symm.trans he
  | some ev =>
    rw [ht, some_or] at ho
    cases ho
    obtain rfl := turn_acquired ht
    exact ⟨of_decide_eq_true hp, nofun⟩

theorem Tenure.Held.leased {τ : Tenure} {job oc bo en}
    (hs : LeasesTaken s) (ht : LeaseStep i s job (s.leaseBody job oc) bo en)
    (hL : t.log = s.log ++ [(i, .lease job oc en)])
    (hp : (lease job oc en).fenced s.log = true) (hS : t.leaseBody job oc = some bo)
    (hh : ∀ {τ : Tenure}, τ.Going s.log → τ.Held s) (hτ : τ.job = job ∧ τ.occurrence = oc)
    (h : τ.Going t.log) : τ.Held t := by
  obtain ⟨rfl, rfl⟩ := hτ
  rw [hL] at h
  have hl : lastLease τ.job τ.occurrence t.log = some en := by
    rw [hL, lastLease_append]
    simp [ofLease]
  by_cases ha : TakenBy s.log τ.job τ.occurrence τ.holder τ.epoch
  · obtain ⟨hg, hr, hx⟩ := h.of_append ha
    obtain ⟨b, hb, ho, hE, hR, hl'⟩ := hh hg
    rw [hb] at ht
    have hτ : τ = ⟨τ.job, τ.occurrence, b.holder, b.epoch⟩ := by rw [ho, hE]
    cases ht with
    | taken hB his hU =>
      obtain ⟨-, -, -, ⟨hn, -⟩ | ⟨b', hb', ⟨-, hh', -⟩ | ⟨hi, -⟩⟩⟩ := Leases.acquireBody_cases hB
      · cases hn
      · cases hb'
        obtain ⟨j, rd', bo', hm, hh'', -⟩ := hs.taken hb
        refine absurd ?_ (hU _ hm)
        rw [token, hh'', hh']
      · cases hb'
        rw [Body.live, hR, Bool.not_false, Bool.and_true, decide_eq_false_iff_not, not_lt] at hi
        rcases hl' with he | ⟨_, he⟩
        all_goals
          rw [he] at hx
          exact absurd ⟨hτ, hi⟩ (of_decide_eq_false hx)
    | renewed hte => exact ⟨_, hS, ho, hE, hR, .inl hl⟩
    | ended hte hen =>
      cases hen with
      | released => exact absurd hτ (of_decide_eq_false hr)
      | givenBack => exact absurd hτ (of_decide_eq_false hr)
      | settled hf =>
        rw [← hte.holder, ho] at hf
        exact absurd hg.uncompleted hf.completions_ne_zero
    | freed hd =>
      have hu := hg.unedited
      rw [hτ] at hu
      exact absurd hu (of_decide_eq_true hp)
  · obtain ⟨rd, bo', he, ho, hE⟩ :=
      Tenure.begins_iff.mp ((takenBy_append.mp h.taken).resolve_left ha)
    cases he
    obtain ⟨_, _, _, hB, -, -, he⟩ | ⟨_, _, _, _, hq⟩ := ht.tenure
    · cases he
      exact ⟨_, hS, ho, hE, (Leases.acquireBody_cases hB).2.1, .inr ⟨_, hl⟩⟩
    · cases (hq τ.occurrence).1

theorem Tenure.Held.congr (hl : t.log = s.log ++ [(i, e)]) (hb : τ.begins e = false)
    (ho : e.ofLease τ.job τ.occurrence = none)
    (he : t.leaseBody τ.job τ.occurrence = s.leaseBody τ.job τ.occurrence)
    (hh : τ.Going s.log → τ.Held s) (h : τ.Going t.log) : τ.Held t := by
  rw [hl] at h
  have ht := (takenBy_append.mp h.taken).resolve_right (by rw [hb]; exact nofun)
  obtain ⟨bo, hB, hH, hp, hr, ha⟩ := hh (h.of_append ht).1
  refine ⟨bo, he.trans hB, hH, hp, hr, ?_⟩
  rwa [hl, lastLease_append, ho, none_or]

theorem Tenure.Held.shift (hs : LeasesTaken s) (hS : Shift fenced M i s t)
    (hh : ∀ {τ : Tenure}, τ.Going s.log → τ.Held s) (h : τ.Going t.log) : τ.Held t := by
  cases hS with
  | quiet hl hr hL =>
    rw [hl] at h
    obtain ⟨bo, ho, hH, hE, hR, ha⟩ := hh h
    rw [← hl] at ha
    rcases hL τ.job τ.occurrence with he | ⟨-, b, hb, hf⟩
    · exact ⟨bo, he.trans ho, hH, hE, hR, ha⟩
    · cases hb.symm.trans ho
      rw [hH] at hf
      exact absurd h.uncompleted hf.completions_ne_zero
  | @leased job oc bo ev ht hl hp hr hse hL =>
    by_cases hk : τ.job = job ∧ τ.occurrence = oc
    · exact .leased hs ht hl hp hse hh hk h
    · refine .congr hl ?_ (if_neg fun he => hk ⟨he.1.symm, he.2.symm⟩) (hL _ _ ?_) hh h
      · refine Bool.eq_false_iff.mpr fun hB => ?_
        obtain ⟨re, bo', he, -⟩ := Tenure.begins_iff.mp hB
        cases he
        exact hk ⟨rfl, rfl⟩
      · exact fun he => hk (Prod.mk.inj he)
  | committed hv hF hl hp hr hL => exact .congr hl rfl rfl (hL _ _) hh h

theorem Standing.of_append (h : Standing id own (log ++ [(i, e)])) (hN : e ≠ .row id (.acquired own)) :
    Standing id own log ∧ e.completes id own.token = false ∧ e.edits id = false := by
  obtain ⟨b, hb, he⟩ := h.acquired
  have hb : b ∈ log := by
    rcases mem_append.mp hb with hb | hb
    · exact hb
    · cases mem_singleton.mp hb
      exact absurd he hN
  obtain ⟨hu, hc⟩ := completions_of_append h.uncompleted
  obtain ⟨hd, hE⟩ := uneditedSince_append.mp h.unedited
  refine ⟨⟨⟨b, hb, he⟩, hu, fun b hb => h.unreleased b (mem_append_left _ hb),
    (everyStep_append.mp h.unexpired).1, hd⟩, hc, ?_⟩
  refine Bool.eq_false_iff.mpr fun ht => ?_
  have hn := hE ht b hb
  rw [he] at hn
  simp at hn

theorem Steady.going (h : Steady s) (hf : ClaimsFenced s) (ho : Standing id own s.log) :
    (own.tenure id).Going s.log := by
  have hl := h.standing ho
  obtain ⟨doc, -, hc⟩ := (hf.turns id).carried hl
  exact ⟨hc.taken, ho.uncompleted, ho.unreleased, ho.unexpired, h.unedited hl⟩

/-- Nobody acquires a job while a claim on it stands: what the other read of the document, it read before
it took the lease, and the epoch it read is the lease's last. -/
theorem Steady.not_acquired (h : Steady s) (hf : ClaimsFenced s) (ho : Standing id own s.log)
    (hd : s.rowDoc id = some doc) : ¬ Acquires i s id doc cl := by
  intro hc
  obtain ⟨doc', hd', ha⟩ := (hf.turns id).carried (h.standing ho)
  cases hd.symm.trans hd'
  obtain ⟨-, he, hO⟩ := carries_iff.mp ha.carries
  obtain ⟨bo, hb, -, hl, -⟩ := h.held (h.going hf ho)
  have hL := hf.below hc.took.takenBy (b := bo) (by rwa [← hc.occurrence, hO])
  obtain ⟨be, rd, bo', after, hg, hh', he', hr⟩ := hc.took
  obtain ⟨holder, ht⟩ := hr _ he
  rw [hc.occurrence] at ht
  have hlt := hf.rising be _ after hg (Tenure.begins_iff.mpr ⟨_, _, rfl, hh', he'⟩) ht
  exact absurd (lt_of_lt_of_le hlt (hL.trans (le_of_eq hl))) (lt_irrefl _)

theorem Steady.standing_append (h : Steady s) (ho : Standing id own (s.log ++ [(i, e)]))
    (he : ∀ ev, Standing id own s.log → e.completes id own.token = false → e.edits id = false →
      e.turn id = some ev → False) : lastTurn id (s.log ++ [(i, e)]) = some (.acquired own) := by
  rw [lastTurn_append]
  by_cases hn : e = .row id (.acquired own)
  · subst hn
    simp [Event.turn]
  · obtain ⟨hs, hc, hd⟩ := ho.of_append hn
    cases ht : e.turn id with
    | none => exact h.standing hs
    | some ev => exact (he ev hs hc hd ht).elim

theorem Steady.standing_shift (h : Steady s) (hf : ClaimsFenced s) (hh : Shift fenced M i s t)
    (ho : Standing id own t.log) : lastTurn id t.log = some (.acquired own) := by
  cases hh with
  | quiet hl hr he =>
    rw [hl] at ho ⊢
    exact h.standing ho
  | leased hsp hl hp hr hse he =>
    rw [hl] at ho ⊢
    refine h.standing_append ho fun _ _ _ _ ht => ?_
    cases ht
  | @committed id' en hv hi hl hp hr he =>
    rw [hl] at ho ⊢
    refine h.standing_append ho fun turn hS hC hd ht => ?_
    have hid : id' = id := by
      by_contra hn
      cases en <;> simp [Event.turn, hn] at ht
    subst hid
    have ha := h.standing hS
    obtain ⟨doc, hD, hc⟩ := (hf.turns id').carried ha
    generalize hs : s.rowDoc id' = before at hi
    generalize t.rowDoc id' = after at hi
    cases hi with
    | created => cases hs.symm.trans hD
    | acquired hcl => exact h.not_acquired hf hS hs hcl
    | edited | removed => exact absurd rfl (of_decide_eq_false hd)
    | queued | released => cases ht
    | completed hc' =>
      obtain ⟨own', ho', hm⟩ := (hf.turns id').latest hf.rising hs hc'
      cases ha.symm.trans ho'
      exact of_decide_eq_false hC ⟨rfl, hm.token.symm⟩

theorem Steady.shift (h : Steady s) (hf : ClaimsFenced s) (hs : Shift fenced M i s t) : Steady t where
  unedited {id own} ho := by
    cases hs with
    | quiet hl hr he =>
      rw [hl] at ho ⊢
      exact h.unedited ho
    | leased ht hl hp hr hS he => exact h.unedited_append hp hl ho
    | committed hv hi hl hp hr he => exact h.unedited_append hp hl ho
  held := Tenure.Held.shift hf.toLeasesTaken hs h.held
  standing := h.standing_shift hf hs

end Shift

end Tinyflows.Cron
