import Tinyflows.Cron.Lemmas.Commit

/-!
# The leases of occurrences
-/

namespace Tinyflows.Cron
open Lib Storage CronStore Precondition Option

variable {M : String → RowEvent → Prop} {i : Nat} {T : Terms CronStore (Call CronDocs Event) Call.Reply}
  {A B E P : CronStore → Prop} {job : String} {oc : Int}

variable {s t : CronStore} {note : Body → LeaseEvent}

theorem LeaseGuarded.lease_eq (h : LeaseGuarded job oc s t)
    (ho : (unchanged (s.lease job oc)).holds (t.lease job oc) = true) :
    t.lease job oc = s.lease job oc := by
  cases ha : s.lease job oc with
  | none =>
    rw [ha] at ho
    exact isNone_iff_eq_none.mp ho
  | some a =>
    rw [ha] at ho
    rcases h.stays a ha with ⟨hn, -⟩ | ⟨b, hb, -, he⟩
    · rw [hn] at ho
      cases ho
    · rw [hb] at ho ⊢
      rw [he (by simpa [unchanged, holds, eq_comm] using ho)]

theorem Rely.leaseBody_eq (h : Rely i s t)
    (ho : (unchanged (s.lease job oc)).holds (t.lease job oc) = true)
    (hn : beginnings job oc t.log ≤ 1) : t.leaseBody job oc = s.leaseBody job oc := by
  rw [leaseBody, (h.leases job oc hn).lease_eq ho, leaseBody]

theorem updates_lease (hT : Under M i T) (hP : Stable i P) {σ}
    {f : σ → Option Body → Except StoreError (Option Body) × σ} {Q : CronStore → Body → Prop}
    (hS : ∀ {t be bo c c'}, P t → f c be = (.ok (some bo), c') → LeaseStep i t job be bo (note bo))
    (hQ : ∀ {t u bo c c' be}, P t → f c be = (.ok (some bo), c') →
      u.log = t.log ++ [(i, .lease job oc (note bo))] → u.issued = t.issued → Q u bo) :
    Repo.Updates (D := CronDocs) i T P (.lease job oc)
      (fun bo => some (.lease job oc (note bo))) f
      (fun s r => match r.1 with
        | .ok (some bo) => Q s bo
        | _ => P s) where
  known ht hr hPs := hP _ _ (hT.inv ht) (hT.rely hr) hPs
  failed _ hPt := hPt
  declined _ hPt _ := hPt
  written {s t c c' bo pre} hs _ ht hPt hr hf ho he := by
    have hc : Change M i t (t.commit i [.put (.lease job oc) bo pre]
        (some (.lease job oc (note bo)))) :=
      .leased (hS hPt hf) (fun hn => (hT.rely hr).leaseBody_eq ho hn)
        fun b hb => ((hT.inv hs).taken hb).mono (hT.rely hr).log
    exact ⟨hT.allows hc, hT.keeps ht he hc, hQ hPt hf rfl rfl⟩

section

variable (hT : Under M i T) (hA : Known i A)
include hT hA

theorem ensures_acquireLease {P} (hP : ∀ s, A s → P s.log) (n : Nat) (now tm : Int) :
    Ensures T (fun s => A s ∧ Fresh i n s) (acquireLease job oc now (uuidOf n) tm)
      (fun s r => match r with
        | some ls => A s ∧ Ready i n s ∧ Took i P s.log job oc (uuidOf n) ls.epoch
        | none => A s) A := by
  refine ensures_ofStorage fun s hs hPs => ?_
  refine Program.Meets.bind hs ((updates_lease hT (hA.stable.and (stable_fresh n))
    (Q := fun u body => A u ∧ Ready i n u ∧ Took i P u.log job oc (uuidOf n) body.epoch)
    ?_ ?_).loop hT.onDocuments hPs _ 0) ?_
  · rintro t be body c c' ⟨hAt, hi, hu⟩ hf
    exact .taken (Prod.mk.inj hf).1 hi hu
  · rintro t u body c c' be ⟨hAt, hr⟩ hf hl hi
    exact ⟨hA.leased hl hi hAt, (known_ready n).leased hl hi hr.ready,
      t.log, now.toNat, body, [], hl, (Leases.acquireBody_cases (Prod.mk.inj hf).1).1, rfl, hP t hAt⟩
  · rintro ⟨e | _ | body, c⟩ t ht hp
    · exact hp.1
    · exact hp.1
    · exact hp

theorem ensures_update {α} {σ : Type} {f : σ → Option Body → Except StoreError (Option Body) × σ}
    {c} {g : Except StoreError (Option Body) × σ → Transaction CronDocs Event (Except StoreError α)}
    (hS : ∀ {t be bo c c'}, A t → f c be = (.ok (some bo), c') → LeaseStep i t job be bo (note bo))
    (hg : ∀ r, ∃ a, g r = .done a) :
    Ensures T A (Access.ofStorage ((leaseOf job oc note).update f c >>= g)) (fun s _ => A s) A := by
  refine ensures_ofStorage fun s hs hAs => ?_
  refine Program.Meets.bind hs ((updates_lease hT hA.stable (Q := fun u _ => A u) hS
    fun hAt _ hl hi => hA.leased hl hi hAt).loop hT.onDocuments hAs _ c) ?_
  rintro ⟨e | _ | bo, c⟩ t ht hAt
  all_goals
    obtain ⟨a, ha⟩ := hg (_, c)
    rw [ha]
    cases a <;> exact hAt

theorem ensures_renewLease (now tk) (ep : Nat) (tm) :
    Ensures T A (renewLease job oc now tk ep tm) (fun s _ => A s) A := by
  refine ensures_update hT hA (fun {t be bo c c'} hAt hf => ?_) fun r => ⟨_, rfl⟩
  obtain ⟨b, rfl, ht, rfl⟩ := Leases.renewBody_tenure (Prod.mk.inj hf).1
  exact .renewed ht

theorem ensures_releaseLease (now tk) (ep : Nat) (he : ∀ s, A s → Ends i s job tk note) :
    Ensures T A (releaseLease job oc now note tk ep) (fun s _ => A s) A := by
  rw [releaseLease, Leases.release]
  cases hn : Storage.now (leaseClock now 0) with
  | error e => exact fun s _ hAs => hAs
  | ok at_ =>
    refine ensures_update hT hA (fun {t be bo c c'} hAt hf => ?_) fun r => ⟨_, rfl⟩
    rw [now_eq hn] at hf
    obtain ⟨b, rfl, ht, rfl⟩ := Leases.releaseBody_tenure (Except.ok.inj (Prod.mk.inj hf).1)
    exact .ended ht (he t hAt)

theorem ensures_currentLease (now) : Ensures T A (currentLease job oc now)
      (fun s r => A s ∧ ∀ ls, r = some ls → TakenBy s.log job oc ls.holder ls.epoch)
      A := by
  rw [currentLease, Leases.current]
  refine ensures_ofStorage fun s hs hAs => ?_
  cases hn : Storage.now (leaseClock now 0) with
  | error e => exact hAs
  | ok at_ =>
    refine meets_get hT.onDocuments (fun t m ht hr => ?_) fun t ht hr => ?_
    · exact hA.stable s t (hT.inv ht) (hT.rely hr) hAs
    · refine ⟨hA.stable s t (hT.inv ht) (hT.rely hr) hAs, fun ls hl => ?_⟩
      obtain ⟨bo, hb, rfl⟩ := map_eq_some_iff.mp hl
      exact (hT.inv ht).taken (filter_eq_some_iff.mp hb).1

theorem ensures_compactLease (tk ep) (hf : ∀ s, A s → Finished i s.log job tk) :
    Ensures T A (compactLease job oc tk ep) (fun s _ => A s) A := by
  have hd : Repo.Deletes (D := CronDocs) (N := Event) i T A (.lease job oc)
      (fun ls => ls.holder = tk ∧ ls.epoch = ep) fun s _ => A s :=
    { known := fun ht hr hAs => hA.stable _ _ (hT.inv ht) (hT.rely hr) hAs
      ends := fun _ hAt => hAt
      deleted := fun {s t found pre} hs ht hAt hr ho ha hk he => by
        have hl : lease s job oc = some found := ho
        have hu : (unchanged (lease s job oc)).holds (lease t job oc) = true := by
          rw [hl]
          exact hk
        have hc : Change M i t (t.commit i [.delete (.lease job oc) pre] none) := by
          refine .compacted (hf t hAt) (of_decide_eq_true ha).1 fun hn => ?_
          rw [(hT.rely hr).leaseBody_eq hu hn, leaseBody, hl]
          rfl
        exact ⟨hT.allows hc, hT.keeps ht he hc, hA.kept hAt⟩ }
  refine ensures_ofStorage fun s hs hAs => ?_
  refine (hd.loop hT.onDocuments hAs _).mono hs ?_
  rintro (e | b) t ht hAt
  · exact hAt
  · exact hAt

theorem ensures_fenceLoop
    (he : ∀ s, A s → ∃ ev, (ev = .edited ∨ ev = .removed) ∧ (i, Event.row job ev) ∈ s.log) (lf) :
    Ensures T A (fenceLoop job oc lf) (fun s _ => A s) A := by
  induction lf with
  | zero => exact .pure fun _ _ hAs => hAs
  | succ lf ih =>
    refine (ensures_read hT hA.stable (.lease job oc)).bind fun fo => ?_
    cases fo with
    | none => exact .pure fun _ _ h => h.1
    | some fo =>
      dsimp only
      split
      · exact .pure fun _ _ h => h.1
      · let F := fun s : CronStore => s.lease job oc = some fo
        refine Ensures.bind (Q := fun s _ => A s) ((ensures_unlessConflict (ensures_write (B := A) hT
          (hA.stable.and (Seen.stable (F := F))) ?_)).weaken
          (fun s hs h => ⟨h.1, .now (hT.inv hs) h.2⟩) ?_ fun _ h => h.1) ?_
        · rintro t ht ⟨hAt, s, hs, hf, hr⟩ ha -
          have hu : (unchanged (s.lease job oc)).holds (t.lease job oc) = true := by
            rw [hf]
            rw [List.all_cons, List.all_nil, Bool.and_true] at ha
            exact ha
          refine ⟨.leased (.freed (b := fo.doc) (he t hAt)) (fun ho => ?_) ?_, hA.leased rfl rfl hAt⟩
          · rw [hr.leaseBody_eq hu ho, leaseBody, hf]
            rfl
          · rintro b ⟨⟩
            refine (hs.taken ?_).mono hr.log
            rw [leaseBody, hf]
            rfl
        · rintro s (_ | _) _ h
          · exact h.1
          · exact h
        · rintro (_ | _)
          · exact ih
          · exact .pure fun _ _ hAs => hAs

theorem ensures_fenceClaims (doc)
    (he : ∀ s, A s → ∃ ev, (ev = .edited ∨ ev = .removed) ∧ (i, Event.row job ev) ∈ s.log) :
    Ensures T A (fenceClaims job doc) (fun s _ => A s) A :=
  ensures_logged (ensures_fenceLoop hT hA he CAS_ATTEMPTS)

theorem ensures_owns (doc cl now) : Ensures T A (owns doc cl now)
      (fun s r => A s ∧ (r = true → Carried s.log cl.job.id doc cl.lease)) A := by
  rw [owns]
  split
  · next hc =>
      refine (ensures_currentLease hT hA now).bind fun held => .pure fun s _ h => ⟨h.1, fun hh => ?_⟩
      obtain ⟨ls, hl, he⟩ := any_eq_true _ _ |>.mp hh
      obtain ⟨ho, hp⟩ := of_decide_eq_true he
      refine ⟨hc, ?_⟩
      rw [← ho, ← hp]
      exact h.2 ls hl
  · exact .pure fun s _ hAs => ⟨hAs, nofun⟩

end

end Tinyflows.Cron
