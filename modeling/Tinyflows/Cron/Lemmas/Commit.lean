import Tinyflows.Cron.Lemmas.Access

/-!
# Runs, the ledger, and commits of a job

What is read of a job and its ledger at different times belongs together when the ledger's version is
still the one read.
-/

namespace Tinyflows.Cron
open Lib Storage List Option CronStore

variable {M : String → RowEvent → Prop} {i : Nat} {T : Terms CronStore (Call CronDocs Event) Call.Reply}
  {A B E : CronStore → Prop}

/-! ## Runs -/

theorem Known.kept (hA : Known i A) {s ops} (hAs : A s) : A (s.commit i ops none) :=
  hA.silent (s := s) (by simp) prefix_rfl hAs

variable {ops : List (WriteOp CronDocs)} {id : String} {row : Versioned JobDoc} {s t u : CronStore}
  {ld : Versioned Admission} {pr : Option JobDoc}

section

variable (hT : Under M i T) (hA : Known i A)
include hT hA

theorem ensures_housekeeping (hops : ∀ op ∈ ops, Housekeeping op) :
    Ensures T A (Access.write ops none) (fun s _ => A s) A :=
  ensures_write hT hA.stable fun _ _ hAt _ _ => ⟨.kept hops, hA.kept hAt⟩

theorem ensures_runsOf (id doc) : Ensures T A (runsOf id doc) (fun s _ => A s) A := by
  refine Ensures.bind (Q := fun s _ => A s) (ensures_ofStorage fun s hs hAs => ?_) fun found =>
    .pure fun _ _ hAs => hAs
  refine meets_list (f := fun r => pure r) hT.onDocuments (fun t m ht hr => ?_) fun t ht hr => ?_
  · exact hA.stable s t (hT.inv ht) (hT.rely hr) hAs
  · exact hA.stable s t (hT.inv ht) (hT.rely hr) hAs

theorem ensures_deleteRunsOf (id doc) : Ensures T A (deleteRunsOf id doc) (fun s _ => A s) A := by
  refine (ensures_runsOf hT hA id doc).bind fun ru => ensures_housekeeping hT hA fun op ho => ?_
  obtain ⟨run, -, rfl⟩ := mem_map.mp ho
  trivial

theorem ensures_pruneRuns (ma id doc) : Ensures T A (pruneRuns ma id doc) (fun s _ => A s) A := by
  refine (ensures_runsOf hT hA id doc).bind fun ru => .forM (fun run => ?_) _
  refine ensures_housekeeping hT hA fun op ho => ?_
  cases mem_singleton.mp ho
  trivial

theorem ensures_nextRunNumber : Ensures T A nextRunNumber (fun s _ => A s) A := by
  have hu : ∀ f : Unit → Option Nat → Except StoreError (Option Nat) × Unit,
      Repo.Updates (D := CronDocs) (N := Event) i T A .runCounter (fun _ => none) f fun s _ => A s :=
    fun f => {
      known := fun ht hr hAs => hA.stable _ _ (hT.inv ht) (hT.rely hr) hAs
      failed := fun _ hAt => hAt
      declined := fun _ hAt _ => hAt
      written := fun {s t c c' bo pre} _ _ ht hAt _ _ _ he => by
        have hc : Change M i t (t.commit i [.put .runCounter bo pre] none) :=
          .kept fun op ho => by
            cases mem_singleton.mp ho
            trivial
        exact ⟨hT.allows hc, hT.keeps ht he hc, hA.kept hAt⟩ }
  refine Ensures.bind (Q := fun s _ => A s)
    (.lift fun s hs hAs => (hu _).loop hT.onDocuments hAs _ ()) ?_
  rintro ⟨e | _ | va, -⟩
  · exact .throw fun _ _ hAs => hAs
  · exact .throw fun _ _ hAs => hAs
  · exact .pure fun _ _ hAs => hAs

end

/-! ## The ledger -/

def jobRows (s : CronStore) : List (String × Versioned JobDoc) :=
  (s.docs.entries.filter fun e => match e.1 with
    | .job _ => true
    | _ => false).filterMap fun
      | ⟨.job id, row⟩ => some (id, row)
      | _ => none

theorem mem_jobRows : (id, row) ∈ jobRows s ↔ s.row id = some row := by
  rw [CronStore.row, ← mem_def, AList.mem_lookup_iff]
  simp only [jobRows, mem_filterMap, mem_filter]
  constructor
  · rintro ⟨⟨k, v⟩, ⟨hm, -⟩, he⟩
    split at he
    · next id' row' hn =>
        cases he
        rwa [← hn]
    · cases he
  · intro hm
    exact ⟨⟨.job id, row⟩, ⟨hm, rfl⟩, rfl⟩

theorem ensures_rows (hT : Under M i T) (hA : Stable i A) :
    Ensures T A Access.rows (fun s ro => A s ∧ ro = jobRows s) A := by
  intro s hs hAs
  refine meets_list hT.onDocuments (fun t m ht hr => ?_) fun t ht hr => ?_
  · exact hA s t (hT.inv ht) (hT.rely hr) hAs
  · exact ⟨hA s t (hT.inv ht) (hT.rely hr) hAs, rfl⟩

/-- A row that the ledger does not list is still the row found if its version is: only an import has
written it. -/
theorem rowDoc_of_unlisted (hs : Inv s) (ht : Inv t) (he : Rely i s t) (hr : s.row id = some row)
    (hS : t.row id ≠ none) (hu : t.listed id = none) (ho : rewrite (id, row) ∈ ops)
    (hR : Respects i t ops) : t.rowDoc id = some row.doc := by
  obtain ⟨row', hr'⟩ := ne_none_iff_exists'.mp hS
  have hd : t.rowDoc id = some row'.doc := by rw [rowDoc, hr']; rfl
  obtain ⟨j, hj⟩ := ht.unlisted hd hu
  by_cases hi : j = i
  · subst hi
    have hm := hs.imports (he.importOf_eq.symm.trans hj)
    rw [rowDoc, hr] at hm
    rw [hd, ← hm]
    rfl
  · obtain ⟨pre, hp⟩ := hR j hi id _ hj _ ho rfl
    simp only [rewrite, WriteOp.put.injEq, heq_eq_eq, true_and] at hp
    rw [hd, hp.1]

theorem relists {li pre} (hs : Inv s) (ht : Inv t) (he : Rely i s t)
    (hl : ∀ id, t.listed id ≠ none → t.row id = s.row id)
    (hc : (Admission.ofRows li (jobRows s)).check = true)
    (ha : ((jobRows s).map rewrite).all (·.admitted t.docs) = true)
    (hR : Respects i t ((jobRows s).map rewrite ++ [.put .ledger (.ofRows li (jobRows s)) pre])) :
    Change M i t (t.commit i ((jobRows s).map rewrite ++ [.put .ledger (.ofRows li (jobRows s)) pre])
      none) := by
  refine .relisted (fun row hr => ?_) (fun id hi => ?_) hc
  · have hf := mem_jobRows.mp hr
    by_cases hu : t.listed row.1 = none
    · have ho := mem_map_of_mem (f := rewrite) hr
      refine rowDoc_of_unlisted hs ht he hf ?_ hu (mem_append_left _ ho) hR
      have hS := all_eq_true.mp ha _ ho
      intro hn
      rw [rewrite, WriteOp.admitted, show t.docs.lookup (.job row.1) = none from hn] at hS
      cases hS
    · rw [rowDoc, hl row.1 hu, hf]
      rfl
  · obtain ⟨m, hm⟩ := ne_none_iff_exists'.mp hi
    obtain ⟨doc, hd, -⟩ := map_eq_some_iff.mp (ht.listed hm)
    obtain ⟨row, hr, -⟩ := map_eq_some_iff.mp hd
    rw [hl id hi] at hr
    exact ⟨(id, row), mem_jobRows.mpr hr, rfl⟩

theorem all_admitted_append {dc op} (h : (ops ++ [op]).all (·.admitted dc) = true) :
    ops.all (·.admitted dc) = true ∧ op.admitted dc = true := by
  simpa using h

theorem ensures_admission (hT : Under M i T) (hA : Known i A) :
    Ensures T A admission (fun s ld => A s ∧ s.ledger = some ld ∧ ld.doc.check = true) A := by
  have hl : ∀ lf, Ensures T A (admissionLoop lf)
      (fun s ld => A s ∧ s.ledger = some ld ∧ ld.doc.check = true) A := by
    intro lf
    induction lf with
    | zero => exact .throw fun _ _ hAs => hAs
    | succ lf ih =>
      refine (ensures_read hT hA.stable .ledger).bind fun fo => ?_
      cases fo with
      | some st =>
        dsimp only
        split
        · next hc => exact .pure fun s _ h => ⟨h.1, h.2, hc⟩
        · exact .throw fun _ _ h => h.1
      | none =>
        refine Ensures.bind ((ensures_rows hT hA.stable).pre fun _ _ h => h.1) fun rows => ?_
        refine Ensures.bind (Q := fun s _ => A s) ?_ fun _ => ih
        -- The rows were read from a store, and the batch fails unless they are still there.
        refine (ensures_unlessConflict (ensures_write (B := A) hT
          (hA.stable.and (Seen.stable (F := fun s => rows = jobRows s))) ?_)).weaken
          (fun s hs h => ⟨h.1, .now (hT.inv hs) h.2⟩) ?_ fun _ h => h.1
        · rintro t ht ⟨hAt, u, hu, rfl, hr⟩ ha hR
          obtain ⟨ho, hb⟩ := all_admitted_append ha
          have hn : t.ledger = none := isNone_iff_eq_none.mp hb
          refine ⟨relists hu ht hr (fun id hi => ?_) rfl ho hR, hA.kept hAt⟩
          rw [listed, hn] at hi
          exact absurd rfl hi
        · rintro s (_ | _) _ h
          · exact h.1
          · exact h
  exact hl CAS_ATTEMPTS

theorem Rely.of_ledger (h : Rely i s t) (hl : s.ledger = some ld)
    (hv : (Precondition.version ld.version).holds t.ledger = true) :
    t.ledger = some ld ∧ ∀ id, t.listed id ≠ none → t.row id = s.row id := by
  obtain ⟨b, hb, -, hs⟩ := h.guarded ld hl
  rw [hb] at hv
  obtain ⟨rfl, hr⟩ := hs (by simpa [Precondition.holds, eq_comm] using hv)
  refine ⟨hb, fun id hi => hr id ?_⟩
  rwa [listed, hb] at hi

theorem Rely.of_ledger_between (hs : Rely i s t) (ht : Rely i t u) (hl : s.ledger = some ld)
    (hl' : u.ledger = some ld) (id) (hi : ld.doc.jobs.lookup id ≠ none) : t.row id = s.row id := by
  obtain ⟨b, hb, he, ha⟩ := hs.guarded ld hl
  obtain ⟨c, hc, he', -⟩ := ht.guarded b hb
  rw [hl'] at hc
  cases hc
  exact (ha (by omega)).2 id hi

theorem rowDoc_of_owned (hs : Rely i s t) (ht : Rely i t u) (hl : s.ledger = some ld)
    (ho : ld.doc.owns id pr = true) (hp : t.rowDoc id = pr)
    (hr : (Precondition.unchanged (t.row id)).holds (u.row id) = true)
    (hv : (Precondition.version ld.version).holds u.ledger = true) : u.rowDoc id = pr := by
  cases pr with
  | none =>
    rw [rowDoc, map_eq_none_iff] at hp
    rw [hp] at hr
    rw [rowDoc, isNone_iff_eq_none.mp hr]
    rfl
  | some old =>
    obtain ⟨hl', hR⟩ := (hs.trans ht).of_ledger hl hv
    have hi : u.listed id ≠ none := by
      rw [listed, hl']
      intro hn
      simp only [Admission.owns, show ld.doc.jobs.lookup id = none from hn] at ho
      cases ho
    have hb := hs.of_ledger_between ht hl hl' id (by rwa [listed, hl'] at hi)
    rw [← hp, rowDoc, rowDoc, hb, hR id hi]

theorem ensures_commitJob (hT : Under M i T) (hA : Known i A) {ev next runs} (he : M id ev)
    (hi : ∀ s, A s → importOf i s.log = none)
    (hf : ∀ s, Inv s → A s → ev.Fits i s id pr next) (hr : ∀ op ∈ runs, RunWrite ev op)
    (hB : ∀ {s t}, A s → t.log = s.log ++ [(i, .row id ev)] → t.issued = s.issued → B t) :
    Ensures T A (commitJob id pr next runs ev) (fun s _ => B s) A := by
  refine (ensures_admission hT hA).bind fun ld => ?_
  split
  · next ho =>
      let F := fun s : CronStore => s.ledger = some ld
      refine Ensures.bind ((ensures_read hT (hA.stable.and (Seen.stable (F := F))) (.job id)).weaken
        (fun s hs h => ⟨h.1, .now (hT.inv hs) h.2.1⟩) (fun _ _ _ h => h) fun _ h => h.1) fun current => ?_
      split
      · next hc =>
          dsimp only
          split
          · next hh =>
              let G := fun s : CronStore => s.docs.lookup (CronKey.job id) = current ∧ Seen i F s
              refine (ensures_write hT (hA.stable.and (Seen.stable (F := G))) ?_).weaken
                (fun s hs h => ⟨h.1.1, .now (hT.inv hs) ⟨h.2, h.1.2⟩⟩) (fun _ _ _ h => h) fun _ h => h.1
              rintro u hu ⟨hAu, t, ht, ⟨rfl, s, hs, hl, hS⟩, htu⟩ ha hR
              obtain ⟨hO, hv⟩ := all_admitted_append ha
              have hw : (rowWrite id next (t.row id)).admitted u.docs = true :=
                all_eq_true.mp hO _ mem_cons_self
              have hn : (Precondition.unchanged (t.row id)).holds (u.row id) = true := by
                cases next <;> exact hw
              have hd := rowDoc_of_owned hS htu hl ho hc hn hv
              have hsr := ((hS.trans htu).of_ledger hl hv).1
              refine ⟨.committed he (hi u hAu) hsr hd (hf u hu hAu) hr hh
                fun j hij doc hj => ?_, hB hAu rfl rfl⟩
              obtain ⟨pre, hp⟩ := hR j hij id doc hj _ mem_cons_self (by simp)
              cases next with
              | none => cases hp
              | some doc' =>
                simp only [rowWrite, WriteOp.put.injEq, heq_eq_eq, true_and] at hp
                rw [hp.1]
          · exact .throw fun _ _ h => h.1.1
      · exact .throw fun _ _ h => h.1.1
  · exact .throw fun _ _ h => h.1

end Tinyflows.Cron
