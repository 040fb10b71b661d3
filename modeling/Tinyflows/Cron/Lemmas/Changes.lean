import Tinyflows.Cron.Changes

/-!
# What the forms of a write do to the store
-/

namespace Tinyflows.Cron
open Lib Storage List Option CronStore WriteOp Store Nat

/-! ## The log -/

theorem own_append (i log es) : own i (log ++ es) = own i log ++ own i es := by
  simp [own]

variable {i j : Nat} {e : Event} {log log' : List (Nat × Event)} {job id : String} {oc : Int}
  {doc : JobDoc} {op : WriteOp CronDocs}

theorem own_of_others {ev} (h : ∀ e ∈ ev, e.1 = i) (hi : i ≠ j) : own j ev = [] := by
  have hn : ev.filter (·.1 = j) = [] :=
    filter_eq_nil_iff.mpr fun e he hj => hi ((h e he).symm.trans (by simpa using hj))
  rw [own, hn, map_nil]

@[simp] theorem own_singleton (i e) : own i [(i, e)] = [e] := by
  simp [own]

theorem mem_own : e ∈ own i log ↔ (i, e) ∈ log := by
  simp [own]

def Event.OffImport (e : Event) : Prop :=
  ∀ current, importStep current e = current

theorem offImport_row (id en) : (Event.row id en).OffImport :=
  fun _ => rfl

theorem offImport_lease (job oc en) : (Event.lease job oc en).OffImport :=
  fun _ => rfl

theorem importOf_append : importOf j (log ++ [(i, e)]) =
      if i = j then importStep (importOf j log) e else importOf j log := by
  rw [importOf, own_append]
  split_ifs with hi
  · subst hi
    rw [own_singleton, foldl_append]
    rfl
  · have ho : ∀ e' ∈ [(i, e)], e'.1 = i := by simp
    rw [own_of_others ho hi, append_nil]
    rfl

theorem importOf_append_self : importOf i (log ++ [(i, e)]) = importStep (importOf i log) e :=
  importOf_append.trans (if_pos rfl)

theorem importOf_append_offImport (he : e.OffImport) (j log) :
    importOf j (log ++ [(i, e)]) = importOf j log := by
  rw [importOf_append, he, ite_self]

theorem beginnings_append (job oc log es) :
    beginnings job oc (log ++ es) =
      beginnings job oc log + beginnings job oc es :=
  countP_append

theorem beginnings_mono (h : log <+: log') : beginnings job oc log ≤ beginnings job oc log' := by
  obtain ⟨ev, rfl⟩ := h
  rw [beginnings_append]
  exact le_add_right _ _

theorem TakenBy.mono {holder ep} (h : TakenBy log job oc holder ep)
    (hl : log <+: log') : TakenBy log' job oc holder ep := by
  obtain ⟨j, rd, bo, hm, hb⟩ := h
  exact ⟨j, rd, bo, hl.subset hm, hb⟩

section Took

variable {i : Nat} {P : List (Nat × Event) → Prop} {log log' : List (Nat × Event)} {job : String}
  {oc : Int} {holder : String} {ep : Nat}

theorem Took.mono (h : Took i P log job oc holder ep) (hl : log <+: log') :
    Took i P log' job oc holder ep := by
  obtain ⟨bf, rd, bo, after, rfl, hb⟩ := h
  obtain ⟨mo, rfl⟩ := hl
  exact ⟨bf, rd, bo, after ++ mo, by simp, hb⟩

theorem Took.takenBy (h : Took i P log job oc holder ep) : TakenBy log job oc holder ep := by
  obtain ⟨bf, rd, bo, after, rfl, hh, he, -⟩ := h
  exact ⟨i, rd, bo, by simp, hh, he⟩

end Took

theorem EpochTaken.mono (h : EpochTaken id doc log) (hl : log <+: log') : EpochTaken id doc log' := by
  intro ep he
  obtain ⟨holder, ht⟩ := h ep he
  exact ⟨holder, ht.mono hl⟩

theorem epochTaken_of_none (h : doc.claimEpoch = none) : EpochTaken id doc log := by
  intro ep he
  rw [h] at he
  cases he

theorem Unused.unclaimed {token} (h : Unused log token) : Unclaimed log token := by
  intro e he id cl hq ht
  refine h e he ?_
  rw [hq, Event.token, ht]

theorem uuidOf_injective {m n} (h : uuidOf m = uuidOf n) : m = n := by
  have hl := congrArg String.length h
  simpa [uuidOf] using hl

/-! ## The documents -/

theorem RunWrite.key {en} (h : RunWrite en op) : ∃ seq, op.key = .run seq := by
  unfold RunWrite at h
  split at h
  · exact ⟨_, rfl⟩
  · exact ⟨_, rfl⟩
  · exact h.elim

theorem Housekeeping.key (h : Housekeeping op) : op.key = .runCounter ∨ ∃ seq, op.key = .run seq := by
  unfold Housekeeping at h
  split at h
  · exact .inl rfl
  · exact .inr ⟨_, rfl⟩
  · exact h.elim

@[simp] theorem rowWrite_key (id next fo) : (rowWrite id next fo).key = .job id := by
  cases next <;> rfl

@[simp] theorem rewrite_key (row) : (rewrite row).key = .job row.1 := rfl

section Frame

variable {s : CronStore} {ops : List (WriteOp CronDocs)} {nt : Option Event}

theorem lookup_commit {k} (h : ∀ op ∈ ops, op.key ≠ k := by simp [WriteOp.key]) :
    (s.commit i ops nt).docs.lookup k = s.docs.lookup k :=
  lookup_foldl_apply h

theorem rowDoc_commit (h : ∀ op ∈ ops, op.key ≠ .job id := by simp [WriteOp.key]) :
    CronStore.rowDoc (s.commit i ops nt) id = s.rowDoc id :=
  congrArg (Option.map _) (lookup_commit h)

end Frame

section Committed

variable {s : CronStore} {i : Nat} {id : String} {en : RowEvent} {next : Option JobDoc}
  {fo : Option (Versioned JobDoc)} {ru : List (WriteOp CronDocs)} {a : Admission}
  {pre : Precondition} {nt : Option Event}

section

variable (hr : ∀ op ∈ ru, RunWrite en op)
include hr

theorem committed_key {op} (ho : op ∈ rowWrite id next fo :: ru ++ [.put .ledger a pre]) :
    op.key = .job id ∨ (∃ seq, op.key = .run seq) ∨ op.key = .ledger := by
  rw [mem_append, mem_cons, mem_singleton] at ho
  obtain (rfl | ho) | rfl := ho
  · exact .inl (rowWrite_key ..)
  · exact .inr (.inl (hr op ho).key)
  · exact .inr (.inr rfl)

theorem committed_ledger :
    CronStore.ledger (s.commit i (rowWrite id next fo :: ru ++ [.put .ledger a pre]) nt) =
      some ⟨s.docs.nextVersion CronKey.ledger, a⟩ := by
  refine lookup_foldl_apply_append_put fun op ho => ?_
  rcases mem_cons.mp ho with rfl | ho
  · simp
  · obtain ⟨seq, hk⟩ := (hr op ho).key
    simp [hk]

theorem committed_lease (job oc) :
    lease (s.commit i (rowWrite id next fo :: ru ++ [.put .ledger a pre]) nt) job oc =
      s.lease job oc := by
  refine lookup_commit fun op ho => ?_
  rcases committed_key hr ho with hk | ⟨seq, hk⟩ | hk <;> simp [hk]

theorem committed_row_ne {id'} (hi : id' ≠ id) :
    CronStore.row (s.commit i (rowWrite id next fo :: ru ++ [.put .ledger a pre]) nt) id' = s.row id' := by
  refine lookup_commit fun op ho => ?_
  rcases committed_key hr ho with hk | ⟨seq, hk⟩ | hk <;> simp [hk, Ne.symm hi]

theorem committed_rowDoc :
    CronStore.rowDoc (s.commit i (rowWrite id next fo :: ru ++ [.put .ledger a pre]) nt) id = next := by
  have he : ∀ op ∈ ru ++ [.put .ledger a pre], op.key ≠ CronKey.job id := by
    intro op ho
    rcases mem_append.mp ho with ho | ho
    · obtain ⟨seq, hk⟩ := (hr op ho).key
      simp [hk]
    · cases mem_singleton.mp ho
      exact nofun
  rw [CronStore.rowDoc, CronStore.row, commit_docs, cons_append, foldl_cons, lookup_foldl_apply he]
  cases next with
  | none => rw [rowWrite, lookup_apply_delete, map_none]
  | some doc => rw [rowWrite, lookup_apply_put, map_some]

end

end Committed

section Relisted

variable {s : CronStore} {i : Nat} {ro : List (String × Versioned JobDoc)}

theorem lookup_foldl_rewrite {dc : Documents CronDocs}
    (hr : ∀ row ∈ ro, (dc.lookup (.job row.1)).map (·.doc) = some row.2.doc) (id) :
    (((ro.map rewrite).foldl apply dc).lookup (.job id)).map (·.doc) =
      (dc.lookup (.job id)).map (·.doc) := by
  induction ro generalizing dc with
  | nil => rfl
  | cons row re ih =>
    have hs : ∀ id', ((apply dc (rewrite row)).lookup (.job id')).map (·.doc) =
        (dc.lookup (.job id')).map (·.doc) := by
      intro id'
      by_cases hi : id' = row.1
      · subst hi
        rw [rewrite, lookup_apply_put, hr row mem_cons_self]
        rfl
      · rw [lookup_apply_of_key_ne (by simpa using Ne.symm hi)]
    rw [map_cons, foldl_cons, ih, hs]
    intro row' ho'
    rw [hs]
    exact hr row' (mem_cons_of_mem _ ho')

theorem lookup_ofRows {li} {f : String → Option JobDoc}
    (ho : ∀ row ∈ ro, f row.1 = some row.2.doc) (id) :
    (Admission.ofRows li ro).jobs.lookup id =
      if ∃ row ∈ ro, row.1 = id then (f id).map member else none := by
  have hf : ∀ jo : AList fun _ : String => Member,
      (ro.foldl (fun jo row => jo.insert row.1 (member row.2.doc)) jo).lookup id =
        if ∃ row ∈ ro, row.1 = id then (f id).map member else jo.lookup id := by
    induction ro with
    | nil => simp
    | cons row re ih =>
      intro jo
      rw [foldl_cons, ih fun row' hr' => ho row' (mem_cons_of_mem _ hr')]
      by_cases he : ∃ row' ∈ re, row'.1 = id
      · rw [if_pos he, if_pos]
        obtain ⟨row', hr', hi⟩ := he
        exact ⟨row', mem_cons_of_mem _ hr', hi⟩
      · rw [if_neg he]
        by_cases hi : row.1 = id
        · subst hi
          rw [if_pos ⟨row, mem_cons_self, rfl⟩, AList.lookup_insert, ho row mem_cons_self, map_some]
        · rw [AList.lookup_insert_ne (Ne.symm hi), if_neg]
          rintro ⟨row', hr', hi'⟩
          rcases mem_cons.mp hr' with rfl | hr'
          · exact hi hi'
          · exact he ⟨row', hr', hi'⟩
  rw [Admission.ofRows, hf]
  simp

variable {a : Admission} {pre : Precondition} {nt : Option Event}

theorem relisted_ledger :
    CronStore.ledger (s.commit i (ro.map rewrite ++ [.put .ledger a pre]) nt) =
      some ⟨s.docs.nextVersion CronKey.ledger, a⟩ := by
  refine lookup_foldl_apply_append_put fun op ho => ?_
  obtain ⟨row, -, rfl⟩ := mem_map.mp ho
  simp

theorem relisted_lease (job oc) :
    lease (s.commit i (ro.map rewrite ++ [.put .ledger a pre]) nt) job oc =
      s.lease job oc := by
  refine lookup_commit fun op ho => ?_
  rcases mem_append.mp ho with ho | ho
  · obtain ⟨row, -, rfl⟩ := mem_map.mp ho
    simp
  · cases mem_singleton.mp ho
    exact nofun

theorem relisted_rowDoc (hr : ∀ row ∈ ro, s.rowDoc row.1 = some row.2.doc) (id) :
    CronStore.rowDoc (s.commit i (ro.map rewrite ++ [.put .ledger a pre]) nt) id = s.rowDoc id := by
  have hk : CronKey.job id ≠ .ledger := nofun
  rw [CronStore.rowDoc, CronStore.row, commit_docs, foldl_append, foldl_cons,
    foldl_nil, lookup_apply_put_ne hk, lookup_foldl_rewrite hr]
  rfl

end Relisted

/-! ## What always holds is kept -/

section Kept

variable {s t : CronStore}

structure JobAt (s : CronStore) (id : String) : Prop where
  listed : ∀ {m}, s.listed id = some m → (s.rowDoc id).map member = some m
  unlisted : ∀ {doc}, s.rowDoc id = some doc → s.listed id = none → ∃ j, importOf j s.log = some (id, doc)
  imports : ∀ {j doc}, importOf j s.log = some (id, doc) → s.rowDoc id = some doc
  single : ∀ {j k doc doc'}, importOf j s.log = some (id, doc) → importOf k s.log = some (id, doc') → j = k

theorem JobsListed.at_ (h : JobsListed s) (id) : JobAt s id :=
  ⟨h.listed, h.unlisted, h.imports, h.single⟩

theorem JobsListed.of_at (h : ∀ id, JobAt s id) (ha : ∀ {a}, s.ledger = some a → a.doc.check = true) :
    JobsListed s :=
  ⟨(h _).listed, (h _).unlisted, (h _).imports, (h _).single, ha⟩

variable {id job : String} {i : Nat} {bo : Body} {en : LeaseEvent}

theorem JobAt.congr (h : JobAt s id) (hr : t.rowDoc id = s.rowDoc id) (hl : t.listed id = s.listed id)
    (hi : ∀ j doc, importOf j t.log = some (id, doc) ↔ importOf j s.log = some (id, doc)) :
    JobAt t id := by
  refine ⟨fun hm => ?_, fun hd hn => ?_, fun hj => ?_, fun hj hk => ?_⟩
  · rw [hl] at hm
    rw [hr]
    exact h.listed hm
  · rw [hr] at hd
    rw [hl] at hn
    obtain ⟨j, hj⟩ := h.unlisted hd hn
    exact ⟨j, (hi j _).mpr hj⟩
  · rw [hr]
    exact h.imports ((hi _ _).mp hj)
  · exact h.single ((hi _ _).mp hj) ((hi _ _).mp hk)

theorem JobsListed.congr (h : JobsListed s) (hr : ∀ id, t.rowDoc id = s.rowDoc id)
    (hl : t.ledger = s.ledger) (hi : ∀ j, importOf j t.log = importOf j s.log) : JobsListed t := by
  refine .of_at (fun id => (h.at_ id).congr (hr id) ?_ fun j doc => ?_) fun ha => h.admitted (hl ▸ ha)
  · rw [CronStore.listed, hl, CronStore.listed]
  · rw [hi]

/-- Only one job is changed. -/
theorem JobsListed.changed (h : JobsListed s) (hr : ∀ id', id' ≠ id → t.rowDoc id' = s.rowDoc id')
    (hl : ∀ id', id' ≠ id → t.listed id' = s.listed id')
    (hi : ∀ j id' doc, id' ≠ id → (importOf j t.log = some (id', doc) ↔ importOf j s.log = some (id', doc)))
    (hj : JobAt t id) (ha : ∀ {a}, t.ledger = some a → a.doc.check = true) : JobsListed t := by
  refine .of_at (fun id' => ?_) ha
  by_cases hn : id' = id
  · exact hn ▸ hj
  · exact (h.at_ id').congr (hr id' hn) (hl id' hn) fun j doc => hi j id' doc hn

theorem LeasesTaken.congr (h : LeasesTaken s) (hl : ∀ job oc, t.lease job oc = s.lease job oc)
    (ho : s.log <+: t.log) : LeasesTaken t where
  begun {job oc} hs := by
    rw [hl] at hs
    exact le_trans (h.begun hs) (beginnings_mono ho)
  taken {job oc bo} hb := by
    rw [leaseBody, hl] at hb
    exact (h.taken hb).mono ho

theorem getElem?_grown {α : Type} {l l'} (h : l <+: l') {n : Nat} {a : α}
    (ha : l[n]? = some a) : l'[n]? = some a := by
  obtain ⟨mo, rfl⟩ := h
  rw [List.getElem?_append_left (List.getElem?_eq_some_iff.mp ha).1]
  exact ha

theorem TokensOwned.congr (h : TokensOwned s) (hl : t.log = s.log) (hi : s.issued <+: t.issued) :
    TokensOwned t := by
  intro j e tk hm ht
  rw [hl] at hm
  obtain ⟨n, hn, ho⟩ := h j e tk hm ht
  exact ⟨n, hn, getElem?_grown hi ho⟩

theorem TokensOwned.noted {e} (h : TokensOwned s) (hl : t.log = s.log ++ [(i, e)])
    (hi : t.issued = s.issued)
    (hn : ∀ tk, e.token = some tk → ∃ n, tk = uuidOf n ∧ s.issued[n]? = some i) :
    TokensOwned t := by
  intro j e' tk hm ht
  rw [hi]
  rw [hl, mem_append, mem_singleton] at hm
  rcases hm with hm | hm
  · exact h j e' tk hm ht
  · cases hm
    exact hn tk ht

theorem lookup_withJob_self (a : Admission) (id next) :
    (a.withJob id next).jobs.lookup id = next.map member := by
  cases next with
  | none => exact AList.lookup_erase _ _
  | some doc => exact AList.lookup_insert _

theorem lookup_withJob_ne (a : Admission) {id'} (next) (h : id' ≠ id) :
    (a.withJob id next).jobs.lookup id' = a.jobs.lookup id' := by
  cases next with
  | none => exact AList.lookup_erase_ne h
  | some doc => exact AList.lookup_insert_ne h

theorem JobsListed.withJob {next ld v} (h : JobsListed s) (hl : s.ledger = some ld)
    (hl' : t.ledger = some ⟨v, ld.doc.withJob id next⟩)
    (hc : (ld.doc.withJob id next).check = true) (hr : t.rowDoc id = next)
    (hrow_ne : ∀ id', id' ≠ id → t.rowDoc id' = s.rowDoc id')
    (him : ∀ j doc, importOf j t.log = some (id, doc) → next = some doc)
    (himport_ne : ∀ j id' doc, id' ≠ id → importOf j s.log = some (id', doc) →
      importOf j t.log = some (id', doc))
    (himport_of : ∀ j job, importOf j t.log = some job → importOf j s.log = some job) :
    JobsListed t := by
  have hs : t.listed id = next.map member := by
    rw [CronStore.listed, hl']
    exact lookup_withJob_self _ _ _
  refine h.changed hrow_ne (fun id' hi => ?_)
    (fun j id' doc hi => ⟨himport_of j _, himport_ne j id' doc hi⟩)
    ⟨fun hm => ?_, fun hd hn => ?_, fun {j doc} hj => ?_, fun hj hk => ?_⟩ fun {a} ha => ?_
  · rw [CronStore.listed, hl', CronStore.listed, hl]
    exact lookup_withJob_ne _ _ hi
  · rw [hr, ← hs, hm]
  · rw [hs, ← hr, hd] at hn
    cases hn
  · rw [hr]
    exact him j doc hj
  · exact h.single (himport_of _ _ hj) (himport_of _ _ hk)
  · rw [hl'] at ha
    cases ha
    exact hc

theorem JobsListed.relisted {li} {ro : List (String × Versioned JobDoc)} {v}
    (h : JobsListed s) (hR : ∀ row ∈ ro, s.rowDoc row.1 = some row.2.doc)
    (hi : ∀ id, s.listed id ≠ none → ∃ row ∈ ro, row.1 = id)
    (he' : t.ledger = some ⟨v, .ofRows li ro⟩)
    (hc : (Admission.ofRows li ro).check = true) (hr : ∀ id, t.rowDoc id = s.rowDoc id)
    (hl : t.log = s.log) : JobsListed t := by
  have ho : ∀ id, t.listed id =
      if ∃ row ∈ ro, row.1 = id then (s.rowDoc id).map member else none := by
    intro id
    rw [CronStore.listed, he']
    exact lookup_ofRows hR id
  refine .of_at (fun id => ⟨fun {m} hm => ?_, fun {doc} hd hn => ?_, ?_, ?_⟩) fun {a} ha => ?_
  · rw [ho] at hm
    split_ifs at hm
    rw [hr, hm]
  · rw [hr] at hd
    rw [ho] at hn
    split_ifs at hn with hM
    · rw [hd] at hn
      cases hn
    · rw [hl]
      refine h.unlisted hd ?_
      by_contra hs
      exact hM (hi id hs)
  · rw [hl, hr]
    exact h.imports
  · rw [hl]
    exact h.single
  · rw [he'] at ha
    cases ha
    exact hc

theorem LeaseStep.tenure {bf} (h : LeaseStep i s job bf bo en) :
    (∃ n tm re, Leases.acquireBody (uuidOf n) tm re bf = .ok (some bo) ∧
      s.issued[n]? = some i ∧ Unused s.log (uuidOf n) ∧ en = .taken re bo) ∨
    (∃ b, bf = some b ∧ bo.holder = b.holder ∧ bo.epoch = b.epoch ∧
      ∀ oc, (Event.lease job oc en).token = none ∧
        ∀ job' oc', (Event.lease job oc en).begins job' oc' = false) := by
  cases h with
  | taken hb hi hu => exact .inl ⟨_, _, _, hb, hi, hu, rfl⟩
  | renewed ht => exact .inr ⟨_, rfl, rfl, rfl, fun _ => ⟨rfl, fun _ _ => rfl⟩⟩
  | ended ht he =>
    refine .inr ⟨_, rfl, rfl, rfl, fun _ => ?_⟩
    cases he <;> exact ⟨rfl, fun _ _ => rfl⟩
  | freed hd => exact .inr ⟨_, rfl, rfl, rfl, fun _ => ⟨rfl, fun _ _ => rfl⟩⟩

theorem LeaseStep.begins_of_none (h : LeaseStep i s job none bo en) (oc) :
    (Event.lease job oc en).begins job oc = true := by
  obtain ⟨n, ttlMs, rd, ho, -, -, rfl⟩ | ⟨b, hb, -⟩ := h.tenure
  · obtain ⟨-, -, -, ⟨-, he⟩ | ⟨b, hb, -⟩⟩ := Leases.acquireBody_cases ho
    · simp [Event.begins, he]
    · cases hb
  · cases hb

end Kept

section Leased

variable {s : CronStore} {i : Nat} {job : String} {oc : Int} {bf : Option Body}
  {bo : Body} {en : LeaseEvent} {pre : Precondition}

variable {nt : Option Event}

theorem leased_lease_self :
    lease (s.commit i [.put (.lease job oc) bo pre] nt) job oc =
      some ⟨s.docs.nextVersion (CronKey.lease job oc), bo⟩ := by
  rw [lease, commit_docs, foldl_cons, foldl_nil, lookup_apply_put]

theorem leased_lease_ne {job' oc'} (h : (job', oc') ≠ (job, oc)) :
    lease (s.commit i [.put (.lease job oc) bo pre] nt) job' oc' =
      s.lease job' oc' := by
  refine lookup_commit fun op ho => ?_
  cases mem_singleton.mp ho
  intro hk
  cases hk
  exact h rfl

section

variable (h : LeasesTaken s) (hs : LeaseStep i s job bf bo en)
  (he : beginnings job oc s.log ≤ 1 → s.leaseBody job oc = bf)
include h hs he

theorem begun_of_lease : 1 ≤ beginnings job oc (s.log ++ [(i, .lease job oc en)]) := by
  rw [beginnings_append]
  by_cases hz : 1 ≤ beginnings job oc s.log
  · omega
  · have hn : s.lease job oc = none := by
      by_contra ho
      exact hz (h.begun ho)
    have hb := he (by omega)
    rw [leaseBody, hn] at hb
    subst hb
    have hg := hs.begins_of_none oc
    simp [beginnings, hg]

theorem LeasesTaken.leased (ht : ∀ b, bf = some b → TakenBy s.log job oc b.holder b.epoch) :
    LeasesTaken (s.commit i [.put (.lease job oc) bo pre]
      (some (.lease job oc en))) := by
  have hl : s.log <+: s.log ++ [(i, Event.lease job oc en)] := prefix_append _ _
  refine ⟨fun {job' oc'} ho => ?_, fun {job' oc' bo'} hb' => ?_⟩
  · by_cases hk : (job', oc') = (job, oc)
    · cases hk
      exact begun_of_lease h hs he
    · rw [leased_lease_ne hk] at ho
      exact le_trans (h.begun ho) (beginnings_mono hl)
  · by_cases hk : (job', oc') = (job, oc)
    · cases hk
      rw [leaseBody, leased_lease_self] at hb'
      cases hb'
      obtain ⟨n, ttlMs, rd, -, -, -, rfl⟩ | ⟨b, rfl, hh, hp, -⟩ := hs.tenure
      · exact ⟨i, rd, bo, by simp, rfl, rfl⟩
      · rw [hh, hp]
        exact (ht b rfl).mono hl
    · rw [leaseBody, leased_lease_ne hk] at hb'
      exact (h.taken hb').mono hl

end

theorem LeasesTaken.compacted (h : LeasesTaken s) :
    LeasesTaken (s.commit i [.delete (.lease job oc) pre] none) := by
  have hl : ∀ job' oc' a,
      lease (s.commit i [.delete (.lease job oc) pre] none) job' oc' = some a →
      s.lease job' oc' = some a := by
    intro job' oc' a ha
    by_cases hk : CronKey.lease job' oc' = .lease job oc
    · cases hk
      rw [lease, commit_docs, foldl_cons, foldl_nil, lookup_apply_delete] at ha
      cases ha
    · rwa [lease, commit_docs, foldl_cons, foldl_nil, lookup_apply_delete_ne hk] at ha
  refine ⟨fun {job' oc'} hs => ?_, fun {job' oc' bo'} hb' => ?_⟩
  · obtain ⟨a, ha⟩ := ne_none_iff_exists'.mp hs
    rw [commit_log, map_none, toList_none, append_nil]
    exact h.begun (by rw [hl _ _ a ha]; exact nofun)
  · obtain ⟨a, ha, rfl⟩ := map_eq_some_iff.mp hb'
    rw [commit_log, map_none, toList_none, append_nil]
    exact h.taken (by rw [leaseBody, hl _ _ a ha]; rfl)

end Leased

/-! ## One write -/

section Write

variable {M : String → RowEvent → Prop} {s t : CronStore} {i : Nat}

variable {nt : Option Event} {en : RowEvent} {id : String} {next pr : Option JobDoc}
  {cl : ClaimLease} {doc : JobDoc}

theorem Housekeeping.frame {ops} (hops : ∀ op ∈ ops, Housekeeping op)
    {k} (hk : k ≠ .runCounter ∧ ∀ seq, k ≠ .run seq) :
    (s.commit i ops nt).docs.lookup k = s.docs.lookup k := by
  refine lookup_commit fun op ho hq => ?_
  rcases (hops op ho).key with he | ⟨seq, he⟩
  · exact hk.1 (hq.symm.trans he)
  · exact hk.2 seq (hq.symm.trans he)

theorem RowEvent.Fits.token (h : en.Fits i s id pr next) (tk)
    (ht : (Event.row id en).token = some tk) : ∃ n, tk = uuidOf n ∧ s.issued[n]? = some i := by
  cases h with
  | acquired hc =>
    cases ht
    exact hc.token
  | _ => cases ht

theorem LeaseStep.token {job bf bo en} (h : LeaseStep i s job bf bo en) (oc tk)
    (ht : (Event.lease job oc en).token = some tk) :
    ∃ n, tk = uuidOf n ∧ s.issued[n]? = some i := by
  obtain ⟨n, ttlMs, rd, hb, hi, -, rfl⟩ | ⟨b, -, -, -, hq⟩ := h.tenure
  · cases ht
    exact ⟨n, (Leases.acquireBody_cases hb).1, hi⟩
  · rw [(hq oc).1] at ht
    cases ht

theorem carries_iff : doc.carries cl = true ↔
    doc.incarnation = some cl.incarnation ∧ doc.claimEpoch = some cl.epoch ∧
      doc.nextRunMs = cl.occurrence := by
  simp [JobDoc.carries]

theorem Carried.epochTaken {log} (h : Carried log id doc cl) : EpochTaken id doc log := by
  obtain ⟨-, hp, ho⟩ := carries_iff.mp h.carries
  intro ep he
  rw [hp] at he
  cases he
  exact ⟨cl.token, ho ▸ h.taken⟩

theorem RowEvent.Fits.epochTaken (h : en.Fits i s id pr next) (hd : next = some doc) :
    EpochTaken id doc s.log := by
  cases h with
  | created _ he | edited _ he | completed _ _ _ _ he =>
    cases hd
    exact epochTaken_of_none he
  | @acquired _ cl hc =>
    cases hd
    rintro ep ⟨⟩
    refine ⟨cl.token, ?_⟩
    rw [claimedDoc, hc.occurrence]
    exact hc.took.takenBy
  | removed => cases hd
  | queued ha | released ha =>
    cases hd
    exact ha.epochTaken

theorem Inv.epochs_of (h : Inv s) (hl : s.log <+: t.log)
    (hr : ∀ id doc, t.rowDoc id = some doc → s.rowDoc id = some doc ∨ EpochTaken id doc s.log) :
    ∀ id doc, t.rowDoc id = some doc → EpochTaken id doc t.log := fun id doc hd =>
  ((hr id doc hd).elim (h.epochs id doc) fun h => h).mono hl

theorem Inv.epochs_congr (h : Inv s) (hl : s.log <+: t.log) (hr : ∀ id, t.rowDoc id = s.rowDoc id) :
    ∀ id doc, t.rowDoc id = some doc → EpochTaken id doc t.log :=
  h.epochs_of hl fun id _ hd => .inl ((hr id).symm.trans hd)

theorem Change.inv (h : Inv s) (hc : Change M i s t) : Inv t := by
  cases hc with
  | idle => exact h
  | drew =>
    exact ⟨h.toJobsListed.congr (fun _ => rfl) rfl fun _ => rfl,
      h.toLeasesTaken.congr (fun _ _ => rfl) prefix_rfl,
      h.tokens.congr rfl (prefix_append _ _), h.epochs⟩
  | @kept ops hops =>
    have hl : (s.commit i ops none).log = s.log := by simp
    have hr : ∀ id, CronStore.rowDoc (s.commit i ops none) id = s.rowDoc id := fun id =>
      congrArg (Option.map _) (Housekeeping.frame hops (by simp))
    refine ⟨h.toJobsListed.congr hr ?_ fun _ => by rw [hl],
      h.toLeasesTaken.congr (fun job oc => ?_) (hl ▸ prefix_rfl),
      h.tokens.congr hl prefix_rfl, h.epochs_congr (hl ▸ prefix_rfl) hr⟩
    · exact Housekeeping.frame hops (by simp)
    · exact Housekeeping.frame hops (by simp)
  | @leased job oc bf bo en pre hs hb ht =>
    have hr : ∀ id, CronStore.rowDoc (s.commit i [.put (.lease job oc) bo pre]
        (some (.lease job oc en))) id = s.rowDoc id := fun id => rowDoc_commit
    exact ⟨h.toJobsListed.congr hr lookup_commit
        (fun j => importOf_append_offImport (offImport_lease _ _ _) j _),
      h.toLeasesTaken.leased hs hb ht, h.tokens.noted rfl rfl (hs.token _),
      h.epochs_congr (prefix_append _ _) hr⟩
  | @compacted job oc b tk pre hn hH hb =>
    have hl : (s.commit i [.delete (.lease job oc) pre] none).log = s.log := by simp
    have hr : ∀ id, CronStore.rowDoc (s.commit i [.delete (.lease job oc) pre] none) id =
        s.rowDoc id := fun id => rowDoc_commit
    exact ⟨h.toJobsListed.congr hr lookup_commit (fun j => by rw [hl]),
      h.toLeasesTaken.compacted, h.tokens.congr hl prefix_rfl,
      h.epochs_congr (hl ▸ prefix_rfl) hr⟩
  | @committed id en pr next fo ledger ru pre hv hil he hr hf hu hh hp =>
      have hm : ∀ j, importOf j (s.log ++ [(i, .row id en)]) = importOf j s.log :=
        fun j => importOf_append_offImport (offImport_row _ _) j _
      refine ⟨h.toJobsListed.withJob he (committed_ledger hu) hh (committed_rowDoc hu)
          (fun id' hi => congrArg (Option.map _) (committed_row_ne hu hi)) (fun j doc hj => ?_)
          (fun j _ _ _ hj => (hm j).trans hj) (fun j _ hj => (hm j).symm.trans hj),
        h.toLeasesTaken.congr (fun job oc => committed_lease hu job oc)
          (prefix_append _ _),
        h.tokens.noted rfl rfl hf.token,
        h.epochs_of (prefix_append _ _) fun id' doc hd => ?_⟩
      · rw [commit_log, map_some, toList_some, hm] at hj
        by_cases hij : j = i
        · rw [hij, hil] at hj
          cases hj
        · exact hp j hij doc hj
      · by_cases hi : id' = id
        · subst hi
          exact .inr (hf.epochTaken ((committed_rowDoc hu).symm.trans hd))
        · exact .inl ((congrArg (Option.map _) (committed_row_ne hu hi)).symm.trans hd)
  | @relisted li ro pre ho hL hh =>
    have hl : ∀ ops, (s.commit i ops none).log = s.log := by simp
    exact ⟨h.toJobsListed.relisted ho hL relisted_ledger hh (relisted_rowDoc ho) (hl _),
      h.toLeasesTaken.congr relisted_lease (hl _ ▸ prefix_rfl),
      h.tokens.congr (hl _) prefix_rfl,
      h.epochs_congr (hl _ ▸ prefix_rfl) (relisted_rowDoc ho)⟩

section Import

variable {id : String} {doc : JobDoc} (h : JobsListed s)
  (hr : ∀ id', id' ≠ id → t.rowDoc id' = s.rowDoc id') (hl : t.ledger = s.ledger)
include h hr hl

/-- A call begins or ends the import of a job, and the ledger does not list it. -/
theorem JobsListed.importing {e} (ho : t.log = s.log ++ [(i, e)])
    (hs : ∀ id' doc, id' ≠ id → importOf i s.log ≠ some (id', doc))
    (ht : ∀ id' doc, id' ≠ id → importOf i t.log ≠ some (id', doc)) (hj : JobAt t id) : JobsListed t := by
  refine h.changed hr (fun id' _ => by rw [CronStore.listed, hl, CronStore.listed])
    (fun j id' doc hn => ?_) hj fun ha => h.admitted (hl ▸ ha)
  by_cases hi : i = j
  · subst hi
    exact iff_of_false (ht id' doc hn) (hs id' doc hn)
  · rw [ho, importOf_append, if_neg hi]

theorem JobsListed.written (hn : s.rowDoc id = none) (hil : importOf i s.log = none)
    (hw : t.rowDoc id = some doc) (ho : t.log = s.log ++ [(i, .imported id (.written doc))]) :
    JobsListed t := by
  have hs : importOf i t.log = some (id, doc) := by
    rw [ho, importOf_append_self]
    rfl
  have hM : ∀ {j doc'}, importOf j t.log = some (id, doc') → i = j := by
    intro j doc' hj
    by_contra hi
    rw [ho, importOf_append, if_neg hi] at hj
    rw [h.imports hj] at hn
    cases hn
  refine h.importing hr hl ho (by simp [hil]) (fun id' _ hi => by simp [hs, Ne.symm hi])
    ⟨fun {m} hm => ?_, fun {doc'} hc _ => ?_, fun {j doc'} hj => ?_,
      fun hj hk => (hM hj).symm.trans (hM hk)⟩
  · rw [CronStore.listed, hl] at hm
    have he := h.listed hm
    rw [hn] at he
    cases he
  · rw [hw] at hc
    cases hc
    exact ⟨i, hs⟩
  · obtain rfl := hM hj
    rw [hs] at hj
    cases hj
    exact hw

theorem JobsListed.takenBack (him : importOf i s.log = some (id, doc)) (hu : s.listed id = none)
    (hw : t.rowDoc id = none) (ho : t.log = s.log ++ [(i, .imported id .takenBack)]) : JobsListed t := by
  have hs : importOf i t.log = none := by
    rw [ho, importOf_append_self]
    rfl
  have hn : ∀ {j doc'}, importOf j t.log ≠ some (id, doc') := by
    intro j doc' hj
    by_cases hi : i = j
    · rw [← hi, hs] at hj
      cases hj
    · rw [ho, importOf_append, if_neg hi] at hj
      exact hi (h.single him hj)
  refine h.importing hr hl ho (fun id' _ hi => by simp [him, Ne.symm hi]) (by simp [hs])
    ⟨fun hm => ?_, fun hc => ?_, fun hj => absurd hj hn, fun hj => absurd hj hn⟩
  · rw [CronStore.listed, hl, ← CronStore.listed, hu] at hm
    cases hm
  · rw [hw] at hc
    cases hc

end Import

theorem enrolled_ledger {a : Admission} {pre} :
    CronStore.ledger (s.commit i [.put .ledger a pre] nt) =
      some ⟨s.docs.nextVersion CronKey.ledger, a⟩ := by
  rw [CronStore.ledger, commit_docs, foldl_cons, foldl_nil, lookup_apply_put]

theorem ImportChange.inv (h : Inv s) (hc : ImportChange i s t) : Inv t := by
  cases hc with
  | @written id doc pre hr he hl =>
    have hn : ∀ id', id' ≠ id → CronStore.rowDoc (s.commit i [.put (.job id) doc pre]
        (some (.imported id (.written doc)))) id' = s.rowDoc id' :=
      fun id' hi => rowDoc_commit (by simp [key, Ne.symm hi])
    have hs : CronStore.rowDoc (s.commit i [.put (.job id) doc pre]
        (some (.imported id (.written doc)))) id = some doc := by
      simp [CronStore.rowDoc, CronStore.row]
    refine ⟨h.toJobsListed.written hn lookup_commit (by rw [CronStore.rowDoc, hr]; rfl)
        hl hs rfl,
      h.toLeasesTaken.congr (fun job oc => lookup_commit) (prefix_append _ _),
      h.tokens.noted rfl rfl (fun _ ht => by cases ht), h.epochs_of (prefix_append _ _) fun id' doc' hd => ?_⟩
    by_cases hi : id' = id
    · subst hi
      cases hs.symm.trans hd
      exact .inr (epochTaken_of_none he)
    · exact .inl ((hn id' hi).symm.trans hd)
  | @enrolled id doc ld pre hm hL hh =>
    have hr : ∀ id', CronStore.rowDoc (s.commit i [.put .ledger (ld.doc.withJob id (some doc)) pre]
        (some (.imported id .enrolled))) id' = s.rowDoc id' := fun id' => rowDoc_commit
    have ho : ∀ j job, importOf j (s.log ++ [(i, .imported id .enrolled)]) = some job →
        i ≠ j ∧ importOf j s.log = some job := by
      intro j job hj
      rw [importOf_append] at hj
      split_ifs at hj with hi
      · cases hj
      · exact ⟨hi, hj⟩
    refine ⟨h.toJobsListed.withJob hL enrolled_ledger hh ((hr id).trans (h.imports hm))
        (fun id' _ => hr id') (fun j doc' hj => ?_) (fun j id' doc' hi hj => ?_) fun j job hj => (ho j job hj).2,
      h.toLeasesTaken.congr (fun job oc => lookup_commit) (prefix_append _ _),
      h.tokens.noted rfl rfl (fun _ ht => by cases ht), h.epochs_congr (prefix_append _ _) hr⟩
    · exact (h.imports hm).symm.trans (h.imports (ho j _ hj).2)
    · have hij : i ≠ j := by
        rintro rfl
        rw [hm] at hj
        cases hj
        exact hi rfl
      exact (importOf_append.trans (if_neg hij)).trans hj
  | @takenBack id doc pre hm hu =>
    have hn : ∀ id', id' ≠ id → CronStore.rowDoc (s.commit i [.delete (.job id) pre]
        (some (.imported id .takenBack))) id' = s.rowDoc id' :=
      fun id' hi => rowDoc_commit (by simp [key, Ne.symm hi])
    have hs : CronStore.rowDoc (s.commit i [.delete (.job id) pre]
        (some (.imported id .takenBack))) id = none := by
      simp [CronStore.rowDoc, CronStore.row]
    refine ⟨h.toJobsListed.takenBack hn lookup_commit hm hu hs rfl,
      h.toLeasesTaken.congr (fun job oc => lookup_commit) (prefix_append _ _),
      h.tokens.noted rfl rfl (fun _ ht => by cases ht), h.epochs_of (prefix_append _ _) fun id' doc' hd => ?_⟩
    by_cases hi : id' = id
    · subst hi
      cases hs.symm.trans hd
    · exact .inl ((hn id' hi).symm.trans hd)

end Write

/-! ## What the others leave alone -/

section Rely

variable {M : String → RowEvent → Prop} {s t u : CronStore} {i j : Nat}

theorem Guarded.of_same (hl : t.ledger = s.ledger)
    (hr : ∀ id, s.listed id ≠ none → t.row id = s.row id) : Guarded s t := by
  intro a ha
  refine ⟨a, hl.trans ha, le_refl _, fun _ => ⟨rfl, fun id hi => hr id ?_⟩⟩
  rwa [CronStore.listed, ha]

theorem Guarded.of_next {a}
    (hl : t.ledger = some ⟨s.docs.nextVersion CronKey.ledger, a⟩) : Guarded s t := by
  intro b hb
  have hv : s.docs.nextVersion CronKey.ledger = b.version + 1 := by
    rw [Documents.nextVersion, show s.docs.lookup CronKey.ledger = some b from hb]
    rfl
  rw [hv] at hl
  exact ⟨_, hl, Nat.le_succ _, fun he => absurd he (Nat.ne_of_lt (Nat.lt_succ_self _))⟩

theorem Guarded.trans (h : Guarded s t) (h' : Guarded t u) : Guarded s u := by
  intro a ha
  obtain ⟨b, hb, hab, hs⟩ := h a ha
  obtain ⟨c, hc, hB, hs'⟩ := h' b hb
  refine ⟨c, hc, le_trans hab hB, fun he => ?_⟩
  obtain ⟨rfl, hr⟩ := hs (by omega)
  obtain ⟨rfl, hr'⟩ := hs' (by omega)
  exact ⟨rfl, fun id hi => (hr' id hi).trans (hr id hi)⟩

variable {job : String} {oc : Int}

theorem LeaseGuarded.of_same (h : t.lease job oc = s.lease job oc) : LeaseGuarded job oc s t :=
  ⟨fun a ha => .inr ⟨a, h.trans ha, le_refl _, fun _ => rfl⟩, fun hn _ => h.trans hn⟩

theorem LeaseGuarded.trans (hl : t.log <+: u.log) (hl' : s.log <+: t.log)
    (h : LeaseGuarded job oc s t) (h' : LeaseGuarded job oc t u) : LeaseGuarded job oc s u := by
  refine ⟨fun a ha => ?_, fun hn he => ?_⟩
  · rcases h.stays a ha with ⟨hn, he⟩ | ⟨b, hb, hab, hq⟩
    · exact .inl ⟨h'.dropped hn he, le_trans he (beginnings_mono hl)⟩
    · rcases h'.stays b hb with hd | ⟨c, hc, hB, hq'⟩
      · exact .inl hd
      · refine .inr ⟨c, hc, le_trans hab hB, fun hv => ?_⟩
        rw [hq (by omega), hq' (by omega)]
  · exact h'.dropped (h.dropped hn he) (le_trans he (beginnings_mono hl'))

theorem Rely.refl (i s) : Rely i s s where
  log := prefix_rfl
  issued := prefix_rfl
  own := rfl
  guarded := .of_same rfl fun _ _ => rfl
  leases _ _ _ := .of_same rfl

theorem Rely.trans (h : Rely i s t) (h' : Rely i t u) : Rely i s u where
  log := h.log.trans h'.log
  issued := h.issued.trans h'.issued
  own := h'.own.trans h.own
  guarded := h.guarded.trans h'.guarded
  leases job oc ho :=
    (h.leases job oc (le_trans (beginnings_mono h'.log) ho)).trans h'.log h.log
      (h'.leases job oc ho)

theorem Rely.importOf_eq (h : Rely i s t) : importOf i t.log = importOf i s.log := by
  rw [importOf, h.own, importOf]

theorem Rely.of_commit {ops nt} (hi : i ≠ j) (hg : Guarded s (s.commit i ops nt))
    (hl : ∀ job oc, beginnings job oc (s.commit i ops nt).log ≤ 1 →
      LeaseGuarded job oc s (s.commit i ops nt)) : Rely j s (s.commit i ops nt) where
  log := prefix_append _ _
  issued := prefix_rfl
  own := by
    have ho : ∀ e ∈ (nt.map fun n => (i, n)).toList, e.1 = i := by simp
    rw [commit_log, own_append, own_of_others ho hi, append_nil]
  guarded := hg
  leases := hl

theorem LeaseGuarded.leased {job job' oc oc' bf bo en pre} (hs : LeaseStep i s job bf bo en)
    (he : beginnings job oc s.log ≤ 1 → s.leaseBody job oc = bf)
    (ho : beginnings job' oc' (s.log ++ [(i, .lease job oc en)]) ≤ 1) :
    LeaseGuarded job' oc' s (s.commit i [.put (.lease job oc) bo pre]
      (some (.lease job oc en))) := by
  by_cases hk : (job', oc') = (job, oc)
  · cases hk
    refine ⟨fun a ha => .inr ⟨_, leased_lease_self, ?_⟩, fun hn hB => ?_⟩
    · have hv : s.docs.nextVersion (CronKey.lease job oc) = a.version + 1 := by
        rw [Documents.nextVersion, show s.docs.lookup (CronKey.lease job oc) = some a from ha]
        rfl
      rw [hv]
      exact ⟨Nat.le_succ _, fun hq => absurd hq (Nat.ne_of_lt (Nat.lt_succ_self _))⟩
    · -- The record would be begun a second time.
      rw [beginnings_append] at ho
      have hb := he (by omega)
      rw [leaseBody, hn] at hb
      subst hb
      have hg := hs.begins_of_none oc
      have hS : beginnings job oc [(i, .lease job oc en)] = 1 := by
        simp [beginnings, hg]
      omega
  · exact .of_same (leased_lease_ne hk)

theorem LeaseGuarded.compacted {job job' oc oc' pre} (h : LeasesTaken s) :
    LeaseGuarded job' oc' s (s.commit i [.delete (.lease job oc) pre] none) := by
  by_cases hk : CronKey.lease job' oc' = .lease job oc
  · cases hk
    have hn : lease (s.commit i [.delete (.lease job oc) pre] none) job oc = none := by
      rw [lease, commit_docs, foldl_cons, foldl_nil, lookup_apply_delete]
    refine ⟨fun a ha => .inl ⟨hn, ?_⟩, fun _ _ => hn⟩
    rw [commit_log, map_none, toList_none, append_nil]
    exact h.begun (by rw [ha]; exact nofun)
  · refine .of_same ?_
    rw [lease, commit_docs, foldl_cons, foldl_nil, lookup_apply_delete_ne hk]
    rfl

theorem Change.rely (hi : i ≠ j) (h : Inv s) (hc : Change M i s t) : Rely j s t := by
  cases hc with
  | idle => exact .refl j s
  | drew =>
    exact ⟨prefix_rfl, prefix_append _ _, rfl, .of_same rfl fun _ _ => rfl, fun _ _ _ => .of_same rfl⟩
  | kept hops =>
    exact .of_commit hi
      (.of_same (Housekeeping.frame hops (by simp)) fun id _ => Housekeeping.frame hops (by simp))
      fun job oc _ => .of_same (Housekeeping.frame hops (by simp))
  | leased hs hb ht =>
    exact .of_commit hi (.of_same lookup_commit fun id _ => lookup_commit)
      fun job oc ho => .leased hs hb ho
  | compacted hf hH hb =>
    exact .of_commit hi (.of_same lookup_commit fun id _ => lookup_commit)
      fun job oc _ => .compacted h.toLeasesTaken
  | committed he hd hl hw hF hr hh hm =>
    exact .of_commit hi (.of_next (committed_ledger hr))
      fun job oc _ => .of_same (committed_lease hr job oc)
  | relisted hR hL hh =>
    exact .of_commit hi (.of_next relisted_ledger)
      fun job oc _ => .of_same (relisted_lease job oc)

theorem ImportChange.rely (hi : i ≠ j) (h : Inv s) (hc : ImportChange i s t) : Rely j s t := by
  have hl : ∀ {id id'}, s.listed id = none → s.listed id' ≠ none → id ≠ id' := by
    rintro id _ hn hs rfl
    exact hs hn
  cases hc with
  | @written id doc pre hr hp hil =>
    have hu : s.listed id = none := by
      by_contra hm
      obtain ⟨m, hm⟩ := ne_none_iff_exists'.mp hm
      have he := h.listed hm
      rw [CronStore.rowDoc, hr] at he
      cases he
    exact .of_commit hi (.of_same lookup_commit
      fun id' hd => lookup_commit (by simp [key, hl hu hd])) fun job oc _ => .of_same lookup_commit
  | @enrolled id doc ld pre him hL hh =>
    exact .of_commit hi (.of_next enrolled_ledger) fun job oc _ => .of_same lookup_commit
  | @takenBack id doc pre him hu =>
    exact .of_commit hi (.of_same lookup_commit
      fun id' hd => lookup_commit (by simp [key, hl hu hd])) fun job oc _ => .of_same lookup_commit

end Rely

end Tinyflows.Cron
