import Tinyflows.Cron.Lemmas.Edits

/-!
# The admission ledger

Everything that writes a job writes the ledger with it, except imports: those write the job first and
enrol it afterwards. The ledger is exact as long as nobody gets in between.
-/

namespace Tinyflows.Cron
open Lib Storage List

/-- While a call imports a job, the others write the job's row only as that call wrote it; and a job that
an import takes back is not listed by then, and taking it back does not fail. -/
def Undisturbed (i : Nat) (s : CronStore) : (c : Call CronDocs Event) → c.Reply → CronStore → Prop
  | .write ops note, r, _ => (r = .ok () → Respects i s ops) ∧
      ∀ id, note = some (.imported id .takenBack) → r = .ok () ∧ s.listed id = none
  | _, _, _ => True

variable {cfg : CronConfig}

def cronDiscipline (cfg : CronConfig) : Discipline ((cronSystem cfg).limited Undisturbed) where
  inv := Inv
  rely := Rely
  guarantee _ i s t := Change (fun _ _ => True) i s t ∨ ImportChange i s t
  fresh i s := own i s.log = []
  post _ i s _ := Idle i s

theorem cronDiscipline_under (op i) :
    Under (fun _ _ => True) i ((cronDiscipline cfg).terms op i) where
  serves h := h.1
  respects _ h := h.2.1 rfl
  inv h := h
  rely h := h
  allows h := .inl h
  keeps h _ hc := hc.inv h

theorem cronDiscipline_underImport (op i) : UnderImport i ((cronDiscipline cfg).terms op i) where
  allows h := .inr h
  keeps h _ hc := hc.inv h
  takesBack h := h.2.2 _ rfl

variable {s : CronStore} {w : CronWorld} {doc : JobDoc} {id : String}

theorem idle_of_fresh {i} (h : own i s.log = []) : Idle i s := by
  rw [Idle, importOf, h]
  rfl

theorem cronDiscipline_kept : (cronDiscipline cfg).Kept where
  refl := Rely.refl
  trans _ {_ _ _} h h' := h.trans h'
  relies {i j op s t} hi hs h := h.elim (Change.rely hi hs) (ImportChange.rely hi hs)
  unused {i j op s t} hi hs h hf := by
    have hr := h.elim (Change.rely hi hs) (ImportChange.rely hi hs)
    exact hr.own.trans hf
  begins op i s hs hf :=
    Ensures.meets (ensures_cronAccess (cronDiscipline_under op i) (cronDiscipline_underImport op i) cfg op)
      hs (idle_of_fresh hf)

/-! ## Every run -/

theorem inv_empty : Inv {} where
  listed h := by cases h
  unlisted h := by cases h
  imports h := by cases h
  single h := by cases h
  admitted h := by cases h
  begun h := absurd rfl h
  taken h := by cases h
  tokens _ _ _ h := by cases h
  epochs _ _ h := by cases h

theorem cron_settled (h : Runs ((cronSystem cfg).limited Undisturbed) { store := {} } w) :
    (cronDiscipline cfg).Settled w :=
  cronDiscipline_kept.settled_runs (Discipline.settled_initial inv_empty fun _ => rfl) h

theorem importing_runs (h : (cronDiscipline cfg).Settled w) {j}
    (hj : importOf j w.store.log = some (id, doc)) :
    ∃ op p, w.running[j]? = some (op, p) ∧ ∀ r, p ≠ .done r := by
  cases ha : w.running[j]? with
  | none =>
    have hi := idle_of_fresh (h.unused j (getElem?_eq_none_iff.mp ha))
    rw [Idle, hj] at hi
    cases hi
  | some e =>
    refine ⟨e.1, e.2, rfl, fun r hr => ?_⟩
    have hi : Idle j w.store := @Discipline.Settled.returned _ _ _ _ _ _ _ _ j e.1 h r
      (by rw [ha, ← hr])
      fun he hp => he.importOf_eq.trans hp
    rw [Idle, hj] at hi
    cases hi

def CronStore.enabledJobs (s : CronStore) : List (String × Versioned JobDoc) :=
  (jobRows s).filter (·.2.doc.enabled)

def CronKey.jobId : CronKey → Option String
  | .job id => some id
  | _ => none

theorem nodup_jobRows (s) : ((jobRows s).map (·.1)).Nodup := by
  have he : s.docs.keys.Nodup := s.docs.nodupKeys
  have hi : (jobRows s).map (·.1) = s.docs.keys.filterMap CronKey.jobId := by
    rw [jobRows, AList.keys, List.keys, map_filterMap, filterMap_filter, filterMap_map]
    refine filterMap_congr fun e _ => ?_
    rcases e with ⟨k, v⟩
    cases k <;> rfl
  rw [hi]
  refine he.filterMap fun k k' id hk hk' => ?_
  cases k <;> cases hk
  cases k' <;> cases hk'
  rfl

theorem mem_entries_of_lookup {a : Admission} {m} (h : a.jobs.lookup id = some m) :
    ⟨id, m⟩ ∈ a.jobs.entries :=
  AList.mem_lookup_iff.mp h

theorem enabledJobs_le_active {a : Versioned Admission} (hl : s.ledger = some a)
    (hi : ∀ id, s.listed id = (s.rowDoc id).map member) : s.enabledJobs.length ≤ a.doc.active := by
  have hn : (s.enabledJobs.map (·.1)).Nodup :=
    (nodup_jobRows s).sublist (filter_sublist.map _)
  have hs : s.enabledJobs.map (·.1) ⊆ (a.doc.jobs.entries.filter (·.2.enabled)).map (·.1) := by
    intro id hd
    obtain ⟨⟨id, row⟩, hr, rfl⟩ := mem_map.mp hd
    obtain ⟨he, hE⟩ := mem_filter.mp hr
    have hm : s.listed id = some (member row.doc) := by
      rw [hi, CronStore.rowDoc, mem_jobRows.mp he]
      rfl
    rw [CronStore.listed, hl] at hm
    exact mem_map.mpr ⟨⟨id, member row.doc⟩, mem_filter.mpr ⟨mem_entries_of_lookup hm, hE⟩, rfl⟩
  have hL := (subperm_of_subset hn hs).length_le
  rwa [length_map, length_map] at hL

theorem listed_of_quiet (h : (cronDiscipline cfg).Settled w) (hq : w.Quiet) (id) :
    w.store.listed id = (w.store.rowDoc id).map member := by
  cases hl : w.store.listed id with
  | some m => exact (h.inv.listed hl).symm
  | none =>
    cases ho : w.store.rowDoc id with
    | none => rfl
    | some doc =>
      obtain ⟨j, hj⟩ := h.inv.unlisted ho hl
      obtain ⟨op, p, ha, hu⟩ := importing_runs h hj
      obtain ⟨r, hr⟩ := hq _ (mem_of_getElem? ha)
      exact absurd hr (hu r)

/-- As long as imports are undisturbed: whenever no call is in progress the ledger lists exactly the
stored jobs, as they are, and no more of them are enabled than the cap allows. And at any time a job
that the ledger does not list is being imported by a call that has not returned. -/
theorem ledger_exact {w : CronWorld}
    (h : Runs ((cronSystem cfg).limited Undisturbed) { store := {} } w) :
    (w.Quiet → (∀ id, w.store.listed id = (w.store.rowDoc id).map member) ∧
      ∀ a limit, w.store.ledger = some a → a.doc.limit = some limit →
        w.store.enabledJobs.length ≤ limit) ∧
    ∀ id doc, w.store.rowDoc id = some doc → w.store.listed id = none →
      ∃ j op p, w.running[j]? = some (op, p) ∧ (∀ r, p ≠ .done r) ∧
        importOf j w.store.log = some (id, doc) := by
  have hsettled := cron_settled h
  refine ⟨fun hquiet => ⟨listed_of_quiet hsettled hquiet, fun a limit hledger hlimit => ?_⟩,
    fun id doc hrow hunlisted => ?_⟩
  · have hactive := enabledJobs_le_active hledger (listed_of_quiet hsettled hquiet)
    have hcheck := hsettled.inv.admitted hledger
    simp only [Admission.check, hlimit, Option.all_some, decide_eq_true_eq] at hcheck
    omega
  · obtain ⟨j, hj⟩ := hsettled.inv.unlisted hrow hunlisted
    obtain ⟨op, p, hat, hrunning⟩ := importing_runs hsettled hj
    exact ⟨j, op, p, hat, hrunning, hj⟩

/-! ## Two runs -/

def keepsRow (id : String) (doc : JobDoc) : WriteOp CronDocs → Bool
  | .put (.job id') doc' _ => id' = id ∧ doc' = doc
  | _ => false

theorem keepsRow_iff {op} : keepsRow id doc op = true ↔ ∃ pre, op = .put (.job id) doc pre := by
  constructor
  · intro h
    unfold keepsRow at h
    split at h
    · next id' doc' pre =>
        obtain ⟨rfl, rfl⟩ := of_decide_eq_true h
        exact ⟨pre, rfl⟩
    · cases h
  · rintro ⟨pre, rfl⟩
    exact decide_eq_true ⟨rfl, rfl⟩

theorem respects_iff {i ops} :
    Respects i s ops ↔ ∀ j ∈ s.log.map (·.1), j ≠ i → ∀ e ∈ importOf j s.log, ∀ op ∈ ops,
      op.key = .job e.1 → keepsRow e.1 e.2 op = true := by
  simp only [keepsRow_iff]
  refine ⟨fun h j _ hj e he => h j hj e.1 e.2 he, fun h j hj id doc hi => ?_⟩
  refine h j ?_ hj (id, doc) hi
  by_contra hn
  have ho : own j s.log = [] := by
    rw [own, map_eq_nil_iff, filter_eq_nil_iff]
    intro e he hE
    exact hn (mem_map.mpr ⟨e, he, of_decide_eq_true hE⟩)
  have hd := idle_of_fresh ho
  rw [Idle, hi] at hd
  cases hd

instance (i : Nat) (s : CronStore) (ops : List (WriteOp CronDocs)) : Decidable (Respects i s ops) :=
  decidable_of_iff _ respects_iff.symm

def takenBack : Option Event → Option String
  | some (.imported id .takenBack) => some id
  | _ => none

theorem mem_takenBack {note} : id ∈ takenBack note ↔ note = some (.imported id .takenBack) := by
  unfold takenBack
  split
  · next id' => simp [eq_comm]
  · next h => exact ⟨nofun, fun hn => absurd hn (h id)⟩

instance (i : Nat) (s t : CronStore) (c : Call CronDocs Event) (r : c.Reply) :
    Decidable (Undisturbed i s c r t) :=
  match c, r with
  | .write ops note, r =>
    decidable_of_iff ((r = .ok () → Respects i s ops) ∧
      ∀ id ∈ takenBack note, r = .ok () ∧ s.listed id = none) (by simp only [Undisturbed, mem_takenBack])
  | .get _, _ => inferInstanceAs (Decidable True)
  | .list _, _ => inferInstanceAs (Decidable True)
  | .unique, _ => inferInstanceAs (Decidable True)

def intervalConfig : CronConfig where
  calendar := noCalendar
  maxRunHistory := 10

def intervalJob (id : String) : CronJob where
  id := id
  schedule := .every 10
  createdAt := 0
  nextRun := 100

def cappedImport : List (Move CronOp) :=
  [.start (.setMaxActiveJobs (some 1)), .calls 0 20, .start (.importJob (intervalJob "a")), .calls 1 20,
    .start (.job (.create (intervalJob "b"))), .calls 2 20]

def disturbedImport : List (Move CronOp) :=
  [.start (.importJob (intervalJob "a")), .calls 0 3, .start (.job (.create (intervalJob "b"))),
    .calls 1 20, .start (.job (.remove "a")), .calls 2 20, .calls 0 20]

def executed (moves : List (Move CronOp)) : CronWorld :=
  World.exec (cronSystem intervalConfig) Store.answer { store := {} } moves

theorem capped_import_exact : (executed cappedImport).Quiet ∧
    ∀ id, (executed cappedImport).store.listed id = ((executed cappedImport).store.rowDoc id).map member :=
  have hruns : Runs ((cronSystem intervalConfig).limited Undisturbed) { store := {} }
      (executed cappedImport) := runs_exec_limited Store.serves_answer (by decide +kernel)
  have hquiet : (executed cappedImport).Quiet := by decide +kernel
  ⟨hquiet, ((ledger_exact hruns).1 hquiet).1⟩

/-- A removal between the two steps of an import leaves a member without a job. -/
theorem disturbed_import_listed : ∃ w : CronWorld, Runs (cronSystem intervalConfig) { store := {} } w ∧
    w.Quiet ∧ w.store.listed "a" ≠ none ∧ w.store.rowDoc "a" = none :=
  ⟨executed disturbedImport, runs_exec Store.serves_answer _ _, by decide +kernel⟩

end Tinyflows.Cron
