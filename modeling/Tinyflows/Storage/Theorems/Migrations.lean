import Tinyflows.Storage.Lemmas.Schemas

/-!
# Migrations that are cut short

A migration may be cut short at any of its calls and started again, with other options even. As long as
the outputs of every step are orderly, no record is lost on the way and the last attempt leaves exactly
the outputs of what was there before the first.
-/

namespace Tinyflows.Migrations
open Lib List Store Program

def Attempt (schema : Schema) (s t : SchemaStore) : Prop :=
  ∃ options, (migrate schema options).run.Leads (Serves 0) s t

/-- Any number of migrations, each possibly cut short. -/
abbrev Attempts (schema : Schema) : SchemaStore → SchemaStore → Prop :=
  Relation.ReflTransGen (Attempt schema)

theorem alone_alone (inv) : Alone (.alone (Serves 0) inv) where
  serves h := h
  rely h := h
  guarantee _ _ := trivial

section Attempts

variable {sc : Schema} {each : Step → PerRecord} {sr s t : SchemaStore}

/-- No step has recorded progress. -/
def Unstarted (schema : Schema) (s : SchemaStore) : Prop :=
  ∀ step ∈ schema.steps, s.docs.lookup (progressKey schema step) = none

instance (schema : Schema) (s : SchemaStore) : Decidable (Unstarted schema s) :=
  inferInstanceAs (Decidable (∀ step ∈ schema.steps, s.docs.lookup (progressKey schema step) = none))

theorem past_start (h : Unstarted sc sr) : Past sc each (dataOf sr) [] sr :=
  ⟨[], sc.steps, sr, nil_prefix, ⟨rfl, .nil, nofun, fun hs => h _ hs⟩, .inl rfl⟩

theorem past_attempt (hr : Regular sc each (dataOf sr))
    (hs : Past sc each (dataOf sr) [] s) (h : Attempt sc s t) : Past sc each (dataOf sr) [] t := by
  obtain ⟨options, h⟩ := h
  exact (ensures_migrate (alone_alone _) hr (fun _ h => h) options s hs hs).leads hs h

theorem past_attempts (hr : Regular sc each (dataOf sr)) (hf : Unstarted sc sr)
    (h : Attempts sc sr s) : Past sc each (dataOf sr) [] s := by
  induction h with
  | refl => exact past_start hf
  | tail _ hs ih => exact past_attempt hr ih hs

theorem between_returns (hr : Regular sc each (dataOf sr)) (hs : Past sc each (dataOf sr) [] s) {options report}
    (h : (migrate sc options).run.Returns (Serves 0) s (.ok report) t) :
    Between sc each (dataOf sr) sc.steps [] t :=
  ((ensures_migrate (alone_alone _) hr (fun _ h => h) options s hs hs).returns hs h).2.between

theorem eq_of_attempt (hd : ∀ {st}, st ∈ sc.steps → MarkedDone sc st s)
    (h : Attempt sc s t) : t = s := by
  obtain ⟨options, h⟩ := h
  exact ((ensures_migrate_again (alone_alone (Eq s)) hd options s rfl rfl).leads rfl h).symm

/-- The steps done have been done in full, and of the one under way every record is there as it was or
with all its outputs. -/
def NothingLost (schema : Schema) (each : Step → PerRecord) (start now : Data) : Prop :=
  ∃ finished rest d, schema.steps = finished ++ rest ∧ MigratedBy schema each finished start d ∧
    (rest = [] → now = d) ∧ ∀ step ∈ rest.head?, ∀ r, step.IsSource d r →
      now step.sourceName r.id = some r.row ∨ Settled schema step (each step) now r

theorem Past.nothingLost (h : Past sc each (dataOf sr) [] s) :
    NothingLost sc each (dataOf sr) (dataOf s) := by
  obtain ⟨past, rest, s₀, -, hb, hn⟩ := h
  refine ⟨past, rest, dataOf s₀, hb.steps, hb.migrated, ?_, fun st hs r hr => ?_⟩
  · rintro rfl
    rcases hn with rfl | ⟨st, hs, -⟩
    · rfl
    · cases hs
  · rcases hn with rfl | ⟨st', hs', hp⟩
    · exact .inl hr.1
    · cases Option.mem_unique hs hs'
      exact hp.under.sources hr

/-- However often the migration is cut short, nothing is lost. Once one has returned, every step has been
made, and further ones change nothing. -/
theorem migration_crash_safe {schema : Schema} {each : Step → PerRecord} {start s : SchemaStore}
    (hregular : Regular schema each (dataOf start)) (hfresh : Unstarted schema start)
    (h : Attempts schema start s) :
    NothingLost schema each (dataOf start) (dataOf s) ∧
      ∀ options report t, (migrate schema options).run.Returns (Serves 0) s (.ok report) t →
        MigratedBy schema each schema.steps (dataOf start) (dataOf t) ∧
          ∀ u, Attempts schema t u → u = t := by
  have hpast := past_attempts hregular hfresh h
  refine ⟨hpast.nothingLost, fun options report t hreturns => ?_⟩
  have hbetween := between_returns hregular hpast hreturns
  refine ⟨hbetween.migrated, fun u hu => ?_⟩
  induction hu with
  | refl => rfl
  | tail _ hstep ih =>
    subst ih
    exact eq_of_attempt hbetween.done hstep

end Attempts

/-! ## Moving items -/

def mapping (f : PerRecord) (inputs : List SourceRecord) : Except StoreError (List TargetRecord) :=
  (inputs.mapM f).map List.flatten

def options : MigrateOptions where
  batchSize := 1
  stamp _ := 5
  pages := 4

def item : Row :=
  ⟨.obj [], ⟨1, 0, none⟩⟩

def moved : PerRecord := fun r =>
  .ok [⟨"app.items", r.id, r.row.body, none⟩]

def moving : Schema where
  owner := "app"
  items := [("app.items", 2)]
  steps := [⟨"move", "app.items", 1, 2, some "app.old", mapping moved⟩]

def oldItems : SchemaStore where
  docs := (AList.insert (SchemaKey.row "app.old" "a") ⟨0, item⟩
    (AList.insert (SchemaKey.row "app.old" "b") ⟨0, item⟩ ∅))

variable {o : TargetRecord} {r : SourceRecord}

theorem eq_of_yields_moved (h : Yields moved r o) : o = ⟨"app.items", r.id, r.row.body, none⟩ := by
  obtain ⟨_, ho, hm⟩ := h
  cases ho
  exact mem_singleton.mp hm

theorem moving_regular (d) : Regular moving (fun _ => moved) d where
  independent hs := by
    cases mem_singleton.mp hs
    exact fun _ => rfl
  keys := by decide
  distinct := by
    intro past st rest d' _ _ r r' o o' hr hr' ho ho' hk
    cases eq_of_yields_moved ho
    cases eq_of_yields_moved ho'
    exact IsSource.eq_of_id hr hr' (congrArg Prod.snd hk)
  orderly := by
    intro past st rest d' hp _
    have hs : st ∈ moving.steps := by rw [hp]; simp
    cases mem_singleton.mp hs
    refine ⟨fun _ ho ho' _ => ?_, fun _ ho hc => ?_, fun _ h hk => ?_, fun _ ho _ hi => ?_⟩
    · rw [eq_of_yields_moved ho, eq_of_yields_moved ho']
    · cases eq_of_yields_moved ho
      simp [Step.sourceName] at hc
    · cases eq_of_yields_moved ⟨_, h, mem_append_right _ mem_cons_self⟩
      simp [TargetRecord.key, Step.sourceName] at hk
    · cases eq_of_yields_moved ho
      exact absurd rfl hi

/-- Cut short before its source is dropped, the move of the first item is taken up again. -/
def interrupted : SchemaStore :=
  ((migrate moving options).run.after (answer 0) 3 oldItems).2

theorem moved_items_safe : Attempts moving oldItems interrupted ∧
    ∃ report t, (migrate moving options).run.Returns (Serves 0) interrupted (.ok report) t ∧
      MigratedBy moving (fun _ => moved) moving.steps (dataOf oldItems) (dataOf t) ∧
      (dataOf t "app.items" "b").isSome ∧ dataOf t "app.old" "b" = none := by
  have hattempts : Attempts moving oldItems interrupted :=
    .single ⟨options, leads_after (serves_answer 0) _ _ _⟩
  have hreturns : (migrate moving options).run.Returns (Serves 0) interrupted
      (.ok { ran := [⟨"app", "app.items", "move", 2⟩] }) _ :=
    returns_after (n := 20) (serves_answer 0) (by decide +kernel)
  exact ⟨hattempts, _, _, hreturns, ((migration_crash_safe (moving_regular _) (by decide +kernel)
    hattempts).2 _ _ _ hreturns).1, by decide +kernel, by decide +kernel⟩

/-! ## Items with an entry in a log -/

def logged : PerRecord := fun r =>
  .ok [⟨"app.items", r.id, r.row.body, none⟩, ⟨"app.log", r.id, r.row.body, none⟩]

def logging : Schema where
  owner := "app"
  items := [("app.items", 2), ("app.log", 1)]
  steps := [⟨"log", "app.items", 1, 2, none, mapping logged⟩]

def anItem : SchemaStore where
  docs := AList.insert (SchemaKey.row "app.items" "a") ⟨0, item⟩ ∅

/-- The item is replaced in place, and its version then says that it was migrated, before its entry in
the log is stored. -/
def halfLogged : SchemaStore :=
  ((migrate logging options).run.after (answer 0) 3 anItem).2

theorem id_of_yields_logged (h : Yields logged r o) : o.id = r.id := by
  obtain ⟨_, ho, hm⟩ := h
  cases ho
  rcases mem_pair.mp hm with rfl | rfl <;> rfl

theorem log_entry_lost : Attempts logging anItem halfLogged ∧ Unstarted logging anItem ∧
    ∃ step ∈ logging.steps, step.Independent logged ∧ Distinct step logged (dataOf anItem) ∧
    ∃ report t, (migrate logging options).run.Returns (Serves 0) halfLogged (.ok report) t ∧
    ∃ r o, step.IsSource (dataOf anItem) r ∧ Yields logged r o ∧ dataOf t o.collection o.id = none := by
  have hattempts : Attempts logging anItem halfLogged :=
    .single ⟨options, leads_after (serves_answer 0) _ _ _⟩
  have hreturns : (migrate logging options).run.Returns (Serves 0) halfLogged
      (.ok { ran := [⟨"app", "app.items", "log", 0⟩] }) _ :=
    returns_after (n := 20) (serves_answer 0) (by decide +kernel)
  refine ⟨hattempts, by decide +kernel, _, mem_singleton_self _, fun _ => rfl, ?_, _, _, hreturns,
    ⟨"a", item⟩, ⟨"app.log", "a", .obj [], none⟩, ⟨by decide +kernel, by decide +kernel⟩,
    ⟨_, rfl, by simp [item]⟩, by decide +kernel⟩
  intro r r' o o' hr hr' ho ho' hkey
  refine IsSource.eq_of_id hr hr' ?_
  rw [← id_of_yields_logged ho, ← id_of_yields_logged ho']
  exact congrArg Prod.snd hkey

end Tinyflows.Migrations
