import Tinyflows.Storage.Lemmas.Steps

/-!
# A schema, step by step

The steps that are done are marked; the first that is not may be under way.
-/

namespace Tinyflows.Migrations
open Lib List

/-- Every step meets its conditions on the data that it will find. -/
structure Regular (schema : Schema) (each : Step → PerRecord) (start : Data) : Prop where
  independent : ∀ {step}, step ∈ schema.steps → step.Independent (each step)
  keys : (schema.steps.map (progressKey schema)).Nodup
  distinct : ∀ {finished step rest d}, schema.steps = finished ++ step :: rest →
    MigratedBy schema each finished start d → Distinct step (each step) d
  orderly : ∀ {finished step rest d}, schema.steps = finished ++ step :: rest →
    MigratedBy schema each finished start d → Orderly step (each step) d

def MarkedDone (schema : Schema) (step : Step) (s : SchemaStore) : Prop :=
  ∃ p, s.docs.lookup (progressKey schema step) = some p ∧ p.doc.done = true

structure Between (schema : Schema) (each : Step → PerRecord) (start : Data) (finished rest : List Step)
    (s : SchemaStore) : Prop where
  steps : schema.steps = finished ++ rest
  migrated : MigratedBy schema each finished start (dataOf s)
  done : ∀ {step}, step ∈ finished → MarkedDone schema step s
  fresh : ∀ {step}, step ∈ rest → s.docs.lookup (progressKey schema step) = none

def Past (schema : Schema) (each : Step → PerRecord) (start : Data) (seen : List Step) (s : SchemaStore) :
    Prop :=
  ∃ finished rest s₀, seen <+: finished ∧ Between schema each start finished rest s₀ ∧
    (s = s₀ ∨ ∃ step ∈ rest.head?, InPhase schema step (each step) s₀ s)

variable {sc : Schema} {ea : Step → PerRecord} {st : Data} {op : MigrateOptions}
  {fi se rs td : List Step} {sp : Step} {s s₀ : SchemaStore}
  {T : Terms SchemaStore (Call SchemaDocs Unit) Call.Reply}

theorem Past.of_shorter (he : se <+: fi) (h : Past sc ea st fi s) : Past sc ea st se s := by
  obtain ⟨fi', rs, s₀, hf, hb, hs⟩ := h
  exact ⟨fi', rs, s₀, he.trans hf, hb, hs⟩

theorem Between.inPhase (h : Between sc ea st fi (sp :: rs) s) : InPhase sc sp (ea sp) s s where
  under := .start ..
  progress hp := by
    rw [h.fresh mem_cons_self] at hp
    cases hp
  frame _ := rfl

theorem Regular.progressKey_ne (h : Regular sc ea st) (hp : sc.steps = fi ++ rs)
    {sp sp'} (hs : sp ∈ fi) (hs' : sp' ∈ rs) : progressKey sc sp ≠ progressKey sc sp' := by
  have hk := h.keys
  rw [hp, map_append, nodup_append] at hk
  exact hk.2.2 _ (mem_map_of_mem hs) _ (mem_map_of_mem hs')

theorem Between.markedDone (hr : Regular sc ea st) (h : Between sc ea st fi rs s₀)
    (hs : s = s₀ ∨ ∃ sp ∈ rs.head?, InPhase sc sp (ea sp) s₀ s) (ht : sp ∈ fi) :
    MarkedDone sc sp s := by
  obtain ⟨p, hp, hd⟩ := h.done ht
  rcases hs with rfl | ⟨cu, hc, hh⟩
  · exact ⟨p, hp, hd⟩
  · refine ⟨p, ?_, hd⟩
    rw [hh.frame (hr.progressKey_ne h.steps ht (mem_of_mem_head? hc)), hp]

theorem Between.snoc (he : Regular sc ea st) (h : Between sc ea st fi (sp :: rs) s₀)
    (hs : Reached sc sp (ea sp) s₀ (fun _ => True) s) (p : Progress) (hd : p.done = true) :
    Between sc ea st (fi ++ [sp]) rs (s.commit 0 [.put (progressKey sc sp) p .any] none) := by
  have ha : dataOf (s.commit 0 [.put (progressKey sc sp) p .any] none) = dataOf s :=
    dataOf_progress ..
  have hN := he.keys
  rw [h.steps, map_append, map_cons, nodup_append, nodup_cons] at hN
  have hf : ∀ {ot}, progressKey sc ot ≠ progressKey sc sp →
      (s.commit 0 [.put (progressKey sc sp) p .any] none).docs.lookup (progressKey sc ot) =
        s₀.docs.lookup (progressKey sc ot) := by
    intro ot hn
    rw [Store.commit_docs, foldl_cons, foldl_nil, lookup_apply_put_ne hn, hs.frame hn]
  refine ⟨by rw [h.steps, append_assoc]; rfl, ?_, fun {ot} ho => ?_, fun {ot} ho => ?_⟩
  · rw [ha]
    exact .snoc h.migrated (hs.under.migrated fun r hr => hs.settled hr trivial)
  · rcases mem_append.mp ho with ho | ho
    · obtain ⟨q, hq, hQ⟩ := h.done ho
      refine ⟨q, ?_, hQ⟩
      rw [hf (he.progressKey_ne h.steps ho mem_cons_self), hq]
    · cases mem_singleton.mp ho
      refine ⟨⟨s.docs.nextVersion (progressKey sc sp), p⟩, ?_, hd⟩
      rw [Store.commit_docs, foldl_cons, foldl_nil, lookup_apply_put]
  · have hn : progressKey sc ot ≠ progressKey sc sp :=
      fun hE => hN.2.1.1 (hE ▸ mem_map_of_mem ho)
    rw [hf hn, h.fresh (mem_cons_of_mem _ ho)]

theorem ensures_migrateStep_done {A} (hT : Alone T) (hA : ∀ s, A s → MarkedDone sc sp s) :
    Ensures T A (migrateStep sc op sp) (fun s _ => A s) Anything := by
  refine .bind (ensures_get hT _) fun fo => ?_
  have hf : ∀ s, T.inv s → A s ∧ s.docs.lookup (progressKey sc sp) = fo →
      (fo.map (·.doc)).any (·.done) = true := by
    rintro s - ⟨h, rfl⟩
    obtain ⟨p, hp, hd⟩ := hA s h
    rw [hp]
    exact hd
  refine .fact hf fun hd => ?_
  dsimp only
  rw [if_pos hd]
  exact .pure fun s _ h => h.1

theorem ensures_migrateStep_fresh (hT : Alone T) (he : Regular sc ea st)
    (hi : ∀ s, Past sc ea st [] s → T.inv s) (ha : op.batchSize ≠ 0)
    (hb : Between sc ea st se (sp :: td) s₀) :
    Ensures T (InPhase sc sp (ea sp) s₀) (migrateStep sc op sp)
      (fun s _ => Past sc ea st (se ++ [sp]) s) Anything := by
  have hh : ∀ s, InPhase sc sp (ea sp) s₀ s → T.inv s := fun s hs =>
    hi s ⟨se, sp :: td, s₀, nil_prefix, hb, .inr ⟨sp, rfl, hs⟩⟩
  refine .bind (ensures_get hT _) fun fo => ?_
  dsimp only
  split_ifs with hd
  · -- The step is not marked as done before it is.
    refine .fact (P := False) (fun s _ ⟨h, hf⟩ => ?_) False.elim
    cases fo with
    | none => cases hd
    | some p =>
      have hn := (h.progress hf).1
      exact Bool.false_ne_true (hn.symm.trans hd)
  · refine .bind ((ensures_migratePages hT hh (he.orderly hb.steps hb.migrated)
      (he.distinct hb.steps hb.migrated) (he.independent (by rw [hb.steps]; simp)) ha _ _ _).pre
      fun s _ ⟨h, hf⟩ => ?_) fun written => ?_
    · refine ⟨h, fun _ _ hk => hk.elim, fun {r} hr ⟨c, hc, hl⟩ => ?_⟩
      cases fo with
      | none => cases hc
      | some p => exact (h.progress hf).2 hr ⟨c, hc, hl⟩
    · refine .bind (ensures_write hT (B := Past sc ea st (se ++ [sp])) fun s _ h => ?_)
        fun _ => .pure fun s _ h => h
      have hp : Past sc ea st (se ++ [sp]) _ :=
        ⟨_, _, _, prefix_rfl, hb.snoc he h
          ⟨sc.owner, sp.id, sp.from_, sp.to_, none, written, true⟩ rfl, .inl rfl⟩
      exact ⟨hi _ (hp.of_shorter nil_prefix), hp⟩

theorem ensures_migrateStep (hT : Alone T) (hg : Regular sc ea st)
    (hi : ∀ s, Past sc ea st [] s → T.inv s) (ha : op.batchSize ≠ 0)
    (hp : sc.steps = se ++ sp :: td) :
    Ensures T (Past sc ea st se) (migrateStep sc op sp)
      (fun s _ => Past sc ea st (se ++ [sp]) s) Anything := by
  intro s hs hP
  obtain ⟨fi, rs, s₀, ⟨more, rfl⟩, hb, ht⟩ := hP
  have hr : more ++ rs = sp :: td := by
    have he := hb.steps.symm.trans hp
    rwa [append_assoc, append_cancel_left_eq] at he
  cases more with
  | nil =>
    rw [append_nil] at hb
    rw [nil_append] at hr
    subst hr
    refine ensures_migrateStep_fresh hT hg hi ha hb s hs ?_
    rcases ht with rfl | ⟨cu, hc, hh⟩
    · exact hb.inPhase
    · cases hc
      exact hh
  | cons head more =>
    obtain ⟨rfl, -⟩ := List.cons.inj hr
    have hS : head ∈ se ++ head :: more := by simp
    refine ((ensures_migrateStep_done (A := fun t => t = s) hT ?_).weaken (fun _ _ h => h) ?_
      fun _ h => h) s hs rfl
    · rintro t rfl
      exact hb.markedDone hg ht hS
    · rintro t _ - rfl
      exact ⟨_, rs, s₀, ⟨more, by simp⟩, hb, ht⟩

theorem ensures_migrateSteps (hT : Alone T) (hr : Regular sc ea st)
    (hi : ∀ s, Past sc ea st [] s → T.inv s) (hb : op.batchSize ≠ 0)
    (hs : sc.steps = se ++ td) (re) :
    Ensures T (Past sc ea st se) (migrateSteps sc op td re)
      (fun s _ => Past sc ea st sc.steps s) Anything := by
  induction td generalizing se re with
  | nil =>
    rw [append_nil] at hs
    exact .pure fun s _ h => hs ▸ h
  | cons sp td ih =>
    refine .bind (ensures_migrateStep hT hr hi hb hs) fun wr => ?_
    exact ih (by rw [hs, append_assoc]; rfl) _

theorem ensures_migrate (hT : Alone T) (hr : Regular sc ea st)
    (hi : ∀ s, Past sc ea st [] s → T.inv s) (op) :
    Ensures T (Past sc ea st []) (migrate sc op) (fun s _ => Past sc ea st sc.steps s) Anything := by
  rw [migrate]
  split_ifs with hb
  · exact .throw fun _ _ _ => trivial
  · exact ensures_migrateSteps hT hr hi hb rfl {}

theorem Past.between (h : Past sc ea st sc.steps s) : Between sc ea st sc.steps [] s := by
  obtain ⟨fi, rs, s₀, ⟨more, rfl⟩, hb, hs⟩ := h
  have hn : more ++ rs = [] := by
    have he := hb.steps
    rwa [append_assoc, self_eq_append_right] at he
  obtain ⟨rfl, rfl⟩ := append_eq_nil_iff.mp hn
  rw [append_nil] at hb
  rcases hs with rfl | ⟨sp, hp, -⟩
  · exact hb
  · cases hp

theorem ensures_migrate_again (hT : Alone T)
    (hd : ∀ {sp}, sp ∈ sc.steps → MarkedDone sc sp s) (op) :
    Ensures T (fun t => t = s) (migrate sc op) (fun t _ => t = s) Anything := by
  have hs : ∀ td re, (∀ sp ∈ td, sp ∈ sc.steps) →
      Ensures T (fun t => t = s) (migrateSteps sc op td re) (fun t _ => t = s) Anything := by
    intro td
    induction td with
    | nil => exact fun _ _ => .pure fun _ _ h => h
    | cons sp td ih =>
      intro re hm
      refine .bind (ensures_migrateStep_done hT ?_) fun wr =>
        ih _ fun sp' hp' => hm sp' (mem_cons_of_mem _ hp')
      rintro t rfl
      exact hd (hm sp mem_cons_self)
  rw [migrate]
  split_ifs
  · exact .throw fun _ _ _ => trivial
  · exact hs sc.steps {} fun _ h => h

end Tinyflows.Migrations
