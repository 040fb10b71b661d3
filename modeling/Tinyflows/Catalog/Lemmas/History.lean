import Tinyflows.Catalog.History

/-!
# Every write keeps the history

Each form of a write keeps what always holds, and leaves the others what they count on.
-/

namespace Tinyflows.Catalog
open Lib Model Storage List CatalogStore Option

/-! ## The log -/

section Log

variable {i j id : Nat} {l l' log log' : List (Nat × CatalogEvent)} {e : Nat × CatalogEvent}

theorem commits_append : commits (l ++ l') = commits l ++ commits l' :=
  filterMap_append

theorem own_append : own i (l ++ l') = own i l ++ own i l' :=
  filter_append ..

theorem commits_mono (h : log <+: log') : commits log <+: commits log' :=
  h.filterMap _

variable {c : Committed}

theorem mem_commits :
    c ∈ commits log ↔ (c.by_, CatalogEvent.committed c.id c.revision c.flow) ∈ log := by
  constructor
  · intro h
    obtain ⟨⟨i, e⟩, he, hc⟩ := mem_filterMap.mp h
    cases e <;> cases hc
    exact he
  · exact fun h => mem_filterMap.mpr ⟨_, h, rfl⟩

theorem mem_own : e ∈ own i log ↔ e ∈ log ∧ e.1 = i := by
  simp [own]

theorem mem_commits_own : c ∈ commits (own i log) ↔ c ∈ commits log ∧ c.by_ = i := by
  simp [mem_commits, mem_own]

theorem Restored.mono (h : Restored log id) (hl : log <+: log') : Restored log' id :=
  h.imp fun _ hi => hl.subset hi

theorem lastFlow_append {st l} : lastFlow st (l ++ [c]) = c.flow := by
  simp [lastFlow]

end Log

/-! ## Histories -/

namespace History

variable {fl : String} {be : FlowDoc} {l : List Committed} {c : Committed}

variable {m : List Committed}

theorem append_iff : History fl be (l ++ m) ↔ History fl be l ∧ History fl (lastFlow be l) m := by
  induction l generalizing be with
  | nil => simp [History, lastFlow]
  | cons c rest ih =>
    have hl : lastFlow be (c :: rest) = lastFlow c.flow rest := by
      cases rest <;> simp [lastFlow, getLast?_cons]
    simp [History, ih, hl, and_assoc]

section

variable (h : History fl be l)
include h

theorem later (hc : c ∈ l) : be.updatedMs < c.flow.updatedMs := by
  induction l generalizing be with
  | nil => cases hc
  | cons a re ih =>
    rcases mem_cons.mp hc with rfl | hc
    · exact h.1.later
    · exact h.1.later.trans (ih h.2 hc)

theorem pairwise : l.Pairwise fun a b => a.flow.updatedMs < b.flow.updatedMs := by
  induction l generalizing be with
  | nil => exact .nil
  | cons a re ih => exact .cons (fun b hb => h.2.later hb) (ih h.2)

theorem incarnation (hc : c ∈ l) :
    c.flow.incarnation = be.incarnation ∧ c.revision.flowIncarnation = be.incarnation := by
  induction l generalizing be with
  | nil => cases hc
  | cons a re ih =>
    rcases mem_cons.mp hc with rfl | hc
    · exact ⟨h.1.incarnation, by rw [h.1.revision]; rfl⟩
    · rw [← h.1.incarnation]
      exact ih h.2 hc

theorem revision (hc : c ∈ l) :
    c.revision.content = c.revision ∧ c.revision.pending = false ∧ c.revision.flowId = fl ∧
      c.revision.createdMs = c.flow.updatedMs := by
  induction l generalizing be with
  | nil => cases hc
  | cons a re ih =>
    rcases mem_cons.mp hc with rfl | hc
    · rw [h.1.revision]
      exact ⟨rfl, rfl, rfl, rfl⟩
    · exact ih h.2 hc

theorem named (hc : c ∈ l) : c.flow.lastRevisionId = some c.id := by
  induction l generalizing be with
  | nil => cases hc
  | cons a re ih =>
    rcases mem_cons.mp hc with rfl | hc
    · exact h.1.named
    · exact ih h.2 hc

theorem number : (lastFlow be l).number = be.number + l.length := by
  induction l generalizing be with
  | nil => rfl
  | cons a rest ih =>
    have hl : lastFlow be (a :: rest) = lastFlow a.flow rest := by
      cases rest <;> simp [lastFlow, getLast?_cons]
    have hn : a.flow.number = be.number + 1 := by
      rw [FlowDoc.number, h.1.number, getD_some]
    rw [hl, ih h.2, hn, length_cons]
    omega

end

theorem lastFlow_cases (be l) : l = [] ∧ lastFlow be l = be ∨ ∃ c ∈ l, lastFlow be l = c.flow := by
  rcases eq_nil_or_concat l with rfl | ⟨m, c, rfl⟩
  · exact .inl ⟨rfl, rfl⟩
  · rw [concat_eq_append]
    exact .inr ⟨c, by simp, lastFlow_append⟩

theorem eq_of_updatedMs_eq {l} (h : History fl be m) (hl : l <+: m)
    (hm : (lastFlow be l).updatedMs = (lastFlow be m).updatedMs) : l = m := by
  obtain ⟨re, rfl⟩ := hl
  obtain ⟨-, hr⟩ := append_iff.mp h
  rcases eq_nil_or_concat re with rfl | ⟨re, c, rfl⟩
  · rw [append_nil]
  · have ht := hr.later (c := c) (by simp)
    rw [concat_eq_append, ← append_assoc, lastFlow_append] at hm
    omega

end History

theorem eq_of_id_eq {l : List Committed} (h : (l.map (·.id)).Nodup) {c c'} (hc : c ∈ l)
    (hc' : c' ∈ l) (hi : c.id = c'.id) : c = c' :=
  inj_on_of_nodup_map h hc hc' hi

theorem Outdated.mono {log log' : List (Nat × CatalogEvent)} {id} (h : Outdated log id)
    (hl : log <+: log') (hd : ((commits log').map (·.id)).Nodup) : Outdated log' id := by
  obtain ⟨⟨c, hc, rfl⟩, hr⟩ := h
  obtain ⟨la, ha⟩ := commits_mono hl
  have hm : c ∈ commits log' := (commits_mono hl).subset hc
  refine ⟨⟨c, hm, rfl⟩, fun c' hc' hi => ?_⟩
  obtain rfl : c' = c :=
    eq_of_id_eq hd (mem_reverse.mp (mem_of_mem_take hc')) hm hi
  rw [retained, ← ha, reverse_append, take_append] at hc'
  rcases mem_append.mp hc' with hn | hold
  · have hn := mem_reverse.mp (mem_of_mem_take hn)
    rw [← ha, map_append] at hd
    exact disjoint_of_nodup_append hd (mem_map_of_mem hc) (mem_map_of_mem hn)
  · exact hr c' ((take_prefix_take_left (by omega)).subset hold) rfl

/-! ## Looking things up after a write -/

section Lookup

variable {s : CatalogStore} {i id id' : Nat} {fl : String} {doc : RevisionDoc} {next : FlowDoc}
  {pre : Precondition} {nt : Option CatalogEvent}

theorem revision_put : revision (s.commit i [.put (.revision id) doc pre] nt) id' =
    if id' = id then some ⟨s.docs.nextVersion (.revision id), doc⟩
    else revision s id' := by
  split
  · next h => subst h; simp [revision]
  · next h => simp [revision, h]

theorem revision_delete : revision (s.commit i [.delete (.revision id) pre] nt) id' =
    if id' = id then none else revision s id' := by
  split
  · next h => subst h; simp [revision]
  · next h => simp [revision, h]

theorem revision_putDefinition :
    revision (s.commit i [.put (.definition fl) next pre] nt) id' = revision s id' := by
  simp [revision]

theorem definition_put : CatalogStore.definition
    (s.commit i [.put (.definition fl) next pre] nt) fl = some next := by
  simp [CatalogStore.definition]

theorem lookup_definition_put :
    (s.commit i [.put (.revision id) doc pre] nt).docs.lookup (.definition fl) =
      s.docs.lookup (.definition fl) := by
  simp

theorem lookup_definition_delete :
    (s.commit i [.delete (.revision id) pre] nt).docs.lookup (.definition fl) =
      s.docs.lookup (.definition fl) := by
  simp

end Lookup

/-! ## What always holds -/

section Invariant

variable {fl : String} {st : FlowDoc} {i id : Nat} {s t : CatalogStore}

theorem HistoryKept.restored (h : HistoryKept fl st s) (hi : Restored s.log id) :
    ∃ c ∈ commits s.log, c.id = id := by
  obtain ⟨j, hj⟩ := hi
  obtain ⟨c, hc, hi⟩ := h.restores hj
  exact ⟨c, (mem_commits_own.mp hc).1, hi⟩

theorem HistoryKept.uncommitted (h : HistoryKept fl st s) (hd : s.issued[id]? = some i)
    (hi : ∀ c ∈ commits (own i s.log), c.id ≠ id) : ∀ c ∈ commits s.log, c.id ≠ id := by
  rintro c hc rfl
  have hb : c.by_ = i := some.inj ((h.issued c hc).symm.trans hd)
  exact hi c (mem_commits_own.mpr ⟨hc, hb⟩) rfl

theorem getElem?_mono {α : Type} {l l'} {n : Nat} {a : α} (h : l <+: l')
    (ha : l[n]? = some a) : l'[n]? = some a := by
  obtain ⟨re, rfl⟩ := h
  rw [List.getElem?_append_left (List.getElem?_eq_some_iff.mp ha).1, ha]

variable {et : List (Nat × CatalogEvent)} {doc : RevisionDoc} {nt : Option CatalogEvent}
  {pre : Precondition} {j : Nat}

theorem HistoryKept.same (h : HistoryKept fl st s) (hl : t.log = s.log ++ et)
    (he : ∀ e ∈ et, committed? e = none) (hr : ∀ e ∈ et, ∀ j id, e = (j, CatalogEvent.restored id) →
      ∃ c ∈ commits (own j s.log), c.id = id) (hi : s.issued <+: t.issued)
    (hd : CatalogStore.definition t fl = CatalogStore.definition s fl) :
    commits t.log = commits s.log ∧ HistoryKept fl st t := by
  have hn : commits et = [] := filterMap_eq_nil_iff.mpr he
  have ho : commits t.log = commits s.log := by
    rw [hl, commits_append, hn, append_nil]
  refine ⟨ho, ho ▸ h.history, ?_, fun c hc => ?_, ho ▸ h.distinct, ?_⟩
  · rw [hd, h.definition, flowAfter, flowAfter, ho]
  · exact getElem?_mono hi (h.issued c (ho ▸ hc))
  · intro j id hj
    have hold : ∃ c ∈ commits (own j s.log), c.id = id := by
      rcases mem_append.mp (hl ▸ hj) with hj | hj
      · exact h.restores hj
      · exact hr _ hj j id rfl
    obtain ⟨c, hc, hid⟩ := hold
    obtain ⟨hc, hb⟩ := mem_commits_own.mp hc
    exact ⟨c, mem_commits_own.mpr ⟨ho ▸ hc, hb⟩, hid⟩

theorem Outdated.congr {log log'} (h : commits log = commits log') :
    Outdated log id ↔ Outdated log' id := by
  rw [Outdated, Outdated, retained, retained, h]

theorem RevisionKept.same (h : RevisionKept fl st s id) (he : revision t id = revision s id)
    (ho : commits t.log = commits s.log) (hR : Restored t.log id → Restored s.log id)
    (his : s.issued <+: t.issued) : RevisionKept fl st t id := by
  have hs : ∀ {row}, revision t id = some row → revision s id = some row :=
    fun hr => he ▸ hr
  constructor
  · exact fun hr => (h.drawn (hs hr)).trans_le his.length_le
  · exact fun hr => h.filed (hs hr)
  · exact fun hr c hc => h.content (hs hr) c (ho ▸ hc)
  · exact fun hr hc => h.uncommitted (hs hr) (ho ▸ hc)
  · exact fun hr hi => h.confirmed (hs hr) (hR hi)
  · intro hn hi
    exact (Outdated.congr ho).mpr (h.dropped (he ▸ hn) (hR hi))

theorem RevisionKept.of_none (hn : revision t id = none)
    (h : Restored t.log id → Outdated t.log id) : RevisionKept fl st t id := by
  constructor
  case dropped => exact fun _ => h
  all_goals
    intro row hr
    rw [hn] at hr
    cases hr

theorem restored_of_mem (hl : t.log = s.log ++ et)
    (he : ∀ e ∈ et, ∀ j, e ≠ (j, CatalogEvent.restored id)) (h : Restored t.log id) :
    Restored s.log id := by
  obtain ⟨j, hj⟩ := h
  rcases mem_append.mp (hl ▸ hj) with hj | hj
  · exact ⟨j, hj⟩
  · exact absurd rfl (he _ hj j)

/-- A write that commits no update and concerns one revision. -/
structure Concerns (id : Nat) (s t : CatalogStore) (extra : List (Nat × CatalogEvent)) : Prop where
  log : t.log = s.log ++ extra
  silent : ∀ e ∈ extra, committed? e = none
  restores : ∀ e ∈ extra, ∀ j id', e = (j, CatalogEvent.restored id') →
    id' = id ∧ ∃ c ∈ commits (own j s.log), c.id = id
  issued : t.issued = s.issued
  definition : ∀ flow, CatalogStore.definition t flow = CatalogStore.definition s flow
  revision : ∀ {id'}, id' ≠ id → revision t id' = revision s id'

theorem Concerns.inv (h : Concerns id s t et) (hs : Inv fl st s)
    (hd : commits t.log = commits s.log → RevisionKept fl st t id) : Inv fl st t := by
  have hi : s.issued <+: t.issued := h.issued ▸ prefix_refl _
  obtain ⟨ho, hk⟩ := hs.toHistoryKept.same h.log h.silent
    (fun e he j id' hj => by
      obtain ⟨rfl, hc⟩ := h.restores e he j id' hj
      exact hc) hi (h.definition fl)
  refine ⟨hk, fun id' => ?_⟩
  by_cases hn : id' = id
  · subst hn
    exact hd ho
  · exact (hs.revisions id').same (h.revision hn) ho
      (restored_of_mem h.log fun e he j hj => hn (h.restores e he j id' hj).1) hi

theorem Concerns.put (ho : ∀ e ∈ (nt.map fun n => (i, n)).toList, committed? e = none)
    (hr : ∀ id', nt = some (.restored id') → id' = id ∧ ∃ c ∈ commits (own i s.log), c.id = id) :
    Concerns id s (s.commit i [.put (.revision id) doc pre] nt) (nt.map fun n => (i, n)).toList where
  log := rfl
  silent := ho
  restores e he j id' hj := by
    subst hj
    simp only [mem_toList, map_eq_some_iff, Prod.mk.injEq] at he
    obtain ⟨n, hn, rfl, rfl⟩ := he
    exact hr id' hn
  issued := rfl
  definition flow := congrArg (Option.map _) lookup_definition_put
  revision h := by rw [revision_put, if_neg h]

theorem Concerns.delete (ho : ∀ e ∈ (nt.map fun n => (i, n)).toList, committed? e = none)
    (hr : ∀ id', nt ≠ some (.restored id')) :
    Concerns id s (s.commit i [.delete (.revision id) pre] nt) (nt.map fun n => (i, n)).toList where
  log := rfl
  silent := ho
  restores e he j id' hj := by
    subst hj
    simp only [mem_toList, map_eq_some_iff, Prod.mk.injEq] at he
    obtain ⟨n, hn, rfl, rfl⟩ := he
    exact absurd hn (hr id')
  issued := rfl
  definition flow := congrArg (Option.map _) lookup_definition_delete
  revision h := by rw [revision_delete, if_neg h]

/-! ## The forms of a write -/

theorem Inv.recorded (hs : Inv fl st s) (hD : s.issued[id]? = some i)
    (hu : ∀ c ∈ commits (own i s.log), c.id ≠ id) (hd : doc.Pends fl st) :
    Inv fl st (s.commit i [.put (.revision id) doc pre] none) := by
  have hn := hs.uncommitted hD hu
  refine (Concerns.put (by simp) (by simp)).inv hs fun hC => ?_
  have hr : ∀ {row}, revision
      (s.commit i [.put (.revision id) doc pre] none) id = some row → row.doc = doc := by
    intro row hr
    rw [revision_put, if_pos rfl] at hr
    exact some.inj hr ▸ rfl
  constructor
  · exact fun _ => (List.getElem?_eq_some_iff.mp hD).1
  · exact fun h => hr h ▸ ⟨hd.flow, hd.incarnation⟩
  · exact fun _ c hc hi => absurd hi (hn c (hC ▸ hc))
  · exact fun h _ => hr h ▸ hd.pending
  · intro row _ he
    obtain ⟨c, hc, hi⟩ := hs.restored (restored_of_mem rfl (by simp) he)
    exact absurd hi (hn c hc)
  · intro ho
    rw [revision_put, if_pos rfl] at ho
    cases ho

theorem Inv.settled (hs : Inv fl st s) {c : Committed} (hc : c ∈ commits s.log)
    (hd : doc.content = c.revision) (hp : doc.pending = false)
    (hC : Concerns c.id s (s.commit i [.put (.revision c.id) doc pre] nt)
      (nt.map fun n => (i, n)).toList) :
    Inv fl st (s.commit i [.put (.revision c.id) doc pre] nt) := by
  refine hC.inv hs fun ho => ?_
  have hr : ∀ {row}, revision
      (s.commit i [.put (.revision c.id) doc pre] nt) c.id = some row → row.doc = doc := by
    intro row hr
    rw [revision_put, if_pos rfl] at hr
    exact some.inj hr ▸ rfl
  have hf := hs.history.revision hc
  have hi := (hs.history.incarnation hc).2
  rw [← hd] at hf hi
  constructor
  · exact fun _ => (List.getElem?_eq_some_iff.mp (hs.issued c hc)).1
  · exact fun h => hr h ▸ ⟨hf.2.2.1, hi⟩
  · intro row h c' hc' hid
    rw [eq_of_id_eq hs.distinct (ho ▸ hc') hc hid, hr h, hd]
  · exact fun _ ht => absurd rfl (ht c (ho ▸ hc))
  · exact fun h _ => hr h ▸ hp
  · intro hn
    rw [revision_put, if_pos rfl] at hn
    cases hn

theorem Inv.deleted (hs : Inv fl st s)
    (hc : Concerns id s (s.commit i [.delete (.revision id) pre] nt)
      (nt.map fun n => (i, n)).toList) (ho : ∀ id', nt ≠ some (.restored id'))
    (hi : Restored s.log id → Outdated s.log id) :
    Inv fl st (s.commit i [.delete (.revision id) pre] nt) := by
  refine hc.inv hs fun hm => RevisionKept.of_none ?_ fun hr => ?_
  · rw [revision_delete, if_pos rfl]
  · refine (Outdated.congr hm).mpr (hi (restored_of_mem rfl ?_ hr))
    rintro e he j rfl
    simp only [mem_toList, map_eq_some_iff, Prod.mk.injEq] at he
    obtain ⟨n, hn, -, rfl⟩ := he
    exact ho id hn

theorem Inv.committed (hs : Inv fl st s) {c : Committed} {pre} (hy : c.by_ = i)
    (hd : s.issued[c.id]? = some i) (hu : ∀ c' ∈ commits (own i s.log), c'.id ≠ c.id)
    (hf : c.Follows fl (flowAfter st s.log))
    (hn : ∀ row, revision s c.id = some row → row.doc.content = c.revision) :
    Inv fl st (s.commit i [.put (.definition fl) c.flow pre]
      (some (.committed c.id c.revision c.flow))) := by
  have ho := hs.uncommitted hd hu
  have hl : (s.commit i [.put (.definition fl) c.flow pre]
      (some (.committed c.id c.revision c.flow))).log =
      s.log ++ [(i, .committed c.id c.revision c.flow)] := rfl
  have hc : commits (s.log ++ [(i, .committed c.id c.revision c.flow)]) = commits s.log ++ [c] := by
    subst hy
    rw [commits_append]
    rfl
  have hD : ((commits s.log ++ [c]).map (·.id)).Nodup := by
    rw [map_append, nodup_append]
    refine ⟨hs.distinct, nodup_singleton _, ?_⟩
    intro a ha b hb
    obtain ⟨c', hc', rfl⟩ := mem_map.mp ha
    simp only [map_cons, map_nil, mem_singleton] at hb
    exact hb ▸ ho c' hc'
  have he : ∀ {id}, Restored (s.log ++ [(i, .committed c.id c.revision c.flow)]) id →
      Restored s.log id := by
    rintro id ⟨j, hj⟩
    rcases mem_append.mp hj with hj | hj
    · exact ⟨j, hj⟩
    · cases mem_singleton.mp hj
  refine ⟨⟨?_, ?_, ?_, ?_, ?_⟩, fun id => ?_⟩
  · rw [hl, hc]
    exact History.append_iff.mpr ⟨hs.history, hf, trivial⟩
  · rw [hl, flowAfter, hc, lastFlow_append, definition_put]
  · intro c' hc'
    rw [hl, hc, mem_append, mem_singleton] at hc'
    rcases hc' with hc' | rfl
    · exact hs.issued c' hc'
    · exact hy ▸ hd
  · rw [hl, hc]
    exact hD
  · intro j id hj
    rcases mem_append.mp (hl ▸ hj) with hj | hj
    · obtain ⟨c', hc', hi⟩ := hs.restores hj
      refine ⟨c', ?_, hi⟩
      rw [hl, own_append, commits_append]
      exact mem_append_left _ hc'
    · cases mem_singleton.mp hj
  · have hi := hs.revisions id
    constructor
    · exact fun hr => hi.drawn (revision_putDefinition ▸ hr)
    · exact fun hr => hi.filed (revision_putDefinition ▸ hr)
    · intro row hr c' hc' hq
      rw [revision_putDefinition] at hr
      rw [hl, hc, mem_append, mem_singleton] at hc'
      rcases hc' with hc' | rfl
      · exact hi.content hr c' hc' hq
      · exact hn row (hq ▸ hr)
    · intro row hr hN
      refine hi.uncommitted (revision_putDefinition ▸ hr) fun c' hc' => hN c' ?_
      rw [hl, hc]
      exact mem_append_left _ hc'
    · exact fun hr h => hi.confirmed (revision_putDefinition ▸ hr) (he h)
    · intro hr h
      refine (hi.dropped (revision_putDefinition ▸ hr) (he h)).mono ⟨_, rfl⟩ ?_
      rw [hl, hc]
      exact hD

theorem Change.inv (h : Change fl st i s t) (hs : Inv fl st s) : Inv fl st t := by
  cases h with
  | idle => exact hs
  | drew =>
    have his : s.issued <+: s.issued ++ [i] := prefix_append _ _
    obtain ⟨hcm, hk⟩ := hs.toHistoryKept.same (t := { s with issued := s.issued ++ [i] })
      (append_nil _).symm (by simp) (by simp) his rfl
    exact ⟨hk, fun id => (hs.revisions id).same rfl hcm (fun h => h) his⟩
  | recorded hd hu ho => exact hs.recorded hd hu ho
  | dropped hd hu =>
    refine hs.deleted (Concerns.delete (by simp) (by simp)) (by simp) fun hr => ?_
    obtain ⟨c, hc, hi⟩ := hs.restored hr
    exact absurd hi (hs.uncommitted hd hu c hc)
  | confirmed hc _ ho hn =>
    exact hs.settled hc ho hn (Concerns.put (by simp [committed?]) (by simp))
  | committed hb hd hu hf hC =>
    exact hs.committed hb hd hu hf hC
  | restored hc _ =>
    have hm := (mem_commits_own.mp hc).1
    obtain ⟨hC, hp, -⟩ := hs.history.revision hm
    refine hs.settled hm hC hp (Concerns.put (by simp [committed?]) ?_)
    rintro id' h
    cases h
    exact ⟨rfl, _, hc, rfl⟩
  | outdated hi => exact hs.deleted (Concerns.delete (by simp) (by simp)) (by simp) fun _ => hi
  | abandoned hp =>
    refine hs.deleted (Concerns.delete (by simp [committed?]) (by simp)) (by simp) fun hr => ?_
    obtain ⟨row, hw, hp⟩ := hp
    rw [(hs.revisions _).confirmed hw hr] at hp
    cases hp

/-! ## What the others leave alone -/

theorem Rely.refl (fl i s) : Rely fl i s s :=
  ⟨prefix_refl _, prefix_refl _, rfl, .refl _ _, fun _ => .inl rfl⟩

theorem Untouched.mono (h : Untouched i s id) (hr : Rely fl i s t) : Untouched i t id := by
  rcases h with hs | ⟨hd, hu⟩
  · exact .inl (hs.mono hr.log)
  · exact .inr ⟨getElem?_mono hr.issued hd, hr.mine ▸ hu⟩

theorem Rely.trans {u} (h : Rely fl i s t) (h' : Rely fl i t u) : Rely fl i s u := by
  refine ⟨h.log.trans h'.log, h.issued.trans h'.issued, h'.mine.trans h.mine,
    h.definition.trans h'.definition, fun hi => ?_⟩
  rcases h'.untouched (hi.mono h) with he | hn
  · rw [he]
    exact h.untouched hi
  · exact .inr hn

theorem Rely.of_concerns (h : Concerns id s t et) (he : ∀ e ∈ et, e.1 ≠ j)
    (hd : t.docs.lookup (.definition fl) = s.docs.lookup (.definition fl))
    (hi : Untouched j s id → revision t id = none) : Rely fl j s t := by
  refine ⟨⟨et, h.log.symm⟩, h.issued ▸ prefix_refl _, ?_, .of_lookup_eq hd, ?_⟩
  · have ho : own j et = [] := filter_eq_nil_iff.mpr (by simpa using he)
    rw [h.log, own_append, ho, append_nil]
  · intro id' hu
    by_cases hn : id' = id
    · subst hn
      exact .inr (hi hu)
    · exact .inl (h.revision hn)

theorem not_untouched (hi : i ≠ j) (hd : s.issued[id]? = some i) (hr : ¬ Restored s.log id) :
    ¬ Untouched j s id := by
  rintro (h | ⟨hj, -⟩)
  · exact hr h
  · exact hi (some.inj (hd.symm.trans hj))

theorem Change.rely (h : Change fl st i s t) (hs : Inv fl st s) (hj : i ≠ j) : Rely fl j s t := by
  have hn : ∀ {id}, s.issued[id]? = some i → (∀ c ∈ commits (own i s.log), c.id ≠ id) →
      ¬ Untouched j s id := by
    intro id hd hu
    refine not_untouched hj hd fun hr => ?_
    obtain ⟨c, hc, hi⟩ := hs.restored hr
    exact hs.uncommitted hd hu c hc hi
  cases h with
  | idle => exact .refl fl j s
  | drew => exact ⟨prefix_refl _, prefix_append _ _, rfl, .refl _ _, fun _ => .inl rfl⟩
  | recorded hd hu ho =>
    exact .of_concerns (Concerns.put (by simp) (by simp)) (by simp) lookup_definition_put
      fun hi => absurd hi (hn hd hu)
  | dropped hd hu =>
    exact .of_concerns (Concerns.delete (by simp) (by simp)) (by simp) lookup_definition_delete
      fun hi => absurd hi (hn hd hu)
  | @confirmed c doc pre hc hp ho hC =>
    refine .of_concerns (Concerns.put (by simp [committed?]) (by simp)) (by simpa using hj)
      lookup_definition_put fun hi => ?_
    rcases hi with hr | ⟨hd, hu⟩
    · obtain ⟨row, hw, hp⟩ := hp
      rw [(hs.revisions _).confirmed hw hr] at hp
      cases hp
    · exact absurd rfl (hs.uncommitted hd hu c hc)
  | @committed c pre hb hd hu hf hcn =>
    refine ⟨⟨_, rfl⟩, prefix_refl _, ?_, .put _ _ _ _ pre, fun _ => .inl revision_putDefinition⟩
    rw [Store.commit_log, own_append]
    simp [own, hj]
  | @restored c pre hc hO =>
    refine .of_concerns (Concerns.put (by simp [committed?]) ?_) (by simpa using hj)
      lookup_definition_put fun hi => ?_
    · rintro id' h
      cases h
      exact ⟨rfl, _, hc, rfl⟩
    · obtain ⟨hm, hb⟩ := mem_commits_own.mp hc
      refine absurd hi (not_untouched hj (hb ▸ hs.issued c hm) ?_)
      rintro ⟨k, hk⟩
      obtain ⟨c', hc', hi'⟩ := hs.restores hk
      obtain ⟨hm', hb'⟩ := mem_commits_own.mp hc'
      rw [eq_of_id_eq hs.distinct hm' hm hi', hb] at hb'
      exact hO (mem_own.mpr ⟨hb' ▸ hk, rfl⟩)
  | outdated hi =>
    refine .of_concerns (Concerns.delete (by simp) (by simp)) (by simp) lookup_definition_delete
      fun _ => ?_
    rw [revision_delete, if_pos rfl]
  | abandoned hp =>
    refine .of_concerns (Concerns.delete (by simp [committed?]) (by simp)) (by simpa using hj)
      lookup_definition_delete fun _ => ?_
    rw [revision_delete, if_pos rfl]

end Invariant

end Tinyflows.Catalog
