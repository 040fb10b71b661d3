import Tinyflows.Catalog.Lemmas.Partition

/-!
# What an update knows

An update knows of its own revision all the time, and of the others what its last read told it.
-/

namespace Tinyflows.Catalog
open Lib Model Storage List Option CatalogStore

section Update

variable {fl : String} {st : FlowDoc} {i : Nat}

theorem updateTerms_reliable : Reliable i (updateTerms fl st i) where
  serves h := h.1
  idle _ := .idle
  answers h := h.2.1

def Stable (flow : String) (start : FlowDoc) (i : Nat) (A : CatalogStore → Prop) : Prop :=
  ∀ s t, Inv flow start t → Rely flow i s t → A s → A t

theorem Stable.and {A B} (hA : Stable fl st i A)
    (hB : Stable fl st i B) : Stable fl st i fun s => A s ∧ B s :=
  fun s t ht hr h => ⟨hA s t ht hr h.1, hB s t ht hr h.2⟩

variable {A E : CatalogStore → Prop}

/-! ## The parts of a program -/

abbrev Upholds {ε α : Type} (flow : String) (start : FlowDoc) (i : Nat) :=
  Ensures (ε := ε) (α := α) (updateTerms flow start i)

theorem ensures_orStore {α} {x : Access α} {Q} (h : Upholds fl st i A x Q E) :
    Upholds fl st i A x.orStore Q E := by
  intro s hs hA
  refine Program.Meets.bind hs (h s hs hA) ?_
  rintro (e | a) t - hp
  · exact hp
  · exact hp

theorem ensures_bestEffort {x : Access Unit} {Q} (h : Upholds fl st i A x Q fun _ => False) :
    Upholds fl st i A (Access.bestEffort x) Q E :=
  .tryCatch h fun _ _ _ h => h.elim

theorem ensures_readFlow (hA : Stable fl st i A) :
    Upholds fl st i A (readFlow fl)
      (fun t d => A t ∧ d = some (flowAfter st t.log)) E := by
  have hg : Upholds fl st i A (Access.get (.definition fl))
      (fun t fo => A t ∧ fo.map (·.doc) = some (flowAfter st t.log)) E :=
    updateTerms_reliable.ensures_get fun s t hs ht hr => ⟨hA s t ht hr hs, ht.definition⟩
  exact hg.bind fun fo => .pure fun s _ h => h

theorem ensures_revisionsOf (hA : Stable fl st i A) :
    Upholds fl st i A (Access.revisionsOf fl)
      (fun t ro => A t ∧ ro = revisions t fl) E := by
  intro s hs hAs
  exact Program.Meets.bind hs (updateTerms_reliable.ensures_list (E := fun _ => False)
    (Q := fun t ro => A t ∧ ro = t.docs.entries.filter fun e => e.1.isRevision)
    (fun s t hs ht hr => ⟨hA s t ht hr hs, rfl⟩) s hs hAs) fun r t _ hp => by
      cases r with
      | error e => exact hp.elim
      | ok ro => exact ⟨hp.1, by rw [hp.2]; rfl⟩

theorem ensures_compareAndSwap {k nt ch Q} (h : Repo.Updates i (updateTerms fl st i) A k nt
      (fun (c : Unit) doc => (.ok (doc.bind ch), c)) fun s r => match r.1 with
        | .ok a => Q s a
        | .error _ => E s) : Upholds fl st i A (Access.compareAndSwap k nt ch) Q E := by
  intro s hs hAs
  refine Program.Meets.bind hs (h.loop updateTerms_reliable.toOnDocuments hAs _ ()) ?_
  rintro ⟨e | a, c⟩ t _ hp
  · exact hp
  · exact hp

variable {nt : Option CatalogEvent} {ops : List (WriteOp CatalogDocs)} {next : Nat} {sr : FlowDoc}
  {doc : RevisionDoc} {pre : Precondition} {rq : GraphUpdate} {c : Committed} {cl : Nat → Int}

theorem ensures_deleteUnchanged {row} {Q : CatalogStore → Prop}
    (hf : ∀ s t, A s → Inv fl st t → Rely fl i s t →
      CatalogStore.revision t row.1 ≠ some row.2 → Q t)
    (hd : ∀ s t, A s → Inv fl st t → Rely fl i s t →
      FindsPending i t (.write [.delete (.revision row.1) (.version row.2.version)] nt) (.ok ())
        (t.commit i [.delete (.revision row.1) (.version row.2.version)] nt) →
      Change fl st i t (t.commit i [.delete (.revision row.1) (.version row.2.version)] nt) ∧
        Q (t.commit i [.delete (.revision row.1) (.version row.2.version)] nt)) :
    Upholds fl st i A (deleteUnchanged row nt) (fun t _ => Q t) E := by
  intro s hs hA t ht hr r u hu
  obtain ⟨hk, rfl, rfl⟩ | ⟨hC, rfl, rfl⟩ | ⟨m, rfl, rfl⟩ := hu.1
  · obtain ⟨hc, hQ⟩ := hd s t hA ht hr hu.2
    exact ⟨hc, hc.inv ht, hQ⟩
  · refine ⟨.idle, ht, hf s u hA ht hr fun ho => hC ?_⟩
    change u.docs.lookup (.revision row.1) = some row.2 at ho
    simp [WriteOp.admitted, Precondition.holds, ho]
  · cases hu.2.1

/-! ## What an update knows before it commits -/

def Seen (start : FlowDoc) (d : FlowDoc) (s : CatalogStore) : Prop :=
  ∃ l, l <+: commits s.log ∧ d = lastFlow start l

def Uncommitted (i : Nat) (s : CatalogStore) : Prop :=
  commits (own i s.log) = []

structure Drawn (i id : Nat) (revision : RevisionDoc) (s : CatalogStore) : Prop where
  drawn : s.issued[id]? = some i
  uncommitted : Uncommitted i s
  stored : ∀ row, CatalogStore.revision s id = some row →
    row.doc.content = revision ∧ row.doc.pending = true

variable {d : FlowDoc} {id : Nat} {rv : RevisionDoc} {s t : CatalogStore}

theorem stable_seen : Stable fl st i (Seen st d) := by
  rintro s t - hr ⟨l, hl, hd⟩
  exact ⟨l, hl.trans (commits_mono hr.log), hd⟩

theorem stable_uncommitted : Stable fl st i (Uncommitted i) := by
  intro s t _ hr h
  rw [Uncommitted, hr.mine]
  exact h

theorem Drawn.untouched (h : Drawn i id rv s) : Untouched i s id :=
  .inr ⟨h.drawn, by rw [h.uncommitted]; simp⟩

theorem stable_drawn : Stable fl st i (Drawn i id rv) := by
  intro s t ht hr h
  refine ⟨getElem?_mono hr.issued h.drawn, stable_uncommitted s t ht hr h.uncommitted, ?_⟩
  intro row ho
  rcases hr.untouched h.untouched with he | hn
  · exact h.stored row (he ▸ ho)
  · rw [hn] at ho
    cases ho

theorem seen_flowAfter : Seen st (flowAfter st s.log) s :=
  ⟨commits s.log, prefix_refl _, rfl⟩

theorem Seen.incarnation (hs : Inv fl st s) (h : Seen st d s) : d.incarnation = st.incarnation := by
  obtain ⟨l, hl, rfl⟩ := h
  rcases History.lastFlow_cases st l with ⟨-, he⟩ | ⟨c, hc, he⟩
  · rw [he]
  · rw [he]
    exact (hs.history.incarnation (hl.subset hc)).1

theorem Seen.named (ht : st.lastRevisionId = none) (hs : Inv fl st s)
    (h : Seen st d s) (id) (hi : d.lastRevisionId = some id) : ∃ c ∈ commits s.log, c.id = id := by
  obtain ⟨l, hl, rfl⟩ := h
  rcases History.lastFlow_cases st l with ⟨-, he⟩ | ⟨c, hc, he⟩
  · rw [he, ht] at hi
    cases hi
  · rw [he, hs.history.named (hl.subset hc)] at hi
    exact ⟨c, hl.subset hc, Option.some.inj hi⟩

theorem commit_none_log : (s.commit i ops none).log = s.log :=
  append_nil _

theorem Uncommitted.commit (h : Uncommitted i s) (ho : ∀ n ∈ nt, committed? (i, n) = none) :
    Uncommitted i (s.commit i ops nt) := by
  rw [Uncommitted, Store.commit_log, own_append, commits_append, append_eq_nil_iff]
  refine ⟨h, filterMap_eq_nil_iff.mpr fun e he => ?_⟩
  obtain ⟨he, -⟩ := mem_own.mp he
  simp only [mem_toList, map_eq_some_iff] at he
  obtain ⟨n, hn, rfl⟩ := he
  exact ho n hn

/-! ## Before the commit -/

theorem ensures_confirm (hA : Stable fl st i A)
    (ho : ∀ s, A s → Uncommitted i s ∧ ∃ c ∈ commits s.log, c.id = id)
    (hk : ∀ s ops, A s → A (s.commit i ops (some (.confirmed id)))) :
    Upholds fl st i A (confirm id) (fun s _ => A s) A := by
  refine .bind (Q := fun s _ => A s) (ensures_compareAndSwap
    { known := fun ht hr hs => hA _ _ ht hr hs
      failed := fun _ h => h
      declined := fun _ h _ => h
      written := ?_ }) fun co => ?_
  · intro s t _ _ bo pre hs hAs ht hAt hr hf _ he
    obtain ⟨c, hc, rfl⟩ := (ho s hAs).2
    have hb := bind_eq_some_iff.mp (Except.ok.inj (Prod.mk.inj hf).1)
    obtain ⟨doc, hd, hb⟩ := hb
    obtain ⟨row, hw, rfl⟩ := map_eq_some_iff.mp hd
    have hn := (hs.revisions c.id).content hw c hc rfl
    split at hb
    · cases hb
      have hF : pendingAt t c.id = true := he.2.2 rfl c.id rfl
      have hh : Change fl st i t (t.commit i
          [.put (.revision c.id) { row.doc with pending := false } pre] (some (.confirmed c.id))) := by
        refine .confirmed ((commits_mono hr.log).subset hc) ?_ hn rfl
        simpa [pendingAt, Option.any_eq_true] using hF
      exact ⟨hh, hh.inv ht, hk t _ hAt⟩
    · cases hb
  · split
    · exact .pure fun _ _ h => h
    · refine .bind (updateTerms_reliable.ensures_get fun s t hs ht hr => hA s t ht hr hs)
        fun _ => .pure fun _ _ h => h

/-- The flow was seen, and the number after its own was computed for it. -/
structure Prepared (i : Nat) (start stored : FlowDoc) (next : Nat) (s : CatalogStore) : Prop where
  uncommitted : Uncommitted i s
  seen : Seen start stored s
  next : flowAfter start s.log = stored → next = stored.number + 1

theorem Seen.eq_of_updatedMs_eq (hs : Inv fl st s) (h : Seen st d s)
    (hm : (flowAfter st s.log).updatedMs = d.updatedMs) : flowAfter st s.log = d := by
  obtain ⟨l, hl, rfl⟩ := h
  rw [History.eq_of_updatedMs_eq hs.history hl hm.symm]
  rfl

theorem Seen.still (hr : Rely fl i s t) (ht : Inv fl st t) (h : Seen st d s)
    (hd : flowAfter st t.log = d) : flowAfter st s.log = d := by
  obtain ⟨l, hl, rfl⟩ := h
  have ho := commits_mono hr.log
  have he := History.eq_of_updatedMs_eq ht.history (hl.trans ho) (congrArg FlowDoc.updatedMs hd.symm)
  rw [flowAfter, ← hl.eq_of_length_le (he ▸ ho.length_le)]

theorem stable_prepared : Stable fl st i (Prepared i st sr next) :=
  fun s t ht hr h => ⟨stable_uncommitted s t ht hr h.uncommitted,
    stable_seen s t ht hr h.seen, fun hd => h.next (h.seen.still hr ht hd)⟩

theorem commits_commit (ho : ∀ n ∈ nt, committed? (i, n) = none) :
    commits (s.commit i ops nt).log = commits s.log := by
  have hN : commits (nt.map fun n => (i, n)).toList = [] := by
    refine filterMap_eq_nil_iff.mpr fun e he => ?_
    simp only [mem_toList, map_eq_some_iff] at he
    obtain ⟨n, hn, rfl⟩ := he
    exact ho n hn
  rw [Store.commit_log, commits_append, hN, append_nil]

theorem Prepared.commit (h : Prepared i st sr next s) (hn : ∀ n ∈ nt, committed? (i, n) = none) :
    Prepared i st sr next (s.commit i ops nt) := by
  refine ⟨h.uncommitted.commit hn, ?_, ?_⟩
  · rw [Seen, commits_commit hn]
    exact h.seen
  · rw [flowAfter, commits_commit hn]
    exact h.next

theorem ensures_confirmPrevious (hS : st.lastRevisionId = none) :
    Upholds fl st i (Prepared i st sr next) (confirmPrevious sr)
      (fun s _ => Prepared i st sr next s) (Uncommitted i) := by
  unfold confirmPrevious
  split
  · exact .pure fun _ _ h => h
  · next last hl =>
    let A := fun s : CatalogStore => Prepared i st sr next s ∧ ∃ c ∈ commits s.log, c.id = last
    have ho : Upholds fl st i A (confirm last) (fun s _ => A s) A := by
      refine ensures_confirm (fun s t ht hr h => ?_) (fun s h => ⟨h.1.uncommitted, h.2⟩)
        fun s ops h => ⟨h.1.commit (by simp [committed?]), ?_⟩
      · obtain ⟨hp, c, hc, hi⟩ := h
        exact ⟨stable_prepared s t ht hr hp, c, (commits_mono hr.log).subset hc, hi⟩
      · rw [commits_commit (by simp [committed?])]
        exact h.2
    exact (ho.weaken (fun s hs h => ⟨h, h.seen.named hS hs last hl⟩)
      (fun s _ _ h => h.1) fun s h => h.1.uncommitted).bind fun _ => .pure fun s _ h => h

theorem ensures_unique (hA : Stable fl st i A)
    (hd : ∀ s, A s → A { s with issued := s.issued ++ [i] }) :
    Ensures (ε := FlowUpdateError) (updateTerms fl st i) (fun s => A s ∧ Uncommitted i s)
      (ExceptT.lift Transaction.unique)
      (fun s id => A s ∧ ∀ rv, Drawn i id rv s) E := by
  refine .lift fun s hs h t ht hr r u hu => ?_
  obtain ⟨rfl, rfl⟩ := hu.1
  refine ⟨.drew, Change.inv .drew ht, hd t (hA s t ht hr h.1), fun rv => ⟨?_, ?_, ?_⟩⟩
  · rw [getElem?_append_right (Nat.le_refl _), Nat.sub_self]
    rfl
  · exact stable_uncommitted s t ht hr h.2
  · intro row ho
    exact absurd ((ht.revisions _).drawn ho) (Nat.lt_irrefl _)

theorem Drawn.put (h : Drawn i id rv s) (hd : doc.content = rv) (hp : doc.pending = true) :
    Drawn i id rv (s.commit i [.put (.revision id) doc pre] none) := by
  refine ⟨h.drawn, h.uncommitted.commit (by simp), fun row hr => ?_⟩
  rw [revision_put, if_pos rfl] at hr
  cases hr
  exact ⟨hd, hp⟩

theorem Drawn.change (h : Drawn i id rv s) (hd : doc.Pends fl st) :
    Change fl st i s (s.commit i [.put (.revision id) doc pre] none) :=
  .recorded h.drawn (by rw [h.uncommitted]; simp) hd

section Recording

variable {sr : FlowDoc} {next : Nat}

def Recording (i : Nat) (start stored : FlowDoc) (next id : Nat) (revision : RevisionDoc)
    (s : CatalogStore) : Prop :=
  Prepared i start stored next s ∧ Drawn i id revision s

theorem stable_recording : Stable fl st i (Recording i st sr next id rv) :=
  stable_prepared.and stable_drawn

variable {doc : RevisionDoc} {pre : Precondition} {rq : GraphUpdate}

theorem Recording.put (h : Recording i st sr next id rv s) (hs : Inv fl st s)
    (hd : doc.content = rv) (hp : doc.Pends fl st) :
    Change fl st i s (s.commit i [.put (.revision id) doc pre] none) ∧
      Inv fl st (s.commit i [.put (.revision id) doc pre] none) ∧
      Recording i st sr next id rv (s.commit i [.put (.revision id) doc pre] none) :=
  ⟨h.2.change hp, (h.2.change hp).inv hs, h.1.commit (by simp), h.2.put hd hp.pending⟩

theorem ensures_put (hd : doc.content = rv) (hp : doc.Pends fl st) :
    Upholds fl st i (Recording i st sr next id rv)
      (Access.put (.revision id) doc pre none)
      (fun s _ => Recording i st sr next id rv s) (Uncommitted i) :=
  updateTerms_reliable.ensures_write
    (fun s t hs ht hr _ => (stable_recording s t ht hr hs).1.uncommitted)
    fun s t hs ht hr _ _ => (stable_recording s t ht hr hs).put ht hd hp

theorem ensures_recordRevision {tm} (hc : rv.content = rv)
    (hl : rv.flowId = fl) (hi : rv.flowIncarnation = st.incarnation) :
    Upholds fl st i (Recording i st sr next id rv)
      (recordRevision id rv tm)
      (fun s _ => Recording i st sr next id rv s) (Uncommitted i) := by
  have hp : ∀ tc, RevisionDoc.Pends fl st
      { rv with pending := true, touchedMs := tc } :=
    fun tc => ⟨rfl, hl, hi⟩
  have hn : ∀ tc, RevisionDoc.content
      { rv with pending := true, touchedMs := tc } = rv := fun _ => hc
  refine (ensures_put (hn _) (hp _)).bind fun _ => .bind
    (Q := fun s _ => Recording i st sr next id rv s) (ensures_compareAndSwap
    { known := fun ht he hs => stable_recording _ _ ht he hs
      failed := fun _ h => h.1.uncommitted
      declined := fun _ h _ => h
      written := ?_ }) fun tc => ?_
  · intro s t _ _ bo pre hs hAs ht hAt he hf _ _
    obtain ⟨doc, hd, hb⟩ := bind_eq_some_iff.mp (Except.ok.inj (Prod.mk.inj hf).1)
    obtain ⟨row, hr, rfl⟩ := map_eq_some_iff.mp hd
    cases hb
    obtain ⟨hc, hP⟩ := hAs.2.stored row hr
    exact hAt.put ht hc ⟨hP, ((hs.revisions id).filed hr).1, ((hs.revisions id).filed hr).2⟩
  · split
    · exact .pure fun _ _ h => h
    · exact ensures_put (hn _) (hp _)

theorem ensures_dropUnused :
    Upholds fl st i (Recording i st sr next id rv) (dropUnused id)
      (fun s _ => Uncommitted i s) E := by
  refine ensures_bestEffort (updateTerms_reliable.ensures_write
    (fun s t hs ht hr hf => hf rfl) fun s t hs ht hr _ _ => ?_)
  have hd := (stable_recording s t ht hr hs).2
  have hc : Change fl st i t (t.commit i [.delete (.revision id) .any] none) :=
    .dropped hd.drawn (by rw [hd.uncommitted]; simp)
  exact ⟨hc, hc.inv ht, hd.uncommitted.commit (by simp)⟩

/-! ## The commit -/

/-- The update has committed, and not confirmed its revision yet. -/
structure Mine (i : Nat) (c : Committed) (s : CatalogStore) : Prop where
  commits : commits (own i s.log) = [c]
  once : (i, CatalogEvent.restored c.id) ∉ own i s.log

theorem stable_mine {c} : Stable fl st i (Mine i c) := by
  intro s t _ hr h
  constructor
  · rw [hr.mine]
    exact h.commits
  · rw [hr.mine]
    exact h.once

theorem swapFlow_eq_some {now doc bo} (h : swapFlow rq sr now id next doc = some bo) :
    doc.updatedMs = sr.updatedMs ∧ bo = { doc with
      name := rq.name
      graph := rq.graph
      updatedMs := now
      requireApproval := rq.requireApproval
      enabled := rq.enabled sr
      lastRevisionId := some id
      revision := some next } := by
  unfold swapFlow at h
  split at h
  · cases h
  · next hs => exact ⟨by tauto, (Option.some.inj h).symm⟩

theorem definition_eq (hs : Inv fl st s) (ht : Inv fl st t) (hr : Rely fl i s t)
    (ho : (Precondition.unchanged (s.docs.lookup (.definition fl))).holds
      (t.docs.lookup (.definition fl)) = true) : flowAfter st s.log = flowAfter st t.log := by
  have hi : Repo.Identifies (.definition fl) s t := by
    intro a b ha hb hv
    obtain ⟨b', hb', -, he⟩ := hr.definition a ha
    rw [hb] at hb'
    cases hb'
    exact he hv
  have hd := congrArg (Option.map (·.doc)) (hi.lookup_eq ho)
  exact Option.some.inj (hs.definition.symm.trans (hd.trans ht.definition))

theorem Recording.committed {now pre}
    (h : Recording i st sr next id (priorRevision fl sr now) t) (ht : Inv fl st t) (bo : FlowDoc)
    (hs : flowAfter st t.log = sr) (hn : sr.updatedMs < now)
    (hM : bo.updatedMs = now) (ha : bo.lastRevisionId = some id)
    (hr : bo.revision = some next) (hi : bo.incarnation = sr.incarnation) :
    Change fl st i t (t.commit i [.put (.definition fl) bo pre]
        (some (.committed id (priorRevision fl sr now) bo))) ∧
      Mine i ⟨i, id, priorRevision fl sr now, bo⟩
        (t.commit i [.put (.definition fl) bo pre]
          (some (.committed id (priorRevision fl sr now) bo))) := by
  let c : Committed := ⟨i, id, priorRevision fl sr now, bo⟩
  have hf : c.Follows fl (flowAfter st t.log) := by
    rw [hs]
    refine ⟨?_, hM.symm ▸ hn, ha, ?_, hi⟩
    · rw [hM]
    · rw [hr, h.1.next hs]
  have ho : own i (t.commit i [.put (.definition fl) bo pre]
      (some (.committed id (priorRevision fl sr now) bo))).log =
      own i t.log ++ [(i, .committed id (priorRevision fl sr now) bo)] := by
    rw [Store.commit_log, own_append]
    simp [own]
  refine ⟨.committed (c := c) rfl h.2.drawn (by rw [h.2.uncommitted]; simp) hf
    fun row hw => (h.2.stored row hw).1, ?_, ?_⟩
  · rw [ho, commits_append, h.2.uncommitted]
    rfl
  · rw [ho]
    intro hm
    rcases mem_append.mp hm with hm | hm
    · obtain ⟨c', hc', -⟩ := ht.restores (mem_own.mp hm).1
      rw [h.2.uncommitted] at hc'
      cases hc'
    · cases mem_singleton.mp hm

theorem ensures_swap {now} (hn : sr.updatedMs < now) : Upholds fl st i
      (Recording i st sr next id (priorRevision fl sr now))
      (Access.compareAndSwap (.definition fl)
        (fun bo => some (.committed id (priorRevision fl sr now) bo))
        (swapFlow rq sr now id next))
      (fun s sw => match sw with
        | none => Recording i st sr next id (priorRevision fl sr now) s
        | some bo => Mine i ⟨i, id, priorRevision fl sr now, bo⟩ s ∧
            rq.Made ⟨i, id, priorRevision fl sr now, bo⟩)
      (Recording i st sr next id (priorRevision fl sr now)) := by
  refine ensures_compareAndSwap
    { known := fun ht hr hs => stable_recording _ _ ht hr hs
      failed := fun _ h => h
      declined := fun _ h hf => ?_
      written := ?_ }
  · exact h
  · intro s t _ _ bo pre hs hAs ht hAt hr hf ho _
    obtain ⟨doc, hd, hb⟩ := bind_eq_some_iff.mp (Except.ok.inj (Prod.mk.inj hf).1)
    obtain ⟨hm, hb⟩ := swapFlow_eq_some hb
    have hl : flowAfter st t.log = doc := by
      rw [← definition_eq hs ht hr ho]
      exact Option.some.inj (hs.definition.symm.trans hd)
    have hS : flowAfter st t.log = sr :=
      hAt.1.seen.eq_of_updatedMs_eq ht (by rw [hl, hm])
    obtain rfl : doc = sr := hl.symm.trans hS
    obtain ⟨hc, hi⟩ := hAt.committed ht bo hS hn (by rw [hb]) (by rw [hb]) (by rw [hb]) (by rw [hb])
    exact ⟨hc, hc.inv ht, hi, ⟨by rw [hb], by rw [hb], by rw [hb]⟩⟩

end Recording

/-! ## After the commit -/

section Pruning

variable {c : Committed} {l : List (Nat × CatalogEvent)} {rs : List RevisionRow}

/-- At `l` the update had confirmed its revision. If every update had by then, what was outdated then is
gone or among the rows that are still to be deleted. -/
structure Pruning (i : Nat) (c : Committed) (l : List (Nat × CatalogEvent)) (rest : List RevisionRow)
    (s : CatalogStore) : Prop where
  mine : commits (own i s.log) = [c]
  log : l <+: s.log
  committed : c ∈ commits l
  restored : Restored l c.id
  gone : (∀ c' ∈ commits l, Restored l c'.id) → ∀ c' ∈ commits l, Outdated l c'.id →
    CatalogStore.revision s c'.id = none ∨
      ∃ row ∈ rest, row.1 = c'.id ∧ CatalogStore.revision s c'.id = some row.2

theorem stable_pruning : Stable fl st i (Pruning i c l rs) := by
  intro s t _ hr h
  refine ⟨?_, h.log.trans hr.log, h.committed, h.restored, fun ha c' hc' ho => ?_⟩
  · rw [hr.mine]
    exact h.mine
  · rcases hr.untouched (.inl ((ha c' hc').mono h.log)) with he | hn
    · rw [he]
      exact h.gone ha c' hc' ho
    · exact .inl hn

theorem Pruning.delete {pre nt} (h : Pruning i c l rs s) (ht : ∀ n ∈ nt, committed? (i, n) = none) :
    Pruning i c l (rs.filter (·.1 ≠ id)) (s.commit i [.delete (.revision id) pre] nt) := by
  refine ⟨?_, h.log.trans ⟨_, rfl⟩, h.committed, h.restored, fun ha c' hc' hu => ?_⟩
  · have ho : commits (own i (nt.map fun n => (i, n)).toList) = [] := by
      refine filterMap_eq_nil_iff.mpr fun e he => ?_
      obtain ⟨he, -⟩ := mem_own.mp he
      simp only [mem_toList, map_eq_some_iff] at he
      obtain ⟨n, hn, rfl⟩ := he
      exact ht n hn
    rw [Store.commit_log, own_append, commits_append, ho, append_nil]
    exact h.mine
  · rw [revision_delete]
    split
    · exact .inl rfl
    · next hN =>
      rcases h.gone ha c' hc' hu with ho | ⟨row, hr, hi, hl⟩
      · exact .inl ho
      · exact .inr ⟨row, mem_filter.mpr ⟨hr, by simpa [hi] using hN⟩, hi, hl⟩

theorem Pruning.mono {rs'} (h : Pruning i c l rs s)
    (hr : ∀ row ∈ rs, CatalogStore.revision s row.1 = some row.2 → row ∈ rs') :
    Pruning i c l rs' s := by
  refine ⟨h.mine, h.log, h.committed, h.restored, fun ha c' hc' ho => ?_⟩
  rcases h.gone ha c' hc' ho with hn | ⟨row, hw, hi, hl⟩
  · exact .inl hn
  · exact .inr ⟨row, hr row hw (hi ▸ hl), hi, hl⟩

theorem ensures_deleteAll :
    Upholds fl st i
      (fun s => Pruning i c l rs s ∧ ∀ row ∈ rs, Outdated s.log row.1) (deleteAll rs)
      (fun s _ => Pruning i c l [] s) E := by
  induction rs with
  | nil => exact .pure fun s _ h => h.1
  | cons row rs ih =>
    have hS : Stable fl st i fun s =>
        Pruning i c l (row :: rs) s ∧ ∀ row' ∈ row :: rs, Outdated s.log row'.1 :=
      stable_pruning.and fun s t ht he h row' hr' => (h row' hr').mono he.log ht.distinct
    refine .bind (Q := fun s _ => Pruning i c l rs s ∧ ∀ row ∈ rs, Outdated s.log row.1)
      (ensures_deleteUnchanged (fun s t hs ht he hn => ?_) fun s t hs ht he hf => ?_)
      fun _ => ih
    · obtain ⟨hp, ho⟩ := hS s t ht he hs
      refine ⟨hp.mono fun row' hr' hl => ?_, fun row' hr' => ho row' (mem_cons_of_mem _ hr')⟩
      rcases mem_cons.mp hr' with rfl | hr'
      · exact absurd hl hn
      · exact hr'
    · obtain ⟨hp, ho⟩ := hS s t ht he hs
      refine ⟨.outdated (ho row mem_cons_self), ?_, fun row' hr' => ?_⟩
      · refine (hp.delete (by simp)).mono fun row' hr' _ => ?_
        obtain ⟨hr', hn⟩ := mem_filter.mp hr'
        rcases mem_cons.mp hr' with rfl | hr'
        · simp at hn
        · exact hr'
      · rw [commit_none_log]
        exact ho row' (mem_cons_of_mem _ hr')

theorem ensures_deleteAbandoned {ca} {re : Int} :
    Upholds fl st i (Pruning i c l []) (deleteAbandoned fl ca re)
      (fun s _ => Pruning i c l [] s) E := by
  refine .bind (updateTerms_reliable.ensures_get (Q := fun s _ => Pruning i c l [] s)
    fun s t hs ht hr => stable_pruning s t ht hr hs) fun current => ?_
  split
  · exact .pure fun _ _ h => h
  · split
    · refine .bind ((ensures_readFlow stable_pruning).weaken (fun _ _ h => h) (fun _ _ _ h => h.1)
        fun _ h => h) fun definition => ?_
      split
      · exact .pure fun _ _ h => h
      · refine ensures_deleteUnchanged (fun s t hs ht hr _ => stable_pruning s t ht hr hs)
          fun s t hs ht hr hf => ⟨.abandoned ?_, ?_⟩
        · have ho : pendingAt t ca.1 = true := hf.2 rfl ca.1 rfl
          simpa [pendingAt, Option.any_eq_true] using ho
        · exact ((stable_pruning s t ht hr hs).delete (by simp [committed?])).mono fun _ h _ => h
    · exact .pure fun _ _ h => h

variable {cl : Nat → Int}

theorem ensures_deleteAbandonedAll {n ca} :
    Upholds fl st i (Pruning i c l [])
      (deleteAbandonedAll fl cl n ca) (fun s _ => Pruning i c l [] s) E := by
  induction ca generalizing n with
  | nil => exact .pure fun _ _ h => h
  | cons cn rs ih => exact ensures_deleteAbandoned.bind fun _ => ih

theorem ensures_partition (hA : Stable fl st i A) :
    Upholds fl st i A (partition fl) (fun t pa => A t ∧ ∃ d, Seen st d t ∧
      pa = partitionRows (some d) (revisions t fl)) E := by
  refine .bind (ensures_readFlow hA) fun de => .fact (fun s _ h => h.2 ▸ ⟨_, rfl⟩)
    fun (hs : ∃ d, de = some d) => ?_
  obtain ⟨d, rfl⟩ := hs
  have he : ∀ s, A s ∧ some d = some (flowAfter st s.log) → A s ∧ Seen st d s :=
    fun s h => ⟨h.1, Option.some.inj h.2 ▸ seen_flowAfter⟩
  exact ((ensures_revisionsOf (hA.and stable_seen)).pre fun s _ h => he s h).bind fun rows =>
    .pure fun s _ h => ⟨h.1.1, d, h.1.2, by rw [h.2]⟩

theorem ensures_reclaim_nil {ro} (h : ro = []) :
    Upholds fl st i A (reclaim ro) (fun s _ => A s) E := by
  subst h
  exact .pure fun _ _ h => h

theorem ensures_pruneRevisions (hS : st.lastRevisionId = none) {n} :
    Upholds fl st i
      (fun s => commits (own i s.log) = [c] ∧ Restored s.log c.id) (pruneRevisions fl cl n)
      (fun s _ => ∃ l, Pruning i c l [] s) E := by
  have hb : Stable fl st i fun s => commits (own i s.log) = [c] ∧ Restored s.log c.id :=
    fun s t _ he h => ⟨by rw [he.mine]; exact h.1, h.2.mono he.log⟩
  -- What is known where the rows are listed.
  have hp : ∀ t pa, Inv fl st t →
      ((commits (own i t.log) = [c] ∧ Restored t.log c.id) ∧ ∃ d, Seen st d t ∧
        pa = partitionRows (some d) (revisions t fl)) →
      pa.orphans = [] ∧ ∃ l, Pruning i c l (pa.visible.drop MAX_REVISIONS_PER_FLOW) t ∧
        ∀ row ∈ pa.visible.drop MAX_REVISIONS_PER_FLOW, Outdated t.log row.1 := by
    rintro t pa ht ⟨⟨hm, hR⟩, d, hs, rfl⟩
    have hi := hs.incarnation ht
    have hn := hs.named hS ht
    have hc : c ∈ commits t.log :=
      (mem_commits_own.mp (hm.symm ▸ mem_singleton_self c)).1
    refine ⟨partition_orphans ht hi, t.log, ⟨hm, prefix_refl _, hc, hR, fun ha c' hc' ho => ?_⟩,
      fun row hr => outdated_of_mem_drop ht hi hn hr⟩
    cases hr : CatalogStore.revision t c'.id with
    | none => exact .inl rfl
    | some row =>
      exact .inr ⟨_, mem_drop_visible ht hi hn ha ho hr, rfl, rfl⟩
  refine .bind (ensures_partition hb) fun pa => .fact (fun t ht h => (hp t pa ht h).1)
    fun hO => .bind (ensures_reclaim_nil hO) fun _ => ?_
  refine .bind (Q := fun s _ => ∃ l, Pruning i c l [] s) ?_ fun _ =>
    .exists_ fun l => ensures_deleteAbandonedAll.weaken (fun _ _ h => h) (fun _ _ _ h => ⟨l, h⟩)
      fun _ h => h
  refine .pre (.exists_ fun l => ensures_deleteAll.weaken (fun _ _ h => h) (fun _ _ _ h => ⟨l, h⟩)
    fun _ h => h) fun t ht h => (hp t pa ht h).2

end Pruning

/-! ## The whole update -/

def Ended (request : GraphUpdate) (i : Nat) (s : CatalogStore) : UpdateResult → Prop
  | .error _ => Uncommitted i s
  | .ok _ => ∃ c, request.Made c ∧ ∃ l, Pruning i c l [] s

theorem stable_ended {r} : Stable fl st i (Ended rq i · r) := by
  intro s t ht hr h
  cases r with
  | error e => exact stable_uncommitted s t ht hr h
  | ok d =>
    obtain ⟨c, hm, l, h⟩ := h
    exact ⟨c, hm, l, stable_pruning s t ht hr h⟩

theorem ensures_confirmOrRestore :
    Upholds fl st i (Mine i c) (confirmOrRestore c.id c.revision)
      (fun s _ => commits (own i s.log) = [c] ∧ Restored s.log c.id) E := by
  refine updateTerms_reliable.ensures_write (fun s t hs ht hr hf => absurd rfl hf)
    fun s t hs ht hr _ _ => ?_
  have hm := stable_mine s t ht hr hs
  have hc : Change fl st i t (t.commit i [.put (.revision c.id) c.revision .any]
      (some (.restored c.id))) :=
    .restored (by rw [hm.commits]; exact mem_singleton_self c) hm.once
  refine ⟨hc, hc.inv ht, ?_, i, by simp⟩
  rw [Store.commit_log, own_append, commits_append, hm.commits]
  simp [commits, own, committed?]

theorem ensures_finishUpdate (hs : st.lastRevisionId = none) {c} {cl : Nat → Int} :
    Upholds fl st i (Mine i c) (finishUpdate fl cl c.id c.revision)
      (fun s _ => ∃ l, Pruning i c l [] s) (Uncommitted i) := by
  refine .bind (ensures_orStore (ensures_bestEffort ensures_confirmOrRestore)) fun _ =>
    .bind (ensures_orStore (ensures_bestEffort (ensures_pruneRevisions hs))) fun _ =>
    .exists_ fun l => .bind (ensures_orStore (ensures_readFlow stable_pruning)) fun current => ?_
  split
  · exact .pure fun s _ h => ⟨l, h.1⟩
  · exact .fact (fun s _ h => absurd h.2 nofun) False.elim

theorem ensures_lostUpdate {id} {rv : RevisionDoc} {Q} :
    Upholds fl st i (Recording i st sr next id rv)
      (lostUpdate fl id) Q (Uncommitted i) := by
  refine .bind (ensures_orStore ensures_dropUnused) fun _ =>
    .bind (ensures_orStore (ensures_readFlow stable_uncommitted)) fun cu => ?_
  split
  · exact .throw fun s _ h => h.1
  · exact .throw fun s _ h => h.1

theorem numbered (hs : Inv fl st s) (hc : c ∈ commits s.log) :
    ∃ n, c.flow.revision = some (n + 1) := by
  obtain ⟨l, m, hl⟩ := append_of_mem hc
  have hh := hs.history
  rw [hl] at hh
  exact ⟨_, (History.append_iff.mp hh).2.1.number⟩

theorem ensures_listRevisions (ht : st.lastRevisionId = none) (hA : Stable fl st i A) {li} :
    Upholds fl st i A (listRevisions fl li)
      (fun s re => A s ∧ (commits s.log = [] → re = [])) E := by
  refine .bind (ensures_readFlow hA) fun de => .fact (fun s _ h => h.2 ▸ ⟨_, rfl⟩)
    fun (ho : ∃ d, de = some d) => ?_
  obtain ⟨d, rfl⟩ := ho
  dsimp only
  split
  · exact .pure fun s _ h => ⟨h.1, fun _ => rfl⟩
  · have he : ∀ s, A s ∧ some d = some (flowAfter st s.log) → A s ∧ Seen st d s :=
      fun s h => ⟨h.1, Option.some.inj h.2 ▸ seen_flowAfter⟩
    refine .bind ((ensures_revisionsOf (hA.and stable_seen)).pre fun s _ h => he s h) fun rows =>
      .fact (fun s hs h => by rw [h.2]; exact partition_orphans hs (h.1.2.incarnation hs))
      fun hO => .bind (ensures_reclaim_nil hO) fun _ => .pure fun s hs h => ⟨h.1.1, ?_⟩
    intro hn
    have hv : (partitionRows (some d) rows).visible = [] := by
      refine eq_nil_iff_forall_not_mem.mpr fun row hr => ?_
      rw [h.2] at hr
      obtain ⟨c, hc, -⟩ :=
        committed_of_visible hs (h.1.2.incarnation hs) (h.1.2.named ht hs) hr
      rw [hn] at hc
      cases hc
    rw [hv, take_nil, map_nil]

theorem ensures_currentRevision (ht : st.lastRevisionId = none) (hp : st.revision ≠ some 0) :
    Upholds fl st i (fun s => Uncommitted i s ∧ Seen st sr s)
      (currentRevision fl sr) (fun s n => Prepared i st sr (n + 1) s) E := by
  unfold currentRevision
  split
  · next rv hr =>
    refine .pure fun s hs h => ⟨h.1, h.2, fun _ => ?_⟩
    have hO : 1 ≤ rv := by
      obtain ⟨-, l, hl, rfl⟩ := h
      rcases History.lastFlow_cases st l with ⟨-, he⟩ | ⟨c, hc, he⟩
      · rw [he] at hr
        rw [hr] at hp
        exact Nat.one_le_iff_ne_zero.mpr fun h => hp (h ▸ rfl)
      · obtain ⟨n, hn⟩ := numbered hs (hl.subset hc)
        rw [he, hn] at hr
        cases hr
        omega
    rw [FlowDoc.number, hr, getD_some, max_eq_left hO]
  · next hr =>
    refine .bind (.bind (ensures_listRevisions ht (stable_uncommitted.and stable_seen))
      fun re => .pure (Q := fun s n => (Uncommitted i s ∧ Seen st sr s) ∧
        (commits s.log = [] → n = 0)) fun s _ h => ⟨h.1, fun ho => by rw [h.2 ho]; rfl⟩)
      fun n => .pure fun s hs h => ⟨h.1.1, h.1.2, fun hf => ?_⟩
    have ho : commits s.log = [] := by
      rcases History.lastFlow_cases st (commits s.log) with ⟨ho, -⟩ | ⟨c, hc, he⟩
      · exact ho
      · obtain ⟨n, hn⟩ := numbered hs hc
        rw [← hf, flowAfter, he, hn] at hr
        cases hr
    rw [h.2 ho, FlowDoc.number, hr, getD_none]

theorem lt_nextStamp (re pr) : pr < nextStamp re (some pr) := by
  simp only [nextStamp, elim_some]
  omega

theorem ensures_commitUpdate (ht : st.lastRevisionId = none) :
    Upholds fl st i (Prepared i st sr next) (commitUpdate fl rq cl sr next)
      (fun s _ => ∃ c, rq.Made c ∧ ∃ l, Pruning i c l [] s) (Uncommitted i) := by
  refine .bind (ensures_orStore (ensures_confirmPrevious ht)) fun _ =>
    .bind ((ensures_unique stable_prepared fun s h => ⟨h.uncommitted, h.seen, h.next⟩).pre
      fun s _ h => ⟨h, h.uncommitted⟩) fun id => ?_
  let now := nextStamp (cl 0) (some sr.updatedMs)
  let rv := priorRevision fl sr now
  have hr : sr.incarnation = st.incarnation → Upholds fl st i
      (Recording i st sr next id rv)
      (recordRevision id rv (nextStamp (cl 1) none))
      (fun s _ => Recording i st sr next id rv s) (Uncommitted i) :=
    fun hi => ensures_recordRevision rfl rfl hi
  refine .fact (fun s hs h => h.1.seen.incarnation hs) fun hi =>
    .bind ((ensures_orStore (hr hi)).pre fun s _ h => ⟨h.1, h.2 rv⟩)
    fun _ => .bind (.tryCatch
    (ensures_orStore (ensures_swap (lt_nextStamp _ _))) fun e => ?_) fun swapped => ?_
  · exact .bind (ensures_orStore ensures_dropUnused) fun _ => .throw fun s _ h => h
  · cases swapped with
    | none => exact ensures_lostUpdate
    | some bo =>
      refine .fact (fun s _ h => h.2) fun hm => ?_
      exact (@ensures_finishUpdate fl st i ht ⟨i, id, rv, bo⟩ cl).weaken
        (fun s _ h => h.1) (fun s _ _ h => ⟨_, hm, h⟩) fun s h => h

theorem ensures_updateFlowGraph (hs : st.lastRevisionId = none) (hp : st.revision ≠ some 0) :
    Upholds fl st i (Uncommitted i) (updateFlowGraph fl rq cl)
      (fun s _ => ∃ c, rq.Made c ∧ ∃ l, Pruning i c l [] s) (Uncommitted i) := by
  refine .bind (ensures_orStore (ensures_readFlow stable_uncommitted)) fun de => ?_
  split
  · exact .throw fun s _ h => h.1
  · next sr =>
    split
    · exact .throw fun s _ h => h.1
    · refine .bind ((ensures_orStore (ensures_currentRevision hs hp)).pre fun s _ h =>
        ⟨h.1, Option.some.inj h.2 ▸ seen_flowAfter⟩) fun n => ?_
      split
      · exact .throw fun s _ h => h.uncommitted
      · exact ensures_commitUpdate hs

end Update

end Tinyflows.Catalog
