import Tinyflows.Storage.Lemmas.Migrations

/-!
# A step, page by page

Wherever a step is cut short it is under way, and its progress says no more than is true.
-/

namespace Tinyflows.Migrations
open Lib List

/-!
## Pages

A page holds the records after the cursor, up to the one it names as the next cursor.
-/

structure Lists (collection : String) (d : Data) (rows : List (String × Versioned Row)) : Prop where
  mem : ∀ {id row}, (id, row) ∈ rows → d collection id = some row.doc
  all : ∀ {id doc}, d collection id = some doc → ∃ row, (id, row) ∈ rows ∧ row.doc = doc
  nodup : (rows.map (·.1)).Nodup

variable {op : MigrateOptions} {cu : Option String} {ro : List (String × Versioned Row)}
  {id : String} {row : Versioned Row}

instance : Std.Total fun a b : String × Versioned Row => a.1 ≤ b.1 :=
  ⟨fun a b => le_total a.1 b.1⟩

instance : IsTrans (String × Versioned Row) fun a b => a.1 ≤ b.1 :=
  ⟨fun _ _ _ h h' => le_trans h h'⟩

def recordsAfter (cursor : Option String) (rows : List (String × Versioned Row)) :
    List (String × Versioned Row) :=
  (rows.insertionSort fun a b => a.1 ≤ b.1).filter fun r => cursor.all (· < r.1)

theorem mem_recordsAfter {r} : r ∈ recordsAfter cu ro ↔ r ∈ ro ∧ ∀ c ∈ cu, c < r.1 := by
  rw [recordsAfter, mem_filter, mem_insertionSort]
  cases cu <;> simp

theorem recordsAfter_sorted (cu ro) : (recordsAfter cu ro).Pairwise fun a b => a.1 ≤ b.1 :=
  (pairwise_insertionSort _ _).filter _

theorem recordsAfter_nodup (h : (ro.map (·.1)).Nodup) (cu) :
    ((recordsAfter cu ro).map (·.1)).Nodup := by
  have hs : ((ro.insertionSort fun a b => a.1 ≤ b.1).map (·.1)).Nodup :=
    ((perm_insertionSort _ ro).map _).nodup_iff.mpr h
  exact hs.sublist (filter_sublist.map _)

theorem page_items : (pageOf op cu ro).items = (recordsAfter cu ro).take op.batchSize := rfl

theorem mem_page (h : (id, row) ∈ (pageOf op cu ro).items) : (id, row) ∈ ro ∧ ∀ c ∈ cu, c < id :=
  mem_recordsAfter.mp (mem_of_mem_take h)

theorem page_nodup (h : (ro.map (·.1)).Nodup) : ((pageOf op cu ro).items.map (·.1)).Nodup :=
  (recordsAfter_nodup h cu).sublist ((take_sublist _ _).map _)

theorem page_next : (pageOf op cu ro).next =
    if (if op.eager then decide ((pageOf op cu ro).items.length = op.batchSize)
      else decide ((pageOf op cu ro).items.length < (recordsAfter cu ro).length)) then
      (pageOf op cu ro).items.getLast?.map (·.1) else none := rfl

theorem page_last (hb : op.batchSize ≠ 0) (h : (pageOf op cu ro).next = none) :
    (pageOf op cu ro).items = recordsAfter cu ro := by
  rw [page_items]
  refine take_of_length_le (Nat.le_of_not_lt fun ht => ?_)
  have hl : (pageOf op cu ro).items.length = op.batchSize := by
    rw [page_items, length_take, Nat.min_eq_left ht.le]
  rw [page_next, hl] at h
  cases hi : (pageOf op cu ro).items with
  | nil =>
    rw [hi] at hl
    exact hb hl.symm
  | cons r re => simp [hi, ht, getLast?_cons] at h

theorem mem_page_of_next {c} (h : (pageOf op cu ro).next = some c) :
    ∃ la ∈ (pageOf op cu ro).items, la.1 = c := by
  rw [page_next, Option.ite_none_right_eq_some] at h
  obtain ⟨la, hl, rfl⟩ := Option.map_eq_some_iff.mp h.2
  exact ⟨la, mem_of_getLast? hl, rfl⟩

theorem page_covers (hb : op.batchSize ≠ 0) (hN : (ro.map (·.1)).Nodup)
    (hr : (id, row) ∈ ro) (ha : ∀ c ∈ cu, c < id) (he : ∀ c ∈ (pageOf op cu ro).next, id ≤ c) :
    (id, row) ∈ (pageOf op cu ro).items := by
  have hm : (id, row) ∈ recordsAfter cu ro := mem_recordsAfter.mpr ⟨hr, ha⟩
  cases hn : (pageOf op cu ro).next with
  | none => rwa [page_last hb hn]
  | some c =>
    have hL : id ≤ c := he c hn
    obtain ⟨la, hl, rfl⟩ := mem_page_of_next hn
    -- The records are those of the page and those that follow, none of them twice.
    have hs := take_append_drop op.batchSize (recordsAfter cu ro)
    rw [← page_items] at hs
    rw [← hs, mem_append] at hm
    refine hm.resolve_right fun hd => ?_
    have ho := recordsAfter_sorted cu ro
    have hi := recordsAfter_nodup hN cu
    rw [← hs, pairwise_append] at ho
    rw [← hs, map_append, nodup_append] at hi
    have hg : la.1 ≤ id := ho.2.2 la hl _ hd
    exact hi.2.2 _ (mem_map_of_mem hl) _ (mem_map_of_mem hd) (le_antisymm hg hL)

theorem page_empty (hb : op.batchSize ≠ 0) (h : (pageOf op cu ro).items = [])
    (hr : (id, row) ∈ ro) : ∃ c ∈ cu, id ≤ c := by
  rw [page_items, take_eq_nil_iff] at h
  have hn := h.resolve_left hb
  by_contra ho
  have hm : (id, row) ∈ recordsAfter cu ro :=
    mem_recordsAfter.mpr ⟨hr, fun c hc => lt_of_not_ge fun hl => ho ⟨c, hc, hl⟩⟩
  rw [hn] at hm
  cases hm

/-! ## Rules -/

structure Alone (T : Terms SchemaStore (Call SchemaDocs Unit) Call.Reply) : Prop where
  serves : ∀ {s c r u}, T.serves s c r u → Store.Serves 0 s c r u
  rely : ∀ {s t}, T.rely s t → s = t
  guarantee : ∀ s t, T.guarantee s t

abbrev Anything : SchemaStore → Prop := fun _ => True

section Rules

variable {T : Terms SchemaStore (Call SchemaDocs Unit) Call.Reply} {A B : SchemaStore → Prop}

theorem Alone.onDocuments (hT : Alone T) : OnDocuments 0 T :=
  ⟨hT.serves, fun s => hT.guarantee s s⟩

theorem ensures_get (hT : Alone T) (k) :
    Ensures T A (Migration.get k) (fun s fo => A s ∧ s.docs.lookup k = fo) Anything := by
  intro s _ hAs
  refine meets_get hT.onDocuments (fun _ _ _ _ => trivial) fun t ht hr => ?_
  cases hT.rely hr
  exact ⟨hAs, rfl⟩

theorem mem_records {s : SchemaStore} {co id row} :
    (id, row) ∈ (s.docs.entries.filter (·.1.inCollection co)).filterMap recordOf ↔
      s.docs.lookup (.row co id) = some row := by
  rw [← Option.mem_def, AList.mem_lookup_iff]
  simp only [mem_filterMap, mem_filter]
  constructor
  · rintro ⟨⟨k, v⟩, ⟨he, hk⟩, hq⟩
    cases k with
    | row c i =>
      cases hq
      cases of_decide_eq_true hk
      exact he
    | progress ow it step => cases hq
  · intro he
    exact ⟨⟨.row co id, row⟩, ⟨he, decide_eq_true rfl⟩, rfl⟩

def idIn (collection : String) : SchemaKey → Option String
  | .row c id => if c = collection then some id else none
  | .progress _ _ _ => none

theorem nodup_records (s : SchemaStore) (co) :
    (((s.docs.entries.filter (·.1.inCollection co)).filterMap recordOf).map (·.1)).Nodup := by
  have hi : ((s.docs.entries.filter (·.1.inCollection co)).filterMap recordOf).map (·.1) =
      s.docs.keys.filterMap (idIn co) := by
    rw [AList.keys, List.keys, map_filterMap, filterMap_filter, filterMap_map]
    refine filterMap_congr fun e _ => ?_
    rcases e with ⟨k, v⟩
    cases k with
    | row c i => by_cases hc : c = co <;> simp [SchemaKey.inCollection, recordOf, idIn, hc]
    | progress ow it step => rfl
  have he : s.docs.keys.Nodup := s.docs.nodupKeys
  rw [hi]
  refine he.filterMap fun k k' id hk hk' => ?_
  cases k with
  | row c i =>
    cases k' with
    | row c' i' =>
      simp only [idIn, Option.mem_def, Option.ite_none_right_eq_some, Option.some.injEq] at hk hk'
      rw [hk.1, hk'.1, hk.2, hk'.2]
    | progress ow it step => cases hk'
  | progress ow it step => cases hk

theorem lists_records (s : SchemaStore) (co) :
    Lists co (dataOf s) ((s.docs.entries.filter (·.1.inCollection co)).filterMap recordOf) where
  mem h := by
    rw [dataOf, mem_records.mp h]
    rfl
  all h := by
    obtain ⟨row, hr, hd⟩ := Option.map_eq_some_iff.mp h
    exact ⟨row, mem_records.mpr hr, hd⟩
  nodup := nodup_records s co

theorem ensures_rows (hT : Alone T) (co) :
    Ensures T A (Migration.rows co) (fun s ro => A s ∧ Lists co (dataOf s) ro) Anything := by
  intro s _ hAs
  refine meets_list hT.onDocuments (fun _ _ _ _ => trivial) fun t ht hr => ?_
  cases hT.rely hr
  exact ⟨hAs, lists_records s co⟩

variable {op : WriteOp SchemaDocs}

section

variable (hT : Alone T)
  (h : ∀ s, T.inv s → A s → T.inv (s.commit 0 [op] none) ∧ B (s.commit 0 [op] none))
include hT h

theorem ensures_write : Ensures T A (Migration.write op) (fun s _ => B s) Anything := by
  intro s hs hAs
  refine meets_write hT.onDocuments (fun _ _ _ _ _ => trivial) fun t ht hr _ _ => ?_
  cases hT.rely hr
  exact ⟨hT.guarantee _ _, h s hs hAs⟩

theorem ensures_tryWrite :
    Ensures T A (Migration.tryWrite op) (fun s wr => if wr then B s else A s) Anything := by
  intro s hs hAs
  refine meets_write hT.onDocuments (fun t e ht hr _ => ?_) fun t ht hr _ _ => ?_
  · cases hT.rely hr
    cases e with
    | conflict => exact hAs
    | failure m => trivial
  · cases hT.rely hr
    obtain ⟨hi, hB⟩ := h s hs hAs
    exact ⟨hT.guarantee _ _, hi, hB⟩

end

end Rules

/-! ## Knowledge -/

section Knowledge

variable (schema : Schema) (step : Step) (f : PerRecord) (s₀ : SchemaStore)

/-- A step that found the store `s₀` is under way, and its progress is true. -/
structure InPhase (s : SchemaStore) : Prop where
  under : Underway schema step f (dataOf s₀) (dataOf s)
  progress : ∀ {p}, s.docs.lookup (progressKey schema step) = some p →
    p.doc.done = false ∧ SettledTo schema step f (dataOf s₀) (dataOf s) p.doc.cursor
  frame : ∀ {owner item id}, SchemaKey.progress owner item id ≠ progressKey schema step →
    s.docs.lookup (.progress owner item id) = s₀.docs.lookup (.progress owner item id)

structure Knows (K : SourceRecord → TargetRecord → Prop) (Z : SourceRecord → Prop) (s : SchemaStore) :
    Prop extends InPhase schema step f s₀ s where
  held : ∀ {r o}, step.IsSource (dataOf s₀) r → Yields f r o → K r o → Holds schema step (dataOf s) r o
  settled : ∀ {r}, step.IsSource (dataOf s₀) r → Z r → Settled schema step f (dataOf s) r

variable {schema step f s₀}
variable {K K' : SourceRecord → TargetRecord → Prop} {Z Z' : SourceRecord → Prop} {s : SchemaStore}
  {r : SourceRecord} {o : TargetRecord} {row : Row}

theorem Knows.mono (h : Knows schema step f s₀ K Z s)
    (hK : ∀ r o, step.IsSource (dataOf s₀) r → Yields f r o → K' r o → K r o)
    (hZ : ∀ r, step.IsSource (dataOf s₀) r → Z' r → Z r) : Knows schema step f s₀ K' Z' s where
  toInPhase := h.toInPhase
  held hr ho hk := h.held hr ho (hK _ _ hr ho hk)
  settled hr hz := h.settled hr (hZ _ hr hz)

/-- A write that changes rows only. -/
theorem Knows.commit (h : Knows schema step f s₀ K Z s) {t}
    (hu : Underway schema step f (dataOf s₀) (dataOf t))
    (hp : ∀ owner item id, t.docs.lookup (.progress owner item id) =
      s.docs.lookup (.progress owner item id))
    (hh : ∀ {r o}, step.IsSource (dataOf s₀) r → Yields f r o → Holds schema step (dataOf s) r o →
      Holds schema step (dataOf t) r o)
    (hs : ∀ {r}, step.IsSource (dataOf s₀) r → Settled schema step f (dataOf s) r →
      Settled schema step f (dataOf t) r) : Knows schema step f s₀ K Z t where
  under := hu
  progress hl := by
    rw [hp] at hl
    obtain ⟨hd, hc⟩ := h.progress hl
    exact ⟨hd, fun hr hl => hs hr (hc hr hl)⟩
  frame he := (hp ..).trans (h.frame he)
  held hr ho hk := hh hr ho (h.held hr ho hk)
  settled hr hz := hs hr (h.settled hr hz)

theorem Knows.set (pre) (hd : Distinct step f (dataOf s₀))
    (hO : Orderly step f (dataOf s₀)) (h : Knows schema step f s₀ K Z s)
    (hr : step.IsSource (dataOf s₀) r) (ho : Yields f r o) (hw : IsOutput schema step r o row)
    (ht : o.key = (step.sourceName, r.id) → ∀ o', Yields f r o' → o'.key ≠ o.key → K r o') :
    Knows schema step f s₀ (fun r' o' => K r' o' ∨ r' = r ∧ o' = o) Z
      (s.commit 0 [.put (.row o.collection o.id) row pre] none) := by
  have hD := dataOf_put s o.collection o.id row pre
  have hc : Knows schema step f s₀ K Z (s.commit 0 [.put (.row o.collection o.id) row pre] none) := by
    refine h.commit ?_ (by simp) (fun hr' ho' hh => ?_) fun hr' hs => ?_ <;> rw [hD]
    · exact h.under.set hd hO hr ho hw fun hn o' ho' he => h.held hr ho' (ht hn o' ho' he)
    · exact hh.set hd hO hr ho hw hr' ho'
    · exact hs.set hd hO hr ho hw hr'
  refine ⟨hc.toInPhase, fun hr' ho' hk => ?_, hc.settled⟩
  rcases hk with hk | ⟨rfl, rfl⟩
  · exact hc.held hr' ho' hk
  · exact ⟨row, by rw [hD, Data.set_self], hw⟩

theorem Knows.drop (pre) (h : Knows schema step f s₀ K Z s) (hr : step.IsSource (dataOf s₀) r)
    (hy : ∃ ou, f r = .ok ou) (ha : ∀ o, Yields f r o → K r o)
    (hn : ∀ r' o, step.IsSource (dataOf s₀) r' → Yields f r' o → o.key ≠ (step.sourceName, r.id)) :
    Knows schema step f s₀ K (fun r' => Z r' ∨ r' = r)
      (s.commit 0 [.delete (.row step.sourceName r.id) pre] none) := by
  have hD := dataOf_delete s step.sourceName r.id pre
  obtain ⟨hu, hS⟩ := h.under.drop hr hy (fun {o} ho => h.held hr ho (ha o ho)) hn
  have hc : Knows schema step f s₀ K Z (s.commit 0 [.delete (.row step.sourceName r.id) pre] none) := by
    refine h.commit ?_ (by simp) (fun hr' ho' hh => ?_) fun hr' hs => ?_ <;> rw [hD]
    · exact hu
    · exact hh.drop (hn _ _ hr' ho')
    · exact hs.drop hn hr'
  refine ⟨hc.toInPhase, hc.held, fun hr' hz => ?_⟩
  rcases hz with hz | rfl
  · exact hc.settled hr' hz
  · exact hD ▸ hS

theorem Knows.note (pre) (h : Knows schema step f s₀ K Z s) (p : Progress) (hD : p.done = false)
    (hc : ∀ r, step.IsSource (dataOf s₀) r → (∃ c ∈ p.cursor, r.id ≤ c) → Z r) :
    Knows schema step f s₀ K Z (s.commit 0 [.put (progressKey schema step) p pre] none) := by
  have hd : dataOf (s.commit 0 [.put (progressKey schema step) p pre] none) = dataOf s :=
    dataOf_progress ..
  refine ⟨⟨hd ▸ h.under, fun {q} hq => ?_, fun {owner item id} he => ?_⟩,
    fun hr ho hk => hd ▸ h.held hr ho hk, fun hr hz => hd ▸ h.settled hr hz⟩
  · rw [Store.commit_docs, foldl_cons, foldl_nil, lookup_apply_put] at hq
    cases hq
    exact ⟨hD, fun {r} hr hl => hd ▸ h.settled hr (hc r hr hl)⟩
  · rw [Store.commit_docs, foldl_cons, foldl_nil, lookup_apply_put_ne he, h.frame he]

end Knowledge

/-! ## Pages -/

section Programs

variable {schema : Schema} {step : Step} {f : PerRecord} {s₀ : SchemaStore} {ot : MigrateOptions}
  {T : Terms SchemaStore (Call SchemaDocs Unit) Call.Reply}
  {K : SourceRecord → TargetRecord → Prop} {Z : SourceRecord → Prop} {pa : Page}
  {r : SourceRecord} {o : TargetRecord}

structure ReadUnderway (schema : Schema) (step : Step) (f : PerRecord) (before : Data) (page : Page) :
    Prop where
  read : ∃ d, Underway schema step f before d ∧
    ∀ {id row}, (id, row) ∈ page.items → d step.sourceName id = some row.doc
  nodup : (page.items.map (·.1)).Nodup

theorem mem_inputs : r ∈ Page.inputs step pa ↔
    ∃ row, (r.id, row) ∈ pa.items ∧ row.doc = r.row ∧ step.takes r.row = true := by
  simp only [Page.inputs, mem_map, mem_filter]
  constructor
  · rintro ⟨⟨id, row⟩, ⟨hm, ht⟩, rfl⟩
    exact ⟨row, hm, rfl, ht⟩
  · rintro ⟨row, hm, hd, ht⟩
    exact ⟨(r.id, row), ⟨hm, by rwa [hd]⟩, by rw [hd]⟩

theorem ReadUnderway.isSource (ho : Orderly step f (dataOf s₀))
    (h : ReadUnderway schema step f (dataOf s₀) pa) (hr : r ∈ Page.inputs step pa) :
    step.IsSource (dataOf s₀) r := by
  obtain ⟨d, hu, he⟩ := h.read
  obtain ⟨row, hm, hd, ht⟩ := mem_inputs.mp hr
  exact hu.isSource ho (hd ▸ he hm) ht

variable {os : Nat} {outs : List (List TargetRecord)} {ip : List SourceRecord} {ou : List TargetRecord}

theorem mem_of_lookup_page (h : pa.items.lookup id = some row) : (id, row) ∈ pa.items := by
  obtain ⟨l, l', hl, -⟩ := lookup_eq_some_iff.mp h
  rw [hl]
  exact mem_append_right _ mem_cons_self

theorem lookup_of_mem_page (h : (pa.items.map (·.1)).Nodup) (hm : (id, row) ∈ pa.items) :
    pa.items.lookup id = some row := by
  obtain ⟨l, l', hl⟩ := append_of_mem hm
  rw [hl, map_append, map_cons, nodup_middle, nodup_cons, ← map_append] at h
  refine lookup_eq_some_iff.mpr ⟨l, l', hl, fun e he => bne_iff_ne.mpr fun hi => h.1 ?_⟩
  exact mem_map.mpr ⟨e, mem_append_left _ he, hi.symm⟩

theorem Underway.expires {now} (h : Underway schema step f (dataOf s₀) now) {row}
    (hw : now step.sourceName id = some row)
    (hr : ∀ row ∈ dataOf s₀ step.sourceName id, row.metadata.expiresMs = none)
    (ho : ∀ r o, step.IsSource (dataOf s₀) r → Yields f r o → o.key = (step.sourceName, id) →
      expiryOf r o = none) : row.metadata.expiresMs = none := by
  have hu : ∀ {r o}, step.IsSource (dataOf s₀) r → Yields f r o → o.key = (step.sourceName, id) →
      Holds schema step now r o → row.metadata.expiresMs = none := by
    rintro r o hs hy hk ⟨row', hw', hp⟩
    obtain ⟨hc, hi⟩ := Prod.mk.inj hk
    rw [hc, hi, hw] at hw'
    cases hw'
    rw [hp.expires, ho r o hs hy hk]
  by_cases hs : ∃ r, step.IsSource (dataOf s₀) r ∧ r.id = id
  · obtain ⟨r, hs, rfl⟩ := hs
    rcases h.sources hs with he | he
    · rw [hw] at he
      cases he
      exact hr _ hs.1
    · by_contra hn
      have hg := he.gone fun o hy hk => hn (hu hs hy hk (he.stored hy))
      rw [hw] at hg
      cases hg
  · rcases h.others fun r hr he => hs ⟨r, hr, (congrArg Prod.snd he).symm⟩ with
      he | ⟨r, o, hs, hy, hk, hh⟩
    · exact hr _ (he.symm.trans hw)
    · exact hu hs hy hk hh

theorem ReadUnderway.expiry (hO : Orderly step f (dataOf s₀))
    (h : ReadUnderway schema step f (dataOf s₀) pa) (hr : r ∈ Page.inputs step pa) (ho : Yields f r o) :
    expectedExpiry pa o = expiryOf r o := by
  cases he : o.expiresMs with
  | some e => simp [expectedExpiry, expiryOf, he]
  | none =>
    rw [expectedExpiry, expiryOf, he, Option.none_or, Option.none_or]
    obtain ⟨row, hM, hD, -⟩ := mem_inputs.mp hr
    split_ifs with hi
    · rw [hi, lookup_of_mem_page h.nodup hM, Option.bind_some, hD]
    · obtain ⟨hf, hn⟩ := hO.expiry (h.isSource hO hr) ho he hi
      cases hl : pa.items.lookup o.id with
      | none => rfl
      | some fo =>
        obtain ⟨d, hu, hR⟩ := h.read
        exact hu.expires (hR (mem_of_lookup_page hl)) hf hn

theorem isOutput_targetRow (ot) (hs : targetSchema schema step o = .ok os)
    (he : expectedExpiry pa o = expiryOf r o) :
    IsOutput schema step r o (targetRow ot step pa o os) :=
  ⟨rfl, hs, he⟩

theorem isOutput_of_identical {row} (hs : targetSchema schema step o = .ok os)
    (he : expectedExpiry pa o = expiryOf r o)
    (h : identical step pa o os row = true) : IsOutput schema step r o row := by
  obtain ⟨hb, hv, -, hp⟩ := of_decide_eq_true h
  exact ⟨hb, hv ▸ hs, hp.trans he⟩

theorem storeTargets_append (a b) :
    storeTargets schema ot step pa (a ++ b) = (do
      storeTargets schema ot step pa a
      storeTargets schema ot step pa b) := by
  induction a with
  | nil => rw [nil_append, storeTargets, pure_bind]
  | cons o re ih => rw [cons_append, storeTargets, storeTargets, bind_assoc, ih]

theorem mapM_cons_ok {re} (h : (r :: re).mapM f = .ok outs) :
    ∃ ou outs', f r = .ok ou ∧ re.mapM f = .ok outs' ∧ outs = ou :: outs' := by
  rw [mapM_cons] at h
  cases hr : f r with
  | error e => rw [hr] at h; cases h
  | ok ou =>
    rw [hr] at h
    cases he : re.mapM f with
    | error e => simp [he] at h; cases h
    | ok outs' =>
      simp only [he] at h
      cases h
      exact ⟨ou, outs', rfl, rfl, rfl⟩

structure OutputsOf (f : PerRecord) (inputs : List SourceRecord)
    (outputs : List TargetRecord) : Prop where
  yields : ∀ {r}, r ∈ inputs → ∃ outputs, f r = .ok outputs
  mem : ∀ {o}, o ∈ outputs ↔ ∃ r ∈ inputs, Yields f r o

theorem outputsOf_mapM (h : ip.mapM f = .ok outs) : OutputsOf f ip outs.flatten := by
  induction ip generalizing outs with
  | nil =>
    cases h
    exact ⟨fun h => absurd h not_mem_nil, by simp⟩
  | cons r re ih =>
    obtain ⟨ou, outs', hr, he, rfl⟩ := mapM_cons_ok h
    have hy : ∀ {o}, Yields f r o ↔ o ∈ ou :=
      ⟨fun ⟨_, ho, hm⟩ => by rw [hr] at ho; cases ho; exact hm, fun hm => ⟨ou, hr, hm⟩⟩
    refine ⟨fun hm => ?_, ?_⟩
    · rcases mem_cons.mp hm with rfl | hm
      · exact ⟨ou, hr⟩
      · exact (ih he).yields hm
    · intro o
      rw [flatten_cons, mem_append, (ih he).mem, exists_mem_cons_iff, hy]

/-! ## The step -/

/-- Nothing is known of the outputs, and the records `Z` are migrated. -/
abbrev Reached (schema : Schema) (step : Step) (f : PerRecord) (s₀ : SchemaStore)
    (Z : SourceRecord → Prop) (s : SchemaStore) : Prop :=
  Knows schema step f s₀ (fun _ _ => False) Z s

theorem run_ok (hi : step.Independent f) (h : step.run ip = .ok ou) :
    ∃ outs, ip.mapM f = .ok outs ∧ outs.flatten = ou := by
  rw [hi] at h
  cases ho : ip.mapM f with
  | error e => rw [ho] at h; cases h
  | ok outs =>
    rw [ho] at h
    cases h
    exact ⟨outs, rfl, rfl⟩

section Read

variable {s : SchemaStore}

theorem Reached.readUnderway (ot cu)
    (h : Reached schema step f s₀ Z s) (hr : Lists step.sourceName (dataOf s) ro) :
    ReadUnderway schema step f (dataOf s₀) (pageOf ot cu ro) :=
  ⟨⟨dataOf s, h.under, fun hm => hr.mem (mem_page hm).1⟩, page_nodup hr.nodup⟩

section

variable (hb : ot.batchSize ≠ 0)
  (h : Reached schema step f s₀ (fun r => ∃ c ∈ cu, r.id ≤ c) s)
  (ho : Lists step.sourceName (dataOf s) ro)
include hb h ho

theorem Reached.skip :
    Reached schema step f s₀ (fun r => (∀ c ∈ (pageOf ot cu ro).next, r.id ≤ c) ∧
      r ∉ Page.inputs step (pageOf ot cu ro)) s where
  toInPhase := h.toInPhase
  held _ _ hk := hk.elim
  settled {r} hr hz := by
    obtain ⟨hn, hi⟩ := hz
    by_cases hu : ∃ c ∈ cu, r.id ≤ c
    · exact h.settled hr hu
    · rcases h.under.sources hr with hs | he
      · obtain ⟨row, hw, hd⟩ := ho.all hs
        have ha : ∀ c ∈ cu, c < r.id := fun c hc => lt_of_not_ge fun hl => hu ⟨c, hc, hl⟩
        have hm := page_covers hb ho.nodup hw ha hn
        exact absurd (mem_inputs.mpr ⟨row, hm, hd, hr.2⟩) hi
      · exact he

theorem Reached.finish (he : (pageOf ot cu ro).items = []) :
    Reached schema step f s₀ (fun _ => True) s where
  toInPhase := h.toInPhase
  held _ _ hk := hk.elim
  settled {r} hr _ := by
    rcases h.under.sources hr with hs | hS
    · obtain ⟨row, hw, -⟩ := ho.all hs
      exact h.settled hr (page_empty hb he hw)
    · exact hS

end

end Read

section

variable (hT : Alone T) (hp : ∀ s, InPhase schema step f s₀ s → T.inv s)
include hT hp

theorem ensures_saveProgress {cu wt} (hc : ∀ r, step.IsSource (dataOf s₀) r → (∃ c ∈ cu, r.id ≤ c) → Z r) :
    Ensures T (Knows schema step f s₀ K Z) (saveProgress schema step cu wt false)
      (fun s _ => Knows schema step f s₀ K Z s) Anything := by
  refine ensures_write hT fun s _ h => ?_
  have hn := h.note .any ⟨schema.owner, step.id, step.from_, step.to_, cu, wt, false⟩ rfl hc
  exact ⟨hp _ hn.toInPhase, hn⟩

variable (hO : Orderly step f (dataOf s₀)) (hd : Distinct step f (dataOf s₀))
include hO

include hd in
theorem ensures_storeTarget (hr : step.IsSource (dataOf s₀) r) (ho : Yields f r o)
    (he : expectedExpiry pa o = expiryOf r o)
    (hot : o.key = (step.sourceName, r.id) → ∀ o', Yields f r o' → o'.key ≠ o.key → K r o') :
    Ensures T (Knows schema step f s₀ K Z) (storeTarget schema ot step pa o)
      (fun s _ => Knows schema step f s₀ (fun r' o' => K r' o' ∨ r' = r ∧ o' = o) Z s) Anything := by
  have hS : ∀ {s}, Knows schema step f s₀ K Z s → Holds schema step (dataOf s) r o →
      Knows schema step f s₀ (fun r' o' => K r' o' ∨ r' = r ∧ o' = o) Z s := by
    intro s h hh
    refine ⟨h.toInPhase, fun {r' o'} hr' ho' hk => ?_, h.settled⟩
    rcases hk with hk | ⟨rfl, rfl⟩
    · exact h.held hr' ho' hk
    · exact hh
  unfold storeTarget
  split_ifs
  · exact .throw fun _ _ _ => trivial
  · cases hc : targetSchema schema step o with
    | error e => exact .throw fun _ _ _ => trivial
    | ok os =>
      refine .bind (ensures_tryWrite hT (B := Knows schema step f s₀
        (fun r' o' => K r' o' ∨ r' = r ∧ o' = o) Z) fun s _ h => ?_) fun wt => ?_
      · have ht := h.set (.unchanged (sameRow step pa o)) hd hO hr ho
          (isOutput_targetRow ot hc he) hot
        exact ⟨hp _ ht.toInPhase, ht⟩
      · cases wt with
        | true => exact .pure fun s _ h => h
        | false =>
          refine .bind (ensures_get hT _) fun es => ?_
          by_cases hs : es.any fun row => identical step pa o os row.doc
          · rw [if_pos hs]
            refine .pure fun s _ ⟨h, hl⟩ => hS h ?_
            cases es with
            | none => cases hs
            | some row =>
              exact ⟨row.doc, by rw [dataOf, hl]; rfl, isOutput_of_identical hc he hs⟩
          · rw [if_neg hs]
            exact .throw fun _ _ _ => trivial

section

variable (hR : ReadUnderway schema step f (dataOf s₀) pa)
include hR

theorem ensures_dropSource (hu : OutputsOf f (Page.inputs step pa) ou)
    (hS : ∀ r o, r ∈ Page.inputs step pa → Yields f r o → K r o) (hm : (id, row) ∈ pa.items) :
    Ensures T (Knows schema step f s₀ K Z) (dropSource step ou id row)
      (fun s _ => Knows schema step f s₀ K
        (fun r => Z r ∨ r ∈ Page.inputs step pa ∧ r.id = id) s) Anything := by
  have hi : ∀ {r}, r ∈ Page.inputs step pa ∧ r.id = id → r = ⟨id, row.doc⟩ := by
    rintro ⟨id', row'⟩ ⟨hr, rfl⟩
    obtain ⟨fo, hf, rfl, -⟩ := mem_inputs.mp hr
    have hq := lookup_of_mem_page hR.nodup hm
    rw [lookup_of_mem_page hR.nodup hf] at hq
    cases hq
    rfl
  -- The record is to be migrated or it is not.
  cases ht : step.takes row.doc with
  | false =>
    have hK : ¬ (step.sourceName ≠ step.item ∨
        (row.doc.metadata.schema < step.to_ ∧ (step.item, id) ∉ ou.map TargetRecord.key)) := by
      simp only [Step.takes, decide_eq_false_iff_not, not_or] at ht
      exact fun h => h.elim ht.1 fun h => ht.2 h.1
    rw [dropSource, if_neg hK]
    refine .pure fun s _ h => h.mono (fun _ _ _ _ hk => hk) fun r _ hz => hz.resolve_right fun hr => ?_
    obtain ⟨-, -, -, htk⟩ := mem_inputs.mp hr.1
    rw [hi hr, ht] at htk
    cases htk
  | true =>
    have hr : (⟨id, row.doc⟩ : SourceRecord) ∈ Page.inputs step pa :=
      mem_inputs.mpr ⟨row, hm, rfl, ht⟩
    have hs := hR.isSource hO hr
    have hse : ∀ {s}, Knows schema step f s₀ K Z s →
        ((∀ o, Yields f ⟨id, row.doc⟩ o → o.key ≠ (step.sourceName, id)) →
          dataOf s step.sourceName id = none) →
        Knows schema step f s₀ K (fun r => Z r ∨ r ∈ Page.inputs step pa ∧ r.id = id) s := by
      intro s h hg
      refine ⟨h.toInPhase, h.held, fun {r} hr' hz => ?_⟩
      rcases hz with hz | hz
      · exact h.settled hr' hz
      · rw [hi hz]
        exact ⟨hu.yields hr, fun ho => h.held hs ho (hS _ _ hr ho), hg⟩
    rw [dropSource]
    split_ifs with hd
    · have hn : ∀ r' o, step.IsSource (dataOf s₀) r' → Yields f r' o →
          o.key ≠ (step.sourceName, id) := by
        intro r' o hr' ho he
        have hq := (hO.place hr' ho (congrArg Prod.fst he)).1
        obtain rfl := hO.own hr' ho hs he
        refine hd.elim (fun hN => hN hq) fun hd => hd.2 ?_
        rw [← hq, ← he]
        exact mem_map_of_mem (hu.mem.mpr ⟨_, hr, ho⟩)
      refine .bind (ensures_tryWrite hT (B := Knows schema step f s₀ K
        (fun r => Z r ∨ r ∈ Page.inputs step pa ∧ r.id = id)) fun s _ h => ?_) fun dropped => ?_
      · have hD := h.drop (.version row.version) hs (hu.yields hr) (fun o ho => hS _ o hr ho) hn
        exact ⟨hp _ hD.toInPhase, hD.mono (fun _ _ _ _ hk => hk) fun r _ hz => hz.imp_right hi⟩
      · cases dropped with
        | true => exact .pure fun s _ h => h
        | false =>
          refine .bind (ensures_get hT _) fun fo => ?_
          cases fo with
          | none => exact .pure fun s _ h => hse h.1 fun _ => by rw [dataOf, h.2]; rfl
          | some fo => exact .throw fun _ _ _ => trivial
    · refine .pure fun s _ h => hse h fun hF => ?_
      -- An output has taken the place of the record.
      rw [not_or, not_not] at hd
      have hc : row.doc.metadata.schema < step.to_ :=
        (of_decide_eq_true ht).resolve_left (not_not.mpr hd.1)
      obtain ⟨o, ho, he⟩ := mem_map.mp (not_not.mp fun hn => hd.2 ⟨hc, hn⟩)
      obtain ⟨r', hr', ho⟩ := hu.mem.mp ho
      rw [← hd.1] at he
      obtain rfl := hO.own (hR.isSource hO hr') ho hs he
      exact absurd he (hF o ho)

theorem ensures_dropSources (hu : OutputsOf f (Page.inputs step pa) ou)
    (hs : ∀ r o, r ∈ Page.inputs step pa → Yields f r o → K r o)
    {it} (ht : ∀ r ∈ it, r ∈ pa.items) :
    Ensures T (Knows schema step f s₀ K Z) (dropSources step ou it)
      (fun s _ => Knows schema step f s₀ K
        (fun r => Z r ∨ r ∈ Page.inputs step pa ∧ r.id ∈ it.map (·.1)) s) Anything := by
  induction it generalizing Z with
  | nil =>
    refine .pure fun s _ h => h.mono (fun _ _ _ _ hk => hk) fun r _ hz => ?_
    exact hz.resolve_right fun hr => not_mem_nil hr.2
  | cons head re ih =>
    refine .bind (ensures_dropSource hT hp hO hR hu hs (ht head mem_cons_self)) fun _ => ?_
    refine (ih fun r hr => ht r (mem_cons_of_mem _ hr)).weaken (fun _ _ h => h)
      (fun s _ _ h => h.mono (fun _ _ _ _ hk => hk) fun r _ hz => ?_) fun _ _ => trivial
    rcases hz with hz | ⟨hr, hi⟩
    · exact .inl (.inl hz)
    · rcases mem_cons.mp hi with hi | hi
      · exact .inl (.inr ⟨hr, hi⟩)
      · exact .inr ⟨hr, hi⟩

include hd

theorem ensures_storeTargets_of (hr : r ∈ Page.inputs step pa) (sr td) (hf : f r = .ok (sr ++ td)) :
    Ensures T (Knows schema step f s₀ (fun r' o' => K r' o' ∨ r' = r ∧ o' ∈ sr) Z)
      (storeTargets schema ot step pa td)
      (fun s _ => Knows schema step f s₀ (fun r' o' => K r' o' ∨ r' = r) Z s) Anything := by
  have hs := hR.isSource hO hr
  induction td generalizing sr with
  | nil =>
    refine .pure fun s _ h => h.mono (fun r' o' _ ho' hk => ?_) fun _ _ hz => hz
    rcases hk with hk | rfl
    · exact .inl hk
    · obtain ⟨ou, hu, hm⟩ := ho'
      rw [hf, append_nil] at hu
      cases hu
      exact .inr ⟨rfl, hm⟩
  | cons o re ih =>
    have ho : Yields f r o := ⟨_, hf, by simp⟩
    have ht : o.key = (step.sourceName, r.id) → ∀ o', Yields f r o' → o'.key ≠ o.key →
        K r o' ∨ r = r ∧ o' ∈ sr := by
      rintro hw o' ⟨ou, hu, hm⟩ hn
      rw [hf] at hu
      cases hu
      rcases mem_append.mp hm with hm | hm
      · exact .inr ⟨rfl, hm⟩
      · -- The output in the place of its record is the last one.
        refine absurd (congrArg TargetRecord.key ?_) hn
        exact (mem_cons.mp hm).elim id (hO.last hs hf hw o')
    refine .bind (ensures_storeTarget hT hp hO hd hs ho (hR.expiry hO hr ho) ht) fun _ => ?_
    refine (ih (sr ++ [o]) (by rw [hf, append_assoc]; rfl)).pre fun s _ h => ?_
    refine h.mono (fun r' o' _ _ hk => ?_) fun _ _ hz => hz
    rcases hk with hk | ⟨rfl, hm⟩
    · exact .inl (.inl hk)
    · rcases mem_append.mp hm with hm | hm
      · exact .inl (.inr ⟨rfl, hm⟩)
      · exact .inr ⟨rfl, mem_singleton.mp hm⟩

theorem ensures_storeTargets (hi : ∀ r ∈ ip, r ∈ Page.inputs step pa) (hf : ip.mapM f = .ok outs) :
    Ensures T (Knows schema step f s₀ K Z) (storeTargets schema ot step pa outs.flatten)
      (fun s _ => Knows schema step f s₀ (fun r' o' => K r' o' ∨ r' ∈ ip) Z s) Anything := by
  induction ip generalizing outs K with
  | nil =>
    cases hf
    exact .pure fun s _ h => h.mono (fun _ _ _ _ hk => hk.resolve_right not_mem_nil) fun _ _ hz => hz
  | cons r re ih =>
    obtain ⟨ou, outs', hr, hs, rfl⟩ := mapM_cons_ok hf
    rw [flatten_cons, storeTargets_append]
    refine .bind ((ensures_storeTargets_of (K := K) (Z := Z) hT hp hO hd hR
      (hi r mem_cons_self) [] ou hr).pre fun s _ h => ?_) fun _ => ?_
    · refine h.mono (fun _ _ _ _ hk => ?_) fun _ _ hz => hz
      exact hk.resolve_right fun hm => not_mem_nil hm.2
    · refine (ih (fun r' hr' => hi r' (mem_cons_of_mem _ hr')) hs).weaken (fun _ _ h => h)
        (fun s _ _ h => h.mono (fun _ _ _ _ hk => ?_) fun _ _ hz => hz) fun _ _ => trivial
      rcases hk with hk | hm
      · exact .inl (.inl hk)
      · rcases mem_cons.mp hm with rfl | hm
        · exact .inl (.inr rfl)
        · exact .inr hm

end

include hd in
theorem ensures_migratePages (hi : step.Independent f) (hb : ot.batchSize ≠ 0) (lf cu wr) :
    Ensures T (Reached schema step f s₀ fun r => ∃ c ∈ cu, r.id ≤ c)
      (migratePages schema ot step lf cu wr)
      (fun s _ => Reached schema step f s₀ (fun _ => True) s) Anything := by
  induction lf generalizing cu wr with
  | zero => exact .throw fun _ _ _ => trivial
  | succ lf ih =>
    refine .bind (ensures_rows hT step.sourceName) fun ro => ?_
    dsimp only
    by_cases he : (pageOf ot cu ro).items.isEmpty
    · rw [if_pos he]
      exact .pure fun s _ ⟨h, ho⟩ => h.finish hb ho (isEmpty_iff.mp he)
    · rw [if_neg he]
      refine .fact (fun s _ ⟨h, ho⟩ => h.readUnderway ot cu ho) fun hR => ?_
      cases hru : step.run (Page.inputs step (pageOf ot cu ro)) with
      | error e => exact .throw fun _ _ _ => trivial
      | ok ou =>
        obtain ⟨outs, hu, rfl⟩ := run_ok hi hru
        refine .bind ((ensures_storeTargets hT hp hO hd hR (fun _ hr => hr)
          hu).pre fun s _ ⟨h, ho⟩ => h.skip hb ho) fun _ => ?_
        refine .bind (ensures_dropSources hT hp hO hR (outputsOf_mapM hu)
          (fun _ _ hr _ => .inr hr) fun _ hr => hr) fun _ => ?_
        -- What the page leaves out was migrated before, and the rest is now.
        have hC : ∀ r : SourceRecord, (∀ c ∈ (pageOf ot cu ro).next, r.id ≤ c) →
            ((∀ c ∈ (pageOf ot cu ro).next, r.id ≤ c) ∧
              r ∉ Page.inputs step (pageOf ot cu ro)) ∨
            r ∈ Page.inputs step (pageOf ot cu ro) ∧
              r.id ∈ (pageOf ot cu ro).items.map (·.1) := by
          intro r hl
          by_cases hr : r ∈ Page.inputs step (pageOf ot cu ro)
          · obtain ⟨row, hm, -⟩ := mem_inputs.mp hr
            exact .inr ⟨hr, mem_map_of_mem hm⟩
          · exact .inl ⟨hl, hr⟩
        refine .bind (ensures_saveProgress hT hp fun r _ ⟨c, hc, hl⟩ =>
          hC r fun c' hc' => Option.mem_unique hc hc' ▸ hl) fun _ => ?_
        cases hn : (pageOf ot cu ro).next with
        | some nx =>
          rw [hn] at hC
          refine (ih (some nx) _).pre fun s _ h => h.mono (fun _ _ _ _ hk => hk.elim) ?_
          exact fun r _ ⟨c, hc, hl⟩ => hC r fun c' hc' => Option.mem_unique hc hc' ▸ hl
        | none =>
          rw [hn] at hC
          exact .pure fun s _ h => h.mono (fun _ _ _ _ hk => hk.elim) fun r _ _ => hC r nofun

end

end Programs

end Tinyflows.Migrations
