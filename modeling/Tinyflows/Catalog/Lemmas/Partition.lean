import Tinyflows.Catalog.Lemmas.History

/-!
# What a prune reads

The visible revisions, newest first, are those of committed updates, in the order in which the updates
were committed.
-/

namespace Tinyflows.Catalog
open Lib Model Storage List CatalogStore RevisionRow

/-! ## Order -/

def RevisionRow.key (row : RevisionRow) : Nat × Int :=
  (row.1, row.2.doc.createdMs)

def Committed.key (c : Committed) : Nat × Int :=
  (c.id, c.flow.updatedMs)

def StrictlyNewer (a b : Nat × Int) : Prop :=
  b.2 < a.2 ∨ a.2 = b.2 ∧ b.1 < a.1

instance : Std.Antisymm StrictlyNewer where
  antisymm a b hab hba := by
    unfold StrictlyNewer at hab hba
    omega

instance : Std.Irrefl StrictlyNewer where
  irrefl a h := by
    unfold StrictlyNewer at h
    omega

instance : Std.Total newer where
  total a b := by
    unfold newer
    omega

instance : IsTrans RevisionRow newer where
  trans a b c hab hbc := by
    unfold newer at *
    omega

theorem RevisionRow.newer.strict {a b : RevisionRow} (h : a.newer b) (hn : a.1 ≠ b.1) :
    StrictlyNewer a.key b.key := by
  unfold newer at h
  unfold StrictlyNewer key
  omega

/-! ## The rows of a flow -/

section Rows

variable {fl : String} {s : CatalogStore} {row : RevisionRow}

theorem mem_revisionRows {entries : List (Σ k, Versioned (CatalogDocs k))} :
    row ∈ (entries.filter fun e => e.1.isRevision).filterMap revisionRow ↔
      (⟨.revision row.1, row.2⟩ : Σ k, Versioned (CatalogDocs k)) ∈ entries := by
  constructor
  · intro h
    obtain ⟨⟨k, doc⟩, he, hr⟩ := mem_filterMap.mp h
    cases k with
    | definition fl => cases hr
    | revision id =>
      cases hr
      exact (mem_filter.mp he).1
  · exact fun h => mem_filterMap.mpr ⟨_, mem_filter.mpr ⟨h, rfl⟩, rfl⟩

theorem mem_revisions : row ∈ revisions s fl ↔
    revision s row.1 = some row.2 ∧ row.2.doc.flowId = fl := by
  rw [revisions, newestFirst, mem_insertionSort, mem_filter, mem_revisionRows,
    ← AList.mem_lookup_iff, decide_eq_true_iff]
  rfl

theorem revisionRow_inj {e e'} (h : row ∈ revisionRow e) (h' : row ∈ revisionRow e') : e = e' := by
  obtain ⟨k, doc⟩ := e
  obtain ⟨k', doc'⟩ := e'
  cases k <;> cases h
  cases k' <;> cases h'
  rfl

theorem nodup_revisions : ((revisions s fl).map (·.1)).Nodup := by
  have hr : (revisions s fl).Nodup :=
    (perm_insertionSort _ _).nodup_iff.mpr
      (((s.docs.nodupKeys.nodup.filter _).filterMap fun _ _ _ => revisionRow_inj).filter _)
  refine List.Nodup.map_on (fun a ha b hb hab => ?_) hr
  obtain ⟨ha, -⟩ := mem_revisions.mp ha
  obtain ⟨hb, -⟩ := mem_revisions.mp hb
  rw [hab] at ha
  exact Prod.ext hab (Option.some.inj (ha.symm.trans hb))

theorem pairwise_revisions : ((revisions s fl).map key).Pairwise StrictlyNewer := by
  have hs : (revisions s fl).Pairwise newer :=
    pairwise_insertionSort _ _
  have hn := pairwise_map.mp (@nodup_revisions fl s)
  exact pairwise_map.mpr ((hs.and hn).imp fun h => h.1.strict h.2)

end Rows

/-! ## The rows that are seen -/

section Visible

variable {fl : String} {st d : FlowDoc} {s : CatalogStore}

variable {row : RevisionRow}

section

variable (hs : Inv fl st s) (hd : d.incarnation = st.incarnation)
include hs hd

theorem belongs_of_mem (hr : row ∈ revisions s fl) : belongs row.2.doc (some d) = true := by
  obtain ⟨-, hi⟩ := (hs.revisions _).filed (mem_revisions.mp hr).1
  rw [belongs, Option.any_some, hi, hd]
  cases st.incarnation <;> simp

theorem partition_orphans : (partitionRows (some d) (revisions s fl)).orphans = [] :=
  filter_eq_nil_iff.mpr fun row hr => by simp [belongs_of_mem hs hd hr]

theorem mem_visible {row} : row ∈ (partitionRows (some d) (revisions s fl)).visible ↔
      revision s row.1 = some row.2 ∧ (row.2.doc.pending = false ∨ d.lastRevisionId = some row.1) := by
  have hf : revision s row.1 = some row.2 → row.2.doc.flowId = fl :=
    fun h => ((hs.revisions _).filed h).1
  have hr : row ∈ revisions s fl ↔ revision s row.1 = some row.2 :=
    mem_revisions.trans ⟨And.left, fun h => ⟨h, hf h⟩⟩
  simp only [partitionRows, mem_filter, Option.bind_some, visible, Bool.or_eq_true,
    Bool.not_eq_true', decide_eq_true_iff]
  rw [← hr]
  exact ⟨fun h => ⟨h.1.1, h.2⟩, fun h => ⟨⟨h.1, belongs_of_mem hs hd h.1⟩, h.2⟩⟩

theorem committed_of_visible (ha : ∀ id, d.lastRevisionId = some id → ∃ c ∈ commits s.log, c.id = id)
    (hw : row ∈ (partitionRows (some d) (revisions s fl)).visible) :
    ∃ c ∈ commits s.log, c.id = row.1 ∧ row.2.doc.content = c.revision ∧ row.key = c.key := by
  obtain ⟨hl, he⟩ := (mem_visible hs hd).mp hw
  have hc : ∃ c ∈ commits s.log, c.id = row.1 := by
    by_contra hn
    have hp := (hs.revisions _).uncommitted hl fun c hc hi => hn ⟨c, hc, hi⟩
    rcases he with he | he
    · rw [hp] at he
      cases he
    · exact hn (ha _ he)
  obtain ⟨c, hc, hi⟩ := hc
  have ho := (hs.revisions _).content hl c hc hi
  refine ⟨c, hc, hi, ho, Prod.ext hi.symm ?_⟩
  have hr := (hs.history.revision hc).2.2.2
  rw [← ho] at hr
  exact hr

end

theorem pairwise_commits (hs : Inv fl st s) :
    ((commits s.log).reverse.map Committed.key).Pairwise StrictlyNewer := by
  rw [map_reverse, pairwise_reverse, pairwise_map]
  exact hs.history.pairwise.imp fun h => .inl h

theorem pairwise_visible :
    ((partitionRows (some d) (revisions s fl)).visible.map key).Pairwise StrictlyNewer :=
  pairwise_revisions.sublist ((filter_sublist.trans filter_sublist).map _)

section

variable (hs : Inv fl st s) (hd : d.incarnation = st.incarnation)
  (hn : ∀ id, d.lastRevisionId = some id → ∃ c ∈ commits s.log, c.id = id)
include hs hd hn

theorem visible_sublist : List.Sublist ((partitionRows (some d) (revisions s fl)).visible.map key)
      ((commits s.log).reverse.map Committed.key) := by
  refine sublist_of_subperm_of_pairwise (subperm_of_subset pairwise_visible.nodup ?_)
    pairwise_visible (pairwise_commits hs)
  intro key hk
  obtain ⟨row, hr, rfl⟩ := mem_map.mp hk
  obtain ⟨c, hc, -, -, he⟩ := committed_of_visible hs hd hn hr
  exact he ▸ mem_map_of_mem (mem_reverse.mpr hc)

theorem outdated_of_mem_drop
    (hr : row ∈ (partitionRows (some d) (revisions s fl)).visible.drop MAX_REVISIONS_PER_FLOW) :
    Outdated s.log row.1 := by
  obtain ⟨c, hc, hi, -, hk⟩ := committed_of_visible hs hd hn (mem_of_mem_drop hr)
  refine ⟨⟨c, hc, hi⟩, fun c' hc' hi' => ?_⟩
  have hD := ((visible_sublist hs hd hn).drop MAX_REVISIONS_PER_FLOW).subset
    (by rw [← map_drop]; exact mem_map_of_mem hr)
  have ht : c.key ∈ ((commits s.log).reverse.map Committed.key).take MAX_REVISIONS_PER_FLOW := by
    rw [← map_take,
      ← eq_of_id_eq hs.distinct (mem_reverse.mp (mem_of_mem_take hc')) hc (hi'.trans hi.symm)]
    exact mem_map_of_mem hc'
  rw [hk] at hD
  exact disjoint_take_drop (pairwise_commits hs).nodup (Nat.le_refl _) ht hD

end

theorem take_eq_of_sublist {α : Type} {l l' : List α} {n} (h : List.Sublist l l')
    (hn : l'.Nodup) (hm : ∀ a ∈ l'.take n, a ∈ l) : l.take n = l'.take n := by
  induction h generalizing n with
  | slnil => rfl
  | cons a h ih =>
    obtain ⟨ho, hn⟩ := nodup_cons.mp hn
    cases n with
    | zero => rfl
    | succ n => exact absurd (h.subset (hm a (by simp))) ho
  | cons_cons a h ih =>
    obtain ⟨ho, hn⟩ := nodup_cons.mp hn
    cases n with
    | zero => rfl
    | succ n =>
      rw [take_succ_cons, take_succ_cons, ih hn fun b hb => ?_]
      rcases mem_cons.mp (hm b (by simp [hb])) with rfl | hb'
      · exact absurd (mem_of_mem_take hb) ho
      · exact hb'

section

variable (hs : Inv fl st s) (hd : d.incarnation = st.incarnation)
  (hn : ∀ id, d.lastRevisionId = some id → ∃ c ∈ commits s.log, c.id = id)
include hs hd hn

/-- Once every committed update has confirmed its revision, the newest visible revisions are those to
be retained. -/
theorem take_visible (he : ∀ c ∈ commits s.log, Restored s.log c.id) :
    ((partitionRows (some d) (revisions s fl)).visible.take
      MAX_REVISIONS_PER_FLOW).map key = (retained s.log).map Committed.key := by
  rw [map_take, retained, map_take]
  refine take_eq_of_sublist (visible_sublist hs hd hn) (pairwise_commits hs).nodup fun key hk => ?_
  rw [← map_take] at hk
  obtain ⟨c, hc, rfl⟩ := mem_map.mp hk
  have hm : c ∈ commits s.log := mem_reverse.mp (mem_of_mem_take hc)
  cases hr : revision s c.id with
  | none => exact absurd rfl (((hs.revisions c.id).dropped hr (he c hm)).2 c hc)
  | some row =>
    have hv := (@mem_visible _ _ _ _ hs hd (c.id, row)).mpr
      ⟨hr, .inl ((hs.revisions c.id).confirmed hr (he c hm))⟩
    obtain ⟨c', hc', hi, -, hq⟩ := committed_of_visible hs hd hn hv
    rw [← eq_of_id_eq hs.distinct hc' hm hi, ← hq]
    exact mem_map_of_mem hv

theorem mem_drop_visible (hr : ∀ c ∈ commits s.log, Restored s.log c.id) {id}
    (hi : Outdated s.log id) {row} (ho : revision s id = some row) :
    (id, row) ∈ (partitionRows (some d) (revisions s fl)).visible.drop MAX_REVISIONS_PER_FLOW := by
  obtain ⟨⟨c, hc, rfl⟩, ht⟩ := hi
  have hv := (@mem_visible _ _ _ _ hs hd (c.id, row)).mpr
    ⟨ho, .inl ((hs.revisions c.id).confirmed ho (hr c hc))⟩
  rw [← take_append_drop MAX_REVISIONS_PER_FLOW
    (partitionRows (some d) (revisions s fl)).visible] at hv
  rcases mem_append.mp hv with ha | hD
  · have hk := mem_map_of_mem (f := key) ha
    rw [take_visible hs hd hn hr] at hk
    obtain ⟨c', hc', he⟩ := mem_map.mp hk
    exact absurd (congrArg Prod.fst he) (ht c' hc')
  · exact hD

end

end Visible

end Tinyflows.Catalog
