import Tinyflows.Catalog.Lemmas.Revisions

/-!
# Revisions are the history of a flow

Whatever the interleaving of the updates of a flow, the revisions that are visible in the end are the
graphs that the committed updates replaced. This needs that a write made because a revision was found
pending never meets the revision confirmed: a revision that was taken and written again starts at its
first version, so that the version alone does not tell.
-/

namespace Tinyflows.Catalog
open Lib Model Storage List CatalogStore

/-- A flow that has no revisions yet. -/
structure Begins (flow : String) (start : FlowDoc) (s : CatalogStore) : Prop where
  definition : definition s flow = some start
  unnamed : start.lastRevisionId = none
  numbered : start.revision ≠ some 0
  empty : ∀ id, revision s id = none
  log : s.log = []

/-- The visible revisions are what the committed updates replaced, as far as it is retained; every
update that returned a flow was committed once, the others were not; and the flow has been numbered by
them. -/
structure Recorded (flow : String) (start : FlowDoc) (w : UpdateWorld) : Prop where
  visible : visibleRevisions w.store flow =
    (retained w.store.log).map fun c => toRevision c.id c.revision
  history : History flow start (commits w.store.log)
  number : ∃ d, definition w.store flow = some d ∧
    d.number = start.number + (commits w.store.log).length
  made : ∀ {i : Nat} {op : UpdateOp} {d : FlowDoc}, w.running[i]? = some (op, .done (.ok d)) →
    ∃ c, (commits w.store.log).filter (·.by_ = i) = [c] ∧ op.request.Made c
  failed : ∀ {i : Nat} {op : UpdateOp} {e : FlowUpdateError},
    w.running[i]? = some (op, .done (.error e)) → (commits w.store.log).filter (·.by_ = i) = []

section Discipline

variable (flow : String) (start : FlowDoc)

def updateDiscipline : Discipline ((updateSystem flow).limited FindsPending) where
  inv := Inv flow start
  rely := Rely flow
  guarantee _ i := Change flow start i
  fresh := Uncommitted
  post op i s r := Ended op.request i s r

variable {flow start}

theorem updateDiscipline_kept (hu : start.lastRevisionId = none)
    (hn : start.revision ≠ some 0) : (updateDiscipline flow start).Kept where
  refl i s := .refl flow i s
  trans i := Rely.trans
  relies hi hs h := h.rely hs hi
  unused hi hs h hf := by
    have hr := Change.rely h hs hi
    exact (congrArg commits hr.mine).trans hf
  begins op i s hs hf := by
    refine (ensures_updateFlowGraph hu hn s hs hf).mono hs ?_
    rintro (e | d) t - h
    · exact h
    · exact h

theorem Begins.inv {s} (h : Begins flow start s) : Inv flow start s := by
  have hl := h.log
  refine ⟨⟨?_, ?_, ?_, ?_, ?_⟩, fun id => .of_none (h.empty id) ?_⟩
  · rw [hl]
    trivial
  · rw [hl]
    exact h.definition
  · rw [hl]
    intro c hc
    cases hc
  · rw [hl]
    exact .nil
  · rw [hl]
    intro i id hi
    cases hi
  · rw [hl]
    rintro ⟨i, hi⟩
    cases hi

end Discipline

/-! ## When all updates have returned -/

theorem commits_own {i log} : commits (own i log) = (commits log).filter (·.by_ = i) := by
  induction log with
  | nil => rfl
  | cons e rest ih =>
    obtain ⟨j, event⟩ := e
    have hc : ∀ l, commits ((j, event) :: l) = (committed? (j, event)).toList ++ commits l := by
      intro l
      rw [commits, filterMap_cons]
      cases committed? (j, event) <;> rfl
    rw [hc, filter_append, ← ih]
    by_cases hj : j = i
    · rw [own, filter_cons_of_pos (by simpa using hj), hc]
      cases event <;> simp [committed?, hj, own]
    · rw [own, filter_cons_of_neg (by simpa using hj)]
      cases event <;> simp [committed?, hj, own]

theorem exists_longest {α β : Type} {P : α → List β → Prop} {log xs} (hn : xs ≠ [])
    (h : ∀ c ∈ xs, ∃ l, P c l ∧ l <+: log) :
    ∃ c ∈ xs, ∃ l, (P c l ∧ l <+: log) ∧ ∀ c' ∈ xs, ∃ l', P c' l' ∧ l' <+: l := by
  induction xs with
  | nil => exact absurd rfl hn
  | cons a rest ih =>
    obtain ⟨longest, ha, ho⟩ := h a mem_cons_self
    by_cases hr : rest = []
    · subst hr
      refine ⟨a, mem_cons_self, longest, ⟨ha, ho⟩, fun c' hc' => ?_⟩
      cases mem_singleton.mp hc'
      exact ⟨longest, ha, prefix_refl _⟩
    · obtain ⟨c, hc, l, hl, hL⟩ := ih hr fun c hc => h c (mem_cons_of_mem _ hc)
      rcases prefix_or_prefix_of_prefix ho hl.2 with he | he
      · refine ⟨c, mem_cons_of_mem _ hc, l, hl, fun c' hc' => ?_⟩
        rcases mem_cons.mp hc' with rfl | hc'
        · exact ⟨longest, ha, he⟩
        · exact hL c' hc'
      · refine ⟨a, mem_cons_self, longest, ⟨ha, ho⟩, fun c' hc' => ?_⟩
        rcases mem_cons.mp hc' with rfl | hc'
        · exact ⟨longest, ha, prefix_refl _⟩
        · obtain ⟨l', hl', hl'l⟩ := hL c' hc'
          exact ⟨l', hl', hl'l.trans he⟩

section Quiet

variable {flow : String} {start : FlowDoc} {s : CatalogStore}

theorem gone_of_pruned (hs : Inv flow start s) (h : ∀ c ∈ commits s.log, ∃ l, Pruning c.by_ c l [] s) :
    (∀ c ∈ commits s.log, Restored s.log c.id) ∧ ∀ id, Outdated s.log id → revision s id = none := by
  refine ⟨fun c hc => ?_, fun id ho => ?_⟩
  · obtain ⟨l, hl⟩ := h c hc
    exact hl.restored.mono hl.log
  · obtain ⟨c₀, hc₀, rfl⟩ := ho.1
    obtain ⟨c, hc, l, ⟨hl, hg⟩, hL⟩ := exists_longest
      (P := fun c l => Pruning c.by_ c l [] s) (ne_nil_of_mem hc₀)
      fun c hc => (h c hc).imp fun l hl => ⟨hl, hl.log⟩
    -- The log as the last update listed the revisions has every commit.
    have ha : ∀ c' ∈ commits s.log, c' ∈ commits l ∧ Restored l c'.id := by
      intro c' hc'
      obtain ⟨l', hl', he⟩ := hL c' hc'
      exact ⟨(commits_mono he).subset hl'.committed, hl'.restored.mono he⟩
    have hC : commits l = commits s.log := by
      refine (commits_mono hg).eq_of_length_le ?_
      have hn := List.Nodup.of_map _ hs.distinct
      exact (subperm_of_subset hn fun c' hc' => (ha c' hc').1).length_le
    rcases hl.gone (fun c' hc' => (ha c' (hC ▸ hc')).2) c₀ (ha c₀ hc₀).1
      ((Outdated.congr hC).mpr ho) with hN | ⟨row, hr, -⟩
    · exact hN
    · cases hr

theorem map_eq_of_key {l : List RevisionRow} {l' : List Committed} {f}
    {g : Committed → FlowRevision} (hk : l.map RevisionRow.key = l'.map Committed.key)
    (h : ∀ row ∈ l, ∀ c ∈ l', row.key = c.key → f row = g c) : l.map f = l'.map g := by
  induction l generalizing l' with
  | nil =>
    cases l' with
    | nil => rfl
    | cons c re' => cases hk
  | cons row rest ih =>
    cases l' with
    | nil => cases hk
    | cons c re' =>
      obtain ⟨he, hk⟩ := List.cons.inj hk
      rw [map_cons, map_cons, h row (by simp) c (by simp) he, ih hk fun row hr c hc =>
        h row (mem_cons_of_mem _ hr) c (mem_cons_of_mem _ hc)]

theorem visibleRevisions_eq (hu : start.lastRevisionId = none) (hs : Inv flow start s)
    (hR : ∀ c ∈ commits s.log, Restored s.log c.id)
    (hg : ∀ id, Outdated s.log id → revision s id = none) :
    visibleRevisions s flow = (retained s.log).map fun c => toRevision c.id c.revision := by
  have he : Seen start (flowAfter start s.log) s := seen_flowAfter
  have hi := he.incarnation hs
  have hn := he.named hu hs
  rw [visibleRevisions, hs.definition]
  have ht := take_visible hs hi hn hR
  have hD : (partitionRows (some (flowAfter start s.log))
      (revisions s flow)).visible.drop MAX_REVISIONS_PER_FLOW = [] := by
    refine eq_nil_iff_forall_not_mem.mpr fun row hr => ?_
    have hl := ((mem_visible hs hi).mp (mem_of_mem_drop hr)).1
    rw [hg _ (outdated_of_mem_drop hs hi hn hr)] at hl
    cases hl
  rw [take_of_length_le (drop_eq_nil_iff.mp hD)] at ht
  refine map_eq_of_key ht fun row hr c hc hk => ?_
  obtain ⟨c', hc', hid, ho, -⟩ := committed_of_visible hs hi hn hr
  have hm : c ∈ commits s.log := mem_reverse.mp (mem_of_mem_take hc)
  have hd : row.1 = c.id := congrArg Prod.fst hk
  obtain rfl := eq_of_id_eq hs.distinct hc' hm (hid.trans hd)
  rw [← ho, hd]
  rfl

end Quiet

/-- Updates of one flow, interleaved in any way. If every call is answered, and no revision is confirmed or
deleted as pending when it no longer is, what they leave is the history of those that were committed. -/
theorem revisions_recorded {flow : String} {start : FlowDoc} {s : CatalogStore} {w : UpdateWorld}
    (hbegins : Begins flow start s)
    (hruns : Runs ((updateSystem flow).limited FindsPending) { store := s } w) (hquiet : w.Quiet) :
    Recorded flow start w := by
  have hkept : (updateDiscipline flow start).Kept :=
    updateDiscipline_kept hbegins.unnamed hbegins.numbered
  have hsettled := hkept.settled_runs (Discipline.settled_initial hbegins.inv fun i => by
    change commits (own i s.log) = []
    rw [hbegins.log]
    rfl) hruns
  have hs : Inv flow start w.store := hsettled.inv
  have hended : ∀ {i op r}, w.running[i]? = some (op, .done r) → Ended op.request i w.store r :=
    fun hi => by
      obtain ⟨t, hrely, hpost⟩ := hsettled.running hi
      exact stable_ended t w.store hs hrely hpost
  -- Whoever committed has returned, and not failed.
  have hpruned : ∀ c ∈ commits w.store.log, ∃ l, Pruning c.by_ c l [] w.store := by
    intro c hc
    have hown : c ∈ commits (own c.by_ w.store.log) := mem_commits_own.mpr ⟨hc, rfl⟩
    have hrunning : c.by_ < w.running.length := by
      by_contra hlt
      have hnone : commits (own c.by_ w.store.log) = [] := hsettled.unused c.by_ (by omega)
      rw [hnone] at hown
      cases hown
    obtain ⟨r, hr⟩ := hquiet _ (getElem_mem hrunning)
    have hat : w.running[c.by_]? = some ((w.running[c.by_]).1, .done r) := by
      rw [getElem?_eq_getElem hrunning, ← hr]
    have hend := hended hat
    cases r with
    | error e =>
      rw [show commits (own c.by_ w.store.log) = [] from hend] at hown
      cases hown
    | ok d =>
      obtain ⟨c', -, l, hl⟩ := hend
      rw [hl.mine] at hown
      cases mem_singleton.mp hown
      exact ⟨l, hl⟩
  obtain ⟨hrestored, hgone⟩ := gone_of_pruned hs hpruned
  refine ⟨visibleRevisions_eq hbegins.unnamed hs hrestored hgone, hs.history,
    ⟨_, hs.definition, hs.history.number⟩, fun hi => ?_, fun hi => ?_⟩
  · obtain ⟨c, hmade, l, hl⟩ := hended hi
    exact ⟨c, commits_own.symm.trans hl.mine, hmade⟩
  · exact commits_own.symm.trans (hended hi)

/-! ## Two updates of one flow -/

def untitled : FlowDoc where
  name := "untitled"
  graph := {}
  enabled := false
  updatedMs := 0
  requireApproval := false

def newFlow : CatalogStore where
  docs := AList.singleton (CatalogKey.definition "flow") ⟨1, untitled⟩

theorem newFlow_begins : Begins "flow" untitled newFlow where
  definition := rfl
  unnamed := rfl
  numbered := by simp [untitled]
  empty _ := rfl
  log := rfl

def rename (name : String) (readings : List Int) : UpdateOp where
  request := { name, graph := {}, requireApproval := false }
  clock n := readings.getD n 0

/-- The first update has read the flow when the second one is made. -/
def overtaken : List (Move UpdateOp) :=
  [.start (rename "first" [1, 2]), .calls 0 1, .start (rename "second" [3, 4, 5]), .calls 1 20,
    .calls 0 20, .start (rename "third" [6, 7, 8]), .calls 2 20]

def afterOvertaking : UpdateWorld :=
  World.exec (updateSystem "flow") Store.answer { store := newFlow } overtaken

theorem overtaken_recorded : afterOvertaking.Quiet ∧ (commits afterOvertaking.store.log).length = 2 ∧
    Recorded "flow" untitled afterOvertaking :=
  have hquiet : afterOvertaking.Quiet := by decide +kernel
  ⟨hquiet, by decide +kernel, revisions_recorded newFlow_begins
    (runs_exec_limited Store.serves_answer (by decide +kernel)) hquiet⟩

/-- The third update stalls for more than an hour twice: before it touches its revision and before it
commits. Both times a prune finds the revision abandoned and stalls before it deletes it. The second
one takes it after the commit; the third update writes it again, at the first version; and the first
one, which found the first version, takes it for good. -/
def stalls : List (Move UpdateOp) :=
  [.start (rename "first" [1, 2, 4000000]), .calls 0 8,
    .start (rename "second" [3, 4, 8000000]), .calls 1 10,
    .start (rename "third" [5, 4000001, 8000001]), .calls 2 5,
    .calls 0 4, .calls 2 2, .calls 1 4, .calls 2 2, .calls 1 2, .calls 2 1, .calls 0 2, .calls 2 20]

def afterStalls : UpdateWorld :=
  World.exec (updateSystem "flow") Store.answer { store := newFlow } stalls

theorem restored_revision_deleted : Runs (updateSystem "flow") { store := newFlow } afterStalls ∧
    afterStalls.Quiet ∧ ¬ Recorded "flow" untitled afterStalls := by
  refine ⟨runs_exec Store.serves_answer _ _, by decide +kernel, fun h => ?_⟩
  have hlength := congrArg List.length h.visible
  rw [length_map] at hlength
  revert hlength
  decide +kernel

end Tinyflows.Catalog
