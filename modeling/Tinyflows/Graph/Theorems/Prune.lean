import Tinyflows.Graph.Lemmas.Threads

/-!
# What pruning keeps

The window is read off the groups of the namespaces, and the ancestors are marked from it in any order.
What is left of the thread is exactly what the window reaches by parent pointers.
-/

namespace Tinyflows.Graph.CheckpointStore
open Lib List HashMap

variable {S V : Type}

theorem mem_foldl_insert {α : Type} (f : α → CheckpointId) (l : List α) (marked : HashSet CheckpointId)
    (id) : id ∈ l.foldl (fun marked m => insert (f m) marked) marked ↔ id ∈ marked ∨ ∃ m ∈ l, f m = id := by
  induction l generalizing marked with
  | nil => simp
  | cons m l ih =>
    rw [foldl_cons, ih, Finset.mem_insert]
    constructor
    · rintro ((rfl | h) | ⟨m', hm', rfl⟩)
      · exact .inr ⟨m, by simp, rfl⟩
      · exact .inl h
      · exact .inr ⟨m', by simp [hm'], rfl⟩
    · rintro (h | ⟨m', hm', rfl⟩)
      · exact .inl (.inr h)
      · rcases mem_cons.mp hm' with rfl | hm'
        · exact .inl (.inl rfl)
        · exact .inr ⟨m', hm', rfl⟩

theorem lookup_byNamespace (metas ns) :
    (byNamespace metas).lookup ns =
      if metas.filter (·.ns = ns) = [] then none else some (metas.filter (·.ns = ns)) := by
  induction metas using List.reverseRecOn with
  | nil => rfl
  | append_singleton metas m ih =>
    rw [byNamespace, foldl_append, foldl_cons, foldl_nil, ← byNamespace]
    by_cases hn : ns = m.ns
    · subst hn
      rw [Finmap.lookup_insert, ih]
      by_cases he : metas.filter (·.ns = m.ns) = [] <;> simp [he]
    · rw [Finmap.lookup_insert_of_ne _ hn, ih]
      simp [Ne.symm hn]

def Recent (records : List (Checkpoint S V)) (keep : Nat) (c : Checkpoint S V) : Prop :=
  c ∈ (records.filter (·.ns = c.ns)).reverse.take keep

theorem mem_recentWindow (order) (s : CheckpointStore S V) (th : ThreadId) (keep : Nat) (id) :
    id ∈ recentWindow order (s.list th) keep ↔
      ∃ c ∈ s.getThread th, Recent (s.getThread th) keep c ∧ c.checkpointId = id := by
  rw [recentWindow, ← foldl_flatMap, mem_foldl_insert]
  simp only [Finset.notMem_empty, false_or, mem_flatMap]
  have hg : ∀ ns, (s.list th).filter (·.ns = ns) =
      ((s.getThread th).filter (·.ns = ns)).map Checkpoint.toMetadata := by
    intro ns
    rw [list, filter_map]
    rfl
  constructor
  · rintro ⟨m, ⟨⟨ns, group⟩, hi, hm⟩, rfl⟩
    have hl := mem_iter.mp hi
    rw [lookup_byNamespace] at hl
    split_ifs at hl
    rw [← Option.some.inj hl, hg, ← map_reverse, ← map_take] at hm
    obtain ⟨c, hc, rfl⟩ := mem_map.mp hm
    have he := mem_filter.mp (mem_reverse.mp (mem_of_mem_take hc))
    obtain rfl : c.ns = ns := by simpa using he.2
    exact ⟨c, he.1, hc, rfl⟩
  · rintro ⟨c, hc, hr, rfl⟩
    refine ⟨c.toMetadata, ⟨(c.ns, (s.list th).filter (·.ns = c.ns)), ?_, ?_⟩, rfl⟩
    · rw [mem_iter, lookup_byNamespace, if_neg]
      rw [hg, map_eq_nil_iff]
      exact ne_nil_of_mem (mem_filter.mpr ⟨hc, by simp⟩)
    · rw [hg, ← map_reverse, ← map_take]
      exact mem_map_of_mem hr

def IsParent (records : List (Checkpoint S V)) (a b : CheckpointId) : Prop :=
  ∃ c ∈ records, c.checkpointId = a ∧ c.parentCheckpointId = some b

variable {s : CheckpointStore S V} {th : ThreadId}

theorem parentIn_parents (hu : ((s.getThread th).map (·.checkpointId)).Nodup) (a b) :
    parentIn (parents (s.list th)) a = some b ↔ IsParent (s.getThread th) a b := by
  have hk : (((s.list th).map fun m => (m.checkpointId, m.parentCheckpointId)).map
      Prod.fst).Nodup := by
    rw [list, map_map, map_map]
    exact hu
  have he : ∀ parent, (a, parent) ∈ ((s.list th).map fun m =>
      (m.checkpointId, m.parentCheckpointId)) ↔
      ∃ c ∈ s.getThread th, c.checkpointId = a ∧ c.parentCheckpointId = parent := by
    simp [list, Checkpoint.toMetadata]
  constructor
  · intro h
    have hl : (parents (s.list th)).lookup a = some (some b) := by
      cases hf : (parents (s.list th)).lookup a with
      | none => simp [parentIn, hf] at h
      | some found => simpa [parentIn, hf] using h
    exact (he (some b)).mp (mem_of_lookup_collect hl)
  · intro h
    have hl := lookup_collect_of_mem hk ((he (some b)).mpr h)
    rw [parentIn, parents, hl]
    rfl

/-- One of the recent checkpoints, or an ancestor of one. -/
def Retained (records : List (Checkpoint S V)) (keep : Nat) (c : Checkpoint S V) : Prop :=
  ∃ recent ∈ records, Recent records keep recent ∧
    Relation.ReflTransGen (IsParent records) recent.checkpointId c.checkpointId

theorem mem_marked (hu : ((s.getThread th).map (·.checkpointId)).Nodup)
    (ns) (order : IterOrder CheckpointId) (keep c) : c.checkpointId ∈ markAncestors (parents (s.list th))
        (order.keys (recentWindow ns (s.list th) keep))
        (recentWindow ns (s.list th) keep) ↔
      Retained (s.getThread th) keep c := by
  have hh : Lib.Reaches (parents (s.list th)) =
      Relation.ReflTransGen (IsParent (s.getThread th)) := by
    unfold Lib.Reaches
    congr 1
    funext a b
    exact propext (parentIn_parents hu a b)
  rw [mem_markAncestors fun id => order.mem_keys _ id, hh]
  simp only [mem_recentWindow, Retained]
  constructor
  · rintro ⟨_, ⟨recent, hm, hr, rfl⟩, hc⟩
    exact ⟨recent, hm, hr, hc⟩
  · rintro ⟨recent, hm, hr, hc⟩
    exact ⟨_, ⟨recent, hm, hr, rfl⟩, hc⟩

theorem deleteCheckpoints_count (s : CheckpointStore S V) (th ids) :
    (s.deleteCheckpoints th ids).2 =
      (s.getThread th).length - ((s.deleteCheckpoints th ids).1.getThread th).length := by
  rw [getThread_deleteCheckpoints, if_pos rfl]
  unfold deleteCheckpoints
  by_cases hi : ids = []
  · subst hi
    simp
  · rw [if_neg (by simpa using hi)]
    cases hr : s.inner.lookup th <;> simp [getThread, hr]

/-- For every thread whose ids are unique, whatever its namespaces and parent pointers and in whatever order
the maps are walked: pruning leaves, in their order, exactly the checkpoints that are recent in their
namespace or ancestors of such, counts the others, closes what it leaves under parents that exist, and
touches no other thread. -/
theorem prune_retains_lineages (s : CheckpointStore S V) (thread : ThreadId) (keepLast : Nat)
    (nsOrder : IterOrder (List String)) (order : IterOrder CheckpointId)
    (hunique : ((s.getThread thread).map (·.checkpointId)).Nodup) :
    let pruned := s.prune nsOrder order thread keepLast
    (∀ c, c ∈ pruned.1.getThread thread ↔
      c ∈ s.getThread thread ∧ Retained (s.getThread thread) (max keepLast 1) c) ∧
    (pruned.1.getThread thread).Sublist (s.getThread thread) ∧
    pruned.2 = (s.getThread thread).length - (pruned.1.getThread thread).length ∧
    (∀ c ∈ pruned.1.getThread thread, ∀ parent ∈ s.getThread thread,
      c.parentCheckpointId = some parent.checkpointId → parent ∈ pruned.1.getThread thread) ∧
    ∀ other, other ≠ thread → pruned.1.getThread other = s.getThread other := by
  intro pruned
  by_cases hempty : s.getThread thread = []
  case pos =>
    have hpruned : pruned = (s, 0) := if_pos (by simp [list, hempty])
    simp [hpruned, hempty]
  case neg =>
    have hpruned : pruned = s.deleteCheckpoints thread
        (((s.list thread).map (·.checkpointId)).filter
          (· ∉ markAncestors (parents (s.list thread))
            (order.keys (recentWindow nsOrder (s.list thread) (max keepLast 1)))
            (recentWindow nsOrder (s.list thread) (max keepLast 1)))) :=
      if_neg (by simpa [list] using hempty)
    have hmem : ∀ c, c ∈ pruned.1.getThread thread ↔
        c ∈ s.getThread thread ∧ Retained (s.getThread thread) (max keepLast 1) c := by
      intro c
      rw [hpruned, getThread_deleteCheckpoints, if_pos rfl, mem_filter,
        ← mem_marked hunique nsOrder order]
      simp only [mem_filter, mem_map, decide_eq_true_eq, and_congr_right_iff]
      intro hc
      have hlisted : ∃ m ∈ s.list thread, m.checkpointId = c.checkpointId :=
        ⟨c.toMetadata, mem_map_of_mem hc, rfl⟩
      simp [hlisted]
    refine ⟨hmem, ?_, ?_, ?_, ?_⟩
    · rw [hpruned, getThread_deleteCheckpoints, if_pos rfl]
      exact filter_sublist
    · rw [hpruned]
      exact deleteCheckpoints_count s thread _
    · intro c hc parent hparent hpoints
      obtain ⟨hstored, recent, hrecentMem, hrecent, hreach⟩ := (hmem c).mp hc
      exact (hmem parent).mpr ⟨hparent, recent, hrecentMem, hrecent,
        hreach.tail ⟨c, hstored, rfl, hpoints⟩⟩
    · intro other hother
      rw [hpruned, getThread_deleteCheckpoints, if_neg hother]

/-- Two checkpoints that name each other, and one that nothing leads to. -/
def circular : CheckpointStore Unit Unit :=
  (((({} : CheckpointStore Unit Unit).put (bare "x" none [])).put (bare "a" (some "b") [])).put
    (bare "b" (some "a") []))

theorem prune_retains_lineages_circular :
    bare "a" (some "b") [] ∈
      (circular.prune (.sorted (List String)) (.sorted String) "t" 0).1.getThread "t" := by
  refine ((prune_retains_lineages circular "t" 0 (.sorted (List String)) (.sorted String)
    (by decide)).1 _).mpr ⟨by decide, bare "b" (some "a") [], by decide, ?_, ?_⟩
  · show _ ∈ _
    decide
  · exact .single ⟨bare "b" (some "a") [], by decide, rfl, rfl⟩

end Tinyflows.Graph.CheckpointStore
