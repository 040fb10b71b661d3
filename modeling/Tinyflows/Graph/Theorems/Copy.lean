import Tinyflows.Graph.Lemmas.Threads

/-!
# Copying a thread

The copy files the records of the source one by one, each with the ledger it has by then. What is read from
the target afterwards is what the source gives, under the other thread id.
-/

namespace Tinyflows.Graph
open List

variable {S V : Type}

def Checkpoint.inThread (target : ThreadId) (c : Checkpoint S V) : Checkpoint S V :=
  { c with threadId := target }

def CheckpointMetadata.inThread (target : ThreadId) (m : CheckpointMetadata) : CheckpointMetadata :=
  { m with threadId := target }

def CheckpointTuple.inThread (target : ThreadId) (t : CheckpointTuple S V) :
    CheckpointTuple S V where
  config := { t.config with threadId := target }
  checkpoint := t.checkpoint.inThread target
  parentConfig := t.parentConfig.map fun config => { config with threadId := target }
  pendingWrites := t.pendingWrites

namespace CheckpointStore
open Lib

/-! ## Record by record -/

def ledger (s : CheckpointStore S V) (thread : ThreadId) (ns : List String) (id : CheckpointId) :
    List (PendingWrite V) :=
  s.getWrites { threadId := thread, checkpointId := some id, ns }

variable {s t : CheckpointStore S V} {source target : ThreadId} {c : Checkpoint S V}
  {id : Option CheckpointId} {ns : List String}

theorem Sound.ledger (h : s.Sound) (thread ns id) : Merged (s.ledger thread ns id) := by
  change Merged ((s.writes.lookup (thread, ns, id)).getD [])
  cases hs : s.writes.lookup (thread, ns, id) with
  | none => exact nodup_nil
  | some writes => exact h.merged _ writes hs

theorem copyRecord_eq (source target s) (c : Checkpoint S V) :
    copyRecord source target s c = (s.put (c.inThread target)).putWrites target c.ns c.checkpointId
      (s.ledger source c.ns c.checkpointId) := by
  unfold copyRecord
  dsimp only
  split_ifs with he
  · rw [putWrites, ledger, if_pos he]
    rfl
  · rfl

theorem getThread_copyRecord (thread) : (copyRecord source target s c).getThread thread =
    if thread = target then s.getThread target ++ [c.inThread target] else s.getThread thread := by
  rw [copyRecord_eq, getThread_putWrites, getThread_put]
  by_cases ht : thread = target
  · subst ht
    simp [Checkpoint.inThread]
  · simp [Checkpoint.inThread, ht]

theorem ledger_putWrites (s : CheckpointStore S V) (target thread ns ns' id id' writes) :
    (s.putWrites target ns' id' writes).ledger thread ns id =
      if (thread, ns, id) = (target, ns', id') then mergeWrites (s.ledger target ns' id') writes
      else s.ledger thread ns id := by
  by_cases he : writes = []
  · subst he
    split_ifs with hk
    · cases hk
      rfl
    · rfl
  · change ((s.putWrites target ns' id' writes).writes.lookup (thread, ns, id)).getD [] = _
    rw [lookup_putWrites _ _ _ _ he]
    split_ifs with hk
    · cases hk
      rfl
    · rfl

/-- One after the other, each batch under the thread, namespace and checkpoint it is for. -/
def putAll (s : CheckpointStore S V)
    (batches : List ((ThreadId × List String × CheckpointId) × List (PendingWrite V))) : CheckpointStore S V :=
  batches.foldl (fun s (cell, batch) => s.putWrites cell.1 cell.2.1 cell.2.2 batch) s

theorem ledger_putAll (s : CheckpointStore S V) (batches thread ns id) :
    (s.putAll batches).ledger thread ns id = mergeWrites (s.ledger thread ns id)
      ((batches.filter (·.1 = (thread, ns, id))).flatMap (·.2)) := by
  induction batches using List.reverseRecOn with
  | nil => rfl
  | append_singleton batches b ih =>
    rw [putAll, foldl_concat, ← putAll, ledger_putWrites, filter_append, flatMap_append]
    split_ifs with hb
    · obtain ⟨rfl, rfl, rfl⟩ := hb
      simp [ih, mergeWrites]
    · simp [ih, Ne.symm hb]

/-- A ledger holds one write per task and index. Of the batches put for it, those for other checkpoints in
between, it keeps the first write under an index that is not negative and the last one under one that is. -/
theorem ledger_keeps (calls : List (Call S V))
    (batches : List ((ThreadId × List String × CheckpointId) × List (PendingWrite V)))
    (thread : ThreadId) (ns : List String) (id : CheckpointId) :
    let held store := Lib.held PendingWrite.identity (CheckpointStore.ledger store thread ns id)
    let own := (batches.filter (·.1 = (thread, ns, id))).flatMap (·.2)
    let s := (after calls).putAll batches
    ((s.ledger thread ns id).map (·.identity)).Nodup ∧
    (∀ key, held s key =
      if 0 ≤ key.2 then (held (after calls) key).or (own.find? (·.identity = key))
      else (own.reverse.find? (·.identity = key)).or (held (after calls) key)) ∧
    ∀ batch, let again := s.putWrites thread ns id batch
      (again.putWrites thread ns id batch).ledger thread ns id = again.ledger thread ns id := by
  intro held own s
  have hm := (sound_after calls).ledger thread ns id
  have hl : s.ledger thread ns id = _ := ledger_putAll _ batches thread ns id
  refine ⟨hl ▸ hm.mergeWrites own, fun key => ?_, fun batch => ?_⟩
  · simp only [held, hl]
    split_ifs with hk
    · exact held_mergeWrites_data hk _ _
    · exact held_mergeWrites_control (Int.not_le.mp hk) _ _
  · simp only [ledger_putWrites, if_true]
    exact mergeWrites_again (hl ▸ hm.mergeWrites own) batch

theorem ledger_copyRecord (thread ns id) :
    (copyRecord source target s c).ledger thread ns id =
      if (thread, ns, id) = (target, c.ns, c.checkpointId) then
        mergeWrites (s.ledger target c.ns c.checkpointId) (s.ledger source c.ns c.checkpointId)
      else s.ledger thread ns id := by
  rw [copyRecord_eq, ledger_putWrites]
  rfl

structure Copied (s : CheckpointStore S V) (source target : ThreadId)
    (done : List (Checkpoint S V)) (t : CheckpointStore S V) : Prop where
  records : t.getThread target = done.map (·.inThread target)
  others : ∀ thread, thread ≠ target → t.getThread thread = s.getThread thread ∧
    ∀ ns id, t.ledger thread ns id = s.ledger thread ns id
  filed : ∀ c ∈ done, t.ledger target c.ns c.checkpointId =
    mergeWrites (s.ledger target c.ns c.checkpointId) (s.ledger source c.ns c.checkpointId)
  unfiled : ∀ ns id, (∀ c ∈ done, ¬(c.ns = ns ∧ c.checkpointId = id)) →
    t.ledger target ns id = s.ledger target ns id

theorem Copied.step (hs : s.Sound) (hn : source ≠ target) {done}
    (h : Copied s source target done t) (c) :
    Copied s source target (done ++ [c]) (copyRecord source target t c) where
  records := by rw [getThread_copyRecord, if_pos rfl, h.records, map_append]; rfl
  others thread ht := by
    refine ⟨?_, fun ns id => ?_⟩
    · rw [getThread_copyRecord, if_neg ht]
      exact (h.others thread ht).1
    · rw [ledger_copyRecord, if_neg (by simp [ht])]
      exact (h.others thread ht).2 ns id
  filed other ho := by
    rw [ledger_copyRecord, (h.others source hn).2]
    by_cases hk : other.ns = c.ns ∧ other.checkpointId = c.checkpointId
    · rw [if_pos (by simp [hk]), hk.1, hk.2]
      by_cases he : ∃ earlier ∈ done, earlier.ns = c.ns ∧ earlier.checkpointId = c.checkpointId
      · -- The id is used again: its ledger has been merged already.
        obtain ⟨earlier, hb, hns, hi⟩ := he
        have hf := h.filed earlier hb
        rw [hns, hi] at hf
        rw [hf, mergeWrites_again (hs.ledger target _ _)]
      · rw [h.unfiled _ _ (by simpa using he)]
    · rw [if_neg (by simpa using hk)]
      rcases mem_append.mp ho with ho | ho
      · exact h.filed other ho
      · simp [mem_singleton.mp ho] at hk
  unfiled ns id hu := by
    have hl := hu c (by simp)
    rw [ledger_copyRecord, if_neg]
    · exact h.unfiled ns id fun earlier hb => hu earlier (by simp [hb])
    · intro hk
      simp only [Prod.mk.injEq, true_and] at hk
      exact hl ⟨hk.1.symm, hk.2.symm⟩

theorem copied_foldl (hs : s.Sound) (hn : source ≠ target) (he : s.getThread target = [])
    (records) : Copied s source target records (records.foldl (copyRecord source target) s) := by
  induction records using List.reverseRecOn with
  | nil => exact ⟨by simpa using he, fun _ _ => ⟨rfl, fun _ _ => rfl⟩, by simp, fun _ _ _ => rfl⟩
  | append_singleton records c ih =>
    rw [foldl_append]
    exact ih.step hs hn c

/-! ## Reading the copy -/

theorem exists_of_getScoped {thread} (h : s.getScoped thread id ns = some c) :
    ∃ found ∈ s.getThread thread, found.ns = ns ∧ found.checkpointId = c.checkpointId := by
  rw [getScoped_eq] at h
  obtain ⟨found, hf, hg⟩ := Option.bind_eq_some_iff.mp h
  obtain ⟨hm, hn, -⟩ := newestIn_self hf
  exact ⟨found, hm, hn, (mem_of_get hg).2.symm⟩

section Reads

variable (h : Copied s source target (s.getThread source) t)
include h

theorem Copied.get (id) : t.get target id = (s.get source id).map (·.inThread target) := by
  cases id with
  | none => simp only [CheckpointStore.get, h.records, getLast?_map]
  | some id =>
    simp only [CheckpointStore.get, h.records, ← map_reverse, find?_map]
    rfl

theorem Copied.newestIn (ns id) :
    t.newestIn target ns id = (s.newestIn source ns id).map (·.inThread target) := by
  cases id <;>
    (simp only [CheckpointStore.newestIn, h.records, ← map_reverse, find?_map]
     rfl)

theorem Copied.getScoped (id ns) :
    t.getScoped target id ns = (s.getScoped source id ns).map (·.inThread target) := by
  rw [getScoped_eq, getScoped_eq, h.newestIn]
  cases s.newestIn source ns id with
  | none => rfl
  | some c => exact h.get (some c.checkpointId)

theorem Copied.list : t.list target = (s.list source).map (·.inThread target) := by
  simp only [CheckpointStore.list, h.records, map_map]
  rfl

theorem Copied.ledger_eq (hs : s.Sound) (hc : c ∈ s.getThread source)
    (hl : s.ledger target c.ns c.checkpointId = []) :
    t.ledger target c.ns c.checkpointId = s.ledger source c.ns c.checkpointId := by
  rw [h.filed c hc, hl, mergeWrites_nil (hs.ledger source _ _)]

theorem Copied.getWrites (hs : s.Sound)
    (hi : ∀ i, id = some i → ∃ c ∈ s.getThread source, c.ns = ns ∧ c.checkpointId = i)
    (hl : ∀ i, s.resolveWriteTarget { threadId := source, checkpointId := id, ns } = some i →
      s.ledger target ns i = []) : t.getWrites { threadId := target, checkpointId := id, ns } =
      s.getWrites { threadId := source, checkpointId := id, ns } := by
  cases id with
  | some i =>
    obtain ⟨c, hc, rfl, rfl⟩ := hi i rfl
    exact h.ledger_eq hs hc (hl _ rfl)
  | none =>
    simp only [CheckpointStore.getWrites, resolveWriteTarget, h.getScoped]
    cases ha : s.getScoped source none ns with
    | none => rfl
    | some c =>
      obtain ⟨found, ho, rfl, hid⟩ := exists_of_getScoped ha
      have hf := h.ledger_eq hs ho (hid ▸ hl c.checkpointId (by rw [resolveWriteTarget, ha]; rfl))
      rw [hid] at hf
      exact hf

theorem Copied.tupleOf (hs : s.Sound) (hc : c ∈ s.getThread source)
    (hl : s.ledger target c.ns c.checkpointId = []) :
    t.tupleOf (c.inThread target) = (s.tupleOf c).inThread target := by
  have hf := h.ledger_eq hs hc hl
  obtain rfl := hs.keyed source c hc
  have hw : t.resolvedWrites { threadId := target, checkpointId := some c.checkpointId, ns := c.ns }
      (c.inThread target) =
        s.resolvedWrites { threadId := c.threadId, checkpointId := some c.checkpointId, ns := c.ns } c := by
    rw [CheckpointStore.ledger, CheckpointStore.ledger] at hf
    simp only [resolvedWrites, hf]
    rfl
  cases hp : c.parentCheckpointId <;>
    simp [CheckpointStore.tupleOf, Checkpoint.tuple, CheckpointTuple.inThread, ← hw,
      Checkpoint.inThread, hp]

theorem Copied.stateHistory (hs : s.Sound) (ns limit)
    (hl : ∀ tuple ∈ s.stateHistory source ns limit,
      s.ledger target tuple.checkpoint.ns tuple.checkpoint.checkpointId = []) :
    t.stateHistory target ns limit = (s.stateHistory source ns limit).map (·.inThread target) := by
  have hr : ∀ cursor, (t.tupleReader target ns).read cursor = ((s.tupleReader source ns).read cursor).map
      fun tuple => t.tupleOf (tuple.checkpoint.inThread target) := by
    intro cursor
    simp only [tupleReader, getTuple, h.getScoped]
    cases s.getScoped source cursor ns <;> rfl
  refine (Reader.walk_map hr (fun _ => rfl) (fun _ => rfl) limit [] none ∅).trans
    (map_congr_left fun tuple ht => ?_)
  obtain ⟨cursor, hc⟩ := Reader.read_of_mem_lineage ht
  obtain ⟨c, hg, rfl⟩ := Option.map_eq_some_iff.mp hc
  exact h.tupleOf hs (mem_of_getScoped hg) (hl _ ht)

end Reads

/-! ## The copy -/

/-- After any calls, for every pair of threads: copying fails exactly if the target has a checkpoint.
Otherwise every read of a record of the target is that of the source under the other thread id, and the
ledger of every checkpoint of the source is merged into what is filed for it under the target. A history, or
the writes filed for a checkpoint, is that of the source if nothing was filed before for what it reads. Every
other ledger and every other thread stays as it is. -/
theorem copyThread_reads (calls : List (Call S V)) {source target : ThreadId}
    (hne : source ≠ target) : let s := after calls
    (s.getThread target ≠ [] →
      s.copyThread source target = .error (occupiedTarget target (s.getThread target).length)) ∧
    (s.getThread target = [] → ∃ t, s.copyThread source target = .ok t ∧
      (∀ id, t.get target id = (s.get source id).map (·.inThread target)) ∧
      (∀ id ns, t.getScoped target id ns = (s.getScoped source id ns).map (·.inThread target)) ∧
      t.list target = (s.list source).map (·.inThread target) ∧
      (∀ ns limit, (∀ tuple ∈ s.stateHistory source ns limit,
          s.ledger target tuple.checkpoint.ns tuple.checkpoint.checkpointId = []) →
        t.stateHistory target ns limit = (s.stateHistory source ns limit).map (·.inThread target)) ∧
      (∀ ns id, (∀ i, id = some i → ∃ c ∈ s.getThread source, c.ns = ns ∧ c.checkpointId = i) →
        (∀ i, s.resolveWriteTarget { threadId := source, checkpointId := id, ns } = some i →
          s.ledger target ns i = []) →
        t.getWrites { threadId := target, checkpointId := id, ns } =
          s.getWrites { threadId := source, checkpointId := id, ns }) ∧
      (∀ c ∈ s.getThread source, t.ledger target c.ns c.checkpointId =
        mergeWrites (s.ledger target c.ns c.checkpointId) (s.ledger source c.ns c.checkpointId)) ∧
      (∀ ns id, (∀ c ∈ s.getThread source, ¬(c.ns = ns ∧ c.checkpointId = id)) →
        t.ledger target ns id = s.ledger target ns id) ∧
      ∀ thread, thread ≠ target → t.getThread thread = s.getThread thread ∧
        ∀ ns id, t.ledger thread ns id = s.ledger thread ns id) := by
  intro s
  have hs : s.Sound := sound_after calls
  refine ⟨fun hoccupied => ?_, fun hempty => ?_⟩
  · have hlist : s.list target ≠ [] := by simpa [list] using hoccupied
    rw [copyThread, if_neg (by simpa using hlist), list, length_map]
  · have hcopied := copied_foldl hs hne hempty (s.getThread source)
    exact ⟨_, if_pos (by simp [list, hempty]), hcopied.get, hcopied.getScoped, hcopied.list,
      hcopied.stateHistory hs, fun ns id hid hl => hcopied.getWrites hs hid hl, hcopied.filed,
      hcopied.unfiled, hcopied.others⟩

/-- A checkpoint with a write filed for it, put again under the same id. -/
def twice : List (Call Unit Unit) :=
  [.put (bare "a" none []), .putWrites "t" [] "a" [.completionMarker "n" "task"],
    .put (bare "a" none [])]

theorem copyThread_reads_twice : ∃ t, (after twice).copyThread "t" "u" = .ok t ∧
    t.getWrites { threadId := "u", checkpointId := some "a", ns := [] } =
      [.completionMarker "n" "task"] := by
  obtain ⟨t, hcopy, -, -, -, -, hwrites, -⟩ :=
    (copyThread_reads twice (show "t" ≠ "u" by decide)).2 (by decide)
  refine ⟨t, hcopy, ?_⟩
  rw [hwrites [] (some "a")]
  · decide
  · intro i hi
    exact ⟨bare "a" none [], by decide, rfl, Option.some.inj hi⟩
  · intro i hi
    obtain rfl : "a" = i := Option.some.inj hi
    decide

/-- What is filed for an id without a checkpoint stays behind. -/
def unattached : List (Call Unit Unit) :=
  [.putWrites "t" [] "a" [.completionMarker "n" "task"]]

theorem unattached_writes_stay : (after unattached).getThread "u" = [] ∧
    ∃ t, (after unattached).copyThread "t" "u" = .ok t ∧
      t.getWrites { threadId := "u", checkpointId := some "a", ns := [] } ≠
        (after unattached).getWrites { threadId := "t", checkpointId := some "a", ns := [] } :=
  ⟨rfl, after unattached, rfl, by decide⟩

end CheckpointStore
end Tinyflows.Graph
