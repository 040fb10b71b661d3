import Tinyflows.Graph.Checkpointer
import Tinyflows.Lib.Lineage
import Tinyflows.Storage.Keys

/-!
# Whole threads

Listing, history, copying and pruning of a thread's checkpoints, and the history as the storage driver
reads it.
-/

namespace Tinyflows.Graph
open Lib List

variable {S V : Type}

/-! ## Listing -/

inductive CheckpointSource where
  | input
  | loop
  | update
  | fork
  deriving DecidableEq

def CheckpointSource.parse : String → Option CheckpointSource
  | "input" => some .input
  | "loop" => some .loop
  | "update" => some .update
  | "fork" => some .fork
  | _ => none

structure CheckpointMetadata where
  threadId : ThreadId
  checkpointId : CheckpointId
  runId : Option RunId
  parentCheckpointId : Option CheckpointId
  ns : List String
  nextNodes : List NodeId
  hasInterrupts : Bool
  source : CheckpointSource
  step : Nat
  deriving DecidableEq

def Checkpoint.toMetadata (c : Checkpoint S V) : CheckpointMetadata where
  threadId := c.threadId
  checkpointId := c.checkpointId
  runId := c.runId
  parentCheckpointId := c.parentCheckpointId
  ns := c.ns
  nextNodes := c.nextNodes
  hasInterrupts := !c.interrupts.isEmpty
  source := (CheckpointSource.parse c.metadata.source).getD .loop
  step := c.metadata.step

namespace CheckpointStore

variable (s : CheckpointStore S V) (thread : ThreadId)

def list : List CheckpointMetadata :=
  (s.getThread thread).map Checkpoint.toMetadata

end CheckpointStore

/-! ## History -/

structure CheckpointTuple (S V : Type) where
  config : CheckpointConfig
  checkpoint : Checkpoint S V
  parentConfig : Option CheckpointConfig
  pendingWrites : List (PendingWrite V)

def Checkpoint.tuple (c : Checkpoint S V) (pendingWrites : List (PendingWrite V)) :
    CheckpointTuple S V where
  config := { threadId := c.threadId, checkpointId := some c.checkpointId, ns := c.ns }
  checkpoint := c
  parentConfig := c.parentCheckpointId.map fun parent =>
    { threadId := c.threadId, checkpointId := some parent, ns := c.ns }
  pendingWrites

namespace CheckpointStore

variable (s : CheckpointStore S V)

def resolvedWrites (config : CheckpointConfig) (c : Checkpoint S V) : List (PendingWrite V) :=
  let stored := s.getWrites config
  if stored.isEmpty then c.pendingWrites else stored

def tupleOf (c : Checkpoint S V) : CheckpointTuple S V :=
  c.tuple (s.resolvedWrites
    { threadId := c.threadId, checkpointId := some c.checkpointId, ns := c.ns } c)

def getTuple (config : CheckpointConfig) : Option (CheckpointTuple S V) :=
  (s.getScoped config.threadId config.checkpointId config.ns).map s.tupleOf

def checkpointIds (thread : ThreadId) : HashSet CheckpointId :=
  ((s.getThread thread).map (·.checkpointId)).toFinset

section

variable {c : Checkpoint S V} {s} {thread : ThreadId}

theorem mem_checkpointIds (h : c ∈ s.getThread thread) : c.checkpointId ∈ s.checkpointIds thread := by
  rw [checkpointIds, mem_toFinset]
  exact mem_map_of_mem h

theorem mem_of_get {id} (h : s.get thread (some id) = some c) :
    c ∈ s.getThread thread ∧ c.checkpointId = id := by
  have hf := find?_some h
  exact ⟨mem_reverse.mp (mem_of_find?_eq_some h), by simpa using hf⟩

theorem mem_of_getScoped {id ns}
    (h : s.getScoped thread id ns = some c) : c ∈ s.getThread thread := by
  simp only [getScoped] at h
  split at h
  · exact (mem_of_get h).1
  · cases h

end

def tupleReader (thread : ThreadId) (ns : List String) :
    Reader CheckpointId (CheckpointTuple S V) where
  read cursor := s.getTuple { threadId := thread, checkpointId := cursor, ns }
  idOf t := t.checkpoint.checkpointId
  parentOf t := t.checkpoint.parentCheckpointId
  ids := s.checkpointIds thread
  known cursor t h := by
    obtain ⟨c, hc, rfl⟩ := Option.map_eq_some_iff.mp h
    exact mem_checkpointIds (mem_of_getScoped hc)

def stateHistory (thread : ThreadId) (ns : List String) (limit : Option Nat) :
    List (CheckpointTuple S V) :=
  (s.tupleReader thread ns).lineage limit

def deleteThread (thread : ThreadId) : CheckpointStore S V where
  inner := s.inner.erase thread
  writes := s.writes.retain fun key => key.1 ≠ thread

def deleteCheckpoints (thread : ThreadId) (ids : List CheckpointId) : CheckpointStore S V × Nat :=
  if ids.isEmpty then (s, 0)
  else
    match s.inner.lookup thread with
    | none => (s, 0)
    | some records =>
      let kept := records.filter fun c => c.checkpointId ∉ ids
      ({ inner := s.inner.insert thread kept
         writes := s.writes.retain fun key => key.1 ≠ thread ∨ key.2.2 ∉ ids },
       records.length - kept.length)

/-- The calls that every change of a store is made of. -/
inductive Call (S V : Type) where
  | put (c : Checkpoint S V)
  | putWrites (thread : ThreadId) (ns : List String) (id : CheckpointId)
      (writes : List (PendingWrite V))
  | deleteThread (thread : ThreadId)
  | deleteCheckpoints (thread : ThreadId) (ids : List CheckpointId)

def call : Call S V → CheckpointStore S V
  | .put c => s.put c
  | .putWrites thread ns id writes => s.putWrites thread ns id writes
  | .deleteThread thread => s.deleteThread thread
  | .deleteCheckpoints thread ids => (s.deleteCheckpoints thread ids).1

def after (calls : List (Call S V)) : CheckpointStore S V :=
  calls.foldl call {}

def occupiedTarget (target : ThreadId) (count : Nat) : GraphError :=
  .checkpoint (s!"copy_thread: target thread `{target}` already has {count} checkpoint(s); " ++
    "copying would interleave two lineages with reused checkpoint ids. Delete the target first if " ++
    "replacing it is intended.")

def copyRecord (source target : ThreadId) (s : CheckpointStore S V) (c : Checkpoint S V) :
    CheckpointStore S V :=
  let writes := s.getWrites { threadId := source, checkpointId := some c.checkpointId, ns := c.ns }
  let s := s.put { c with threadId := target }
  if writes.isEmpty then s else s.putWrites target c.ns c.checkpointId writes

def copyThread (source target : ThreadId) : Except GraphError (CheckpointStore S V) :=
  let existing := s.list target
  if existing.isEmpty then .ok ((s.getThread source).foldl (copyRecord source target) s)
  else .error (occupiedTarget target existing.length)

/-! ## Pruning -/

def parents (metas : List CheckpointMetadata) : HashMap CheckpointId (Option CheckpointId) :=
  HashMap.collect (metas.map fun m => (m.checkpointId, m.parentCheckpointId))

def byNamespace (metas : List CheckpointMetadata) : HashMap (List String) (List CheckpointMetadata) :=
  metas.foldl (fun groups m => groups.insert m.ns ((groups.lookup m.ns).getD [] ++ [m])) ∅

def recentWindow (order : IterOrder (List String)) (metas : List CheckpointMetadata) (keepLast : Nat) :
    HashSet CheckpointId :=
  ((byNamespace metas).iter order).foldl
    (fun marked group => (group.2.reverse.take keepLast).foldl
      (fun marked m => insert m.checkpointId marked) marked) ∅

/-- Keeps the recent checkpoints of every namespace with their ancestors, and deletes the others. The maps
are walked in the orders given. -/
def prune (nsOrder : IterOrder (List String)) (order : IterOrder CheckpointId)
    (s : CheckpointStore S V) (thread : ThreadId) (keepLast : Nat) :
    CheckpointStore S V × Nat :=
  let metas := s.list thread
  if metas.isEmpty then (s, 0)
  else
    let window := recentWindow nsOrder metas (max keepLast 1)
    let marked := markAncestors (parents metas) (order.keys window) window
    s.deleteCheckpoints thread ((metas.map (·.checkpointId)).filter (· ∉ marked))

end CheckpointStore

/-! ## The storage driver

The driver keeps the same records, a document each, and reads them by filters. A document is filed under
the encoded namespace of its checkpoint. -/

section

variable {maxLen : Nat} (digest : Keys.Digest maxLen)

/-- A namespace as one text: that of the root is empty. -/
def subgraphKey (ns : List String) : List Char :=
  if ns = [] then []
  else match (Keys.Key.of (fun _ => "") digest.text (['n'] :: ns.map String.toList) :
      Except String (Keys.Key maxLen)) with
    | .ok key => key.text
    | .error _ => []

namespace CheckpointStore

variable (s : CheckpointStore S V)

def subgraphRecords (thread : ThreadId) (ns : List String) : List (Checkpoint S V) :=
  (s.getThread thread).filter fun c => subgraphKey digest c.ns = subgraphKey digest ns

/-- The driver filters on the namespace and the id at once. -/
def driverGetScoped (thread : ThreadId) (id : Option CheckpointId) (ns : List String) :
    Option (Checkpoint S V) :=
  match id with
  | some id => (s.subgraphRecords digest thread ns).reverse.find? (·.checkpointId = id)
  | none => (s.subgraphRecords digest thread ns).reverse.head?

variable {digest s} in
theorem mem_of_driverGetScoped {thread id ns c} (h : s.driverGetScoped digest thread id ns = some c) :
    c ∈ s.getThread thread := by
  suffices c ∈ (s.subgraphRecords digest thread ns).reverse from
    mem_of_mem_filter (mem_reverse.mp this)
  cases id with
  | some id => exact mem_of_find?_eq_some h
  | none => exact mem_of_mem_head? h

def driverGetTuple (config : CheckpointConfig) : Option (CheckpointTuple S V) :=
  (s.driverGetScoped digest config.threadId config.checkpointId config.ns).map s.tupleOf

def driverReader (thread : ThreadId) (ns : List String) :
    Reader CheckpointId (CheckpointTuple S V) where
  read cursor := s.driverGetTuple digest { threadId := thread, checkpointId := cursor, ns }
  idOf t := t.checkpoint.checkpointId
  parentOf t := t.checkpoint.parentCheckpointId
  ids := s.checkpointIds thread
  known cursor t h := by
    obtain ⟨c, hc, rfl⟩ := Option.map_eq_some_iff.mp h
    exact mem_checkpointIds (mem_of_driverGetScoped hc)

def subgraphWrites (order : IterOrder WriteKey) (s : CheckpointStore S V) (thread : ThreadId)
    (ns : List String) : HashMap CheckpointId (List (PendingWrite V)) :=
  HashMap.collect ((s.writes.iter order).filterMap fun doc =>
    if doc.1.1 = thread ∧ subgraphKey digest doc.1.2.1 = subgraphKey digest ns then
      some (doc.1.2.2, doc.2)
    else none)

/-- The lineage walked over one read of the records and one of the ledgers. An id is passed once, so
taking its batch out of the map is reading it. -/
def driverStateHistory (order : IterOrder WriteKey) (s : CheckpointStore S V) (thread : ThreadId)
    (ns : List String) (limit : Option Nat) : List (CheckpointTuple S V) :=
  let records := s.subgraphRecords digest thread ns
  if records.isEmpty then []
  else
    let writes := s.subgraphWrites digest order thread ns
    let byId := HashMap.collect (records.map fun c => (c.checkpointId, c))
    let cursor := records.getLast?.map (·.checkpointId)
    (Reader.consume (·.parentCheckpointId) limit [] byId cursor).map fun c =>
      c.tuple (((writes.lookup c.checkpointId).filter (· ≠ [])).getD c.pendingWrites)

end CheckpointStore

end

end Tinyflows.Graph
