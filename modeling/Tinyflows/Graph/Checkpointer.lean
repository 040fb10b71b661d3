import Tinyflows.Graph.Types

/-!
# The in-memory checkpointer

Checkpoints are kept per thread in insertion order, and a ledger of task writes per checkpoint beside
them.
-/

namespace Tinyflows.Graph
open Lib

variable {S V : Type}

abbrev WriteKey := ThreadId × List String × CheckpointId

structure CheckpointConfig where
  threadId : ThreadId
  checkpointId : Option CheckpointId
  ns : List String
  deriving DecidableEq

structure CheckpointStore (S V : Type) where
  inner : HashMap ThreadId (List (Checkpoint S V)) := ∅
  writes : HashMap WriteKey (List (PendingWrite V)) := ∅

namespace CheckpointStore

variable (s : CheckpointStore S V)

def getThread (thread : ThreadId) : List (Checkpoint S V) :=
  (s.inner.lookup thread).getD []

def put (c : Checkpoint S V) : CheckpointStore S V :=
  { s with inner := s.inner.insert c.threadId (s.getThread c.threadId ++ [c]) }

/-- A repeated id resolves to the record written last. -/
def get (thread : ThreadId) (id : Option CheckpointId) : Option (Checkpoint S V) :=
  match id with
  | some id => (s.getThread thread).reverse.find? (·.checkpointId = id)
  | none => (s.getThread thread).getLast?

/-- Finds the id within the namespace first and then loads the record by that id. -/
def getScoped (thread : ThreadId) (id : Option CheckpointId) (ns : List String) :
    Option (Checkpoint S V) :=
  let target : Option (Checkpoint S V) := match id with
    | some id => (s.getThread thread).reverse.find? fun c => c.checkpointId = id ∧ c.ns = ns
    | none => (s.getThread thread).reverse.find? fun c => c.ns = ns
  match target with
  | some c => s.get thread (some c.checkpointId)
  | none => none

/-- A control-plane write replaces the stored one of its identity; a data write is kept once. -/
def mergeWrite (existing : List (PendingWrite V)) (write : PendingWrite V) :
    List (PendingWrite V) :=
  match existing.findIdx? (·.identity = write.identity) with
  | some i => if write.isControlPlane then existing.set i write else existing
  | none => existing ++ [write]

def mergeWrites (existing incoming : List (PendingWrite V)) : List (PendingWrite V) :=
  incoming.foldl mergeWrite existing

/-- The executor always names the checkpoint, so the refusal of an unnamed one is left out. -/
def putWrites (thread : ThreadId) (ns : List String) (id : CheckpointId)
    (writes : List (PendingWrite V)) : CheckpointStore S V :=
  if writes.isEmpty then s
  else
    let key := (thread, ns, id)
    { s with writes := s.writes.insert key (mergeWrites ((s.writes.lookup key).getD []) writes) }

def resolveWriteTarget (config : CheckpointConfig) : Option CheckpointId :=
  match config.checkpointId with
  | some id => some id
  | none => (s.getScoped config.threadId none config.ns).map (·.checkpointId)

def getWrites (config : CheckpointConfig) : List (PendingWrite V) :=
  match s.resolveWriteTarget config with
  | some id => (s.writes.lookup (config.threadId, config.ns, id)).getD []
  | none => []

end CheckpointStore

/-!
## Importing the writes of a checkpoint

Live runs and imports write to one document per checkpoint. The document marks the control-plane
writes that come from an import: an import may still change those, and a live run takes the mark away.
-/

variable {V : Type}

structure WritesBody (V : Type) where
  writes : List (PendingWrite V) := []
  importedControlWrites : Finset (TaskId × Int) := ∅
  deriving DecidableEq

def storedWrite (document : Option (WritesBody V)) (id : TaskId × Int) : Option (PendingWrite V) :=
  document.bind fun body => body.writes.find? (·.identity = id)

/-- Whether a write is accepted is judged by what was stored before the batch. -/
def putLiveWrites (current : Option (WritesBody V)) (writes : List (PendingWrite V)) :
    Option (WritesBody V) :=
  if writes.isEmpty then current
  else
    let body := current.getD {}
    let accepted (write : PendingWrite V) : Bool :=
      write.isControlPlane || !body.writes.any (·.identity = write.identity)
    some
      { writes := CheckpointStore.mergeWrites body.writes writes
        importedControlWrites := writes.foldl
          (fun imported write => if accepted write then imported.erase write.identity else imported)
          body.importedControlWrites }

/-- Of the control-plane writes of an identity the last one counts, of its data writes the first. -/
def groupWrite (grouped : List (PendingWrite V × Nat)) (write : PendingWrite V) :
    List (PendingWrite V × Nat) :=
  match grouped.findIdx? (·.1.identity = write.identity) with
  | some i => grouped.modify i fun (last, count) =>
      (if write.isControlPlane then write else last, count + 1)
  | none => grouped ++ [(write, 1)]

structure Importing (V : Type) where
  body : WritesBody V
  written : Nat := 0
  existing : Nat := 0

variable [DecidableEq V]

def importGroup (p : Importing V) (group : PendingWrite V × Nat) : Importing V :=
  let (write, count) := group
  match p.body.writes.findIdx? (·.identity = write.identity) with
  | some i =>
    if write.isControlPlane ∧ write.identity ∈ p.body.importedControlWrites then
      if p.body.writes[i]? = some write then { p with existing := p.existing + count }
      else
        { p with
          body := { p.body with writes := p.body.writes.set i write }
          written := p.written + count }
    else { p with existing := p.existing + count }
  | none =>
    if write.isControlPlane then
      { p with
        body :=
          { writes := p.body.writes ++ [write]
            importedControlWrites := insert write.identity p.body.importedControlWrites }
        written := p.written + count }
    else
      { body := { p.body with writes := p.body.writes ++ [write] }
        written := p.written + 1
        existing := p.existing + (count - 1) }

/-- The document afterwards, and how many writes were written and how many were there. A document to
which nothing was written is not stored. -/
def importWritesIfAbsent (current : Option (WritesBody V)) (incoming : List (PendingWrite V)) :
    Option (WritesBody V) × Nat × Nat :=
  if incoming.isEmpty then (current, 0, 0)
  else
    let p := (incoming.foldl groupWrite []).foldl importGroup { body := current.getD {} }
    (if 0 < p.written then some p.body else current, p.written, p.existing)

inductive WritesCall (V : Type) where
  | live (writes : List (PendingWrite V))
  | imports (incoming : List (PendingWrite V))

def WritesCall.serve (current : Option (WritesBody V)) : WritesCall V → Option (WritesBody V)
  | .live writes => putLiveWrites current writes
  | .imports incoming => (importWritesIfAbsent current incoming).1

def documentAfter (calls : List (WritesCall V)) : Option (WritesBody V) :=
  calls.foldl WritesCall.serve none

/-! ## The store after a write -/

variable {S V : Type} {s : CheckpointStore S V} {c : Checkpoint S V} {th : ThreadId}

theorem getThread_put (s : CheckpointStore S V) (c th) : (s.put c).getThread th =
      if th = c.threadId then s.getThread th ++ [c] else s.getThread th := by
  unfold CheckpointStore.put
  split_ifs with h
  · subst h
    rw [CheckpointStore.getThread, Finmap.lookup_insert]; rfl
  · rw [CheckpointStore.getThread, Finmap.lookup_insert_of_ne _ h]; rfl

theorem mem_getThread_put (s : CheckpointStore S V) (c) : c ∈ (s.put c).getThread c.threadId := by
  rw [getThread_put, if_pos rfl]
  exact List.mem_append_right _ List.mem_cons_self

@[simp] theorem getThread_putWrites (s : CheckpointStore S V) (th th' ns id wr) :
    (s.putWrites th ns id wr).getThread th' = s.getThread th' := by
  unfold CheckpointStore.putWrites
  split_ifs <;> rfl

theorem get_putWrites_put (h : c.threadId = th) (ns : List String) (id wr) :
    ((s.put c).putWrites th ns id wr).get th none = some c := by
  rw [CheckpointStore.get, getThread_putWrites, getThread_put, if_pos h.symm, List.getLast?_concat]

end Tinyflows.Graph
